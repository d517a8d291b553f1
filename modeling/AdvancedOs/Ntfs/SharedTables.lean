import AdvancedOs.Foundation.FamilySums

/-!
# The tables that all volumes share

The driver keeps one default upcase table and one decompression buffer for all volumes, each with a
count of its users, under `ntfs_lock`. A mount takes a reference to the default table for as long as
it runs, so that the table is there when the mount comes to compare it with the one of the volume. A
volume whose table is the same takes a reference of its own. Here any number of volumes are mounted
and unmounted, with their critical sections in any order, and a mount may fail wherever the source
lets it.

In every state that they reach, both counts are right, no volume points to a table that has been
freed, and no `BUG_ON` of the buffer has fired (`balanced_run`).
-/

namespace AdvancedOs.Ntfs.SharedTables

open Foundation.FamilySums

/-! ### Volumes and the state that they share -/

/-- How far a volume is with its mount or its unmount. -/
inductive Phase
  /-- There is no volume. -/
  | unmounted
  /-- The mount has its references, and its table has not been read. -/
  | loading
  /-- The table of the volume is in memory of its own. -/
  | read
  /-- The table of the volume could not be read. -/
  | readFailed
  /-- The volume has a table. -/
  | loaded
  /-- The mount has failed, and a table of its own is to be freed. -/
  | released
  /-- The mount has failed and still has its references. -/
  | failed
  | mounted
  /-- The volume has no references, and a table of its own is to be freed. -/
  | unmounting
deriving DecidableEq

/-- The part of `ntfs_volume` that concerns the shared tables; `upcase` is the address of a table or
`NULL`. -/
structure Volume where
  phase : Phase
  clusterSize : ℕ
  upcase : Option ℕ
deriving DecidableEq

/-- The global variables of the driver, the tables in memory by their address, the volumes, and
whether a `BUG_ON` has fired. -/
structure State (V : Type) where
  defaultUpcase : Option ℕ
  nrUpcaseUsers : ℤ
  nrCompressionUsers : ℤ
  compressionBuffer : Bool
  bug : Bool
  tables : ℕ → Option (List UInt16)
  volumes : V → Volume

/-- The driver has been loaded and nothing is mounted. -/
def initial (V : Type) : State V where
  defaultUpcase := none
  nrUpcaseUsers := 0
  nrCompressionUsers := 0
  compressionBuffer := false
  bug := false
  tables _ := none
  volumes _ := ⟨.unmounted, 0, none⟩

section

variable {V : Type} [DecidableEq V]

def State.setVolume (state : State V) (v : V) (volume : Volume) : State V :=
  { state with volumes := Function.update state.volumes v volume }

@[simp]
theorem State.setVolume_self (state : State V) (v : V) (volume : Volume) :
    (state.setVolume v volume).volumes v = volume := Function.update_self ..

theorem State.setVolume_of_ne (state : State V) {v w : V} (hne : w ≠ v) (volume : Volume) :
    (state.setVolume v volume).volumes w = state.volumes w := Function.update_of_ne hne ..

@[simp]
theorem State.setVolume_defaultUpcase (state : State V) (v : V) (volume : Volume) :
    (state.setVolume v volume).defaultUpcase = state.defaultUpcase := rfl

def State.goto (state : State V) (v : V) (phase : Phase) : State V :=
  state.setVolume v { state.volumes v with phase := phase }

def State.setUpcase (state : State V) (v : V) (upcase : Option ℕ) : State V :=
  state.setVolume v { state.volumes v with upcase := upcase }

def State.setTable (state : State V) (address : ℕ) (table : Option (List UInt16)) : State V :=
  { state with tables := Function.update state.tables address table }

/-- The state with a count of users that differs by `change`. -/
def State.addUpcaseUsers (state : State V) (change : ℤ) : State V :=
  { state with nrUpcaseUsers := state.nrUpcaseUsers + change }

/-! ### The buffer -/

/-- Embeds `allocate_compression_buffers`, with the result of `vmalloc`. -/
def State.allocateCompressionBuffers (state : State V) (vmalloc : Bool) : State V × Bool :=
  ({ state with bug := state.bug || state.compressionBuffer, compressionBuffer := vmalloc },
    vmalloc)

def State.freeCompressionBuffers (state : State V) : State V :=
  { state with bug := state.bug || !state.compressionBuffer, compressionBuffer := false }

/-- The first part of the critical section at the start of a mount. -/
def State.addCompressionUser (state : State V) (clusterSize : ℕ) (vmalloc : Bool) :
    State V × Bool :=
  if clusterSize ≤ 4096 then
    let counted := { state with nrCompressionUsers := state.nrCompressionUsers + 1 }
    if state.nrCompressionUsers = 0 then
      let (next, ok) := counted.allocateCompressionBuffers vmalloc
      if ok then (next, true)
      else ({ next with nrCompressionUsers := next.nrCompressionUsers - 1 }, false)
    else (counted, true)
  else (state, true)

/-- The last part of the critical sections at the end of an unmount and of a failed mount. -/
def State.dropCompressionUser (state : State V) (clusterSize : ℕ) : State V :=
  if clusterSize ≤ 4096 then
    let counted := { state with nrCompressionUsers := state.nrCompressionUsers - 1 }
    if counted.nrCompressionUsers = 0 then counted.freeCompressionBuffers else counted
  else state

/-! ### The default table -/

variable (defaultTable : List UInt16)

/-- Makes the default table unless there is one. `address` is what the allocation in
`generate_default_upcase` returns. -/
def State.generateDefaultUpcase (state : State V) (address : Option ℕ) : State V :=
  match state.defaultUpcase, address with
  | none, some a => { state.setTable a (some defaultTable) with defaultUpcase := some a }
  | _, _ => state

def State.freeUnused (state : State V) : State V :=
  match state.defaultUpcase with
  | some a =>
    if state.nrUpcaseUsers = 0 then { state.setTable a none with defaultUpcase := none } else state
  | none => state

def State.releaseUpcase (state : State V) (v : V) : State V :=
  if (state.volumes v).upcase = state.defaultUpcase then
    (state.addUpcaseUsers (-1)).setUpcase v none
  else state

def sameTable (table default : List UInt16) : Bool :=
  table.take default.length == default.take table.length

/-! ### The critical sections -/

/-- The critical section in `ntfs_fill_super` before `load_system_files`. -/
def State.setUp (state : State V) (v : V) (clusterSize : ℕ) (vmalloc : Bool) (address : Option ℕ) :
    State V :=
  let (next, ok) := state.addCompressionUser clusterSize vmalloc
  if ok then
    ((next.generateDefaultUpcase defaultTable address).addUpcaseUsers 1).setVolume v
      ⟨.loading, clusterSize, none⟩
  else next

/-- The critical section in `load_and_init_upcase` once the table has been read. -/
def State.compareUpcase (state : State V) (v : V) : State V :=
  match state.defaultUpcase, (state.volumes v).upcase with
  | some d, some a =>
    if sameTable ((state.tables a).getD []) ((state.tables d).getD []) then
      ((state.setTable a none).addUpcaseUsers 1).setVolume v
        { state.volumes v with phase := .loaded, upcase := some d }
    else state.goto v .loaded
  | _, _ => state.goto v .loaded

/-- The critical section in `load_and_init_upcase` if the table could not be read. -/
def State.useDefaultUpcase (state : State V) (v : V) : State V :=
  match state.defaultUpcase with
  | some d =>
    (state.addUpcaseUsers 1).setVolume v { state.volumes v with phase := .loaded, upcase := some d }
  | none => state.goto v .failed

/-- The critical section for a mount that fails with its table loaded, in `load_system_files` and,
for a root directory that cannot be allocated, in `ntfs_fill_super`. -/
def State.failLoaded (state : State V) (v : V) : State V :=
  (state.goto v .released).releaseUpcase v

def State.freeOwn (state : State V) (v : V) (next : Phase) : State V :=
  match (state.volumes v).upcase with
  | some a =>
    (state.setTable a none).setVolume v { state.volumes v with phase := next, upcase := none }
  | none => state.goto v next

def State.finish (state : State V) (v : V) : State V :=
  ((state.goto v .mounted).addUpcaseUsers (-1)).freeUnused

/-- The critical section at the end of a mount that fails. -/
def State.abort (state : State V) (v : V) : State V :=
  (((state.goto v .unmounted).addUpcaseUsers (-1)).freeUnused).dropCompressionUser
    (state.volumes v).clusterSize

def State.putSuper (state : State V) (v : V) : State V :=
  (((state.goto v .unmounting).releaseUpcase v).freeUnused).dropCompressionUser
    (state.volumes v).clusterSize

/-! ### Runs -/

/-- What a volume does next, with what it gets from elsewhere. -/
inductive Event (V : Type)
  | setUp (v : V) (clusterSize : ℕ) (vmalloc : Bool) (address : Option ℕ)
  /-- The mount fails before its table is read. -/
  | loadFails (v : V)
  /-- The table is read into memory that is allocated for it. -/
  | readUpcase (v : V) (address : ℕ) (table : List UInt16)
  | readFails (v : V)
  | compareUpcase (v : V)
  | useDefaultUpcase (v : V)
  | failLoaded (v : V)
  | freeOwn (v : V)
  | finish (v : V)
  | abort (v : V)
  | putSuper (v : V)

/-- What an event does. An event for which the volume is not in the right phase does nothing, and
neither does an allocation of memory that is in use. -/
def step (state : State V) : Event V → State V
  | .setUp v clusterSize vmalloc address =>
    if (state.volumes v).phase = .unmounted ∧ ∀ a ∈ address, state.tables a = none then
      state.setUp defaultTable v clusterSize vmalloc address
    else state
  | .loadFails v => if (state.volumes v).phase = .loading then state.goto v .failed else state
  | .readUpcase v address table =>
    if (state.volumes v).phase = .loading ∧ state.tables address = none then
      (state.setTable address (some table)).setVolume v
        { state.volumes v with phase := .read, upcase := some address }
    else state
  | .readFails v => if (state.volumes v).phase = .loading then state.goto v .readFailed else state
  | .compareUpcase v => if (state.volumes v).phase = .read then state.compareUpcase v else state
  | .useDefaultUpcase v =>
    if (state.volumes v).phase = .readFailed then state.useDefaultUpcase v else state
  | .failLoaded v => if (state.volumes v).phase = .loaded then state.failLoaded v else state
  | .freeOwn v =>
    if (state.volumes v).phase = .released then state.freeOwn v .failed
    else if (state.volumes v).phase = .unmounting then state.freeOwn v .unmounted
    else state
  | .finish v => if (state.volumes v).phase = .loaded then state.finish v else state
  | .abort v => if (state.volumes v).phase = .failed then state.abort v else state
  | .putSuper v => if (state.volumes v).phase = .mounted then state.putSuper v else state

def run (state : State V) (events : List (Event V)) : State V :=
  events.foldl (step defaultTable) state

end

/-! ### What is promised -/

/-- The mount is past its increment of the count of users and has not come to its decrement. -/
def Volume.inProgress (volume : Volume) : Bool :=
  match volume.phase with
  | .unmounted | .mounted | .unmounting => false
  | _ => true

def Volume.pointsTo (default : Option ℕ) (volume : Volume) : Bool :=
  default.isSome && volume.upcase == default

def Volume.compresses (volume : Volume) : Bool :=
  match volume.phase with
  | .unmounted | .unmounting => false
  | _ => decide (volume.clusterSize ≤ 4096)

/-- The counts of users are right, no volume points to a table that has been freed, and no `BUG_ON`
has fired. -/
structure Balanced {V : Type} [Fintype V] (state : State V) : Prop where
  upcaseUsers : state.nrUpcaseUsers = countWhere Volume.inProgress state.volumes +
    countWhere (Volume.pointsTo state.defaultUpcase) state.volumes
  notFreed : ∀ v a, (state.volumes v).upcase = some a → state.tables a ≠ none
  compressionUsers : state.nrCompressionUsers = countWhere Volume.compresses state.volumes
  noBug : state.bug = false

/-! ### The buffer lives as long as its users -/

theorem State.addCompressionUser_frame {V : Type} (state : State V) (clusterSize : ℕ)
    (vmalloc : Bool) : ∃ users buffer bug, (state.addCompressionUser clusterSize vmalloc).1 =
      { state with nrCompressionUsers := users, compressionBuffer := buffer, bug := bug } := by
  unfold State.addCompressionUser
  split_ifs
  · cases vmalloc <;> exact ⟨_, _, _, rfl⟩
  · exact ⟨_, _, _, rfl⟩
  · exact ⟨_, _, _, rfl⟩

theorem State.dropCompressionUser_frame {V : Type} (state : State V) (clusterSize : ℕ) :
    ∃ users buffer bug, state.dropCompressionUser clusterSize =
      { state with nrCompressionUsers := users, compressionBuffer := buffer, bug := bug } := by
  simp only [State.dropCompressionUser]
  split_ifs <;> exact ⟨_, _, _, rfl⟩

section

variable {V : Type} [Fintype V]

/-- The count of users of the buffer is right up to `k`, and the buffer is there if it is not
zero. -/
structure Buffers (state : State V) (k : ℤ) : Prop where
  users : state.nrCompressionUsers = countWhere Volume.compresses state.volumes + k
  buffer : state.compressionBuffer = true ↔ state.nrCompressionUsers ≠ 0
  noBug : state.bug = false

variable {state : State V} {k l : ℤ}

theorem Buffers.of_eq (h : Buffers state k) (hkl : k = l) : Buffers state l := hkl ▸ h

theorem Buffers.setVolume [DecidableEq V] (h : Buffers state k) (v : V) (volume : Volume) :
    Buffers (state.setVolume v volume)
      (k + (((state.volumes v).compresses).toInt - volume.compresses.toInt)) where
  users := by
    have husers := h.users
    have hcnt := countWhere_update Volume.compresses state.volumes v volume
    simp only [State.setVolume]
    omega
  buffer := h.buffer
  noBug := h.noBug

theorem Buffers.replace [DecidableEq V] (h : Buffers state k) {v : V} {volume : Volume}
    (hsame : volume.compresses = (state.volumes v).compresses) :
    Buffers (state.setVolume v volume) k := by
  have hnext := h.setVolume v volume
  rwa [hsame, sub_self, add_zero] at hnext

theorem Buffers.setTable (h : Buffers state k) (a : ℕ) (table : Option (List UInt16)) :
    Buffers (state.setTable a table) k := ⟨h.users, h.buffer, h.noBug⟩

theorem Buffers.addUpcaseUsers (h : Buffers state k) (change : ℤ) :
    Buffers (state.addUpcaseUsers change) k := ⟨h.users, h.buffer, h.noBug⟩

theorem Buffers.releaseUpcase [DecidableEq V] (h : Buffers state k) (v : V) :
    Buffers (state.releaseUpcase v) k := by
  unfold State.releaseUpcase
  split_ifs
  · exact (h.addUpcaseUsers (-1)).replace rfl
  · exact h

theorem Buffers.freeUnused (h : Buffers state k) : Buffers state.freeUnused k := by
  unfold State.freeUnused
  split
  · split_ifs
    · exact ⟨h.users, h.buffer, h.noBug⟩
    · exact h
  · exact h

omit [Fintype V] in
@[simp]
theorem State.generateDefaultUpcase_volumes (state : State V) (defaultTable : List UInt16)
    (address : Option ℕ) : (state.generateDefaultUpcase defaultTable address).volumes =
      state.volumes := by
  unfold State.generateDefaultUpcase
  split <;> rfl

theorem Buffers.generateDefaultUpcase (h : Buffers state k) (defaultTable : List UInt16)
    (address : Option ℕ) : Buffers (state.generateDefaultUpcase defaultTable address) k := by
  unfold State.generateDefaultUpcase
  split
  · exact ⟨h.users, h.buffer, h.noBug⟩
  · exact h

theorem Buffers.allocate (h : Buffers state k) (hzero : state.nrCompressionUsers = 0) :
    Buffers ({ state with nrCompressionUsers := 1 }.allocateCompressionBuffers true).1 (k + 1) ∧
      Buffers { (({ state with nrCompressionUsers := 1 }.allocateCompressionBuffers false).1) with
        nrCompressionUsers := 0 } k := by
  have husers := h.users
  have hemp : state.compressionBuffer = false := by simpa [hzero] using h.buffer
  refine ⟨⟨?_, by simp [State.allocateCompressionBuffers], ?_⟩, ⟨?_, ?_, ?_⟩⟩
  · simp only [State.allocateCompressionBuffers]
    omega
  · simp [State.allocateCompressionBuffers, h.noBug, hemp]
  · simp only [State.allocateCompressionBuffers]
    omega
  · simp [State.allocateCompressionBuffers]
  · simp [State.allocateCompressionBuffers, h.noBug, hemp]

theorem Buffers.addCompressionUser (h : Buffers state 0) (clusterSize : ℕ) (vmalloc : Bool) :
    Buffers (state.addCompressionUser clusterSize vmalloc).1
      (if (state.addCompressionUser clusterSize vmalloc).2 = true then
        (decide (clusterSize ≤ 4096)).toInt else 0) := by
  have husers := h.users
  unfold State.addCompressionUser
  by_cases hsize : clusterSize ≤ 4096
  · by_cases hzero : state.nrCompressionUsers = 0
    · obtain ⟨hok, hfail⟩ := h.allocate hzero
      cases vmalloc
      · simpa [hsize, hzero, State.allocateCompressionBuffers] using hfail
      · simpa [hsize, hzero, State.allocateCompressionBuffers] using hok
    · have hcnt := countWhere_nonneg Volume.compresses state.volumes
      rw [if_pos hsize, if_neg hzero]
      refine ⟨?_, ?_, h.noBug⟩
      · simp only [hsize, decide_true, ↓reduceIte, Bool.toInt_true]
        omega
      · have hnext : state.nrCompressionUsers + 1 ≠ 0 := by omega
        simpa [hnext, hzero] using h.buffer
  · simpa [hsize] using h

theorem Buffers.dropCompressionUser {clusterSize : ℕ}
    (h : Buffers state (decide (clusterSize ≤ 4096)).toInt) :
    Buffers (state.dropCompressionUser clusterSize) 0 := by
  unfold State.dropCompressionUser
  by_cases hsize : clusterSize ≤ 4096
  · have husers : state.nrCompressionUsers = countWhere Volume.compresses state.volumes + 1 := by
      simpa [hsize] using h.users
    have hcnt := countWhere_nonneg Volume.compresses state.volumes
    have hfull : state.compressionBuffer = true := h.buffer.mpr (by omega)
    rw [if_pos hsize]
    by_cases hlast : state.nrCompressionUsers - 1 = 0
    · rw [if_pos hlast]
      refine ⟨?_, by simp [State.freeCompressionBuffers, hlast],
        by simp [State.freeCompressionBuffers, h.noBug, hfull]⟩
      simp only [State.freeCompressionBuffers]
      omega
    · rw [if_neg hlast]
      refine ⟨?_, by simp [hfull, hlast], h.noBug⟩
      simp only
      omega
  · simpa [hsize] using h

end

/-! ### The default table lives as long as its users -/

/-- What a volume points to in each phase: a table of its own before it has been compared and when
it is to be freed, and some table once it is loaded. -/
def Volume.Fits (default : Option ℕ) (volume : Volume) : Prop :=
  match volume.phase with
  | .unmounted | .loading | .readFailed | .failed => volume.upcase = none
  | .read => volume.upcase ≠ none ∧ ∀ a ∈ volume.upcase, default ≠ some a
  | .loaded | .mounted => volume.upcase ≠ none
  | .released | .unmounting => ∀ a ∈ volume.upcase, default ≠ some a

theorem Volume.pointsTo_eq_false {default : Option ℕ} {volume : Volume}
    (h : ∀ a ∈ volume.upcase, default ≠ some a) : volume.pointsTo default = false := by
  cases hdefa : default with
  | none => rfl
  | some d =>
    have hne : volume.upcase ≠ some d := fun hd => h d hd hdefa
    simpa [Volume.pointsTo] using hne

theorem Volume.Fits.of_default {default next : Option ℕ} {volume : Volume}
    (h : volume.Fits default) (hnext : ∀ a ∈ volume.upcase, next ≠ some a) : volume.Fits next := by
  unfold Volume.Fits at h ⊢
  cases hph : volume.phase <;> simp only [hph] at h ⊢
  case read => exact ⟨h.1, hnext⟩
  case released => exact hnext
  case unmounting => exact hnext
  all_goals exact h

/-- What a volume in a known phase points to. -/
theorem Volume.Fits.at {default : Option ℕ} {volume : Volume} {phase : Phase}
    (h : volume.Fits default) (hph : volume.phase = phase) :
    { volume with phase := phase }.Fits default := hph ▸ h

section

variable {V : Type} [Fintype V]

/-- The count of users of the default table is right up to `k`, no table in use has been freed, and
only the default table is shared. -/
structure Tables (state : State V) (k : ℤ) : Prop where
  users : state.nrUpcaseUsers = countWhere Volume.inProgress state.volumes +
    countWhere (Volume.pointsTo state.defaultUpcase) state.volumes + k
  notFreed : ∀ v a, (state.volumes v).upcase = some a → state.tables a ≠ none
  default_notFreed : ∀ a, state.defaultUpcase = some a → state.tables a ≠ none
  shared : ∀ v w a, v ≠ w → (state.volumes v).upcase = some a →
    (state.volumes w).upcase = some a → state.defaultUpcase = some a
  fits : ∀ v, (state.volumes v).Fits state.defaultUpcase

variable {state : State V} {k l : ℤ}

theorem Tables.of_eq (h : Tables state k) (hkl : k = l) : Tables state l := hkl ▸ h

theorem Tables.addUpcaseUsers (h : Tables state k) (change : ℤ) :
    Tables (state.addUpcaseUsers change) (k + change) where
  users := by
    have husers := h.users
    simp only [State.addUpcaseUsers]
    omega
  notFreed := h.notFreed
  default_notFreed := h.default_notFreed
  shared := h.shared
  fits := h.fits

theorem Tables.withBuffers (h : Tables state k) (users : ℤ) (buffer bug : Bool) :
    Tables { state with nrCompressionUsers := users, compressionBuffer := buffer, bug := bug } k :=
  ⟨h.users, h.notFreed, h.default_notFreed, h.shared, h.fits⟩

theorem Tables.setVolume [DecidableEq V] (h : Tables state k) (v : V) (volume : Volume)
    (hfits : volume.Fits state.defaultUpcase)
    (hfreed : ∀ a, volume.upcase = some a → state.tables a ≠ none)
    (hshar : ∀ w a, w ≠ v → volume.upcase = some a → (state.volumes w).upcase = some a →
      state.defaultUpcase = some a) :
    Tables (state.setVolume v volume)
      (k + (((state.volumes v).inProgress).toInt - volume.inProgress.toInt) +
        (((state.volumes v).pointsTo state.defaultUpcase).toInt - (volume.pointsTo
        state.defaultUpcase).toInt)) where
  users := by
    have husers := h.users
    have hprog := countWhere_update Volume.inProgress state.volumes v volume
    have hpoin := countWhere_update (Volume.pointsTo state.defaultUpcase) state.volumes v volume
    simp only [State.setVolume]
    omega
  notFreed w a hw := by
    by_cases hwv : w = v
    · subst hwv
      rw [State.setVolume_self] at hw
      exact hfreed a hw
    · rw [State.setVolume_of_ne _ hwv] at hw
      exact h.notFreed w a hw
  default_notFreed := h.default_notFreed
  shared u w a huw hu hw := by
    by_cases huv : u = v
    · subst huv
      rw [State.setVolume_self] at hu
      rw [State.setVolume_of_ne _ (Ne.symm huw)] at hw
      exact hshar w a (Ne.symm huw) hu hw
    · rw [State.setVolume_of_ne _ huv] at hu
      by_cases hwv : w = v
      · subst hwv
        rw [State.setVolume_self] at hw
        exact hshar u a huv hw hu
      · rw [State.setVolume_of_ne _ hwv] at hw
        exact h.shared u w a huw hu hw
  fits w := by
    by_cases hwv : w = v
    · subst hwv
      rw [State.setVolume_self]
      exact hfits
    · rw [State.setVolume_of_ne _ hwv]
      exact h.fits w

theorem Tables.goto [DecidableEq V] (h : Tables state k) (v : V) (phase : Phase)
    (hfits : { state.volumes v with phase := phase }.Fits state.defaultUpcase) :
    Tables (state.goto v phase) (k + (((state.volumes v).inProgress).toInt -
      ({ state.volumes v with phase := phase }.inProgress).toInt)) := by
  have hnext := h.setVolume v _ hfits (fun a ha => h.notFreed v a ha)
    (fun w a hw ha hwa => h.shared w v a hw hwa ha)
  have hpoin : ({ state.volumes v with phase := phase }).pointsTo state.defaultUpcase =
      (state.volumes v).pointsTo state.defaultUpcase := rfl
  rwa [hpoin, sub_self, add_zero] at hnext

theorem Tables.allocate (h : Tables state k) (a : ℕ) (table : List UInt16) :
    Tables (state.setTable a (some table)) k where
  users := h.users
  notFreed v b hb := by
    by_cases hab : b = a
    · simp [State.setTable, hab]
    · simpa [State.setTable, hab] using h.notFreed v b hb
  default_notFreed b hb := by
    by_cases hab : b = a
    · simp [State.setTable, hab]
    · simpa [State.setTable, hab] using h.default_notFreed b hb
  shared := h.shared
  fits := h.fits

/-- Assumes: nothing points to the table. -/
theorem Tables.free (h : Tables state k) {a : ℕ} (hvolu : ∀ v, (state.volumes v).upcase ≠ some a)
    (hdefa : state.defaultUpcase ≠ some a) : Tables (state.setTable a none) k where
  users := h.users
  notFreed v b hb := by
    have hab : b ≠ a := by
      rintro rfl
      exact hvolu v hb
    simpa [State.setTable, hab] using h.notFreed v b hb
  default_notFreed b hb := by
    have hab : b ≠ a := by
      rintro rfl
      exact hdefa hb
    simpa [State.setTable, hab] using h.default_notFreed b hb
  shared := h.shared
  fits := h.fits

theorem Tables.freeUnused (h : Tables state 0) : Tables state.freeUnused 0 := by
  unfold State.freeUnused
  split
  case h_2 => exact h
  case h_1 d hd =>
    by_cases hzero : state.nrUpcaseUsers = 0
    case neg => rwa [if_neg hzero]
    rw [if_pos hzero]
    have husers := h.users
    have hprog := countWhere_nonneg Volume.inProgress state.volumes
    have hpoin := countWhere_nonneg (Volume.pointsTo state.defaultUpcase) state.volumes
    have hnobo : ∀ v, (state.volumes v).upcase ≠ some d := by
      intro v hv
      have hcnt : countWhere (Volume.pointsTo state.defaultUpcase) state.volumes = 0 := by omega
      have hpoint := countWhere_eq_zero.mp hcnt v
      simp [Volume.pointsTo, hd, hv] at hpoint
    refine ⟨?_, ?_, by simp, ?_, ?_⟩
    · have hcnt : countWhere (Volume.pointsTo none) state.volumes = 0 :=
        countWhere_eq_zero.mpr fun v => rfl
      simp only [State.setTable]
      omega
    · intro v a ha
      have hne : a ≠ d := by
        rintro rfl
        exact hnobo v ha
      simpa [State.setTable, hne] using h.notFreed v a ha
    · intro v w a hvw hv hw
      have hda := h.shared v w a hvw hv hw
      rw [hd] at hda
      obtain rfl := Option.some.inj hda
      exact absurd hv (hnobo v)
    · intro v
      exact (h.fits v).of_default (by simp)

theorem Tables.generateDefaultUpcase (h : Tables state k) (defaultTable : List UInt16)
    {address : Option ℕ} (hfresh : ∀ a ∈ address, state.tables a = none) :
    Tables (state.generateDefaultUpcase defaultTable address) k := by
  unfold State.generateDefaultUpcase
  split
  case h_2 => exact h
  case h_1 d hd =>
    have hnobo : ∀ v, (state.volumes v).upcase ≠ some d := fun v hv =>
      h.notFreed v d hv (hfresh d rfl)
    have hstor := h.allocate d defaultTable
    refine ⟨?_, hstor.notFreed, ?_, ?_, ?_⟩
    · have husers := h.users
      have hcnt : countWhere (Volume.pointsTo (some d)) state.volumes =
          countWhere (Volume.pointsTo state.defaultUpcase) state.volumes := by
        refine countWhere_congr fun v => ?_
        simp [Volume.pointsTo, hd, hnobo v]
      simp only [State.setTable]
      omega
    · rintro a ⟨⟩
      simp [State.setTable]
    · intro v w a hvw hv hw
      have hnone := h.shared v w a hvw hv hw
      simp [hd] at hnone
    · intro v
      refine (h.fits v).of_default ?_
      rintro a ha ⟨⟩
      exact hnobo v ha

theorem Tables.release [DecidableEq V] (h : Tables state k) {v : V} {phase : Phase}
    (hsome : (state.volumes v).upcase ≠ none) (hph : phase = .released ∨ phase = .unmounting) :
    Tables ((state.goto v phase).releaseUpcase v) (k + (((state.volumes v).inProgress).toInt -
      ({ state.volumes v with phase := phase }.inProgress).toInt)) := by
  by_cases hdefa : (state.volumes v).upcase = state.defaultUpcase
  · have hstate : (state.goto v phase).releaseUpcase v = (state.addUpcaseUsers (-1)).setVolume v
          { state.volumes v with phase := phase, upcase := none } := by
      unfold State.releaseUpcase
      rw [if_pos (by simpa [State.goto] using hdefa)]
      simp [State.goto, State.setUpcase, State.setVolume, State.addUpcaseUsers]
    have hfits : { state.volumes v with phase := phase, upcase := none }.Fits
        state.defaultUpcase := by
      rcases hph with rfl | rfl <;> simp [Volume.Fits]
    have hnext := (h.addUpcaseUsers (-1)).setVolume v _ hfits (by simp) (by simp)
    have hold : (state.volumes v).pointsTo state.defaultUpcase = true := by
      rw [hdefa] at hsome
      simp [Volume.pointsTo, hdefa, Option.isSome_iff_ne_none, hsome]
    have hnew : { state.volumes v with phase := phase, upcase := none }.pointsTo
        state.defaultUpcase = false := Volume.pointsTo_eq_false (by simp)
    have hprog : { state.volumes v with phase := phase, upcase := none }.inProgress =
        { state.volumes v with phase := phase }.inProgress := rfl
    rw [hstate]
    refine hnext.of_eq ?_
    simp only [State.addUpcaseUsers, hold, hnew, hprog, Bool.toInt_true, Bool.toInt_false]
    omega
  · have hstate : (state.goto v phase).releaseUpcase v = state.goto v phase := by
      unfold State.releaseUpcase
      rw [if_neg (by simpa [State.goto] using hdefa)]
    have hfits : { state.volumes v with phase := phase }.Fits state.defaultUpcase := by
      have hown : ∀ a ∈ (state.volumes v).upcase, state.defaultUpcase ≠ some a := by
        intro a ha hda
        exact hdefa (ha.trans hda.symm)
      rcases hph with rfl | rfl <;> simpa [Volume.Fits] using hown
    rw [hstate]
    exact h.goto v phase hfits

end

/-! ### Every event keeps the counts right -/

section

variable {V : Type} [Fintype V] [DecidableEq V] {state : State V} {v : V}

structure Sound (state : State V) : Prop where
  buffers : Buffers state 0
  tables : Tables state 0

def SameCounts (old phase : Phase) : Prop :=
  ∀ clusterSize upcase upcase', (⟨phase, clusterSize, upcase⟩ : Volume).compresses =
      (⟨old, clusterSize, upcase'⟩ : Volume).compresses ∧
    (⟨phase, clusterSize, upcase⟩ : Volume).inProgress =
      (⟨old, clusterSize, upcase'⟩ : Volume).inProgress

variable {old phase : Phase}

omit [Fintype V] [DecidableEq V] in
theorem SameCounts.counts (hsame : SameCounts old phase) (hph : (state.volumes v).phase = old)
    (upcase : Option ℕ) : { state.volumes v with phase := phase, upcase := upcase }.compresses =
        (state.volumes v).compresses ∧
      { state.volumes v with phase := phase, upcase := upcase }.inProgress =
          (state.volumes v).inProgress := by
  subst hph
  exact hsame _ upcase _

theorem Sound.goto (h : Sound state) (hph : (state.volumes v).phase = old)
    (hsame : SameCounts old phase)
    (hfits : { state.volumes v with phase := phase }.Fits state.defaultUpcase) :
    Sound (state.goto v phase) := by
  obtain ⟨hcomp, hprog⟩ := hsame.counts hph (state.volumes v).upcase
  refine ⟨h.buffers.replace hcomp, ?_⟩
  have htabl := h.tables.goto v phase hfits
  rwa [hprog, sub_self, add_zero] at htabl

theorem Sound.setUp (h : Sound state) (hph : (state.volumes v).phase = .unmounted)
    (defaultTable : List UInt16) (clusterSize : ℕ) (vmalloc : Bool) {address : Option ℕ}
    (hfresh : ∀ a ∈ address, state.tables a = none) :
    Sound (state.setUp defaultTable v clusterSize vmalloc address) := by
  have hbuff := h.buffers.addCompressionUser clusterSize vmalloc
  obtain ⟨users, buffer, bug, hfrm⟩ := state.addCompressionUser_frame clusterSize vmalloc
  unfold State.setUp
  rcases hadd : state.addCompressionUser clusterSize vmalloc with ⟨next, ok⟩
  rw [hadd] at hbuff hfrm
  obtain rfl := hfrm
  have htabl := h.tables.withBuffers users buffer bug
  cases ok
  case false => exact ⟨hbuff, htabl⟩
  case true =>
    have hold : (state.volumes v).upcase = none := (h.tables.fits v).at hph
    constructor
    · refine (((hbuff.generateDefaultUpcase defaultTable address).addUpcaseUsers 1).setVolume v
        ⟨.loading, clusterSize, none⟩).of_eq ?_
      simp [State.addUpcaseUsers, Volume.compresses, hph]
    · refine (((htabl.generateDefaultUpcase defaultTable hfresh).addUpcaseUsers 1).setVolume v
        _ ?_ (by simp) (by simp)).of_eq ?_
      · simp [Volume.Fits]
      · simp [State.addUpcaseUsers, Volume.inProgress, Volume.pointsTo, hph, hold]

theorem Sound.compareUpcase (h : Sound state) (hph : (state.volumes v).phase = .read) :
    Sound (state.compareUpcase v) := by
  obtain ⟨hsome, hown⟩ := (h.tables.fits v).at hph
  have hsame : SameCounts .read .loaded := fun _ _ _ => ⟨rfl, rfl⟩
  have hkeep := h.goto hph hsame hsome
  unfold State.compareUpcase
  split
  case h_2 => exact hkeep
  case h_1 d a hd ha =>
    split_ifs
    case neg => exact hkeep
    have hne : d ≠ a := by
      rintro rfl
      exact hown d ha hd
    constructor
    · exact ((h.buffers.setTable a none).addUpcaseUsers 1).replace (hsame.counts hph _).1
    · -- The volume turns to the default table first; then nothing points to its own.
      have hturn := (h.tables.addUpcaseUsers 1).setVolume v
        { state.volumes v with phase := .loaded, upcase := some d }
        (by simp [Volume.Fits])
        (fun b hb => h.tables.default_notFreed b (hd.trans hb)) (fun w b _ hb _ => hd.trans hb)
      refine (hturn.free (fun w => ?_) ?_).of_eq ?_
      · by_cases hw : w = v
        · rw [hw]
          simpa using hne
        · rw [State.setVolume_of_ne _ hw]
          exact fun hwa => hown a ha (h.tables.shared w v a hw hwa ha)
      · exact hown a ha
      · have hold : (state.volumes v).pointsTo state.defaultUpcase = false :=
          Volume.pointsTo_eq_false hown
        have hnew : { state.volumes v with phase := .loaded, upcase := some d }.pointsTo
            state.defaultUpcase = true := by simp [Volume.pointsTo, hd]
        simp [State.addUpcaseUsers, Volume.inProgress, hph, hold, hnew]

theorem Sound.useDefaultUpcase (h : Sound state) (hph : (state.volumes v).phase = .readFailed) :
    Sound (state.useDefaultUpcase v) := by
  have hnone : (state.volumes v).upcase = none := (h.tables.fits v).at hph
  unfold State.useDefaultUpcase
  split
  case h_1 d hd =>
    constructor
    · have hsame : SameCounts .readFailed .loaded := fun _ _ _ => ⟨rfl, rfl⟩
      exact (h.buffers.addUpcaseUsers 1).replace (hsame.counts hph _).1
    · refine ((h.tables.addUpcaseUsers 1).setVolume v _ (by simp [Volume.Fits])
        (fun b hb => h.tables.default_notFreed b (hd.trans hb)) (fun w b _ hb _ =>
          hd.trans hb)).of_eq ?_
      simp [State.addUpcaseUsers, Volume.inProgress, Volume.pointsTo, hph, hd, hnone]
  case h_2 hd => exact h.goto hph (fun _ _ _ => ⟨rfl, rfl⟩) hnone

theorem Sound.failLoaded (h : Sound state) (hph : (state.volumes v).phase = .loaded) :
    Sound (state.failLoaded v) := by
  have hsome : (state.volumes v).upcase ≠ none := (h.tables.fits v).at hph
  constructor
  · have hsame : SameCounts .loaded .released := fun _ _ _ => ⟨rfl, rfl⟩
    exact Buffers.releaseUpcase (h.buffers.replace (hsame.counts hph _).1) v
  · refine (h.tables.release hsome (.inl rfl)).of_eq ?_
    simp [Volume.inProgress, hph]

theorem Sound.freeOwn (h : Sound state) (hph : (state.volumes v).phase = old)
    (hsame : SameCounts old phase)
    (hown : ∀ a ∈ (state.volumes v).upcase, state.defaultUpcase ≠ some a)
    (hnext : ∀ clusterSize, (⟨phase, clusterSize, none⟩ : Volume).Fits state.defaultUpcase) :
    Sound (state.freeOwn v phase) := by
  unfold State.freeOwn
  split
  case h_2 hnone =>
    refine h.goto hph hsame ?_
    change Volume.Fits _ ⟨phase, (state.volumes v).clusterSize, (state.volumes v).upcase⟩
    rw [hnone]
    exact hnext _
  case h_1 a ha =>
    obtain ⟨hcomp, hprog⟩ := hsame.counts hph none
    constructor
    · exact (h.buffers.setTable a none).replace hcomp
    · have hemp := h.tables.setVolume v
        { state.volumes v with phase := phase, upcase := none } (hnext _) (by simp) (by simp)
      refine (hemp.free (fun w => ?_) (hown a ha)).of_eq ?_
      · by_cases hw : w = v
        · rw [hw]
          simp
        · rw [State.setVolume_of_ne _ hw]
          exact fun hwa => hown a ha (h.tables.shared w v a hw hwa ha)
      · have hpoin : { state.volumes v with phase := phase, upcase := none }.pointsTo
            state.defaultUpcase = false := Volume.pointsTo_eq_false (by simp)
        rw [Volume.pointsTo_eq_false hown, hpoin, hprog]
        simp

theorem Sound.finish (h : Sound state) (hph : (state.volumes v).phase = .loaded) :
    Sound (state.finish v) := by
  have hsome : (state.volumes v).upcase ≠ none := (h.tables.fits v).at hph
  constructor
  · refine ((Buffers.replace h.buffers ?_).addUpcaseUsers (-1)).freeUnused
    simp only [Volume.compresses, hph]
  · refine (((h.tables.goto v .mounted ?_).addUpcaseUsers (-1)).of_eq ?_).freeUnused
    · simpa [Volume.Fits] using hsome
    · simp [Volume.inProgress, hph]

theorem Sound.abort (h : Sound state) (hph : (state.volumes v).phase = .failed) :
    Sound (state.abort v) := by
  have hnone : (state.volumes v).upcase = none := (h.tables.fits v).at hph
  constructor
  · refine Buffers.dropCompressionUser
      (((Buffers.setVolume h.buffers v _).addUpcaseUsers (-1)).freeUnused.of_eq ?_)
    simp [Volume.compresses, hph]
  · obtain ⟨users, buffer, bug, hfrm⟩ := State.dropCompressionUser_frame
      (((state.goto v .unmounted).addUpcaseUsers (-1)).freeUnused) (state.volumes v).clusterSize
    rw [State.abort, hfrm]
    refine Tables.withBuffers ?_ users buffer bug
    refine (((h.tables.goto v .unmounted ?_).addUpcaseUsers (-1)).of_eq ?_).freeUnused
    · simpa [Volume.Fits] using hnone
    · simp [Volume.inProgress, hph]

theorem Sound.putSuper (h : Sound state) (hph : (state.volumes v).phase = .mounted) :
    Sound (state.putSuper v) := by
  have hsome : (state.volumes v).upcase ≠ none := (h.tables.fits v).at hph
  constructor
  · refine Buffers.dropCompressionUser ((Buffers.releaseUpcase
      (Buffers.setVolume h.buffers v _) v).freeUnused.of_eq ?_)
    simp [Volume.compresses, hph]
  · obtain ⟨users, buffer, bug, hfrm⟩ := State.dropCompressionUser_frame
      (((state.goto v .unmounting).releaseUpcase v).freeUnused) (state.volumes v).clusterSize
    rw [State.putSuper, hfrm]
    refine Tables.withBuffers ?_ users buffer bug
    refine ((h.tables.release hsome (.inr rfl)).of_eq ?_).freeUnused
    simp [Volume.inProgress, hph]

theorem Sound.readUpcase (h : Sound state) (hph : (state.volumes v).phase = .loading) {a : ℕ}
    (hfresh : state.tables a = none) (table : List UInt16) :
    Sound ((state.setTable a (some table)).setVolume v
      { state.volumes v with phase := .read, upcase := some a }) := by
  have hnone : (state.volumes v).upcase = none := (h.tables.fits v).at hph
  have hdefa : state.defaultUpcase ≠ some a := fun hd => h.tables.default_notFreed a hd hfresh
  constructor
  · have hsame : SameCounts .loading .read := fun _ _ _ => ⟨rfl, rfl⟩
    exact (h.buffers.setTable a (some table)).replace (hsame.counts hph _).1
  · refine ((h.tables.allocate a table).setVolume v _ ?_ ?_ ?_).of_eq ?_
    · simpa [Volume.Fits, State.setTable] using hdefa
    · rintro b ⟨⟩
      simp [State.setTable]
    · rintro w b - ⟨⟩ hw
      exact absurd hfresh (h.tables.notFreed w _ hw)
    · have hold : (state.volumes v).pointsTo state.defaultUpcase = false :=
        Volume.pointsTo_eq_false (by simp [hnone])
      have hnew : { state.volumes v with phase := .read, upcase := some a }.pointsTo
          state.defaultUpcase = false := Volume.pointsTo_eq_false (by simpa using hdefa)
      simp [State.setTable, Volume.inProgress, hph, hold, hnew]

omit [DecidableEq V] in
theorem sound_ite {p : Prop} [Decidable p] {next : State V} (h : Sound state)
    (hnext : p → Sound next) : Sound (if p then next else state) := by
  split_ifs with hp
  · exact hnext hp
  · exact h

theorem sound_step (defaultTable : List UInt16) (h : Sound state) (event : Event V) :
    Sound (step defaultTable state event) := by
  cases event with
  | setUp v clusterSize vmalloc address =>
    exact sound_ite h fun hguard => h.setUp hguard.1 defaultTable clusterSize vmalloc hguard.2
  | loadFails v =>
    refine sound_ite h fun hph => ?_
    have hnone : (state.volumes v).upcase = none := (h.tables.fits v).at hph
    exact h.goto hph (fun _ _ _ => ⟨rfl, rfl⟩) hnone
  | readUpcase v address table =>
    exact sound_ite h fun hguard => h.readUpcase hguard.1 hguard.2 table
  | readFails v =>
    refine sound_ite h fun hph => ?_
    have hnone : (state.volumes v).upcase = none := (h.tables.fits v).at hph
    exact h.goto hph (fun _ _ _ => ⟨rfl, rfl⟩) hnone
  | compareUpcase v => exact sound_ite h h.compareUpcase
  | useDefaultUpcase v => exact sound_ite h h.useDefaultUpcase
  | failLoaded v => exact sound_ite h h.failLoaded
  | freeOwn v =>
    rw [step]
    split_ifs with hrele hunmo
    · refine h.freeOwn hrele (fun _ _ _ => ⟨rfl, rfl⟩) ?_ fun _ => rfl
      exact (h.tables.fits v).at hrele
    · refine h.freeOwn hunmo (fun _ _ _ => ⟨rfl, rfl⟩) ?_ fun _ => rfl
      exact (h.tables.fits v).at hunmo
    · exact h
  | finish v => exact sound_ite h h.finish
  | abort v => exact sound_ite h h.abort
  | putSuper v => exact sound_ite h h.putSuper

omit [DecidableEq V] in
theorem sound_initial : Sound (initial V) := by
  have hcomp : countWhere Volume.compresses (initial V).volumes = 0 :=
    countWhere_eq_zero.mpr fun v => rfl
  have hprog : countWhere Volume.inProgress (initial V).volumes = 0 :=
    countWhere_eq_zero.mpr fun v => rfl
  have hpoin : countWhere (Volume.pointsTo (initial V).defaultUpcase) (initial V).volumes = 0 :=
    countWhere_eq_zero.mpr fun v => rfl
  constructor
  · exact ⟨by rw [hcomp]; rfl, by simp [initial], rfl⟩
  · exact ⟨by rw [hprog, hpoin]; rfl, by simp [initial], by simp [initial], by simp [initial],
      fun v => rfl⟩

theorem sound_run (defaultTable : List UInt16) (h : Sound state) (events : List (Event V)) :
    Sound (run defaultTable state events) := by
  induction events generalizing state with
  | nil => exact h
  | cons event events ih => exact ih (sound_step defaultTable h event)

/-- In every state that volumes reach by mounts and unmounts, the counts of users are right, no
volume points to a table that has been freed, and no `BUG_ON` has fired. -/
theorem balanced_run (defaultTable : List UInt16) (events : List (Event V)) :
    Balanced (run defaultTable (initial V) events) := by
  obtain ⟨hbuffers, htables⟩ := sound_run defaultTable (sound_initial (V := V)) events
  refine ⟨?_, htables.notFreed, ?_, hbuffers.noBug⟩
  · rw [htables.users, add_zero]
  · rw [hbuffers.users, add_zero]

/-- In every state that volumes reach by mounts and unmounts, the buffer is there exactly while a
volume may have compressed files. -/
theorem compressionBuffer_run (defaultTable : List UInt16) (events : List (Event V)) :
    (run defaultTable (initial V) events).compressionBuffer = true ↔
      ∃ v, ((run defaultTable (initial V) events).volumes v).compresses = true := by
  have hbuffers := (sound_run defaultTable sound_initial events).buffers
  rw [hbuffers.buffer, hbuffers.users, add_zero, ne_eq, countWhere_eq_zero]
  simp

end

-- Two volumes with the default table: the one that is unmounted first leaves it to the other.
example : (run [65, 66] (initial Bool)
    [.setUp true 4096 true (some 7), .setUp false 512 true none, .readUpcase true 8 [65, 66],
      .compareUpcase true, .readFails false, .useDefaultUpcase false, .finish true, .finish false,
      .putSuper true]).nrUpcaseUsers = 1 := by decide

end AdvancedOs.Ntfs.SharedTables
