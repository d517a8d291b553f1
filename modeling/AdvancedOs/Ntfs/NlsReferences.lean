import AdvancedOs.Foundation.FamilySums
import AdvancedOs.Ntfs.MountOptions

/-!
# References to tables of character sets

Volumes are mounted, remounted and unmounted in any order. A mounted volume holds one reference to
the table of its character set, and nobody else should hold any.

A mount that fails after its options have been parsed drops the reference only if it is the root
directory that cannot be made. The parser drops none when it fails, and neither does it when a
volume is mounted again with a character set. So the references are balanced after each operation if
and only if no mount and no remount is of that kind (`alwaysBalanced_iff`). A device without NTFS on
it is enough to lose one (`not_alwaysBalanced_noBootSector`).
-/

namespace AdvancedOs.Ntfs.NlsReferences

open Foundation.FamilySums MountOptions Option

/-! ### Operations -/

/-- The steps of `ntfs_fill_super` that can fail, other than the options, in their order. The
options come second. -/
inductive MountStep
  | allocateVolume
  | sectorSize
  | minBlockSize
  | deviceSize
  | readBootSector
  | parseBootSector
  | setBlockSize
  | newInode
  | readInodeMount
  | compressionBuffers
  | loadSystemFiles
  | makeRoot
deriving DecidableEq

/-- The references in the system, and the volumes that are mounted. -/
structure State (V Table : Type) where
  references : ℤ
  volumes : V → Option (Volume Table)

def initial (V Table : Type) : State V Table := ⟨0, fun _ => none⟩

/-- A mount, with the step that fails, if any, and the version of the volume; a remount, with
whether it is refused before its options are read; and an unmount. Each has its own kernel: what can
be loaded may change in between. -/
inductive Operation (V Table : Type)
  | mount (v : V) (kernel : Kernel Table) (opt : Option String) (fails : Option MountStep)
      (majorVer : ℕ)
  | remount (v : V) (kernel : Kernel Table) (opt : Option String) (readOnly : Bool)
  | unmount (v : V)

section

variable {V Table : Type} [DecidableEq V] [DecidableEq Table]

/-- Embeds `unload_nls` for a table or `NULL`. -/
def unloadNls (references : ℤ) (nlsMap : Option Table) : ℤ := references - held nlsMap

/-- `ntfs_fill_super` behind the call of `parse_options`. -/
def State.mountParsed (state : State V Table) (v : V) (parsed : Parsed Table)
    (fails : Option MountStep) (majorVer : ℕ) : State V Table :=
  match parsed.refusal, fails with
  | some _, _ => { state with references := parsed.references }
  | none, none =>
    { references := parsed.references
      volumes :=
        Function.update state.volumes v (some { parsed.volume with majorVer := majorVer }) }
  | none, some .makeRoot =>
    { state with references := unloadNls parsed.references parsed.volume.nlsMap }
  | none, some _ => { state with references := parsed.references }

def State.fillSuper (state : State V Table) (v : V) (kernel : Kernel Table) (opt : Option String)
    (fails : Option MountStep) (majorVer : ℕ) : State V Table :=
  if fails = some .allocateVolume then state
  else state.mountParsed v (parseOptions kernel .new state.references opt) fails majorVer

def State.remount (state : State V Table) (v : V) (volume : Volume Table) (kernel : Kernel Table)
    (opt : Option String) (readOnly : Bool) : State V Table :=
  if readOnly then state
  else
    let parsed := parseOptions kernel volume state.references opt
    { references := parsed.references
      volumes := Function.update state.volumes v (some parsed.volume) }

def State.putSuper (state : State V Table) (v : V) (volume : Volume Table) : State V Table where
  references := unloadNls state.references volume.nlsMap
  volumes := Function.update state.volumes v none

/-- What an operation does. Only what is not mounted is mounted, and only what is mounted is
remounted or unmounted. -/
def step (state : State V Table) : Operation V Table → State V Table
  | .mount v kernel opt fails majorVer =>
    match state.volumes v with
    | none => state.fillSuper v kernel opt fails majorVer
    | some _ => state
  | .remount v kernel opt readOnly =>
    match state.volumes v with
    | none => state
    | some volume => state.remount v volume kernel opt readOnly
  | .unmount v =>
    match state.volumes v with
    | none => state
    | some volume => state.putSuper v volume

def run (state : State V Table) (operations : List (Operation V Table)) : State V Table :=
  operations.foldl step state

end

/-! ### What is promised, and when it holds -/

section

variable {V Table : Type}

def Balanced [Fintype V] (state : State V Table) : Prop :=
  state.references = countWhere Option.isSome state.volumes

def AlwaysBalanced [Fintype V] [DecidableEq V] [DecidableEq Table]
    (operations : List (Operation V Table)) : Prop :=
  ∀ front rest, operations = front ++ rest → Balanced (run (initial V Table) front)

/-- A mount that comes to its options has options that are accepted and fails at most for its root
directory, or has options that load no table. A remount that comes to its options has none that load
a table. -/
def Careful (state : State V Table) : Operation V Table → Prop
  | .mount v kernel opt fails _ =>
    state.volumes v = none → fails ≠ some .allocateVolume →
      (Accepted kernel (tokens opt) ∧ (fails = none ∨ fails = some .makeRoot)) ∨
      (¬ Accepted kernel (tokens opt) ∧ ¬ Loads kernel (tokens opt))
  | .remount v kernel opt readOnly =>
    state.volumes v ≠ none → readOnly = false → ¬ Loads kernel (tokens opt)
  | .unmount _ => True

end

/-! ### What one operation leaves behind -/

section

variable {V Table : Type} [Fintype V] [DecidableEq V] [DecidableEq Table]
variable {state : State V Table} {v : V}

def excess (state : State V Table) : ℤ :=
  state.references - countWhere Option.isSome state.volumes

omit [DecidableEq V] [DecidableEq Table] in
theorem balanced_iff_excess : Balanced state ↔ excess state = 0 :=
  Int.sub_eq_zero.symm

def HasTables (state : State V Table) : Prop :=
  ∀ v volume, state.volumes v = some volume → volume.nlsMap.isSome = true

omit [Fintype V] [DecidableEq Table] in
theorem HasTables.update (h : HasTables state) {next : Option (Volume Table)}
    (hnext : ∀ volume, next = some volume → volume.nlsMap.isSome = true) (references : ℤ) :
    HasTables ⟨references, Function.update state.volumes v next⟩ := by
  intro w volume hw
  by_cases hwv : w = v
  · subst hwv
    rw [show (⟨references, Function.update state.volumes w next⟩ : State V Table).volumes w =
        next from
      Function.update_self ..] at hw
    exact hnext volume hw
  · refine h w volume ?_
    rwa [show (⟨references, Function.update state.volumes v next⟩ : State V Table).volumes w =
      state.volumes w from Function.update_of_ne hwv ..] at hw

omit [DecidableEq Table] in
theorem excess_update (state : State V Table) (v : V) (next : Option (Volume Table))
    (references : ℤ) : excess ⟨references, Function.update state.volumes v next⟩ =
      excess state + (references - state.references) +
        ((state.volumes v).isSome.toInt - next.isSome.toInt) := by
  have hcnt := countWhere_update Option.isSome state.volumes v next
  simp only [excess]
  omega

/-- What an operation may do to the excess: leave it, or add one if it is not careful. -/
structure Leaves (state next : State V Table) (careful : Prop) : Prop where
  hasTables : HasTables next
  excess_of_careful : careful → excess next = excess state
  excess_of_careless : ¬ careful → excess next = excess state + 1

omit [DecidableEq V] [DecidableEq Table] in
/-- Assumes: the operation is careful, and the excess is as before. -/
theorem Leaves.balanced {next : State V Table} {careful : Prop} (htabl : HasTables next)
    (hcareful : careful) (hexce : excess next = excess state) : Leaves state next careful :=
  ⟨htabl, fun _ => hexce, fun hcare => absurd hcareful hcare⟩

omit [DecidableEq V] [DecidableEq Table] in
/-- Assumes: only the references change, by one if the operation is not careful. -/
theorem Leaves.references {references : ℤ} {careful : Prop} (h : HasTables state)
    (hcareful : careful → references = state.references)
    (hcare : ¬ careful → references = state.references + 1) :
    Leaves state { state with references := references } careful := by
  refine ⟨h, fun hyes => ?_, fun hno => ?_⟩
  · rw [hcareful hyes]
  · have hnext := hcare hno
    simp only [excess]
    omega

omit [DecidableEq Table] in
theorem leaves_mountParsed (h : HasTables state) (hv : state.volumes v = none)
    {parsed : Parsed Table} (hrefu : parsed.refusal = none)
    (hmap : parsed.volume.nlsMap.isSome = true) (hrefs : parsed.references = state.references + 1)
    (fails : Option MountStep) (majorVer : ℕ) :
    Leaves state (state.mountParsed v parsed fails majorVer)
      (fails = none ∨ fails = some .makeRoot) := by
  unfold State.mountParsed
  rw [hrefu]
  rcases fails with - | step
  · refine Leaves.balanced (h.update ?_ _) (.inl rfl) ?_
    · rintro volume ⟨⟩
      exact hmap
    · rw [excess_update, hrefs, hv]
      simp only [isSome_none, isSome_some, Bool.toInt_false, Bool.toInt_true]
      omega
  · by_cases hroot : step = .makeRoot
    · subst hroot
      refine Leaves.references h (fun _ => ?_) (fun hno => absurd (.inr rfl) hno)
      rw [unloadNls, hrefs, held_of_isSome hmap]
      omega
    · have hstays : Leaves state { state with references := parsed.references }
          (some step = none ∨ some step = some MountStep.makeRoot) := by
        refine Leaves.references h (fun hyes => ?_) (fun _ => hrefs)
        exact absurd hyes (by simp [hroot])
      cases step <;> first | exact hstays | exact absurd rfl hroot

theorem leaves_fillSuper (h : HasTables state) (hv : state.volumes v = none) (kernel : Kernel Table)
    (opt : Option String) (fails : Option MountStep) (majorVer : ℕ) :
    Leaves state (state.fillSuper v kernel opt fails majorVer)
      (Careful state (.mount v kernel opt fails majorVer)) := by
  unfold State.fillSuper
  by_cases hallo : fails = some .allocateVolume
  · rw [if_pos hallo]
    exact Leaves.balanced h (fun _ hno => absurd hallo hno) rfl
  rw [if_neg hallo]
  have hcare : Careful state (.mount v kernel opt fails majorVer) ↔
      (Accepted kernel (tokens opt) ∧ (fails = none ∨ fails = some .makeRoot)) ∨
      (¬ Accepted kernel (tokens opt) ∧ ¬ Loads kernel (tokens opt)) := by
    simp [Careful, hv, hallo]
  rw [hcare]
  rcases parseOptions_new kernel state.references opt with
    ⟨hacc, hrefu, hmap, hrefs⟩ | ⟨hrefused, hrefu, hloads, hnone⟩
  · simp only [hacc, true_and, not_true_eq_false, false_and, or_false]
    exact leaves_mountParsed h hv hrefu hmap hrefs fails majorVer
  · simp only [hrefused, false_and, not_false_eq_true, true_and, false_or]
    obtain ⟨refusal, hsome⟩ := ne_none_iff_exists'.mp hrefu
    unfold State.mountParsed
    rw [hsome]
    exact Leaves.references h hnone fun hyes => hloads (not_not.mp hyes)

theorem leaves_remount (h : HasTables state) {volume : Volume Table}
    (hv : state.volumes v = some volume) (kernel : Kernel Table) (opt : Option String)
    (readOnly : Bool) : Leaves state (state.remount v volume kernel opt readOnly)
      (Careful state (.remount v kernel opt readOnly)) := by
  unfold State.remount
  cases readOnly with
  | true =>
    rw [if_pos rfl]
    exact Leaves.balanced h (fun _ hno => by cases hno) rfl
  | false =>
    rw [if_neg (by simp)]
    obtain ⟨hmap, hloads, hnone⟩ := parseOptions_of_some kernel (h v volume hv) state.references opt
    have hcare : Careful state (.remount v kernel opt false) ↔ ¬ Loads kernel (tokens opt) := by
      simp [Careful, hv]
    rw [hcare]
    refine ⟨h.update ?_ _, fun hyes => ?_, fun hno => ?_⟩
    · rintro next ⟨⟩
      exact hmap
    · rw [excess_update, hnone hyes, hv]
      simp
    · rw [excess_update, hloads (not_not.mp hno), hv]
      simp only [isSome_some, Bool.toInt_true]
      omega

theorem leaves_step (h : HasTables state) (operation : Operation V Table) :
    Leaves state (step state operation) (Careful state operation) := by
  cases operation with
  | mount v kernel opt fails majorVer =>
    rw [step]
    cases hv : state.volumes v with
    | none => exact leaves_fillSuper h hv kernel opt fails majorVer
    | some volume => exact Leaves.balanced h (fun hno => by simp [hv] at hno) rfl
  | remount v kernel opt readOnly =>
    rw [step]
    cases hv : state.volumes v with
    | none => exact Leaves.balanced h (fun hno => absurd hv hno) rfl
    | some volume => exact leaves_remount h hv kernel opt readOnly
  | unmount v =>
    rw [step]
    cases hv : state.volumes v with
    | none => exact Leaves.balanced h trivial rfl
    | some volume =>
      refine Leaves.balanced (h.update (by simp) _) trivial ?_
      refine (excess_update state v none _).trans ?_
      rw [unloadNls, held_of_isSome (h v volume hv), hv]
      simp only [isSome_some, isSome_none, Bool.toInt_true, Bool.toInt_false]
      omega

end

/-! ### Sequences of operations -/

section

variable {V Table : Type} [Fintype V] [DecidableEq V] [DecidableEq Table]

omit [Fintype V] in
theorem run_concat (state : State V Table) (operations : List (Operation V Table))
    (operation : Operation V Table) : run state (operations ++ [operation]) =
      step (run state operations) operation :=
  List.foldl_concat ..

theorem hasTables_run (operations : List (Operation V Table)) :
    HasTables (run (initial V Table) operations) := by
  induction operations using List.reverseRecOn with
  | nil => simp [HasTables, run, initial]
  | append_singleton front operation ih =>
    rw [run_concat]
    exact (leaves_step ih operation).hasTables

/-- The references are balanced after each operation if and only if every mount and remount is
careful. -/
theorem alwaysBalanced_iff (operations : List (Operation V Table)) :
    AlwaysBalanced operations ↔ ∀ front operation rest, operations = front ++ operation :: rest →
      Careful (run (initial V Table) front) operation := by
  constructor
  · intro hbalanced front operation rest heq
    by_contra hcareless
    have hbefore := balanced_iff_excess.mp (hbalanced front (operation :: rest) heq)
    have hafter := balanced_iff_excess.mp (hbalanced (front ++ [operation]) rest (by simp [heq]))
    have hexcess := (leaves_step (hasTables_run front) operation).excess_of_careless hcareless
    rw [← run_concat] at hexcess
    omega
  · intro hcareful front
    induction front using List.reverseRecOn with
    | nil =>
      intro rest _
      exact (countWhere_eq_zero.mpr fun _ => rfl).symm
    | append_singleton front operation ih =>
      intro rest heq
      have heq' : operations = front ++ operation :: rest := by simp [heq]
      have hbefore := balanced_iff_excess.mp (ih (operation :: rest) heq')
      have hexcess := (leaves_step (hasTables_run front) operation).excess_of_careful
        (hcareful front operation rest heq')
      rw [balanced_iff_excess, run_concat]
      omega

end

/-! ### A device without NTFS -/

def defaultOnly : Kernel Unit where
  loadNls _ := none
  loadNlsDefault := some ()
  simpleStrtoul _ _ := (0, "")
  makeKuid _ := none
  makeKgid _ := none

/-- A mount without options of a device that has no boot sector of NTFS loads the default table for
good. -/
theorem not_alwaysBalanced_noBootSector :
    ¬ AlwaysBalanced [Operation.mount () defaultOnly none (some .readBootSector) 0] := by
  intro hbalanced
  have hafter := hbalanced _ [] (List.append_nil _).symm
  revert hafter
  unfold Balanced
  decide

end AdvancedOs.Ntfs.NlsReferences
