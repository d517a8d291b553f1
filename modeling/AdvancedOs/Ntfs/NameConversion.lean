import AdvancedOs.Foundation.ArraySegments

/-!
# Converting names

`ntfs_nlstoucs` converts the bytes of a name into units of two bytes with the table of the volume,
and `ntfs_ucstonls` converts units back into bytes. The latter stores into a buffer of the caller,
or into one of its own that it grows when a unit does not fit.

A buffer of its own has one byte more than it counts, for the zero at the end. The length that the
caller gives counts all bytes, so a name that fills the buffer has its zero stored behind it:
`storesInside_iff` says that this is the only store outside. A buffer that has been grown once has a
length just below a multiple of 64, and growing it once more leaves that length as it is. Then the
conversion never returns: `returnsSame_iff` says which names come back.
-/

namespace AdvancedOs.Ntfs.NameConversion

open Foundation.ArraySegments List

/-! ### The driver -/

/-- What `uni2char` returns: the bytes it has stored, or that there is no room, or that it cannot
convert. -/
inductive Converted
  | bytes (bytes : List UInt8)
  | nameTooLong
  | invalid

/-- `struct nls_table`: the unit at the front of some bytes with the number of its bytes, and the
bytes of a unit in some room. -/
structure NlsTable where
  char2uni : List UInt8 → Option (UInt16 × ℕ)
  uni2char : UInt16 → ℕ → Converted

def nlsMaxCharsetSize : ℕ := 6

inductive NameError
  | nameTooLong | illegalSequence

variable (nls : NlsTable)

/-- The loop of `ntfs_nlstoucs`, with at most `left` characters to come. -/
def nlstoucsLoop : ℕ → List UInt8 → List UInt16 → Except NameError (List UInt16)
  | 0, _, ucs => .ok ucs
  | left + 1, ins, ucs =>
    if ins = [] then .ok ucs
    else match nls.char2uni ins with
      | none => .error .illegalSequence
      | some (wc, wcLen) =>
        if 255 ≤ ucs.length then .error .nameTooLong
        else if wc = 0 then .ok ucs
        else nlstoucsLoop left (ins.drop wcLen) (ucs ++ [wc])

/-- A character has at least one byte, so there are no more of them than bytes. -/
def ntfsNlstoucs (ins : List UInt8) : Except NameError (List UInt16) :=
  nlstoucsLoop nls ins.length ins []

/-- Stores to the bytes from `start` on in a buffer of `size` bytes. -/
structure Store where
  start : ℕ
  count : ℕ
  size : ℕ

/-- The buffer `ns` with `ns_len`, the bytes it really has, the offset `o`, and the stores so
far. -/
structure Buffer where
  cells : ℕ → UInt8
  nsLen : ℕ
  size : ℕ
  o : ℕ
  stores : List Store

inductive Outcome
  | running
  | done (length : ℕ)
  | failed (why : NameError)

def Buffer.terminate (buf : Buffer) : Buffer :=
  { buf with
    cells := Function.update buf.cells buf.o 0
    stores := ⟨buf.o, 1, buf.size⟩ :: buf.stores }

/-- `uni2char` may store anywhere in the room it is given. -/
def Buffer.offered (buf : Buffer) : Buffer :=
  { buf with stores := ⟨buf.o, buf.nsLen - buf.o, buf.size⟩ :: buf.stores }

def Buffer.put (buf : Buffer) (bytes : List UInt8) : Buffer :=
  { buf.offered with
    cells := memcpy buf.cells buf.o (fun i => bytes.getD i 0) 0 bytes.length
    o := buf.o + bytes.length }

/-- `(ns_len + 64) & ~63`. -/
def grownSize (nsLen : ℕ) : ℕ := (nsLen + 64) / 64 * 64

def Buffer.grow (buf : Buffer) (fresh : ℕ → UInt8) : Buffer where
  cells := memcpy fresh 0 buf.cells 0 buf.nsLen
  nsLen := grownSize buf.nsLen - 1
  size := grownSize buf.nsLen
  o := buf.o
  stores := ⟨0, buf.nsLen, grownSize buf.nsLen⟩ :: buf.stores

/-- The loop of `ntfs_ucstonls`, for a number of steps. A unit without bytes ends it. A buffer of
the caller is not grown: for it, `kmalloc` gives no memory. -/
def ucstonlsLoop (kmalloc : ℕ → Option (ℕ → UInt8)) : ℕ → List UInt16 → Buffer → Outcome × Buffer
  | 0, _, buf => (.running, buf)
  | _ + 1, [], buf => (.done buf.o, buf.terminate)
  | steps + 1, unit :: units, buf =>
    match nls.uni2char unit (buf.nsLen - buf.o) with
    | .bytes bytes =>
      if bytes = [] then (.done buf.o, buf.offered.terminate)
      else ucstonlsLoop kmalloc steps units (buf.put bytes)
    | .nameTooLong =>
      match kmalloc (grownSize buf.nsLen) with
      | some fresh => ucstonlsLoop kmalloc steps (unit :: units) (buf.offered.grow fresh)
      | none => (.failed .nameTooLong, buf.offered)
    | .invalid => (.failed .illegalSequence, buf.offered)

/-- `ntfs_ucstonls` with the buffer of the caller. -/
def ucstonlsInto (cells : ℕ → UInt8) (outsLen steps : ℕ) (ins : List UInt16) : Outcome × Buffer :=
  let buf : Buffer := ⟨cells, outsLen, outsLen, 0, []⟩
  if outsLen = 0 then (.failed .nameTooLong, buf)
  else ucstonlsLoop nls (fun _ => none) steps ins buf

/-- `ntfs_ucstonls` with a buffer of its own. -/
def ucstonlsNew (kmalloc : ℕ → Option (ℕ → UInt8)) (cells : ℕ → UInt8) (steps : ℕ)
    (ins : List UInt16) : Outcome × Buffer :=
  let nsLen := ins.length * nlsMaxCharsetSize
  ucstonlsLoop nls kmalloc steps ins ⟨cells, nsLen, nsLen + 1, 0, []⟩

/-! ### Stores -/

def Buffer.Inside (buf : Buffer) : Prop :=
  ∀ store ∈ buf.stores, store.start + store.count ≤ store.size

/-- `uni2char` stores no more than it has room for. -/
def NlsTable.Fits : Prop :=
  ∀ unit room bytes, nls.uni2char unit room = .bytes bytes → bytes.length ≤ room

/-- The number of bytes of some units, up to the first without any, in some room, if they have all
been converted. -/
def width : List UInt16 → ℕ → Option ℕ
  | [], _ => some 0
  | unit :: units, room =>
    match nls.uni2char unit room with
    | .bytes bytes =>
      if bytes = [] then some 0 else (width units (room - bytes.length)).map (bytes.length + ·)
    | _ => none

variable {nls} {kmalloc : ℕ → Option (ℕ → UInt8)} {buf : Buffer} {bytes ins : List UInt8}
  {unit : UInt16} {units : List UInt16} {room steps : ℕ}

theorem Buffer.inside_terminate : buf.terminate.Inside ↔ buf.o < buf.size ∧ buf.Inside :=
  forall_mem_cons

/-- The offset is in the room, and the room in the buffer. -/
structure Buffer.Sound (buf : Buffer) : Prop where
  o_le : buf.o ≤ buf.nsLen
  nsLen_le : buf.nsLen ≤ buf.size
  inside : buf.Inside

theorem Buffer.Sound.offered (hsound : buf.Sound) : buf.offered.Sound := by
  obtain ⟨ho, hsize, hin⟩ := hsound
  exact ⟨ho, hsize, forall_mem_cons.mpr ⟨by dsimp only; omega, hin⟩⟩

theorem Buffer.Sound.put (hsound : buf.Sound) (hby : bytes.length ≤ buf.nsLen - buf.o) :
    (buf.put bytes).Sound :=
  ⟨show buf.o + bytes.length ≤ buf.nsLen by have := hsound.o_le; omega, hsound.nsLen_le,
    hsound.offered.inside⟩

theorem lt_grownSize (nsLen : ℕ) : nsLen < grownSize nsLen := by
  unfold grownSize
  omega

theorem grownSize_grown {nsLen : ℕ} : grownSize (grownSize nsLen - 1) = grownSize nsLen := by
  unfold grownSize
  omega

theorem Buffer.Sound.grow (hsound : buf.Sound) (fresh : ℕ → UInt8) : (buf.grow fresh).Sound := by
  have hlt := lt_grownSize buf.nsLen
  exact ⟨show buf.o ≤ grownSize buf.nsLen - 1 by have := hsound.o_le; omega, Nat.sub_le _ _,
    forall_mem_cons.mpr ⟨by dsimp only; omega, hsound.inside⟩⟩

theorem inside_loop (hfits : nls.Fits) (hsound : buf.Sound) (hspare : buf.nsLen < buf.size) :
    (ucstonlsLoop nls kmalloc steps units buf).2.Inside := by
  induction steps generalizing units buf with
  | zero => exact hsound.inside
  | succ steps ih =>
    have hend := Nat.lt_of_le_of_lt hsound.o_le hspare
    cases units with
    | nil => exact Buffer.inside_terminate.mpr ⟨hend, hsound.inside⟩
    | cons unit units =>
      rw [ucstonlsLoop]
      split
      · next bytes hby =>
        split_ifs with hnone
        · exact Buffer.inside_terminate.mpr ⟨hend, hsound.offered.inside⟩
        · exact ih (hsound.put (hfits _ _ _ hby)) hspare
      · split
        · next fresh _ =>
          exact ih (hsound.offered.grow fresh) (Nat.sub_one_lt (Nat.ne_zero_of_lt (lt_grownSize _)))
        · exact hsound.offered.inside
      · exact hsound.offered.inside

/-- Assumes: a buffer that counts all of its bytes and is not grown. Once the conversion has
returned, it was left just when the units fill it. -/
theorem inside_loop_iff (hfits : nls.Fits) (hsound : buf.Sound) (hall : buf.nsLen = buf.size) :
    (ucstonlsLoop nls (fun _ => none) steps units buf).2.Inside ↔
      ((ucstonlsLoop nls (fun _ => none) steps units buf).1 ≠ .running →
        width nls units (buf.nsLen - buf.o) ≠ some (buf.nsLen - buf.o)) := by
  have hle := hsound.o_le
  induction steps generalizing units buf with
  | zero => exact iff_of_true hsound.inside fun h => absurd rfl h
  | succ steps ih =>
    -- The zero is inside if there is room left.
    have hend : buf.o < buf.size ↔ 0 ≠ buf.nsLen - buf.o := by omega
    cases units with
    | nil =>
      refine Buffer.inside_terminate.trans ?_
      rw [and_iff_left hsound.inside, hend]
      simp [ucstonlsLoop, width]
    | cons unit units =>
      rw [ucstonlsLoop, width]
      cases hby : nls.uni2char unit (buf.nsLen - buf.o) with
      | bytes bytes =>
        have hput := hsound.put (hfits _ _ _ hby)
        have hroom := hfits _ _ _ hby
        dsimp only
        split_ifs with hnone
        · refine Buffer.inside_terminate.trans ?_
          rw [and_iff_left hsound.offered.inside]
          exact hend.trans (by simp)
        · refine (ih hput hall hput.o_le).trans (imp_congr_right fun _ => not_congr ?_)
          rw [show (buf.put bytes).nsLen - (buf.put bytes).o = buf.nsLen - buf.o - bytes.length from
            Nat.sub_add_eq _ _ _]
          cases width nls units (buf.nsLen - buf.o - bytes.length) with
          | none => simp
          | some more =>
            rw [Option.map_some, Option.some_inj, Option.some_inj]
            omega
      | nameTooLong => exact iff_of_true hsound.offered.inside (by simp)
      | invalid => exact iff_of_true hsound.offered.inside (by simp)

theorem not_running (hsteps : units.length < steps) :
    (ucstonlsLoop nls (fun _ => none) steps units buf).1 ≠ .running := by
  induction steps generalizing units buf with
  | zero => omega
  | succ steps ih =>
    cases units with
    | nil => exact nofun
    | cons unit units =>
      rw [ucstonlsLoop]
      split
      · split_ifs
        · exact nofun
        · exact ih (Nat.lt_of_succ_lt_succ hsteps)
      · exact nofun
      · exact nofun

/-- Assumes: a table that stores no more than it has room for. With a buffer of the caller, all
stores are inside just when it is empty or the converted name does not fill it, and with a buffer of
its own they are always. -/
theorem storesInside_iff (hfits : nls.Fits) (cells : ℕ → UInt8) (outsLen : ℕ)
    (units : List UInt16) : ((∀ steps, (ucstonlsInto nls cells outsLen steps units).2.Inside) ↔
        (outsLen ≠ 0 → width nls units outsLen ≠ some outsLen)) ∧
      ∀ kmalloc steps, (ucstonlsNew nls kmalloc cells steps units).2.Inside := by
  have hiff (steps : ℕ) := @inside_loop_iff nls ⟨cells, outsLen, outsLen, 0, []⟩ units steps hfits
    ⟨Nat.zero_le _, Nat.le_refl _, nofun⟩ rfl
  refine ⟨?_, fun kmalloc steps => ?_⟩
  · unfold ucstonlsInto
    by_cases hempty : outsLen = 0
    · simp only [if_pos hempty]
      exact iff_of_true (fun _ => nofun) fun hne => absurd hempty hne
    · simp only [if_neg hempty]
      refine ⟨fun hinside _ => ?_, fun hwidth steps => (hiff steps).mpr fun _ => hwidth hempty⟩
      exact (hiff _).mp (hinside _) (not_running (Nat.lt_succ_self _))
  · exact inside_loop hfits ⟨Nat.zero_le _, Nat.le_succ _, nofun⟩ (Nat.lt_succ_self _)

/-- A table with one unit, which has `n` bytes. -/
def oneUnit (n : ℕ) : NlsTable where
  char2uni ins := if ins = List.replicate n 1 then some (1, n) else none
  uni2char _ room := if n ≤ room then .bytes (List.replicate n 1) else .nameTooLong

theorem fits_oneUnit (n : ℕ) : (oneUnit n).Fits := by
  intro unit room bytes hby
  dsimp only [oneUnit] at hby
  split_ifs at hby with hroom
  cases hby
  rwa [length_replicate]

theorem storesInside_iff_oneUnit : (ucstonlsInto (oneUnit 1) (fun _ => 0) 2 2 [1]).2.Inside ∧
    (ucstonlsNew (oneUnit 1) (fun _ => none) (fun _ => 0) 2 [1]).2.Inside :=
  have hiff := storesInside_iff (fits_oneUnit 1) (fun _ => 0) 2 [1]
  ⟨hiff.1.mpr (by decide) 2, hiff.2 _ 2⟩

/-- One byte for a buffer of one byte: the zero is stored behind it. -/
theorem not_inside_oneUnit : ¬ (ucstonlsInto (oneUnit 1) (fun _ => 0) 1 2 [1]).2.Inside := by
  intro hinside
  have hzero := hinside ⟨1, 1, 1⟩ (List.mem_cons_self ..)
  exact absurd hzero (by decide)

/-! ### There and back -/

/-- The table converts a unit into the bytes it was made of, if there is room for them. -/
structure NlsTable.Inverse (nls : NlsTable) : Prop where
  consumes : ∀ ins unit len, nls.char2uni ins = some (unit, len) → 0 < len ∧ len ≤ ins.length
  back : ∀ ins unit len, nls.char2uni ins = some (unit, len) → ∀ room, nls.uni2char unit room =
    if len ≤ room then .bytes (ins.take len) else .nameTooLong

/-- The bytes convert to the units, and none of these is zero. -/
inductive Converts (nls : NlsTable) : List UInt8 → List UInt16 → Prop
  | nil : Converts nls [] []
  | cons {ins : List UInt8} {unit : UInt16} {len : ℕ} {units : List UInt16}
      (hunit : nls.char2uni ins = some (unit, len)) (hne : unit ≠ 0)
      (hrest : Converts nls (ins.drop len) units) : Converts nls ins (unit :: units)

theorem nlstoucsLoop_eq (hinverse : nls.Inverse) (hconv : Converts nls ins units) {left : ℕ}
    {ucs : List UInt16} (hleng : ucs.length + units.length ≤ 255) (hleft : ins.length ≤ left) :
    nlstoucsLoop nls left ins ucs = .ok (ucs ++ units) := by
  induction hconv generalizing left ucs with
  | nil => cases left <;> simp [nlstoucsLoop]
  | @cons ins unit len units hunit hne hrest ih =>
    obtain ⟨hpos, hlen⟩ := hinverse.consumes _ _ _ hunit
    rw [length_cons] at hleng
    cases left with
    | zero => omega
    | succ left =>
      have hins : ins ≠ [] := ne_nil_of_length_pos (by omega)
      have hnext := @ih left (ucs ++ [unit]) (by rw [length_append, length_singleton]; omega)
        (by rw [length_drop]; omega)
      rw [nlstoucsLoop, if_neg hins, hunit]
      dsimp only
      rw [if_neg (by omega), if_neg hne, hnext, ← append_cons]

section

variable (hinverse : nls.Inverse) {front : List UInt8} {len : ℕ}
include hinverse

theorem ucstonlsLoop_put (hunit : nls.char2uni ins = some (unit, len))
    (hroom : len ≤ buf.nsLen - buf.o) : ucstonlsLoop nls kmalloc (steps + 1) (unit :: units) buf =
      ucstonlsLoop nls kmalloc steps units (buf.put (ins.take len)) := by
  have hpos := hinverse.consumes _ _ _ hunit
  rw [ucstonlsLoop, hinverse.back _ _ _ hunit, if_pos hroom]
  exact if_neg (ne_nil_of_length_pos (by rw [length_take]; omega))

omit hinverse in
theorem segment_put (hfr : Segment buf.cells 0 front) (ho : buf.o = front.length) :
    Segment (buf.put bytes).cells 0 (front ++ bytes) := by
  have hby : Segment (memcpy buf.cells buf.o (fun i => bytes.getD i 0) 0 bytes.length)
      (0 - 0 + buf.o) bytes :=
    (segment_getD bytes fun _ => 0).memcpy_inside (Nat.le_refl _) (Nat.le_refl _)
  rw [Nat.sub_self, ho] at hby
  rw [Buffer.put, ho]
  dsimp only
  exact (segment_append ..).mpr ⟨hfr.memcpy_outside (.inl (Nat.le_of_eq (Nat.zero_add _))), hby⟩

omit hinverse in
theorem put_take (hlen : len ≤ ins.length) (hfr : Segment buf.cells 0 front)
    (ho : buf.o = front.length) : (buf.put (ins.take len)).o = buf.o + len ∧
      (buf.put (ins.take len)).o = (front ++ ins.take len).length ∧
      (buf.put (ins.take len)).o + (ins.drop len).length = buf.o + ins.length ∧
      Segment (buf.put (ins.take len)).cells 0 (front ++ ins.take len) := by
  have htake : (ins.take len).length = len := length_take_of_le hlen
  have ho' : (buf.put (ins.take len)).o = buf.o + len := congrArg (buf.o + ·) htake
  refine ⟨ho', ?_, ?_, segment_put hfr ho⟩
  · rw [ho', length_append]
    omega
  · rw [ho', length_drop]
    omega

/-- Assumes: room for all bytes once the buffer has been grown. They are stored, and the conversion
returns. -/
theorem exists_done_of_lt (hmemo : ∀ size, (kmalloc size).isSome)
    (hconv : Converts nls ins units) (hfr : Segment buf.cells 0 front) (ho : buf.o = front.length)
    (hle : buf.o ≤ buf.nsLen) (hroom : buf.o + ins.length < grownSize buf.nsLen) :
    ∃ steps, (ucstonlsLoop nls kmalloc steps units buf).1 = .done (buf.o + ins.length) ∧
      Segment (ucstonlsLoop nls kmalloc steps units buf).2.cells 0 (front ++ ins) := by
  induction hconv generalizing buf front with
  | nil => exact ⟨1, rfl, by rw [append_nil]; exact hfr.update_of_le (by omega)⟩
  | @cons ins unit len units hunit hne hrest ih =>
    obtain ⟨hpos, hlen⟩ := hinverse.consumes _ _ _ hunit
    -- A unit for which there is room is stored, and the rest is left to the induction.
    have hput (buf : Buffer) (hfr : Segment buf.cells 0 front) (ho : buf.o = front.length)
        (hfits : len ≤ buf.nsLen - buf.o) (hroom : buf.o + ins.length < grownSize buf.nsLen) :
        ∃ steps, (ucstonlsLoop nls kmalloc steps (unit :: units) buf).1 =
          .done (buf.o + ins.length) ∧
              Segment (ucstonlsLoop nls kmalloc steps (unit :: units) buf).2.cells 0
                  (front ++ ins) := by
      obtain ⟨hlat, ho', hrest', hcl⟩ := put_take hlen hfr ho
      have hle' : (buf.put (ins.take len)).o ≤ buf.nsLen := by omega
      obtain ⟨steps, hdone⟩ := ih hcl ho' hle' (by rw [hrest']; exact hroom)
      rw [hrest', append_assoc, take_append_drop] at hdone
      refine ⟨steps + 1, ?_⟩
      rwa [ucstonlsLoop_put hinverse hunit hfits]
    by_cases hfits : len ≤ buf.nsLen - buf.o
    · exact hput buf hfr ho hfits hroom
    · obtain ⟨fresh, hfresh⟩ := Option.isSome_iff_exists.mp (hmemo (grownSize buf.nsLen))
      have hcopi : Segment (buf.offered.grow fresh).cells (0 - 0 + 0) front :=
        hfr.memcpy_inside (Nat.le_refl _) (by rw [Nat.zero_add, Nat.zero_add, ← ho]; exact hle)
      obtain ⟨steps, hdone⟩ := hput (buf.offered.grow fresh) hcopi ho
        (show len ≤ grownSize buf.nsLen - 1 - buf.o by omega)
        (show _ < grownSize (grownSize buf.nsLen - 1) by rw [grownSize_grown]; exact hroom)
      refine ⟨steps + 1, ?_⟩
      rw [ucstonlsLoop, hinverse.back _ _ _ hunit, if_neg hfits]
      dsimp only
      rw [hfresh]
      exact hdone

/-- Assumes: more bytes than the buffer has room for once it has been grown. Growing it again does
not help, and the conversion never returns. -/
theorem running_of_grown_le (hmemo : ∀ size, (kmalloc size).isSome) (hconv : Converts nls ins units)
    (hle : buf.o ≤ buf.nsLen) (hroom : grownSize buf.nsLen ≤ buf.o + ins.length) (steps : ℕ) :
    (ucstonlsLoop nls kmalloc steps units buf).1 = .running := by
  have hlt := lt_grownSize buf.nsLen
  induction steps generalizing buf ins units with
  | zero => rfl
  | succ steps ih =>
    cases hconv with
    | nil => exact absurd hroom (by rw [length_nil]; omega)
    | @cons _ unit len units hunit hne hrest =>
      obtain ⟨hpos, hlen⟩ := hinverse.consumes _ _ _ hunit
      by_cases hfits : len ≤ buf.nsLen - buf.o
      · rw [ucstonlsLoop_put hinverse hunit hfits]
        have htake : (ins.take len).length = len := length_take_of_le hlen
        exact @ih (buf.put (ins.take len)) _ _ hrest (show buf.o + _ ≤ buf.nsLen by omega)
          (show grownSize buf.nsLen ≤ buf.o + _ + _ by rw [length_drop]; omega) hlt
      · obtain ⟨fresh, hfresh⟩ := Option.isSome_iff_exists.mp (hmemo (grownSize buf.nsLen))
        rw [ucstonlsLoop, hinverse.back _ _ _ hunit, if_neg hfits]
        dsimp only
        rw [hfresh]
        exact @ih (buf.offered.grow fresh) _ _ (.cons hunit hne hrest)
          (show buf.o ≤ grownSize buf.nsLen - 1 by omega)
            (Nat.le_trans (Nat.le_of_eq grownSize_grown) hroom)
          (lt_grownSize _)

end

def ReturnsSame (nls : NlsTable) (kmalloc : ℕ → Option (ℕ → UInt8)) (cells : ℕ → UInt8)
    (ins : List UInt8) (units : List UInt16) : Prop :=
  ∃ steps, (ucstonlsNew nls kmalloc cells steps units).1 = .done ins.length ∧
    Segment (ucstonlsNew nls kmalloc cells steps units).2.cells 0 ins

/-- Assumes: a table that converts units back, memory, and a name of at most 255 units. It is
converted to its units, and it comes back just when it fits into a buffer that has been grown
once. -/
theorem returnsSame_iff (hinverse : nls.Inverse) (hmemory : ∀ size, (kmalloc size).isSome)
    (hconverts : Converts nls ins units) (hlength : units.length ≤ 255) (cells : ℕ → UInt8) :
    ntfsNlstoucs nls ins = .ok units ∧ (ReturnsSame nls kmalloc cells ins units ↔
      ins.length < grownSize (units.length * nlsMaxCharsetSize)) := by
  refine ⟨?_, fun hreturns => ?_, fun hroom => ?_⟩
  · exact nlstoucsLoop_eq hinverse hconverts (by simpa using hlength) (Nat.le_refl _)
  · obtain ⟨steps, hdone, -⟩ := hreturns
    by_contra hlarge
    have hrunning : (ucstonlsNew nls kmalloc cells steps units).1 = .running :=
      running_of_grown_le hinverse hmemory hconverts (Nat.zero_le _)
        (by rw [Nat.zero_add]; exact Nat.not_lt.mp hlarge) steps
    rw [hrunning] at hdone
    cases hdone
  · obtain ⟨steps, hdone, hcells⟩ := @exists_done_of_lt nls kmalloc ⟨cells, _, _, 0, []⟩ ins units
      hinverse [] hmemory hconverts trivial rfl (Nat.zero_le _) (by rwa [Nat.zero_add])
    rw [Nat.zero_add] at hdone
    exact ⟨steps, hdone, hcells⟩

theorem inverse_oneUnit {n : ℕ} (hn : 0 < n) : (oneUnit n).Inverse := by
  constructor
  all_goals
    intro ins unit len hunit
    dsimp only [oneUnit] at hunit ⊢
    split_ifs at hunit with hins
    cases hunit
    rw [hins]
  · rw [length_replicate]
    exact ⟨hn, Nat.le_refl _⟩
  · intro room
    rw [take_replicate, Nat.min_self]

theorem converts_oneUnit (n : ℕ) : Converts (oneUnit n) (List.replicate n 1) [1] := by
  refine .cons (if_pos rfl) (by decide) ?_
  rw [drop_replicate, Nat.sub_self]
  exact .nil

/-- A unit of ten bytes comes back from a buffer that is grown from six bytes. -/
theorem returnsSame_oneUnit :
    ReturnsSame (oneUnit 10) (fun _ => some fun _ => 0) (fun _ => 0) (List.replicate 10 1) [1] :=
  (returnsSame_iff (inverse_oneUnit (by decide)) (fun _ => rfl) (converts_oneUnit 10) (by decide)
    _).2.mpr (by decide)

/-- A unit of 70 bytes does not fit into the 63 bytes of a buffer that has been grown, however
often. -/
theorem not_returnsSame_oneUnit : Converts (oneUnit 70) (List.replicate 70 1) [1] ∧
    ¬ ReturnsSame (oneUnit 70) (fun _ => some fun _ => 0) (fun _ => 0)
      (List.replicate 70 1) [1] := by
  refine ⟨converts_oneUnit 70, fun ⟨steps, hdone, _⟩ => ?_⟩
  have hrunning :=
    @running_of_grown_le (oneUnit 70) (fun _ => some fun _ => 0) ⟨fun _ => 0, 6, 7, 0, []⟩
    _ _ (inverse_oneUnit (by decide)) (fun _ => rfl) (converts_oneUnit 70) (by decide)
      (by decide) steps
  cases hrunning.symm.trans hdone

end AdvancedOs.Ntfs.NameConversion
