import AdvancedOs.Foundation.ByteComparison

/-!
# Comparing and collating file names

File names are compared character by character, with the upcase table of the volume if case is to be
ignored. `ntfsAreNamesEqual` stops at a character that is NUL after folding, and `ntfsCollateNames`
returns a value of the caller at a character that is not allowed in the first name. For names
without such characters the first decides whether the folded names are equal
(`ntfsAreNamesEqual_iff`; what it does with others is `namesEqual_right_iff`), and the second gives
their lexicographic order (`ntfsCollateNames_of_collatable`).

Directories are ordered first by the folded names and then by the names themselves (`nameOrder`),
which is the order that two collations give (`collateTwice`). Whatever the upcase table, it is a
strict total order of the names (`collation_order`).
-/

namespace AdvancedOs.Ntfs.NameCollation

open Foundation.ByteComparison

/-! ### The driver -/

abbrev Name := List UInt16

inductive IgnoreCase
  | caseSensitive | ignoreCase
deriving DecidableEq, Repr

def legalAnsiCharArray : List UInt8 := [0x00, 0x10, 0x10, 0x10, 0x10, 0x10, 0x10, 0x10,
  0x10, 0x10, 0x10, 0x10, 0x10, 0x10, 0x10, 0x10,
  0x10, 0x10, 0x10, 0x10, 0x10, 0x10, 0x10, 0x10,
  0x10, 0x10, 0x10, 0x10, 0x10, 0x10, 0x10, 0x10,
  0x17, 0x07, 0x18, 0x17, 0x17, 0x17, 0x17, 0x17,
  0x17, 0x17, 0x18, 0x16, 0x16, 0x17, 0x07, 0x00,
  0x17, 0x17, 0x17, 0x17, 0x17, 0x17, 0x17, 0x17,
  0x17, 0x17, 0x04, 0x16, 0x18, 0x16, 0x18, 0x18]

def isIllegal (c : UInt16) : Bool := c < 64 && legalAnsiCharArray.getD c.toNat 0 &&& 8 ≠ 0

section

variable (upcase : List UInt16)

/-- The upper case of a character, which is the character itself behind the end of the table. -/
def upper (c : UInt16) : UInt16 := upcase.getD c.toNat c

/-- A character as it takes part in a comparison. -/
def fold : IgnoreCase → UInt16 → UInt16
  | .caseSensitive, c => c
  | .ignoreCase, c => upper upcase c

/-- The loop of `ntfs_ucsncmp` and `ntfs_ucsncasecmp`, which take characters differently. -/
def ucsncmpWith (take : UInt16 → UInt16) : Name → Name → ℕ → ℤ
  | c1 :: s1, c2 :: s2, n + 1 =>
    if take c1 < take c2 then -1
    else if take c2 < take c1 then 1
    else if take c1 = 0 then 0
    else ucsncmpWith take s1 s2 n
  | _, _, _ => 0

def ntfsUcsncmp (s1 s2 : Name) (n : ℕ) : ℤ := ucsncmpWith id s1 s2 n

def ntfsUcsncasecmp (s1 s2 : Name) (n : ℕ) : ℤ := ucsncmpWith (upper upcase) s1 s2 n

def ntfsAreNamesEqual (s1 s2 : Name) (ic : IgnoreCase) : Bool :=
  if s1.length ≠ s2.length then false
  else if ic = .caseSensitive then ntfsUcsncmp s1 s2 s1.length = 0
  else ntfsUcsncasecmp upcase s1 s2 s1.length = 0

/-- `ntfs_collate_names`. Behind the end of the second name the character of the first one is looked
at as it is. -/
def ntfsCollateNames (errVal : ℤ) (ic : IgnoreCase) : Name → Name → ℤ
  | [], [] => 0
  | [], _ :: _ => -1
  | c1 :: _, [] => if isIllegal c1 then errVal else 1
  | c1 :: name1, c2 :: name2 =>
    if isIllegal (fold upcase ic c1) then errVal
    else if fold upcase ic c1 < fold upcase ic c2 then -1
    else if fold upcase ic c2 < fold upcase ic c1 then 1
    else ntfsCollateNames errVal ic name1 name2

end

/-! ### Names without special characters -/

def SameCase (upcase : List UInt16) (name other : Name) : Prop :=
  name.map (upper upcase) = other.map (upper upcase)

/-- The name has no NUL, and no character that the collation flags, before or after folding. -/
def Clean (upcase : List UInt16) (name : Name) : Prop :=
  ∀ c ∈ name, c ≠ 0 ∧ isIllegal c = false ∧ isIllegal (upper upcase c) = false

def UpperClean (upcase : List UInt16) (name : Name) : Prop := ∀ c ∈ name, upper upcase c ≠ 0

instance (upcase : List UInt16) (name : Name) : Decidable (Clean upcase name) :=
  List.decidableBAll _ _

instance (upcase : List UInt16) (name : Name) : Decidable (UpperClean upcase name) :=
  List.decidableBAll _ _

def Legal (upcase : List UInt16) (ic : IgnoreCase) (name : Name) : Prop :=
  ∀ c ∈ name, isIllegal (fold upcase ic c) = false

instance (upcase : List UInt16) (ic : IgnoreCase) (name : Name) :
    Decidable (Legal upcase ic name) :=
  List.decidableBAll _ _

/-- The name has no illegal character. The callers of the collation let it return 1 for such a
character, which is also what it returns behind the end of the second name; with another value the
characters must be legal without folding, too. -/
structure Collatable (upcase : List UInt16) (errVal : ℤ) (ic : IgnoreCase)
    (name : Name) : Prop where
  legal : Legal upcase ic name
  raw : errVal = 1 ∨ Legal upcase .caseSensitive name

variable {name s1 s2 other : Name} {ic : IgnoreCase}

theorem Clean.collatable {upcase : List UInt16} (hclean : Clean upcase name) (errVal : ℤ)
    (ic : IgnoreCase) : Collatable upcase errVal ic name := by
  have hraw : Legal upcase .caseSensitive name := fun c hc => (hclean c hc).2.1
  cases ic with
  | caseSensitive => exact ⟨hraw, .inr hraw⟩
  | ignoreCase => exact ⟨fun c hc => (hclean c hc).2.2, .inr hraw⟩

/-- An upcase table with the characters below the letter a as they are, and a value for that
letter. -/
def tableUpToA (value : UInt16) : List UInt16 := (List.range 0x61).map UInt16.ofNat ++ [value]

/-! ### Equal names -/

section

variable {upcase : List UInt16}

/-- What a comparison looks at: the characters in front of the first that is taken for NUL. -/
def beforeNul (take : UInt16 → UInt16) (name : Name) : Name := (name.map take).takeWhile (· ≠ 0)

theorem beforeNul_cons (take : UInt16 → UInt16) (c : UInt16) (name : Name) :
    beforeNul take (c :: name) = if take c = 0 then [] else take c :: beforeNul take name := by
  rw [beforeNul, List.map_cons, List.takeWhile_cons]
  by_cases hzero : take c = 0 <;> simp [hzero, beforeNul]

theorem ucsncmpWith_eq_zero_iff (take : UInt16 → UInt16) (hlen : s1.length = s2.length) :
    ucsncmpWith take s1 s2 s1.length = 0 ↔ beforeNul take s1 = beforeNul take s2 := by
  induction s1 generalizing s2 with
  | nil =>
    obtain rfl := List.eq_nil_of_length_eq_zero hlen.symm
    exact iff_of_true rfl rfl
  | cons c1 s1 ih =>
    obtain ⟨c2, s2, rfl⟩ := List.exists_cons_of_length_eq_add_one hlen.symm
    have hrest := ih (Nat.succ.inj hlen)
    -- Of two characters that differ, at most one is NUL.
    have hne : take c1 ≠ take c2 → beforeNul take (c1 :: s1) ≠ beforeNul take (c2 :: s2) := by
      rw [beforeNul_cons, beforeNul_cons]
      intro hne
      split_ifs with hfst hsec hsec
      · exact absurd (hfst.trans hsec.symm) hne
      · exact (List.cons_ne_nil _ _).symm
      · exact List.cons_ne_nil _ _
      · exact fun h => hne (List.cons.inj h).1
    rw [List.length_cons, ucsncmpWith]
    split_ifs with hlt hgt hzero
    · exact iff_of_false (by decide) (hne (UInt16.ne_of_lt hlt))
    · exact iff_of_false (by decide) (hne (UInt16.ne_of_lt hgt).symm)
    all_goals
      have heq := UInt16.le_antisymm (UInt16.not_lt.mp hgt) (UInt16.not_lt.mp hlt)
      rw [beforeNul_cons, beforeNul_cons, ← heq]
    · rw [if_pos hzero, if_pos hzero]
      exact iff_of_true rfl rfl
    · rw [hrest, if_neg hzero, if_neg hzero, List.cons.injEq, and_iff_right rfl]

theorem ntfsAreNamesEqual_eq_true_iff (s1 s2 : Name) (ic : IgnoreCase) :
    ntfsAreNamesEqual upcase s1 s2 ic = true ↔
      s1.length = s2.length ∧ beforeNul (fold upcase ic) s1 = beforeNul (fold upcase ic) s2 := by
  unfold ntfsAreNamesEqual
  by_cases hlen : s1.length = s2.length
  · have hcmp := ucsncmpWith_eq_zero_iff (fold upcase ic) hlen
    rw [if_neg (not_not.mpr hlen), ← hcmp, and_iff_right hlen]
    cases ic <;> exact decide_eq_true_iff
  · rw [if_pos hlen]
    exact iff_of_false (by decide) fun h => hlen h.1

theorem ntfsAreNamesEqual_comm (s1 s2 : Name) (ic : IgnoreCase) :
    ntfsAreNamesEqual upcase s1 s2 ic = ntfsAreNamesEqual upcase s2 s1 ic := by
  rw [Bool.eq_iff_iff, ntfsAreNamesEqual_eq_true_iff, ntfsAreNamesEqual_eq_true_iff, eq_comm,
    @eq_comm _ (beforeNul (fold upcase ic) s1)]

theorem beforeNul_of_map_eq {take : UInt16 → UInt16} (heq : s1.map take = s2.map take) :
    s1.length = s2.length ∧ beforeNul take s1 = beforeNul take s2 :=
  ⟨by simpa using congrArg List.length heq, by rw [beforeNul, heq, beforeNul]⟩

theorem ntfsAreNamesEqual_of_map_eq (heq : s1.map (fold upcase ic) = s2.map (fold upcase ic)) :
    ntfsAreNamesEqual upcase s1 s2 ic = true :=
  (ntfsAreNamesEqual_eq_true_iff s1 s2 ic).mpr (beforeNul_of_map_eq heq)

/-- Assumes: a first name without characters that fold to NUL. The names are equal just when their
folded characters are. -/
theorem ntfsAreNamesEqual_iff (hnul : ∀ c ∈ s1, fold upcase ic c ≠ 0) :
    ntfsAreNamesEqual upcase s1 s2 ic = true ↔
      s1.map (fold upcase ic) = s2.map (fold upcase ic) := by
  refine ⟨fun hequal => ?_, ntfsAreNamesEqual_of_map_eq⟩
  obtain ⟨hlen, hbef⟩ := (ntfsAreNamesEqual_eq_true_iff s1 s2 ic).mp hequal
  have hwh : beforeNul (fold upcase ic) s1 = s1.map (fold upcase ic) :=
    List.takeWhile_eq_self_iff.mpr (by simpa using hnul)
  rw [hwh] at hbef
  have hst : s1.map (fold upcase ic) <+: s2.map (fold upcase ic) :=
    hbef ▸ List.takeWhile_prefix _
  exact hst.eq_of_length (by simpa using hlen)

/-- What it means for names to be equal: that they are the same, or the same in upper case. -/
def SameName (upcase : List UInt16) (name other : Name) : IgnoreCase → Prop
  | .caseSensitive => name = other
  | .ignoreCase => SameCase upcase name other

theorem sameName_iff (name other : Name) (ic : IgnoreCase) :
    SameName upcase name other ic ↔ name.map (fold upcase ic) = other.map (fold upcase ic) := by
  cases ic with
  | caseSensitive =>
    have hid : ∀ name : Name, name.map (fold upcase .caseSensitive) = name := List.map_id
    rw [hid, hid]
    exact Iff.rfl
  | ignoreCase => exact Iff.rfl

/-- The driver tells names right, with or without case, exactly if they differ in length or in front
of the first NUL, or are equal. -/
theorem namesEqual_right_iff (upcase : List UInt16) (name other : Name) (ic : IgnoreCase) :
    (ntfsAreNamesEqual upcase name other ic = true ↔ SameName upcase name other ic) ↔
      (name.length ≠ other.length ∨ beforeNul (fold upcase ic) name ≠
      beforeNul (fold upcase ic) other ∨
        SameName upcase name other ic) := by
  rw [ntfsAreNamesEqual_eq_true_iff]
  constructor
  · intro hright
    exact or_iff_not_imp_left.mpr fun hlength => or_iff_not_imp_left.mpr fun hbefore =>
      hright.mp ⟨not_not.mp hlength, not_not.mp hbefore⟩
  · intro hcases
    refine ⟨fun h => ?_, fun hsame => beforeNul_of_map_eq ((sameName_iff name other ic).mp hsame)⟩
    exact (hcases.resolve_left (not_not.mpr h.1)).resolve_left (not_not.mpr h.2)

/-- The names differ behind a NUL only, and the driver takes them for equal. -/
theorem namesEqual_behind_nul :
    ntfsAreNamesEqual [] [0x41, 0, 0x42] [0x41, 0, 0x43] .caseSensitive = true ∧
      ¬ SameName [] [0x41, 0, 0x42] [0x41, 0, 0x43] .caseSensitive := by
  unfold SameName
  decide

end

/-! ### The order of names -/

section

variable {upcase : List UInt16}

theorem ntfsCollateNames_eq_or (errVal : ℤ) (ic : IgnoreCase) (name1 name2 : Name) :
    ntfsCollateNames upcase errVal ic name1 name2 =
        signOf (compare (name1.map (fold upcase ic)) (name2.map (fold upcase ic))) ∨
      ntfsCollateNames upcase errVal ic name1 name2 = errVal ∧
        (¬ Legal upcase ic name1 ∨ ¬ Legal upcase .caseSensitive name1 ∧
          signOf (compare (name1.map (fold upcase ic)) (name2.map (fold upcase ic))) = 1) := by
  rw [List.compare_eq_compareLex]
  induction name1 generalizing name2 with
  | nil => cases name2 <;> exact .inl rfl
  | cons c1 name1 ih =>
    have hille : ∀ {ic}, isIllegal (fold upcase ic c1) = true → ¬ Legal upcase ic (c1 :: name1) :=
      fun hc hlegal => by simp [hlegal c1 List.mem_cons_self] at hc
    cases name2 with
    | nil =>
      rw [ntfsCollateNames]
      split_ifs with hc
      · exact .inr ⟨rfl, .inr ⟨hille hc, rfl⟩⟩
      · exact .inl rfl
    | cons c2 name2 =>
      rw [ntfsCollateNames, List.map_cons, List.map_cons, List.compareLex_cons_cons]
      split_ifs with hc hlt hgt
      · exact .inr ⟨rfl, .inl (hille hc)⟩
      · rw [Std.compare_eq_lt.mpr hlt]
        exact .inl rfl
      · rw [Std.compare_eq_gt.mpr hgt]
        exact .inl rfl
      · have heq : compare (fold upcase ic c1) (fold upcase ic c2) = .eq :=
          Std.LawfulEqCmp.compare_eq_iff_eq.mpr
            (UInt16.le_antisymm (UInt16.not_lt.mp hgt) (UInt16.not_lt.mp hlt))
        have htail : ∀ {ic}, ¬ Legal upcase ic name1 → ¬ Legal upcase ic (c1 :: name1) :=
          mt fun hlegal c hc => hlegal c (List.mem_cons_of_mem _ hc)
        rw [heq]
        exact (ih name2).imp_right (And.imp_right (Or.imp htail (And.imp_left htail)))

/-- Assumes: a first name that can be collated. The collation gives the lexicographic order of the
folded names. -/
theorem ntfsCollateNames_of_collatable {errVal : ℤ} {name1 : Name}
    (hname : Collatable upcase errVal ic name1) (name2 : Name) :
    ntfsCollateNames upcase errVal ic name1 name2 =
      signOf (compare (name1.map (fold upcase ic)) (name2.map (fold upcase ic))) := by
  rcases ntfsCollateNames_eq_or errVal ic name1 name2 with hsign | ⟨herr, hnot | ⟨hnot, hone⟩⟩
  · exact hsign
  · exact absurd hname.legal hnot
  · rw [herr, hone]
    exact hname.raw.resolve_right hnot

/-- The order of the names in a directory: that of the upper case names, and then that of the
names. -/
def nameOrder (upcase : List UInt16) : Name → Name → Ordering :=
  compareLex (compareOn (List.map (upper upcase))) compare

instance : Std.TransCmp (nameOrder upcase) :=
  inferInstanceAs (Std.TransCmp (compareLex (compareOn (List.map (upper upcase))) compare))

instance : Std.LawfulEqCmp (nameOrder upcase) where
  eq_of_compare h := Std.LawfulEqCmp.eq_of_compare (compareLex_eq_eq.mp h).2

theorem nameOrder_gt_iff : nameOrder upcase name other = .gt ↔ nameOrder upcase other name = .lt :=
  Std.OrientedCmp.gt_iff_lt

theorem nameOrder_of_ne (hne : name.map (upper upcase) ≠ other.map (upper upcase)) :
    nameOrder upcase name other = compare (name.map (upper upcase)) (other.map (upper upcase)) := by
  change (compare (name.map (upper upcase)) (other.map (upper upcase))).then _ = _
  cases hcmp : compare (name.map (upper upcase)) (other.map (upper upcase)) with
  | lt => rfl
  | eq => exact absurd (Std.LawfulEqCmp.eq_of_compare hcmp) hne
  | gt => rfl

end

/-! ### Two collations -/

def collateTwice (upcase : List UInt16) (errVal : ℤ) (name other : Name) : ℤ :=
  let rc := ntfsCollateNames upcase errVal .ignoreCase name other
  if rc ≠ 0 then rc else ntfsCollateNames upcase errVal .caseSensitive name other

section

variable {upcase : List UInt16} {errVal : ℤ} {ic : IgnoreCase} {name other third : Name}

theorem collateTwice_eq (hname : ∀ ic, Collatable upcase errVal ic name) (other : Name) :
    collateTwice upcase errVal name other = signOf (nameOrder upcase name other) := by
  have hid : ∀ name : Name, name.map (fold upcase .caseSensitive) = name := List.map_id
  have hupper : ∀ name : Name, name.map (fold upcase .ignoreCase) = name.map (upper upcase) :=
    fun _ => rfl
  unfold collateTwice nameOrder compareLex compareOn
  rw [ntfsCollateNames_of_collatable (hname .ignoreCase),
    ntfsCollateNames_of_collatable (hname .caseSensitive), hid, hid, hupper, hupper]
  cases compare (name.map (upper upcase)) (other.map (upper upcase)) <;> rfl

theorem collateTwice_eq_or (name other : Name) :
    collateTwice upcase 1 name other = 1 ∨
      collateTwice upcase 1 name other = signOf (nameOrder upcase name other) := by
  have hid : ∀ name : Name, name.map (fold upcase .caseSensitive) = name := List.map_id
  unfold collateTwice nameOrder compareLex
  rcases @ntfsCollateNames_eq_or upcase 1 .ignoreCase name other with hord | ⟨herr, -⟩
  · change _ = signOf (compareOn (List.map (upper upcase)) name other) at hord
    rw [hord]
    cases compareOn (List.map (upper upcase)) name other with
    | lt => exact .inr rfl
    | gt => exact .inl rfl
    | eq =>
      rcases @ntfsCollateNames_eq_or upcase 1 .caseSensitive name other with hord | ⟨herr, -⟩
      · rw [hord, hid, hid]
        exact .inr rfl
      · exact .inl herr
  · rw [herr]
    exact .inl rfl

theorem signOf_swap (order : Ordering) : signOf order.swap = -signOf order := by
  cases order <;> rfl

theorem signOf_nonpos {order : Ordering} : signOf order ≤ 0 ↔ order.isLE = true := by
  cases order <;> decide

theorem ntfsCollateNames_swap (hname : Collatable upcase errVal ic name)
    (hoth : Collatable upcase errVal ic other) :
    ntfsCollateNames upcase errVal ic other name =
      -ntfsCollateNames upcase errVal ic name other := by
  rw [ntfsCollateNames_of_collatable hname, ntfsCollateNames_of_collatable hoth, ← signOf_swap,
    ← Std.OrientedCmp.eq_swap]

theorem ntfsCollateNames_trans (hname : Collatable upcase errVal ic name)
    (hoth : Collatable upcase errVal ic other)
    (hfst : ntfsCollateNames upcase errVal ic name other ≤ 0)
    (hsec : ntfsCollateNames upcase errVal ic other third ≤ 0) :
    ntfsCollateNames upcase errVal ic name third ≤ 0 := by
  rw [ntfsCollateNames_of_collatable hname, signOf_nonpos] at hfst ⊢
  rw [ntfsCollateNames_of_collatable hoth, signOf_nonpos] at hsec
  exact Std.TransCmp.isLE_trans hfst hsec

theorem ntfsCollateNames_eq_zero_iff (hname : Collatable upcase errVal ic name) :
    ntfsCollateNames upcase errVal ic name other = 0 ↔
      name.map (fold upcase ic) = other.map (fold upcase ic) := by
  rw [ntfsCollateNames_of_collatable hname, signOf_eq_zero, Std.LawfulEqCmp.compare_eq_iff_eq]

end

/-- Whatever the upcase table, the collation of names without illegal characters is the
lexicographic order of the folded names, and with case for names that are the same without it is a
strict total order. -/
theorem collation_order (upcase : List UInt16) (errVal : ℤ) :
    (∀ ic name other, Collatable upcase errVal ic name →
      ntfsCollateNames upcase errVal ic name other =
        signOf (compare (name.map (fold upcase ic)) (other.map (fold upcase ic)))) ∧
    (∀ ic name other, Collatable upcase errVal ic name → Collatable upcase errVal ic other →
      ntfsCollateNames upcase errVal ic other name =
      -ntfsCollateNames upcase errVal ic name other) ∧
    (∀ ic name other third, Collatable upcase errVal ic name → Collatable upcase errVal ic other →
      ntfsCollateNames upcase errVal ic name other ≤ 0 →
        ntfsCollateNames upcase errVal ic other third ≤ 0 →
          ntfsCollateNames upcase errVal ic name third ≤ 0) ∧
    Equivalence (fun name other : { name : Name // Collatable upcase errVal .ignoreCase name } =>
      ntfsCollateNames upcase errVal .ignoreCase name other = 0) ∧
    IsStrictTotalOrder { name : Name // ∀ ic, Collatable upcase errVal ic name }
      (fun name other => collateTwice upcase errVal name other = -1) := by
  refine ⟨fun ic name other hname => ntfsCollateNames_of_collatable hname other,
    fun ic name other => ntfsCollateNames_swap, fun ic name other third =>
      ntfsCollateNames_trans, ?_, ?_⟩
  · have hsame : ∀ name other : { name : Name // Collatable upcase errVal .ignoreCase name },
        ntfsCollateNames upcase errVal .ignoreCase name other = 0 ↔
          name.1.map (fold upcase .ignoreCase) = other.1.map (fold upcase .ignoreCase) :=
      fun name other => ntfsCollateNames_eq_zero_iff name.2
    simp only [hsame]
    exact ⟨fun _ => rfl, Eq.symm, Eq.trans⟩
  · have hless : ∀ name other : { name : Name // ∀ ic, Collatable upcase errVal ic name },
        collateTwice upcase errVal name other = -1 ↔ nameOrder upcase name other = .lt := by
      intro name other
      rw [collateTwice_eq name.2, signOf_eq_neg_one]
    simp only [hless]
    refine { trichotomous := fun name other hlt hgt => Subtype.ext ?_, irrefl := fun name => ?_,
             trans := fun name other third => Std.TransCmp.lt_trans }
    · cases hcompare : nameOrder upcase name other with
      | lt => exact absurd hcompare hlt
      | eq => exact Std.LawfulEqCmp.eq_of_compare hcompare
      | gt => exact absurd (nameOrder_gt_iff.mp hcompare) hgt
    · have hself : nameOrder upcase name name = .eq := Std.ReflCmp.compare_self
      rw [hself]
      decide

/-- Letters that differ in case only, in the order that directories have. -/
theorem collation_order_letterA :
    ntfsCollateNames (tableUpToA 0x41) 1 .ignoreCase [0x41] [0x61] =
        signOf (compare ([0x41].map (fold (tableUpToA 0x41) .ignoreCase))
          ([0x61].map (fold (tableUpToA 0x41) .ignoreCase))) ∧
      ntfsCollateNames (tableUpToA 0x41) 1 .ignoreCase [0x61] [0x41] =
        -ntfsCollateNames (tableUpToA 0x41) 1 .ignoreCase [0x41] [0x61] := by
  have hupper : Collatable (tableUpToA 0x41) 1 .ignoreCase [0x41] := ⟨by decide, .inl rfl⟩
  have hlower : Collatable (tableUpToA 0x41) 1 .ignoreCase [0x61] := ⟨by decide, .inl rfl⟩
  obtain ⟨hcompare, hswap, -⟩ := collation_order (tableUpToA 0x41) 1
  exact ⟨hcompare _ _ _ hupper, hswap _ _ _ hupper hlower⟩

end AdvancedOs.Ntfs.NameCollation
