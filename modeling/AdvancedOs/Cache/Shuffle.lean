import Mathlib

/-!
# The order of the probes

`shuffle` exchanges every entry of an array, from the last one down, with one that is chosen below
it or with itself. `shuffle_unbiased` says that the array is permuted, so that `reloadSideChannel`
probes every candidate once, that only the values of `rand() % (i + 1)` count, and that every
permutation comes from exactly one sequence of such values.
-/

namespace AdvancedOs.Cache.Shuffle

open Function Equiv

section

variable {α : Type}

def exchange (order : ℕ → α) (i j : ℕ) : ℕ → α := update (update order i (order j)) j (order i)

/-- The loop of `shuffle` down to 1, with the indices that are chosen in its rounds. -/
def shuffleLoop : List ℕ → (ℕ → α) → ℕ → α
  | [], order => order
  | j :: js, order => shuffleLoop js (exchange order (js.length + 1) j)

/-- The index that the value of `rand()` gives in each round from `i` down to 1. -/
def choices (rand : ℕ → ℕ) : ℕ → List ℕ
  | 0 => []
  | i + 1 => rand (i + 1) % (i + 2) :: choices rand i

/-- `shuffle` for an array of `n` entries. -/
def shuffle (n : ℕ) (rand : ℕ → ℕ) (order : ℕ → α) : ℕ → α :=
  shuffleLoop (choices rand (n - 1)) order

/-- The candidates that `reloadSideChannel` probes, one after the other. -/
def probes (n : ℕ) (rand : ℕ → ℕ) : List ℕ := (List.range n).map (shuffle n rand id)

end

/-- Values of `rand()` that are indices themselves: up to `i` in round `i` of the loop. Those of
which there is no round are left at zero. -/
def Indices (n : ℕ) : Set (ℕ → ℕ) :=
  {rand | ∀ i, rand i ≤ i ∧ (n ≤ i → rand i = 0)}

/-- What can be chosen: in round `i` an index up to `i`. -/
def Valid : List ℕ → Prop
  | [] => True
  | j :: js => j ≤ js.length + 1 ∧ Valid js

/-- The permutation of the positions that the loop performs. -/
def loopPerm : List ℕ → Perm ℕ
  | [] => 1
  | j :: js => swap (js.length + 1) j * loopPerm js

variable {α : Type} {js : List ℕ} {σ : Perm ℕ} {i n x : ℕ}

theorem exchange_eq (order : ℕ → α) (i j : ℕ) : exchange order i j = order ∘ swap i j := by
  funext x
  unfold exchange
  rw [comp_apply, update_apply, update_apply, swap_apply_def]
  split_ifs with hj hi hi <;> simp_all

theorem shuffleLoop_eq (order : ℕ → α) : shuffleLoop js order = order ∘ loopPerm js := by
  induction js generalizing order with
  | nil => rfl
  | cons j js ih =>
    rw [shuffleLoop, ih, exchange_eq]
    rfl

theorem valid_choices (rand : ℕ → ℕ) (i : ℕ) :
    (choices rand i).length = i ∧ Valid (choices rand i) := by
  induction i with
  | zero => exact ⟨rfl, trivial⟩
  | succ i ih =>
    have hlt : rand (i + 1) % (i + 2) < i + 2 := Nat.mod_lt _ (Nat.succ_pos _)
    exact ⟨congrArg Nat.succ ih.1, by rw [ih.1]; omega, ih.2⟩

theorem choices_congr {rand rand' : ℕ → ℕ}
    (hsame : ∀ x, 0 < x → x ≤ i → rand x % (x + 1) = rand' x % (x + 1)) :
    choices rand i = choices rand' i := by
  induction i with
  | zero => rfl
  | succ i ih =>
    rw [choices, choices, hsame (i + 1) i.succ_pos le_rfl,
      ih fun x hpos hle => hsame x hpos (hle.trans i.le_succ)]

theorem eq_of_choices_eq {rand rand' : ℕ → ℕ} (heq : choices rand i = choices rand' i)
    (hpos : 0 < x) (hx : x ≤ i) : rand x % (x + 1) = rand' x % (x + 1) := by
  induction i with
  | zero => omega
  | succ i ih =>
    obtain ⟨hhead, htail⟩ := List.cons.inj heq
    rcases Nat.lt_or_eq_of_le hx with hlt | rfl
    · exact ih htail (Nat.lt_succ_iff.mp hlt)
    · exact hhead

/-- Every sequence of choices comes from values of `rand()` that are indices. -/
theorem exists_indices (hvalid : Valid js) :
    ∃ rand ∈ Indices (js.length + 1), choices rand js.length = js := by
  induction js with
  | nil => exact ⟨0, fun i => ⟨i.zero_le, fun _ => rfl⟩, rfl⟩
  | cons j js ih =>
    obtain ⟨rand, hrand, hchoices⟩ := ih hvalid.2
    refine ⟨update rand (js.length + 1) j, fun i => ?_, ?_⟩
    · rw [update_apply, List.length_cons]
      split_ifs with hi
      · exact ⟨hi ▸ hvalid.1, fun h => by omega⟩
      · exact ⟨(hrand i).1, fun h => (hrand i).2 (by omega)⟩
    · rw [List.length_cons, choices, update_self, Nat.mod_eq_of_lt (Nat.lt_succ_of_le hvalid.1)]
      refine congrArg (List.cons j) ((choices_congr fun x _ hx => ?_).trans hchoices)
      rw [update_of_ne (by omega)]

theorem loopPerm_of_lt (hvalid : Valid js) (hx : js.length < x) : loopPerm js x = x := by
  induction js with
  | nil => rfl
  | cons j js ih =>
    have hj := hvalid.1
    rw [List.length_cons] at hx
    rw [loopPerm, Perm.mul_apply, ih hvalid.2 (by omega),
      swap_apply_of_ne_of_ne (by omega) (by omega)]

theorem apply_le (hfix : ∀ x, i < x → σ x = x) (hx : x ≤ i) : σ x ≤ i := by
  by_contra hlt
  have := σ.injective (hfix _ (not_le.mp hlt))
  omega

/-- The last entry tells which one was chosen for it, and the other rounds permute the rest. -/
theorem existsUnique_loopPerm (hfix : ∀ x, i < x → σ x = x) :
    ∃! js, (js.length = i ∧ Valid js) ∧ loopPerm js = σ := by
  induction i generalizing σ with
  | zero =>
    refine ⟨[], ⟨⟨rfl, trivial⟩, Equiv.ext fun x => ?_⟩, fun js hjs =>
      List.length_eq_zero_iff.mp hjs.1.1⟩
    rcases Nat.eq_zero_or_pos x with rfl | hpos
    · exact (Nat.le_zero.mp (apply_le hfix le_rfl)).symm
    · exact (hfix x hpos).symm
  | succ i ih =>
    obtain ⟨js, ⟨hjs, hperm⟩, honly⟩ := @ih (swap (i + 1) (σ (i + 1)) * σ) fun x hx => by
      rw [Perm.mul_apply]
      rcases Nat.lt_or_eq_of_le hx with hlt | rfl
      · have hle := apply_le hfix (le_refl (i + 1))
        rw [hfix x hlt, swap_apply_of_ne_of_ne (by omega) (by omega)]
      · exact swap_apply_right _ _
    refine ⟨σ (i + 1) :: js, ⟨⟨congrArg Nat.succ hjs.1, ?_, hjs.2⟩, ?_⟩, ?_⟩
    · rw [hjs.1]
      exact apply_le hfix le_rfl
    · rw [loopPerm, hjs.1, hperm, swap_mul_self_mul]
    · rintro (- | ⟨j, rest⟩) ⟨⟨hleng, hvalid⟩, rfl⟩
      · cases hleng
      obtain rfl := Nat.succ.inj hleng
      have hj : loopPerm (j :: rest) (rest.length + 1) = j := by
        rw [loopPerm, Perm.mul_apply, loopPerm_of_lt hvalid.2 (Nat.lt_succ_self _), swap_apply_left]
      rw [hj] at honly ⊢
      rw [honly rest ⟨⟨rfl, hvalid.2⟩, by rw [loopPerm, swap_mul_self_mul]⟩]

theorem map_range_perm (hfix : ∀ x, n - 1 < x → σ x = x) :
    ((List.range n).map σ).Perm (List.range n) := by
  refine (List.subperm_of_subset (List.nodup_range.map σ.injective) fun x hx =>
    ?_).perm_of_length_le
    (by simp)
  obtain ⟨y, hy, rfl⟩ := List.mem_map.mp hx
  rw [List.mem_range] at hy ⊢
  have := apply_le hfix (show y ≤ n - 1 by omega)
  omega

/-- `shuffle` permutes the array, and every candidate is probed once. In round `i` only the value of
`rand() % (i + 1)` counts, and every permutation of the entries comes from exactly one choice of
these values. -/
theorem shuffle_unbiased (n : ℕ) :
    (∀ (rand : ℕ → ℕ) (order : ℕ → α),
        ((List.range n).map (shuffle n rand order)).Perm ((List.range n).map order)) ∧
      (∀ rand, (probes n rand).Perm (List.range n)) ∧
      (∀ (rand : ℕ → ℕ) (order : ℕ → α),
        shuffle n rand order = shuffle n (fun i => rand i % (i + 1)) order) ∧
      Set.BijOn (fun rand => shuffle n rand id) (Indices n)
        {f | ∃ σ : Perm ℕ, (∀ x, n ≤ x → σ x = x) ∧ σ = f} := by
  have hfix (rand : ℕ → ℕ) : ∀ x, n - 1 < x → loopPerm (choices rand (n - 1)) x = x := by
    obtain ⟨hlength, hvalid⟩ := valid_choices rand (n - 1)
    exact fun x hx => loopPerm_of_lt hvalid (hlength.trans_lt hx)
  have hshuffle (rand : ℕ → ℕ) : shuffle n rand id = loopPerm (choices rand (n - 1)) :=
    shuffleLoop_eq id
  refine ⟨fun rand order => ?_, fun rand => ?_, fun rand order => ?_, ?_, ?_, ?_⟩
  · rw [shuffle, shuffleLoop_eq, ← List.map_map]
    exact (map_range_perm (hfix rand)).map order
  · rw [probes, hshuffle]
    exact map_range_perm (hfix rand)
  · rw [shuffle, shuffle, choices_congr fun x _ _ => (Nat.mod_mod _ _).symm]
  · rintro rand -
    refine ⟨_, fun x hx => ?_, (hshuffle rand).symm⟩
    -- Without an entry there is no round, and nothing moves at all.
    rcases Nat.eq_zero_or_pos n with rfl | hpos
    · rfl
    · exact hfix rand x (by omega)
  · intro rand hrand other hother heq
    dsimp only at heq
    rw [hshuffle, hshuffle] at heq
    have hchoices := (existsUnique_loopPerm (hfix rand)).unique ⟨valid_choices rand _, rfl⟩
      ⟨valid_choices other _, (DFunLike.coe_injective heq).symm⟩
    funext x
    by_cases hx : 0 < x ∧ x ≤ n - 1
    · have hmod := eq_of_choices_eq hchoices hx.1 hx.2
      rwa [Nat.mod_eq_of_lt (Nat.lt_succ_of_le (hrand x).1),
        Nat.mod_eq_of_lt (Nat.lt_succ_of_le (hother x).1)] at hmod
    · have hzero : ∀ r ∈ Indices n, r x = 0 := fun r hr => by
        have := hr x
        omega
      rw [hzero rand hrand, hzero other hother]
  · rintro f ⟨σ, hσ, rfl⟩
    obtain ⟨js, ⟨⟨hlength, hvalid⟩, heq⟩, -⟩ :=
      @existsUnique_loopPerm σ (n - 1) fun x hx => hσ x (by omega)
    obtain ⟨rand, hrand, hchoices⟩ := exists_indices hvalid
    refine ⟨rand, fun i => ⟨(hrand i).1, fun hi => ?_⟩, ?_⟩
    · rcases Nat.eq_zero_or_pos i with rfl | hpos
      · exact Nat.le_zero.mp (hrand 0).1
      · exact (hrand i).2 (by omega)
    · dsimp only
      rw [hshuffle, ← hlength, hchoices, heq]

end AdvancedOs.Cache.Shuffle
