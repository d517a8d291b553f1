import AdvancedOs.Foundation.OrderedLocks
import AdvancedOs.Foundation.FamilySums

/-!
# Transfers between locked queues

`safe_double_lock_transfer` moves an item from one queue to another with the locks of both. It takes
the lock of the queue with the lower id first. Here threads run any such calls, and a schedule tells
whose turn it is; a thread that waits for a lock has no step. Counts of items are 32-bit integers
that wrap around.

A state is `Safe` if some thread can go on unless all have finished, if no item is lost but those on
their way, and if no queue that began with a count of zero or more has less. Threads never block
each other (`Locked.exists_step`). A transfer into a queue that is full makes its count negative
(`not_safe_full`). A state is safe just when no step up to it does that (`safe_iff`). All calls come
to their end in any case (`run_finishes`).
-/

namespace AdvancedOs.Lottery.DoubleLock

open Foundation.OrderedLocks Foundation.FamilySums Function Option

/-! ### Threads and queues -/

/-- The value of an `int`. -/
def int32 (x : ℤ) : ℤ := Int.bmod x (2 ^ 32)

def intMax : ℤ := 2 ^ 31 - 1

def IsInt32 (x : ℤ) : Prop := -2 ^ 31 ≤ x ∧ x ≤ intMax

/-- A call of `safe_double_lock_transfer` for two queues. -/
structure Transfer (Queue : Type) where
  q1 : Queue
  q2 : Queue
  ne : q1 ≠ q2

/-- What a call does next. -/
inductive Phase
  | lockFirst | lockSecond | test | decrement | increment | unlockSecond | unlockFirst
deriving DecidableEq

/-- A thread is between calls, or in a call, with more calls to follow. -/
inductive Thread (Queue : Type)
  | idle (calls : List (Transfer Queue))
  | running (call : Transfer Queue) (phase : Phase) (calls : List (Transfer Queue))

/-- The owners of the locks, the counts of items, and the threads. -/
structure State (T Queue : Type) where
  owner : Queue → Option T
  items : Queue → ℤ
  threads : T → Thread Queue

section

variable {T Queue : Type} [DecidableEq T] [DecidableEq Queue] (cpuId : Queue ↪ ℤ)

def Transfer.first (call : Transfer Queue) : Queue :=
  if cpuId call.q1 < cpuId call.q2 then call.q1 else call.q2

def Transfer.second (call : Transfer Queue) : Queue :=
  if cpuId call.q1 < cpuId call.q2 then call.q2 else call.q1

def State.goto (state : State T Queue) (t : T) (thread : Thread Queue) : State T Queue :=
  { state with threads := update state.threads t thread }

def State.setOwner (state : State T Queue) (q : Queue) (t : Option T) : State T Queue :=
  { state with owner := update state.owner q t }

def State.setItems (state : State T Queue) (q : Queue) (count : ℤ) : State T Queue :=
  { state with items := update state.items q (int32 count) }

/-- A step of a thread. There is none if the thread has finished or waits for a lock. -/
def step (state : State T Queue) (t : T) : Option (State T Queue) :=
  match state.threads t with
  | .idle [] => none
  | .idle (call :: calls) => some (state.goto t (.running call .lockFirst calls))
  | .running call .lockFirst calls =>
    if state.owner (call.first cpuId) = none then
      some ((state.setOwner (call.first cpuId) (some t)).goto t (.running call .lockSecond calls))
    else none
  | .running call .lockSecond calls =>
    if state.owner (call.second cpuId) = none then
      some ((state.setOwner (call.second cpuId) (some t)).goto t (.running call .test calls))
    else none
  | .running call .test calls =>
    some (state.goto t
      (.running call (if 0 < state.items call.q1 then .decrement else .unlockSecond) calls))
  | .running call .decrement calls =>
    some ((state.setItems call.q1 (state.items call.q1 - 1)).goto t
      (.running call .increment calls))
  | .running call .increment calls =>
    some ((state.setItems call.q2 (state.items call.q2 + 1)).goto t
      (.running call .unlockSecond calls))
  | .running call .unlockSecond calls =>
    some ((state.setOwner (call.second cpuId) none).goto t (.running call .unlockFirst calls))
  | .running call .unlockFirst calls =>
    some ((state.setOwner (call.first cpuId) none).goto t (.idle calls))

def run : State T Queue → List T → Option (State T Queue)
  | state, [] => some state
  | state, t :: schedule => (step cpuId state t).bind fun next => run next schedule

/-- The next step of the thread puts an item into a queue that has as many as an `int` can count. -/
def State.overflowsAt (state : State T Queue) (t : T) : Bool :=
  match state.threads t with
  | .running call .increment _ => state.items call.q2 = intMax
  | _ => false

/-- The number of steps that put an item into a full queue. -/
def overflows : State T Queue → List T → ℕ
  | _, [] => 0
  | state, t :: schedule => (state.overflowsAt t).toNat +
      (step cpuId state t).elim 0 fun next => overflows next schedule

end

def initial {T Queue : Type} (items : Queue → ℤ) (calls : T → List (Transfer Queue)) :
    State T Queue where
  owner _ := none
  items := items
  threads t := .idle (calls t)

/-! ### What is promised -/

section

variable {T Queue : Type}

def Thread.Finished (thread : Thread Queue) : Prop := thread = .idle []

/-- The number of items that the thread has taken from a queue and not yet put into the other
one. -/
def Thread.inTransit : Thread Queue → ℤ
  | .running _ .increment _ => 1
  | _ => 0

variable [DecidableEq T] [DecidableEq Queue] [Fintype T] [Fintype Queue]

/-- Some thread can go on if not all have finished, items are in the queues or on their way, and no
count that was not negative is. -/
structure Safe (cpuId : Queue ↪ ℤ) (items : Queue → ℤ) (state : State T Queue) : Prop where
  progress : (∃ t, ¬ (state.threads t).Finished) →
    ∃ t, ¬ (state.threads t).Finished ∧ (step cpuId state t).isSome
  conserved : ∑ q, state.items q + ∑ t, (state.threads t).inTransit = ∑ q, items q
  nonneg : ∀ q, 0 ≤ items q → 0 ≤ state.items q

end

/-! ### Locks -/

section

variable {Queue : Type} (cpuId : Queue ↪ ℤ) (call : Transfer Queue)

theorem Transfer.cpuId_lt : cpuId (call.first cpuId) < cpuId (call.second cpuId) := by
  unfold Transfer.first Transfer.second
  split_ifs with hlt
  · exact hlt
  · have hne : cpuId call.q1 ≠ cpuId call.q2 := fun h => call.ne (cpuId.injective h)
    omega

theorem Transfer.second_ne_first : call.second cpuId ≠ call.first cpuId := by
  intro h
  have hlt := call.cpuId_lt cpuId
  rw [h] at hlt
  exact lt_irrefl _ hlt

theorem Transfer.q1_eq : call.q1 = call.first cpuId ∨ call.q1 = call.second cpuId := by
  unfold Transfer.first Transfer.second
  split_ifs
  · exact .inl rfl
  · exact .inr rfl

theorem Transfer.q2_eq : call.q2 = call.first cpuId ∨ call.q2 = call.second cpuId := by
  unfold Transfer.first Transfer.second
  split_ifs
  · exact .inr rfl
  · exact .inl rfl

end

section

variable {T Queue : Type} {cpuId : Queue ↪ ℤ} {state next : State T Queue}

def Thread.Holds (cpuId : Queue ↪ ℤ) : Thread Queue → Queue → Prop
  | .idle _, _ => False
  | .running _ .lockFirst _, _ => False
  | .running call .lockSecond _, q => q = call.first cpuId
  | .running call .unlockFirst _, q => q = call.first cpuId
  | .running call _ _, q => q = call.first cpuId ∨ q = call.second cpuId

def Thread.TakesFrom : Thread Queue → Queue → Prop
  | .running call .decrement _, q => q = call.q1
  | _, _ => False

theorem Thread.TakesFrom.holds {thread : Thread Queue} {q : Queue} (htakes : thread.TakesFrom q) :
    thread.Holds cpuId q := by
  cases thread with
  | idle calls => exact htakes.elim
  | running call phase calls =>
    cases phase with
    | decrement =>
      obtain rfl := htakes
      exact call.q1_eq cpuId
    | lockFirst | lockSecond | test | increment | unlockSecond | unlockFirst => exact htakes.elim

def Thread.PutsInto : Thread Queue → Queue → Prop
  | .running call .increment _, q => q = call.q2
  | _, _ => False

theorem Thread.PutsInto.holds {thread : Thread Queue} {q : Queue} (hputs : thread.PutsInto q) :
    thread.Holds cpuId q := by
  cases thread with
  | idle calls => exact hputs.elim
  | running call phase calls =>
    cases phase with
    | increment =>
      obtain rfl := hputs
      exact call.q2_eq cpuId
    | lockFirst | lockSecond | test | decrement | unlockSecond | unlockFirst => exact hputs.elim

/-- The locks are owned by those that hold them. -/
def Locked (cpuId : Queue ↪ ℤ) (state : State T Queue) : Prop :=
  ∀ q t, state.owner q = some t ↔ (state.threads t).Holds cpuId q

theorem Locked.unique (hlock : Locked cpuId state) {q : Queue} {u v : T}
    (hu : (state.threads u).Holds cpuId q) (hv : (state.threads v).Holds cpuId q) : u = v := by
  have howner := (hlock q u).mpr hu
  rw [(hlock q v).mpr hv] at howner
  exact (some.inj howner).symm

variable [DecidableEq T]

theorem goto_threads (state : State T Queue) (t u : T) (thread : Thread Queue) :
    (state.goto t thread).threads u = if u = t then thread else state.threads u :=
  update_apply state.threads t thread u

theorem goto_holds_iff {t : T} {old thread : Thread Queue} (hold : state.threads t = old)
    (hh : ∀ q, thread.Holds cpuId q ↔ old.Holds cpuId q) (q : Queue) (u : T) :
    ((state.goto t thread).threads u).Holds cpuId q ↔ (state.threads u).Holds cpuId q := by
  rw [goto_threads]
  split_ifs with hut
  · rw [hut, hold]
    exact hh q
  · exact Iff.rfl

variable [DecidableEq Queue] {t : T}

/-- What a step does: it goes on with the locks that it has, takes a free lock, gives one back,
takes an item from a queue that has one, or puts it into a queue, with the lock of the queue. -/
inductive Move (cpuId : Queue ↪ ℤ) (state : State T Queue) (t : T) : State T Queue → Prop
  | control {old thread : Thread Queue} :
      state.threads t = old → (∀ q, thread.Holds cpuId q ↔ old.Holds cpuId q) →
      (∀ q, thread.TakesFrom q → 0 < state.items q) → old.inTransit = 0 → thread.inTransit = 0 →
      Move cpuId state t (state.goto t thread)
  | acquire {old thread : Thread Queue} {q : Queue} :
      state.threads t = old → state.owner q = none →
      (∀ r, thread.Holds cpuId r ↔ old.Holds cpuId r ∨ r = q) →
      (∀ q, ¬ thread.TakesFrom q) → old.inTransit = 0 → thread.inTransit = 0 →
      Move cpuId state t ((state.setOwner q (some t)).goto t thread)
  | release {old thread : Thread Queue} {q : Queue} :
      state.threads t = old → old.Holds cpuId q →
      (∀ r, thread.Holds cpuId r ↔ old.Holds cpuId r ∧ r ≠ q) →
      (∀ q, ¬ thread.TakesFrom q) → old.inTransit = 0 → thread.inTransit = 0 →
      Move cpuId state t ((state.setOwner q none).goto t thread)
  | take {old thread : Thread Queue} {q : Queue} :
      state.threads t = old → old.TakesFrom q →
      (∀ r, thread.Holds cpuId r ↔ old.Holds cpuId r) →
      (∀ q, ¬ thread.TakesFrom q) → old.inTransit = 0 → thread.inTransit = 1 →
      Move cpuId state t ((state.setItems q (state.items q - 1)).goto t thread)
  | put {old thread : Thread Queue} {q : Queue} :
      state.threads t = old → old.PutsInto q →
      (∀ r, thread.Holds cpuId r ↔ old.Holds cpuId r) →
      (∀ q, ¬ thread.TakesFrom q) → old.inTransit = 1 → thread.inTransit = 0 →
      Move cpuId state t ((state.setItems q (state.items q + 1)).goto t thread)

theorem Move.of_step (hstep : step cpuId state t = some next) : Move cpuId state t next := by
  unfold step at hstep
  split at hstep
  case h_1 => cases hstep
  case h_2 call calls hthr =>
    obtain rfl := some.inj hstep
    exact .control hthr (fun _ => Iff.rfl) nofun rfl rfl
  case h_3 call calls hthr =>
    split_ifs at hstep with hfree
    obtain rfl := some.inj hstep
    exact .acquire hthr hfree (fun _ => (or_iff_right id).symm) nofun rfl rfl
  case h_4 call calls hthr =>
    split_ifs at hstep with hfree
    obtain rfl := some.inj hstep
    exact .acquire hthr hfree (fun _ => Iff.rfl) nofun rfl rfl
  case h_5 call calls hthr =>
    obtain rfl := some.inj hstep
    by_cases hpos : 0 < state.items call.q1
    · rw [if_pos hpos]
      refine .control hthr (fun _ => Iff.rfl) ?_ rfl rfl
      rintro q rfl
      exact hpos
    · rw [if_neg hpos]
      exact .control hthr (fun _ => Iff.rfl) nofun rfl rfl
  case h_6 call calls hthr =>
    obtain rfl := some.inj hstep
    exact .take hthr rfl (fun _ => Iff.rfl) nofun rfl rfl
  case h_7 call calls hthr =>
    obtain rfl := some.inj hstep
    exact .put hthr rfl (fun _ => Iff.rfl) nofun rfl rfl
  case h_8 call calls hthr =>
    obtain rfl := some.inj hstep
    have hne := call.second_ne_first cpuId
    refine .release hthr (.inr rfl) (fun q => ⟨?_, ?_⟩) nofun rfl rfl
    · rintro rfl
      exact ⟨.inl rfl, hne.symm⟩
    · rintro ⟨rfl | rfl, hsec⟩
      · rfl
      · exact absurd rfl hsec
  case h_9 call calls hthr =>
    obtain rfl := some.inj hstep
    refine .release hthr rfl (fun q => ⟨False.elim, ?_⟩) nofun rfl rfl
    rintro ⟨rfl, hfst⟩
    exact absurd rfl hfst

theorem Locked.move (hlock : Locked cpuId state) (hmove : Move cpuId state t next) :
    Locked cpuId next := by
  intro r u
  have hr := hlock r u
  cases hmove with
  | control hold hh => exact hr.trans (goto_holds_iff hold hh r u).symm
  | take hold _ hh => exact hr.trans (goto_holds_iff hold hh r u).symm
  | put hold _ hh => exact hr.trans (goto_holds_iff hold hh r u).symm
  | @acquire old thread q hold hfree hh =>
    rw [goto_threads]
    change update state.owner q (some t) r = some u ↔ _
    rw [update_apply]
    split_ifs with hrq hut hut
    · exact iff_of_true (by rw [hut]) ((hh r).mpr (.inr hrq))
    · rw [hrq, hfree] at hr
      rw [hrq]
      exact iff_of_false (fun h => hut (some.inj h).symm) fun h => nomatch hr.mpr h
    · rw [hh, or_iff_left hrq, ← hold, ← hut]
      exact hr
    · exact hr
  | @release old thread q hold hheld hh =>
    have howner : state.owner q = some t := (hlock q t).mpr (hold ▸ hheld)
    rw [goto_threads]
    change update state.owner q none r = some u ↔ _
    rw [update_apply]
    split_ifs with hrq hut hut
    · exact iff_of_false nofun fun h => ((hh r).mp h).2 hrq
    · rw [hrq, howner] at hr
      rw [hrq]
      exact iff_of_false nofun fun h => hut (some.inj (hr.mpr h)).symm
    · rw [hh, and_iff_left hrq, ← hold, ← hut]
      exact hr
    · exact hr

def Waits (cpuId : Queue ↪ ℤ) (state : State T Queue) (t : T) (q : Queue) : Prop :=
  state.owner q ≠ none ∧ ∃ call calls,
    state.threads t = .running call .lockFirst calls ∧ q = call.first cpuId ∨
      state.threads t = .running call .lockSecond calls ∧ q = call.second cpuId

theorem finished_or_waits (hstep : step cpuId state t = none) :
    (state.threads t).Finished ∨ ∃ q, Waits cpuId state t q := by
  unfold step at hstep
  split at hstep
  case h_1 hthr => exact .inl hthr
  case h_3 call calls hthr =>
    split_ifs at hstep with hfree
    exact .inr ⟨_, hfree, call, calls, .inl ⟨hthr, rfl⟩⟩
  case h_4 call calls hthr =>
    split_ifs at hstep with hfree
    exact .inr ⟨_, hfree, call, calls, .inr ⟨hthr, rfl⟩⟩
  all_goals cases hstep

/-- Assumes: locks that are owned by those that hold them. If not all threads have finished, one of
them can go on. -/
theorem Locked.exists_step [Finite Queue] (hlock : Locked cpuId state)
    (hunfi : ∃ t, ¬ (state.threads t).Finished) :
    ∃ t, ¬ (state.threads t).Finished ∧ (step cpuId state t).isSome := by
  by_contra! hbloc
  have hwaits : ∀ t, ¬ (state.threads t).Finished → ∃ q, Waits cpuId state t q := fun t ht =>
    (finished_or_waits (not_isSome_iff_eq_none.mp (hbloc t ht))).resolve_left ht
  have hheld : ∀ t q, Waits cpuId state t q → ∃ u, (state.threads u).Holds cpuId q := by
    intro t q hwait
    obtain ⟨u, hu⟩ := ne_none_iff_exists'.mp hwait.1
    exact ⟨u, (hlock q u).mp hu⟩
  have hrank : ∀ t q r, (state.threads t).Holds cpuId q → Waits cpuId state t r →
      cpuId q < cpuId r := by
    rintro t q r hh ⟨-, call, calls, ⟨hthr, rfl⟩ | ⟨hthr, rfl⟩⟩
    · rw [hthr] at hh
      exact hh.elim
    · rw [hthr] at hh
      obtain rfl := hh
      exact call.cpuId_lt cpuId
  obtain ⟨t, ht⟩ := hunfi
  obtain ⟨r, hr⟩ := hwaits t ht
  obtain ⟨u, q, hh, hnot⟩ := exists_not_waiting hheld hrank hr
  refine absurd (hwaits u fun hfin => ?_) (not_exists.mpr hnot)
  rw [hfin] at hh
  exact hh

/-- The number of steps to the end of the call, at most. -/
def Phase.stepsLeft : Phase → ℕ
  | lockFirst => 7
  | lockSecond => 6
  | test => 5
  | decrement => 4
  | increment => 3
  | unlockSecond => 2
  | unlockFirst => 1

def Thread.stepsLeft : Thread Queue → ℕ
  | .idle calls => 8 * calls.length
  | .running _ phase calls => phase.stepsLeft + 8 * calls.length

theorem stepsLeft_lt (hstep : step cpuId state t = some next) :
    (next.threads t).stepsLeft < (state.threads t).stepsLeft ∧ ∀ u, u ≠ t →
      next.threads u = state.threads u := by
  unfold step at hstep
  split at hstep
  case h_1 => cases hstep
  case' h_3 | h_4 => split_ifs at hstep
  all_goals
    obtain rfl := some.inj hstep
    simp_all [goto_threads, State.setOwner, State.setItems, Thread.stepsLeft, Phase.stepsLeft]
  · omega
  · split_ifs <;> decide

theorem Locked.run [Fintype T] {last : State T Queue} {schedule : List T}
    (hlock : Locked cpuId state) (hrun : run cpuId state schedule = some last) : Locked cpuId last ∧
      schedule.length + ∑ t, (last.threads t).stepsLeft ≤ ∑ t, (state.threads t).stepsLeft := by
  induction schedule generalizing state with
  | nil =>
    obtain rfl := some.inj hrun
    exact ⟨hlock, (zero_add _).le⟩
  | cons t schedule ih =>
    obtain ⟨next, hstep, hrest⟩ := bind_eq_some_iff.mp hrun
    obtain ⟨hlast, hle⟩ := ih (hlock.move (.of_step hstep)) hrest
    obtain ⟨hlt, hoths⟩ := stepsLeft_lt hstep
    have hsum : ∑ u, (next.threads u).stepsLeft < ∑ u, (state.threads u).stepsLeft := by
      refine Finset.sum_lt_sum (fun u _ => ?_) ⟨t, Finset.mem_univ t, hlt⟩
      by_cases hut : u = t
      · exact hut ▸ hlt.le
      · rw [hoths u hut]
    rw [List.length_cons]
    exact ⟨hlast, by omega⟩

end

/-! ### Counts -/

theorem int32_of_isInt32 {x : ℤ} (hx : IsInt32 x) : int32 x = x := by
  unfold IsInt32 intMax at hx
  exact Int.bmod_eq_of_le (by omega) (by omega)

theorem isInt32_int32 (x : ℤ) : IsInt32 (int32 x) := by
  have hlow := Int.le_bmod (x := x) (m := 2 ^ 32) (by decide)
  have hhigh := Int.bmod_lt (x := x) (m := 2 ^ 32) (by decide)
  unfold IsInt32 intMax int32
  omega

section

variable {T Queue : Type}

theorem overflowsAt_eq_false {state : State T Queue} {t : T}
    (htransit : (state.threads t).inTransit = 0) :
    state.overflowsAt t = false := by
  unfold State.overflowsAt
  split
  · next hthread =>
    rw [hthread] at htransit
    cases htransit
  · rfl

theorem overflowsAt_eq {state : State T Queue} {t : T} {q : Queue}
    (hputs : (state.threads t).PutsInto q) :
    state.overflowsAt t = decide (state.items q = intMax) := by
  unfold State.overflowsAt
  split
  · next hthread =>
    rw [hthread] at hputs
    rw [show q = _ from hputs]
  · next hother =>
    unfold Thread.PutsInto at hputs
    split at hputs
    · next hthread => exact absurd hthread (hother _ _)
    · exact hputs.elim

theorem sum_inTransit_goto [DecidableEq T] [Fintype T] (state : State T Queue) (t : T)
    (thread : Thread Queue) : ∑ u, ((state.goto t thread).threads u).inTransit =
      ∑ u, (state.threads u).inTransit + (thread.inTransit - (state.threads t).inTransit) :=
  sum_update state.threads (fun _ thread => thread.inTransit) t thread

theorem sum_setItems [DecidableEq Queue] [Fintype Queue] (state : State T Queue) (q : Queue)
    (count : ℤ) : ∑ r, (state.setItems q count).items r = ∑ r,
      state.items r + (int32 count - state.items q) :=
  sum_update state.items (fun _ count => count) q (int32 count)

end

section

variable {T Queue : Type} [DecidableEq T] [DecidableEq Queue] [Fintype T] [Fintype Queue]
  {cpuId : Queue ↪ ℤ} {items : Queue → ℤ} {state next : State T Queue} {t : T} {lost : ℕ}
variable {old thread : Thread Queue} {q : Queue}

/-- What holds of the counts in a state up to which `lost` counts have overflowed. -/
structure Counted (items : Queue → ℤ) (lost : ℕ) (state : State T Queue) : Prop where
  takes_pos : ∀ t q, (state.threads t).TakesFrom q → 0 < state.items q
  isInt32 : ∀ q, IsInt32 (state.items q)
  conserved : ∑ q, state.items q + ∑ t, (state.threads t).inTransit + 2 ^ 32 * lost = ∑ q, items q
  nonneg : lost = 0 → ∀ q, 0 ≤ items q → 0 ≤ state.items q

omit [DecidableEq T] in
theorem Counted.setOwner (hcounted : Counted items lost state) (q : Queue) (owner : Option T) :
    Counted items lost (state.setOwner q owner) :=
  ⟨hcounted.takes_pos, hcounted.isInt32, hcounted.conserved, hcounted.nonneg⟩

omit [DecidableEq Queue] in
theorem Counted.goto (hcounted : Counted items lost state) (hold : state.threads t = old)
    (htakes : ∀ q, thread.TakesFrom q → 0 < state.items q) (hfrom : old.inTransit = 0)
    (hto : thread.inTransit = 0) : Counted items lost (state.goto t thread) := by
  have hsum := sum_inTransit_goto state t thread
  rw [hold, hfrom, hto, sub_zero, add_zero] at hsum
  refine ⟨fun u q hu => ?_, hcounted.isInt32, ?_, hcounted.nonneg⟩
  · rw [goto_threads] at hu
    split_ifs at hu with hut
    · exact htakes q hu
    · exact hcounted.takes_pos u q hu
  · rw [hsum]
    exact hcounted.conserved

/-- Assumes: a thread with the lock of the queue, and a new count that has overflowed `wraps`
times. -/
theorem Counted.setItems (hlock : Locked cpuId state) (hcounted : Counted items lost state)
    {count : ℤ} {wraps : ℕ} (hold : state.threads t = old) (hholds : old.Holds cpuId q)
    (hnot : ∀ q, ¬ thread.TakesFrom q)
    (hcount : int32 count - state.items q + 2 ^ 32 * wraps = old.inTransit - thread.inTransit)
    (hnonneg : wraps = 0 → 0 ≤ state.items q → 0 ≤ int32 count) :
    Counted items (wraps + lost) ((state.setItems q count).goto t thread) := by
  have hitems : ∀ r, ((state.setItems q count).goto t thread).items r =
      if r = q then int32 count else state.items r := update_apply state.items q (int32 count)
  refine ⟨fun u r hu => ?_, fun r => ?_, ?_, fun hzero r hr => ?_⟩
  · rw [goto_threads] at hu
    split_ifs at hu with hut
    · exact absurd hu (hnot r)
    · -- Another thread that is about to take an item has the lock of its queue.
      have hrq : r ≠ q := by
        rintro rfl
        exact hut (hlock.unique (Thread.TakesFrom.holds hu) (hold ▸ hholds))
      rw [hitems, if_neg hrq]
      exact hcounted.takes_pos u r hu
  · rw [hitems]
    split_ifs
    · exact isInt32_int32 count
    · exact hcounted.isInt32 r
  · have hsum := sum_inTransit_goto (state.setItems q count) t thread
    have hsum' := sum_setItems state q count
    have hconserved := hcounted.conserved
    change _ = ∑ u, (state.threads u).inTransit +
      (thread.inTransit - (state.threads t).inTransit) at hsum
    rw [hold] at hsum
    change ∑ r, (state.setItems q count).items r + _ + _ = _
    push_cast
    omega
  · have hbefore := hcounted.nonneg (by omega) r hr
    rw [hitems]
    split_ifs with hrq
    · exact hnonneg (by omega) (hrq ▸ hbefore)
    · exact hbefore

theorem Counted.take (hlock : Locked cpuId state) (hcounted : Counted items lost state)
    (hold : state.threads t = old) (htakes : old.TakesFrom q) (hnot : ∀ q, ¬ thread.TakesFrom q)
    (hfrom : old.inTransit = 0) (hto : thread.inTransit = 1) :
    Counted items (0 + lost) ((state.setItems q (state.items q - 1)).goto t thread) := by
  have hpos := hcounted.takes_pos t q (hold ▸ htakes)
  have hint := hcounted.isInt32 q
  have hcount : int32 (state.items q - 1) = state.items q - 1 := by
    refine int32_of_isInt32 ⟨by omega, ?_⟩
    exact (Int.sub_le_self _ (by decide)).trans hint.2
  refine hcounted.setItems hlock hold htakes.holds hnot ?_ fun _ _ => by omega
  rw [hcount, hfrom, hto]
  omega

/-- The count of a full queue drops by `2 ^ 32` when an item is put into it. -/
theorem Counted.put (hlock : Locked cpuId state) (hcounted : Counted items lost state)
    (hold : state.threads t = old) (hputs : old.PutsInto q) (hnot : ∀ q, ¬ thread.TakesFrom q)
    (hfrom : old.inTransit = 1) (hto : thread.inTransit = 0) :
    Counted items ((decide (state.items q = intMax)).toNat + lost)
      ((state.setItems q (state.items q + 1)).goto t thread) := by
  have hint := hcounted.isInt32 q
  by_cases hfull : state.items q = intMax
  · refine hcounted.setItems hlock hold hputs.holds hnot ?_ ?_
    · rw [hfrom, hto, hfull, decide_eq_true rfl]
      rfl
    · simp [hfull]
  · have hcount : int32 (state.items q + 1) = state.items q + 1 :=
      int32_of_isInt32 ⟨(hint.1.trans (Int.le.intro 1 rfl)), by have := hint.2; omega⟩
    refine hcounted.setItems hlock hold hputs.holds hnot ?_ fun _ _ => by omega
    rw [hcount, hfrom, hto, decide_eq_false hfull]
    simp

theorem Counted.move (hlock : Locked cpuId state) (hcounted : Counted items lost state)
    (hmove : Move cpuId state t next) :
    Counted items ((state.overflowsAt t).toNat + lost) next := by
  cases hmove with
  | control hold _ htakes hfrom hto =>
    rw [overflowsAt_eq_false (hold ▸ hfrom), Bool.toNat_false, zero_add]
    exact hcounted.goto hold htakes hfrom hto
  | acquire hold _ _ hnot hfrom hto =>
    rw [overflowsAt_eq_false (hold ▸ hfrom), Bool.toNat_false, zero_add]
    exact (hcounted.setOwner _ _).goto hold (fun r hr => absurd hr (hnot r)) hfrom hto
  | release hold _ _ hnot hfrom hto =>
    rw [overflowsAt_eq_false (hold ▸ hfrom), Bool.toNat_false, zero_add]
    exact (hcounted.setOwner _ _).goto hold (fun r hr => absurd hr (hnot r)) hfrom hto
  | take hold htakes _ hnot hfrom hto =>
    rw [overflowsAt_eq_false (hold ▸ hfrom), Bool.toNat_false]
    exact hcounted.take hlock hold htakes hnot hfrom hto
  | put hold hputs _ hnot hfrom hto =>
    rw [overflowsAt_eq (hold ▸ hputs)]
    exact hcounted.put hlock hold hputs hnot hfrom hto

end

/-! ### Schedules -/

section

variable {T Queue : Type} [DecidableEq T] [DecidableEq Queue] [Fintype T] [Fintype Queue]
  {cpuId : Queue ↪ ℤ} {items : Queue → ℤ}

theorem Counted.run {state last : State T Queue} {schedule : List T} {lost : ℕ}
    (hlock : Locked cpuId state) (hcounted : Counted items lost state)
    (hrun : run cpuId state schedule = some last) :
    Counted items (overflows cpuId state schedule + lost) last := by
  induction schedule generalizing state lost with
  | nil =>
    obtain rfl := some.inj hrun
    exact (zero_add lost).symm ▸ hcounted
  | cons t schedule ih =>
    obtain ⟨next, hstep, hrest⟩ := bind_eq_some_iff.mp hrun
    have hmove := Move.of_step hstep
    have hlast := ih (hlock.move hmove) (hcounted.move hlock hmove) hrest
    rw [overflows, hstep, elim_some]
    rwa [Nat.add_left_comm, ← add_assoc] at hlast

/-- Assumes: counts of items that are `int`s. A state that any calls reach is safe just when no step
up to it has put an item into a full queue, and in any case some thread can go on. -/
theorem safe_iff (cpuId : Queue ↪ ℤ) (hint : ∀ q, IsInt32 (items q))
    (calls : T → List (Transfer Queue)) (schedule : List T) {state : State T Queue}
    (hrun : run cpuId (initial items calls) schedule = some state) :
    (Safe cpuId items state ↔ overflows cpuId (initial items calls) schedule = 0) ∧
      ((∃ t, ¬ (state.threads t).Finished) →
        ∃ t, ¬ (state.threads t).Finished ∧ (step cpuId state t).isSome) := by
  have hinitial : Counted items 0 (initial items calls) := by
    refine ⟨fun t q ht => ht.elim, hint, ?_, fun _ q hq => hq⟩
    simp [initial, Thread.inTransit]
  have hlocked : Locked cpuId (initial items calls) := fun q t => iff_of_false nofun id
  have hlast := (hlocked.run hrun).1
  have hcounted := hinitial.run hlocked hrun
  refine ⟨⟨fun hsafe => ?_, fun hzero => ?_⟩, hlast.exists_step⟩
  · have hconserved := hcounted.conserved
    rw [hsafe.conserved] at hconserved
    omega
  · rw [hzero] at hcounted
    refine ⟨hlast.exists_step, ?_, hcounted.nonneg rfl⟩
    simpa using hcounted.conserved

/-- For any counts of items, a run has at most eight steps for each call, and it ends only when all
threads have finished and all locks are free. -/
theorem run_finishes (cpuId : Queue ↪ ℤ) (items : Queue → ℤ) (calls : T → List (Transfer Queue))
    (schedule : List T) {state : State T Queue}
    (hrun : run cpuId (initial items calls) schedule = some state) :
    schedule.length ≤ 8 * ∑ t, (calls t).length ∧ ((∀ t, step cpuId state t = none) →
      (∀ t, (state.threads t).Finished) ∧ ∀ q, state.owner q = none) := by
  have hinit : Locked cpuId (initial items calls) := fun q t => iff_of_false nofun id
  obtain ⟨hlock, hle⟩ := hinit.run hrun
  have hsum : ∑ t, ((initial items calls).threads t).stepsLeft = 8 * ∑ t, (calls t).length :=
    (Finset.mul_sum ..).symm
  refine ⟨by omega, fun hnone => ?_⟩
  have hfin : ∀ t, (state.threads t).Finished := by
    by_contra! hunfi
    obtain ⟨t, -, hsome⟩ := hlock.exists_step hunfi
    rw [hnone t] at hsome
    cases hsome
  refine ⟨hfin, fun q => eq_none_iff_forall_ne_some.mpr fun t howner => ?_⟩
  have hh := (hlock q t).mp howner
  rw [hfin t] at hh
  exact hh

end

/-- The ids of two queues, `queue_a` and `queue_b`. -/
def demoCpuId : Bool ↪ ℤ where
  toFun b := if b then 1 else 0
  inj' := by decide

/-- A transfer between the queues, from `queue_a` or from `queue_b`. -/
def demoTransfer (fromB : Bool) : Transfer Bool := ⟨fromB, !fromB, by cases fromB <;> decide⟩

/-- A thread puts an item into a queue that is nearly full, while another one waits to take one from
it. -/
theorem safe_iff_demo : Safe demoCpuId (fun b => if b then intMax - 1 else 10)
    ((run demoCpuId (initial (fun b => if b then intMax - 1 else 10) fun t : Bool =>
      [demoTransfer t])
      [false, true, false, false, false, false, false]).get rfl) :=
  (safe_iff demoCpuId (by unfold IsInt32; decide) _ _ (Option.some_get rfl).symm).1.mpr rfl

/-- The two transfers one after the other, up to the end. -/
theorem run_finishes_demo :
    ((run demoCpuId (initial (fun b => if b then 2 else 10) fun t : Bool => [demoTransfer t])
      (List.replicate 8 false ++ List.replicate 8 true)).get rfl).owner true = none :=
  ((run_finishes demoCpuId _ _ _ (Option.some_get rfl).symm).2 fun t => by cases t <;> rfl).2 true

/-- A transfer into a queue with as many items as an `int` can count makes the count negative. -/
theorem not_safe_full :
    (∀ b : Bool, IsInt32 (if b then intMax else 1)) ∧
      ¬ Safe demoCpuId (fun b => if b then intMax else 1)
        ((run demoCpuId (initial (fun b => if b then intMax else 1) fun _ : Unit =>
        [demoTransfer false])
          (List.replicate 6 ())).get rfl) := by
  refine ⟨by unfold IsInt32; decide, fun hsafe => ?_⟩
  exact absurd (hsafe.nonneg true (by decide)) (by decide)

end AdvancedOs.Lottery.DoubleLock
