import Mathlib

/-!
# The breakpoint controller

A thread that hits the breakpoint sets a flag, clears the completion and waits for it. After a
single step it does so again. A write to the device looks at the flag, and with `ss` or `c` it sets
the mode and completes. All threads and all writes share the flag and the completion, and their
steps interleave in any way.

A `Ledger` notes during which pauses a write has seen the flag, and which pauses have been answered
by such a write. A command is `Lost` if the thread of a pause that was answered waits without a
completion. That happens if a command completes between the flag and the clearing of the completion
(`lost_command`), and if another thread clears the completion or takes the last one. If nothing of
that happens, no command is ever lost, and only then (`neverLost_iff`).

The module is unloaded with `complete_all`. A thread that clears the completion behind it waits for
ever, and no other does (`freesAll_iff`).
-/

namespace AdvancedOs.Debugger.BreakpointController

open Function Option

/-! ### Threads and writes -/

inductive Handler
  | pre | post

/-- Where a thread that may hit the breakpoint is: outside of the handlers, behind the flag, at the
wait, behind it, before the handler of a single step, or in it before the flag. -/
inductive Target
  | running
  | flagged (handler : Handler)
  | waiting (handler : Handler)
  | released (handler : Handler)
  | stepping
  | again

inductive Command
  | bt | ss | c | unknown
deriving DecidableEq

def parseCommand (kbuf : List UInt8) : Command :=
  if [0x62, 0x74].isPrefixOf kbuf then .bt
  else if [0x73, 0x73].isPrefixOf kbuf then .ss
  else if [0x63].isPrefixOf kbuf then .c
  else .unknown

/-- Where a writer is: between writes, in one that has seen the flag, or before it completes. -/
inductive Writer
  | idle (writes : List (List UInt8))
  | accepted (command : Command) (writes : List (List UInt8))
  | completing (writes : List (List UInt8))

/-- The state of the debugger, with the count of the completion, and all threads and writers. -/
structure State (T W : Type) where
  inBreakpoint : Bool
  singleStepMode : Bool
  done : ℕ
  targets : T → Target
  writers : W → Writer

inductive Actor (T W : Type)
  | target (t : T)
  | writer (w : W)

section

variable {T W : Type} [DecidableEq T] [DecidableEq W]

def State.setTarget (state : State T W) (t : T) (target : Target) : State T W :=
  { state with targets := update state.targets t target }

def State.setWriter (state : State T W) (w : W) (writer : Writer) : State T W :=
  { state with writers := update state.writers w writer }

/-- A step of `handler_pre` or `handler_post`. A thread at the wait has none without a
completion. -/
def stepTarget (state : State T W) (t : T) : Option (State T W) :=
  match state.targets t with
  | .running => some ({ state with inBreakpoint := true }.setTarget t (.flagged .pre))
  | .flagged handler => some ({ state with done := 0 }.setTarget t (.waiting handler))
  | .waiting handler =>
    if state.done = 0 then none
    else some ({ state with done := state.done - 1 }.setTarget t (.released handler))
  | .released .pre => some ({ state with inBreakpoint := false }.setTarget t .stepping)
  | .released .post => some ({ state with inBreakpoint := false }.setTarget t .running)
  | .stepping => some (state.setTarget t (if state.singleStepMode = true then .again else .running))
  | .again => some ({ state with inBreakpoint := true }.setTarget t (.flagged .post))

def stepWriter (state : State T W) (w : W) : Option (State T W) :=
  match state.writers w with
  | .idle [] => none
  | .idle (kbuf :: writes) =>
    if 32 ≤ kbuf.length then some (state.setWriter w (.idle writes))
    else if state.inBreakpoint = false then some (state.setWriter w (.idle writes))
    else some (state.setWriter w (.accepted (parseCommand kbuf) writes))
  | .accepted .ss writes =>
    some ({ state with singleStepMode := true }.setWriter w (.completing writes))
  | .accepted .c writes =>
    some ({ state with singleStepMode := false }.setWriter w (.completing writes))
  | .accepted _ writes => some (state.setWriter w (.idle writes))
  | .completing writes => some ({ state with done := state.done + 1 }.setWriter w (.idle writes))

def step (state : State T W) : Actor T W → Option (State T W)
  | .target t => stepTarget state t
  | .writer w => stepWriter state w

end

def initial {T W : Type} (writes : W → List (List UInt8)) : State T W where
  inBreakpoint := false
  singleStepMode := false
  done := 0
  targets _ := .running
  writers w := .idle (writes w)

/-! ### Commands that are lost -/

def Target.isPaused : Target → Bool
  | .flagged _ => true
  | .waiting _ => true
  | _ => false

/-- The pauses, by their threads, during which the write in progress of a writer has looked at the
flag, and the pauses that have been answered by such a write. -/
structure Ledger (T W : Type) where
  during : W → T → Bool
  answered : T → Bool

section

variable {T W : Type} [DecidableEq T] [DecidableEq W]

/-- What is noted of a step. A pause is new at the flag and over at the end of the wait. -/
def note (state : State T W) (ledger : Ledger T W) : Actor T W → Ledger T W
  | .target t =>
    match state.targets t with
    | .running | .again => { ledger with answered := update ledger.answered t false }
    | .waiting _ =>
      ⟨fun w => update (ledger.during w) t false, update ledger.answered t false⟩
    | _ => ledger
  | .writer w =>
    match state.writers w with
    | .idle _ =>
      { ledger with
        during := update ledger.during w fun t => (state.targets t).isPaused }
    | .accepted _ _ => ledger
    | .completing _ =>
      { ledger with answered := fun t => ledger.answered t || ledger.during w t }

/-- A thread waits without a completion, although its pause has been answered. -/
def Lost (state : State T W) (ledger : Ledger T W) : Prop :=
  state.done = 0 ∧ ∃ t handler, state.targets t = .waiting handler ∧ ledger.answered t = true

/-- No command is lost in any state of the schedule. -/
def NeverLost : State T W → Ledger T W → List (Actor T W) → Prop
  | state, ledger, [] => ¬ Lost state ledger
  | state, ledger, actor :: schedule =>
    ¬ Lost state ledger ∧
      ∀ next, step state actor = some next → NeverLost next (note state ledger actor) schedule

def OtherAnswered (state : State T W) (ledger : Ledger T W) (t : T) : Prop :=
  ∃ u handler, u ≠ t ∧ state.targets u = .waiting handler ∧ ledger.answered u = true

/-- A step does no harm: the completion is not cleared in a pause that has been answered, and
neither cleared nor taken as the last one while another thread waits that has been answered. -/
def Harmless (state : State T W) (ledger : Ledger T W) : Actor T W → Prop
  | .target t =>
    match state.targets t with
    | .flagged _ => ledger.answered t = false ∧ ¬ OtherAnswered state ledger t
    | .waiting _ => state.done = 1 → ¬ OtherAnswered state ledger t
    | _ => True
  | .writer _ => True

def Orderly : State T W → Ledger T W → List (Actor T W) → Prop
  | _, _, [] => True
  | state, ledger, actor :: schedule =>
    ∀ next, step state actor = some next →
      Harmless state ledger actor ∧ Orderly next (note state ledger actor) schedule

end

/-! ### Steps without harm -/

section

variable {T W : Type} [DecidableEq T] {state next : State T W} {ledger : Ledger T W}

theorem not_lost_of_le (hlost : ¬ Lost state ledger) {t : T} {target : Target} {after : Ledger T W}
    (htarg : next.targets = update state.targets t target)
    (htarget : ∀ handl, target ≠ .waiting handl)
    (hansw : ∀ u, u ≠ t → after.answered u = ledger.answered u) (hdone : next.done = state.done) :
    ¬ Lost next after := by
  rintro ⟨hzero, u, handl, hwaits, hu⟩
  rw [htarg, update_apply] at hwaits
  split_ifs at hwaits with hut
  · exact htarget handl hwaits
  · exact hlost ⟨hdone ▸ hzero, u, handl, hwaits, hansw u hut ▸ hu⟩

theorem lost_clear_iff {t : T} (handl : Handler) :
    Lost ({ state with done := 0 }.setTarget t (.waiting handl)) ledger ↔
      ledger.answered t = true ∨ OtherAnswered state ledger t := by
  constructor
  · rintro ⟨-, u, other, hwaits, hu⟩
    by_cases hut : u = t
    · exact .inl (hut ▸ hu)
    · exact .inr ⟨u, other, hut, (update_of_ne hut _ _).symm.trans hwaits, hu⟩
  · rintro (ht | ⟨u, other, hut, hwaits, hu⟩)
    · exact ⟨rfl, t, handl, update_self _ _ _, ht⟩
    · exact ⟨rfl, u, other, (update_of_ne hut _ _).trans hwaits, hu⟩

theorem lost_take_iff {t : T} (handl : Handler) (hdone : state.done ≠ 0) {during : W → T → Bool} :
    Lost ({ state with done := state.done - 1 }.setTarget t (.released handl))
        ⟨during, update ledger.answered t false⟩ ↔
      state.done = 1 ∧ OtherAnswered state ledger t := by
  constructor
  · rintro ⟨hzero, u, other, hwaits, hu⟩
    have hut : u ≠ t := by
      rintro rfl
      exact Bool.false_ne_true ((update_self _ _ _).symm.trans hu)
    refine ⟨?_, u, other, hut, (update_of_ne hut _ _).symm.trans hwaits,
      (update_of_ne hut _ _).symm.trans hu⟩
    change state.done - 1 = 0 at hzero
    omega
  · rintro ⟨hone, u, other, hut, hwaits, hu⟩
    refine ⟨?_, u, other, (update_of_ne hut _ _).trans hwaits, (update_of_ne hut _ _).trans hu⟩
    change state.done - 1 = 0
    omega

variable [DecidableEq W]

theorem not_lost_target_iff (hlost : ¬ Lost state ledger) {t : T}
    (hstep : stepTarget state t = some next) : ¬ Lost next (note state ledger (.target t)) ↔
      Harmless state ledger (.target t) := by
  unfold stepTarget at hstep
  unfold note Harmless
  dsimp only
  split at hstep
  case h_1 htarg =>
    obtain rfl := some.inj hstep
    rw [htarg]
    refine iff_of_true (not_lost_of_le hlost rfl nofun (fun u hut => ?_) rfl) trivial
    exact update_of_ne hut _ _
  case h_2 handl htarg =>
    obtain rfl := some.inj hstep
    rw [htarg]
    rw [lost_clear_iff, not_or, Bool.not_eq_true]
  case h_3 handl htarg =>
    split_ifs at hstep with hdone
    obtain rfl := some.inj hstep
    rw [htarg]
    rw [lost_take_iff handl hdone, not_and]
  case h_4 htarg =>
    obtain rfl := some.inj hstep
    rw [htarg]
    exact iff_of_true (not_lost_of_le hlost rfl nofun (fun _ _ => rfl) rfl) trivial
  case h_5 htarg =>
    obtain rfl := some.inj hstep
    rw [htarg]
    exact iff_of_true (not_lost_of_le hlost rfl nofun (fun _ _ => rfl) rfl) trivial
  case h_6 htarg =>
    obtain rfl := some.inj hstep
    rw [htarg]
    refine iff_of_true (not_lost_of_le hlost rfl (fun handl => ?_) (fun _ _ => rfl) rfl) trivial
    split_ifs <;> exact nofun
  case h_7 htarg =>
    obtain rfl := some.inj hstep
    rw [htarg]
    refine iff_of_true (not_lost_of_le hlost rfl nofun (fun u hut => ?_) rfl) trivial
    exact update_of_ne hut _ _

theorem not_lost_writer (hlost : ¬ Lost state ledger) {w : W}
    (hstep : stepWriter state w = some next) : ¬ Lost next (note state ledger (.writer w)) := by
  unfold stepWriter at hstep
  unfold note
  dsimp only
  split at hstep
  case h_1 => cases hstep
  case h_2 kbuf writes hwrit =>
    rw [hwrit]
    split_ifs at hstep
    all_goals
      obtain rfl := some.inj hstep
      exact hlost
  case h_6 writes hwrit =>
    obtain rfl := some.inj hstep
    rintro ⟨hzero, -⟩
    exact Nat.succ_ne_zero _ hzero
  all_goals
    rename_i hwrit
    obtain rfl := some.inj hstep
    rw [hwrit]
    exact hlost

theorem not_lost_iff (hlost : ¬ Lost state ledger) {actor : Actor T W}
    (hstep : step state actor = some next) : ¬ Lost next (note state ledger actor) ↔
      Harmless state ledger actor := by
  cases actor with
  | target t => exact not_lost_target_iff hlost hstep
  | writer w => exact iff_of_true (not_lost_writer hlost hstep) trivial

theorem neverLost_iff_of_not_lost (hlost : ¬ Lost state ledger) (schedule : List (Actor T W)) :
    NeverLost state ledger schedule ↔ Orderly state ledger schedule := by
  induction schedule generalizing state ledger with
  | nil => exact iff_of_true hlost trivial
  | cons actor schedule ih =>
    rw [NeverLost, Orderly, and_iff_right hlost]
    refine forall₂_congr fun next hstep => ?_
    rw [← not_lost_iff hlost hstep]
    constructor
    · intro hnever
      have hnext : ¬ Lost next (note state ledger actor) := by
        cases schedule with
        | nil => exact hnever
        | cons => exact hnever.1
      exact ⟨hnext, (ih hnext).mp hnever⟩
    · rintro ⟨hnext, horde⟩
      exact (ih hnext).mpr horde

/-- From the start, no command is lost in any state of a schedule just when all of its steps do no
harm. -/
theorem neverLost_iff (writes : W → List (List UInt8)) (schedule : List (Actor T W)) :
    NeverLost (initial writes) ⟨fun _ _ => false, fun _ => false⟩ schedule ↔
      Orderly (initial writes) ⟨fun _ _ => false, fun _ => false⟩ schedule := by
  refine neverLost_iff_of_not_lost ?_ schedule
  rintro ⟨-, t, handler, hwaits, -⟩
  cases hwaits

end

/-- A thread sets the flag; a write of `c` sees it and completes; then the thread clears the
completion and waits. -/
def lostSchedule : List (Actor Unit Unit) :=
  [.target (), .writer (), .writer (), .writer (), .target ()]

theorem lost_command :
    ¬ NeverLost (initial fun _ => [[0x63]]) ⟨fun _ _ => false, fun _ => false⟩ lostSchedule := by
  intro hnever
  have hlast := (((((hnever.2 _ rfl).2 _ rfl).2 _ rfl).2 _ rfl).2 _ rfl)
  exact hlast ⟨rfl, (), .pre, rfl, rfl⟩

/-! ### Unloading -/

/-- How far `controller_exit` has come. -/
inductive Phase
  | loaded | completed | unprobed | deregistered
deriving DecidableEq

/-- The debugger while its module is unloaded. After `complete_all` the completion stays done until
it is cleared. An open device would hold the module, so there are no writes. -/
structure Unloading (T W : Type) where
  state : State T W
  completedAll : Bool
  phase : Phase

section

variable {T W : Type} [DecidableEq T]

def stepExit (unloading : Unloading T W) : Option (Unloading T W) :=
  match unloading.phase with
  | .loaded => some { unloading with completedAll := true, phase := .completed }
  | .completed => some { unloading with phase := .unprobed }
  | .unprobed => some { unloading with phase := .deregistered }
  | .deregistered => none

/-- A step of a thread. It does not enter the handler once the probe is removed. -/
def stepThread (unloading : Unloading T W) (t : T) : Option (Unloading T W) :=
  let step := (stepTarget unloading.state t).map fun state => { unloading with state := state }
  match unloading.state.targets t with
  | .running => if unloading.phase = .loaded ∨ unloading.phase = .completed then step else none
  | .flagged _ => step.map fun next => { next with completedAll := false }
  | .waiting handler =>
    if unloading.completedAll then
      some { unloading with state := unloading.state.setTarget t (.released handler) }
    else step
  | _ => step

/-- A step of a thread or of `controller_exit`. -/
def stepUnload (unloading : Unloading T W) : Option T → Option (Unloading T W)
  | some t => stepThread unloading t
  | none => stepExit unloading

/-- After `complete_all` a thread waits for a completion that no command can give any more. -/
def Stuck (unloading : Unloading T W) : Prop :=
  unloading.phase ≠ .loaded ∧ unloading.completedAll = false ∧ unloading.state.done = 0 ∧
    ∃ t handler, unloading.state.targets t = .waiting handler

def FreesAll : Unloading T W → List (Option T) → Prop
  | unloading, [] => ¬ Stuck unloading
  | unloading, actor :: schedule =>
    ¬ Stuck unloading ∧ ∀ next, stepUnload unloading actor = some next → FreesAll next schedule

/-- The step of a thread clears the completion after `complete_all`. -/
def Clears (unloading : Unloading T W) (actor : Option T) : Prop :=
  unloading.phase ≠ .loaded ∧ ∃ t handler, actor = some t ∧ unloading.state.targets t =
    .flagged handler

/-- No step of the schedule clears the completion after `complete_all`. -/
def NeverClears : Unloading T W → List (Option T) → Prop
  | _, [] => True
  | unloading, actor :: schedule =>
    ¬ Clears unloading actor ∧ ∀ next, stepUnload unloading actor = some next →
      NeverClears next schedule

variable {unloading next : Unloading T W} {actor : Option T}

theorem completedAll_of_step (hdone : unloading.phase ≠ .loaded → unloading.completedAll = true)
    (hclea : ¬ Clears unloading actor) (hstep : stepUnload unloading actor = some next) :
    next.phase ≠ .loaded → next.completedAll = true := by
  cases actor with
  | none =>
    change stepExit unloading = some next at hstep
    unfold stepExit at hstep
    split at hstep <;> cases hstep
    · exact fun _ => rfl
    all_goals exact fun _ => hdone (by simp_all)
  | some t =>
    change stepThread unloading t = some next at hstep
    unfold stepThread at hstep
    dsimp only at hstep
    have hkeeps : (stepTarget unloading.state t).map (fun state =>
      { unloading with state := state }) =
        some next → next.phase ≠ .loaded → next.completedAll = true := by
      rw [map_eq_some_iff]
      rintro ⟨state, -, rfl⟩
      exact hdone
    split at hstep
    case h_1 =>
      split_ifs at hstep
      exact hkeeps hstep
    case h_2 handl hflag =>
      rw [map_map, map_eq_some_iff] at hstep
      obtain ⟨state, -, rfl⟩ := hstep
      exact fun hph => absurd ⟨hph, t, handl, rfl, hflag⟩ hclea
    case h_3 =>
      split_ifs at hstep
      · cases hstep
        exact hdone
      · exact hkeeps hstep
    case h_4 => exact hkeeps hstep

theorem exists_stuck_of_clears (hclea : Clears unloading actor) :
    ∃ next, stepUnload unloading actor = some next ∧ Stuck next := by
  obtain ⟨hph, t, handl, rfl, hflag⟩ := hclea
  refine ⟨⟨{ unloading.state with done := 0 }.setTarget t (.waiting handl), false, unloading.phase⟩,
    ?_, hph, rfl, rfl, t, handl, update_self _ _ _⟩
  simp [stepUnload, stepThread, stepTarget, hflag]

theorem FreesAll.not_stuck {schedule : List (Option T)} (hfrees : FreesAll unloading schedule) :
    ¬ Stuck unloading := by
  cases schedule with
  | nil => exact hfrees
  | cons actor schedule => exact hfrees.1

theorem freesAll_iff_of_completed (schedule : List (Option T))
    (hdone : unloading.phase ≠ .loaded → unloading.completedAll = true) :
    FreesAll unloading schedule ↔ NeverClears unloading schedule := by
  have hstuck : ¬ Stuck unloading := fun hstuck => by simpa [hstuck.2.1] using hdone hstuck.1
  induction schedule generalizing unloading with
  | nil => exact iff_of_true hstuck trivial
  | cons actor schedule ih =>
    rw [FreesAll, NeverClears, and_iff_right hstuck]
    by_cases hclea : Clears unloading actor
    · obtain ⟨next, hstep, hnext⟩ := exists_stuck_of_clears hclea
      exact iff_of_false (fun hfrees => (hfrees next hstep).not_stuck hnext) fun h => h.1 hclea
    · rw [and_iff_right hclea]
      refine forall₂_congr fun next hstep => ?_
      have hnext := completedAll_of_step hdone hclea hstep
      exact ih hnext fun hstuck => by simpa [hstuck.2.1] using hnext hstuck.1

/-- Unloading, from any state of the threads and in any order of steps, leaves no thread stuck just
when no thread clears the completion after `complete_all`. -/
theorem freesAll_iff (state : State T W) (schedule : List (Option T)) :
    FreesAll ⟨state, false, .loaded⟩ schedule ↔ NeverClears ⟨state, false, .loaded⟩ schedule :=
  freesAll_iff_of_completed schedule fun hphase => absurd rfl hphase

end

/-- A thread sets the flag, `complete_all` is called, and then the thread clears the completion. -/
theorem not_freesAll_flagged :
    ¬ FreesAll (⟨initial fun _ : Unit => [], false, .loaded⟩ : Unloading Unit Unit)
      [some (), none, some ()] := by
  intro hfrees
  exact (((hfrees.2 _ rfl).2 _ rfl).2 _ rfl) ⟨nofun, rfl, rfl, (), .pre, rfl⟩

end AdvancedOs.Debugger.BreakpointController
