import Mathlib

/-!
# Processes that are stopped and continued

`toggle_work_func` stops the process of `target_pid` at one tick and lets it go on at the next; one
flag says which is next. The parameter can be written at any time. If it is not changed while the
flag is set, every process that is alive behind `demo_exit` has been let go on
(`continues_of_steady`). Otherwise the flag is about one process, and the signal goes to another.
-/

namespace AdvancedOs.Lottery.SignalControl

open Function

/-- The variables of the module, and the live processes by their pids, with whether the last signal
that the module sent to the process is `SIGSTOP`. -/
structure State where
  targetPid : ℤ
  isStopped : Bool
  processes : ℤ → Option Bool

inductive Event
  | tick
  | setTarget (pid : ℤ)
  | appear (pid : ℤ)
  | vanish (pid : ℤ)

/-- The target is sent `SIGSTOP` or `SIGCONT`. -/
def State.signal (state : State) (stop : Bool) : State :=
  { state with processes := update state.processes state.targetPid (some stop) }

def toggleWorkFunc (state : State) : State :=
  if state.targetPid ≤ 0 then state
  else if state.processes state.targetPid = none then state
  else if state.isStopped then { state.signal false with isStopped := false }
  else { state.signal true with isStopped := true }

def step (state : State) : Event → State
  | .tick => toggleWorkFunc state
  | .setTarget pid => { state with targetPid := pid }
  | .appear pid =>
    if state.processes pid = none then
      { state with processes := update state.processes pid (some false) }
    else state
  | .vanish pid => { state with processes := update state.processes pid none }

def demoExit (state : State) : State :=
  if 0 < state.targetPid ∧ state.isStopped then
    if state.processes state.targetPid = none then state else state.signal false
  else state

/-- No process that is alive stays stopped. -/
def AllContinue (state : State) : Prop := ∀ pid, state.processes pid ≠ some true

/-- The parameter is changed only while the flag is not set. -/
def Steady : State → List Event → Prop
  | _, [] => True
  | state, event :: events =>
    (∀ pid, event = .setTarget pid → state.isStopped = false ∨ pid = state.targetPid) ∧
      Steady (step state event) events

/-- Only the target can be stopped, while the flag is set. -/
def Invariant (state : State) : Prop := ∀ pid, state.processes pid = some true →
  state.isStopped = true ∧ pid = state.targetPid ∧ 0 < state.targetPid

variable {state : State}

theorem Invariant.toggleWorkFunc (hinv : Invariant state) : Invariant (toggleWorkFunc state) := by
  unfold SignalControl.toggleWorkFunc State.signal
  split_ifs with hpid hnone hstop
  · exact hinv
  · exact hinv
  · intro pid hpid
    dsimp only at hpid
    rw [update_apply] at hpid
    split_ifs at hpid with heq
    · cases hpid
    · exact absurd (hinv pid hpid).2.1 heq
  · intro other hother
    dsimp only at hother
    rw [update_apply] at hother
    split_ifs at hother with heq
    · exact ⟨rfl, heq, not_le.mp hpid⟩
    · exact absurd (hinv other hother).1 hstop

theorem Invariant.step {event : Event} (hinv : Invariant state)
    (hstea : ∀ pid, event = .setTarget pid → state.isStopped = false ∨ pid = state.targetPid) :
    Invariant (step state event) := by
  -- A process that appears or vanishes is not a stopped one.
  have hupda (pid : ℤ) {process : Option Bool} (hproc : process ≠ some true) :
      Invariant { state with processes := update state.processes pid process } := by
    intro other hother
    dsimp only at hother
    rw [update_apply] at hother
    split_ifs at hother
    · exact absurd hother hproc
    · exact hinv other hother
  cases event with
  | tick => exact hinv.toggleWorkFunc
  | setTarget pid =>
    intro other hother
    obtain ⟨hstop, hpid⟩ := hinv other hother
    rcases hstea pid rfl with hfalse | rfl
    · exact absurd (hfalse.symm.trans hstop) Bool.false_ne_true
    · exact ⟨hstop, hpid⟩
  | appear pid =>
    dsimp only [SignalControl.step]
    split_ifs
    · exact hupda pid (by decide)
    · exact hinv
  | vanish pid => exact hupda pid (by decide)

theorem Invariant.run {events : List Event} (hinv : Invariant state) (hstea : Steady state events) :
    Invariant (events.foldl SignalControl.step state) := by
  induction events generalizing state with
  | nil => exact hinv
  | cons event events ih => exact ih (hinv.step hstea.1) hstea.2

/-- The module is loaded. -/
def initial (targetPid : ℤ) : State := ⟨targetPid, false, fun _ => none⟩

/-- Assumes: the target is not changed while the flag is set. Behind the unload no live process is
stopped. -/
theorem continues_of_steady (targetPid : ℤ) {events : List Event}
    (hsteady : Steady (initial targetPid) events) :
    AllContinue (demoExit (events.foldl step (initial targetPid))) := by
  have hinv := @Invariant.run (initial targetPid) events nofun hsteady
  generalize events.foldl step (initial targetPid) = state at hinv
  intro pid hpid
  unfold demoExit State.signal at hpid
  split_ifs at hpid with hexit hnone
  · obtain ⟨-, rfl, -⟩ := hinv pid hpid
    exact absurd (hnone.symm.trans hpid) (by decide)
  · dsimp only at hpid
    rw [update_apply] at hpid
    split_ifs at hpid with heq
    · cases hpid
    · exact heq (hinv pid hpid).2.1
  · exact hexit ⟨(hinv pid hpid).2.2, (hinv pid hpid).1⟩

theorem continues_threeTicks :
    AllContinue (demoExit ([Event.appear 7, .tick, .tick, .tick].foldl step (initial 7))) :=
  continues_of_steady 7 ⟨nofun, nofun, nofun, nofun, trivial⟩

/-- The target is changed from 7 to 8 while the process with pid 7 is stopped. -/
theorem not_continues_changed : ¬ AllContinue (demoExit
    ([Event.appear 7, .appear 8, .tick, .setTarget 8].foldl step (initial 7))) :=
  fun hall => hall 7 (by decide)

end AdvancedOs.Lottery.SignalControl
