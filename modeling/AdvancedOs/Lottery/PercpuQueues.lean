import Mathlib

/-!
# Queues of the CPUs

`demo_init` sets up the queues of the CPUs that are online when the module is loaded, and
`demo_exit` empties those of the CPUs that are online when it is unloaded. `cleansUp_iff` says that
this is right exactly if no CPU has come online, and none with items has gone offline.
-/

namespace AdvancedOs.Lottery.PercpuQueues

open List

/-- A work item: its CPU and its number in the queue. -/
abbrev WorkItem := ℕ × ℕ

/-- The queues of the CPUs. In memory that has not been set up there is none. -/
abbrev PercpuData := ℕ → Option (List WorkItem)

section

variable (kmalloc : WorkItem → Bool)

/-- The items that could be allocated for a CPU. -/
def itemsOf (cpu : ℕ) : List WorkItem := [(cpu, 1), (cpu, 2)].filter kmalloc

/-- `demo_init`: the queues, if there is memory for them. -/
def demoInit (allocPercpu : Bool) (online : List ℕ) : Option PercpuData :=
  if allocPercpu then
    some fun cpu => if cpu ∈ online then some (itemsOf kmalloc cpu) else none
  else none

/-- What `demo_exit` does: it walks through a queue that has not been set up, or frees an item. -/
inductive Event
  | stray (cpu : ℕ)
  | kfree (item : WorkItem)
deriving DecidableEq

def cleanQueue (data : PercpuData) (cpu : ℕ) : List Event :=
  match data cpu with
  | none => [.stray cpu]
  | some items => items.map .kfree

/-- `demo_exit`, up to the release of the queues. -/
def demoExit (data : PercpuData) (online : List ℕ) : List Event := online.flatMap (cleanQueue data)

end

/-- The module is unloaded as it should be, if it could be loaded. -/
def CleansUp (kmalloc : WorkItem → Bool) (allocPercpu : Bool) (atLoad atUnload : List ℕ) : Prop :=
  ∀ data ∈ demoInit kmalloc allocPercpu atLoad,
    (∀ cpu, .stray cpu ∉ demoExit data atUnload) ∧
      ∀ cpu ∈ atLoad, ∀ item ∈ itemsOf kmalloc cpu, (demoExit data atUnload).count (.kfree item) = 1

variable {kmalloc : WorkItem → Bool} {atLoad atUnload : List ℕ}

theorem nodup_itemsOf (cpu : ℕ) : (itemsOf kmalloc cpu).Nodup :=
  List.Nodup.filter _ (by simp)

theorem fst_of_mem_itemsOf {cpu : ℕ} {item : WorkItem} (hitem : item ∈ itemsOf kmalloc cpu) :
    item.1 = cpu := by
  have hmem := mem_of_mem_filter hitem
  simp only [mem_cons, not_mem_nil, or_false] at hmem
  rcases hmem with rfl | rfl <;> rfl

variable {data : PercpuData}

theorem cleanQueue_eq (hdata : data ∈ demoInit kmalloc true atLoad) (cpu : ℕ) :
    cleanQueue data cpu = if cpu ∈ atLoad then (itemsOf kmalloc cpu).map .kfree else
      [.stray cpu] := by
  cases hdata
  unfold cleanQueue
  split_ifs with hcpu <;> simp only [hcpu, if_true, if_false]

/-- An item is freed as often as its CPU is visited. -/
theorem count_kfree (hdata : data ∈ demoInit kmalloc true atLoad) {cpu : ℕ} {item : WorkItem}
    (hcpu : cpu ∈ atLoad) (hitem : item ∈ itemsOf kmalloc cpu) :
    (demoExit data atUnload).count (.kfree item) = atUnload.count cpu := by
  induction atUnload with
  | nil => rfl
  | cons first rest ih =>
    rw [demoExit, flatMap_cons, count_append, cleanQueue_eq hdata, count_cons, Nat.add_comm]
    refine congrArg₂ _ ih ?_
    by_cases heq : first = cpu
    · rw [heq, if_pos hcpu, if_pos (beq_self_eq_true cpu), count_map_of_injective _ _ fun _ _ =>
        Event.kfree.inj]
      exact count_eq_one_of_mem (nodup_itemsOf cpu) hitem
    · simp only [beq_eq_false_iff_ne.mpr heq, Bool.false_eq_true, if_false]
      rw [count_eq_zero]
      split_ifs with hload
      · rintro hmem
        obtain ⟨other, hother, hsame⟩ := List.mem_map.mp hmem
        cases hsame
        exact heq ((fst_of_mem_itemsOf hother).symm.trans (fst_of_mem_itemsOf hitem))
      · simp

/-- Assumes: every CPU is visited once at unload. The queues are cleaned up exactly if there is no
memory for them, or all CPUs at unload were online at load and those with items have stayed
online. -/
theorem cleansUp_iff (allocPercpu : Bool) (hunload : atUnload.Nodup) :
    CleansUp kmalloc allocPercpu atLoad atUnload ↔
      (allocPercpu = true → (∀ cpu ∈ atUnload, cpu ∈ atLoad) ∧ ∀ cpu ∈ atLoad,
      itemsOf kmalloc cpu ≠ [] → cpu ∈ atUnload) := by
  cases allocPercpu with
  | false => exact iff_of_true nofun nofun
  | true =>
    obtain ⟨data, hdata⟩ : ∃ data, demoInit kmalloc true atLoad = some data := ⟨_, rfl⟩
    have hmem : data ∈ demoInit kmalloc true atLoad := hdata
    rw [CleansUp, hdata]
    simp only [Option.mem_some_iff, forall_eq', forall_true_left]
    refine and_congr ⟨fun hstray cpu hcpu => ?_, fun hload cpu hstray => ?_⟩
      (forall₂_congr fun cpu hcpu => ⟨fun hfreed hne => ?_, fun hvisited item hitem => ?_⟩)
    · by_contra hnot
      refine hstray cpu (List.mem_flatMap.mpr ⟨cpu, hcpu, ?_⟩)
      rw [cleanQueue_eq hmem, if_neg hnot]
      exact List.mem_singleton_self _
    · obtain ⟨other, hother, hevent⟩ := List.mem_flatMap.mp hstray
      rw [cleanQueue_eq hmem, if_pos (hload other hother)] at hevent
      simp at hevent
    · obtain ⟨item, hitem⟩ := List.exists_mem_of_ne_nil _ hne
      have hcount := hfreed item hitem
      rw [count_kfree hmem hcpu hitem] at hcount
      exact List.count_pos_iff.mp (by omega)
    · rw [count_kfree hmem hcpu hitem]
      exact List.count_eq_one_of_mem hunload (hvisited (List.ne_nil_of_mem hitem))

theorem cleansUp_iff_two : CleansUp (fun _ => true) true [0, 1] [0, 1] :=
  (cleansUp_iff true (by decide)).mpr fun _ => ⟨by decide, by decide⟩

/-- CPU 1 has come online since the load. Its queue has not been set up. -/
theorem not_cleansUp_late : ¬ CleansUp (fun _ => true) true [0] [0, 1] :=
  fun hclean => (hclean _ rfl).1 1 (by decide)

end AdvancedOs.Lottery.PercpuQueues
