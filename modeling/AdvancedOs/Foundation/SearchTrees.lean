import Mathlib

/-!
# Search in ordered trees

A node of a `SearchTree` is a row of entries. Each entry has an item and may have a subtree with the
items before it, and the row ends with an entry that has no item. A search walks along a row; at
each item it halts, goes on to the next entry or goes down into the subtree (`SearchTree.search`).

If the way a search takes depends only on how the items compare with what is looked for, the search
visits the items of a path (`SearchTree.search_eq_replay`). An item is on the path just when the
search goes down at every entry below which the item lies, and on at every entry behind which it
lies (`SearchTree.mem_path_iff`).
-/

namespace AdvancedOs.Foundation.SearchTrees

open List

/-- An ordered tree. `none` is a missing subtree; `last` and `entry` are the entries of a row,
`entry` followed by the rest of the row. -/
inductive SearchTree (α : Type) where
  | none
  | last (child : SearchTree α)
  | entry (child : SearchTree α) (item : α) (rest : SearchTree α)

/-- What a search does at an item. -/
inductive Move (σ ρ : Type) where
  | halt (result : ρ)
  | descend (state : σ)
  | advance (state : σ)

variable {α σ ρ : Type}

namespace SearchTree

def items : SearchTree α → List α
  | none => []
  | last child => child.items
  | entry child item rest => child.items ++ item :: rest.items

/-- The search. It ends with a result, or with its state where there is no subtree to go down
into. -/
def search (visit : σ → α → Move σ ρ) : SearchTree α → σ → ρ ⊕ σ
  | none, state => .inr state
  | last child, state => child.search visit state
  | entry child item rest, state =>
    match visit state item with
    | .halt result => .inl result
    | .descend state => child.search visit state
    | .advance state => rest.search visit state

/-- The items a search visits that goes down before items it compares less than, and stops at one it
compares equal with. -/
def path (side : α → Ordering) : SearchTree α → List α
  | none => []
  | last child => child.path side
  | entry child item rest => item :: match side item with
    | .lt => child.path side
    | .eq => []
    | .gt => rest.path side

def replay (visit : σ → α → Move σ ρ) : List α → σ → ρ ⊕ σ
  | [], state => .inr state
  | item :: rest, state =>
    match visit state item with
    | .halt result => .inl result
    | .descend state => replay visit rest state
    | .advance state => replay visit rest state

def Below (upper item : α) : SearchTree α → Prop
  | none => False
  | last child => child.Below upper item
  | entry child other rest =>
    (other = upper ∧ item ∈ child.items) ∨ child.Below upper item ∨ rest.Below upper item

def Behind (earlier item : α) : SearchTree α → Prop
  | none => False
  | last child => child.Behind earlier item
  | entry child other rest =>
    (other = earlier ∧ item ∈ rest.items) ∨ child.Behind earlier item ∨ rest.Behind earlier item

/-- The entries lead to the item: down if it lies below them, and on if it lies behind them. -/
def LeadsTo (side : α → Ordering) (item : α) (tree : SearchTree α) : Prop :=
  (∀ upper, tree.Below upper item → side upper = .lt) ∧
    ∀ earlier, tree.Behind earlier item → side earlier = .gt

/-- Assumes: a search that goes down only before items that compare greater, and on only behind
items that compare less. It visits the items of the path. -/
theorem search_eq_replay {visit : σ → α → Move σ ρ} {side : α → Ordering} (tree : SearchTree α)
    (hdesc : ∀ item ∈ tree.items, ∀ state state', visit state item = .descend state' →
      side item = .lt)
    (hadva : ∀ item ∈ tree.items, ∀ state state', visit state item = .advance state' →
      side item = .gt) (state : σ) :
    tree.search visit state = replay visit (tree.path side) state := by
  induction tree generalizing state with
  | none => rfl
  | last child ih => exact ih hdesc hadva state
  | entry child item rest ihChild ihRest =>
    have hitem : item ∈ (entry child item rest).items := by simp [items]
    rw [search, path, replay]
    cases hmove : visit state item with
    | halt result => rfl
    | descend next =>
      rw [hdesc item hitem _ _ hmove]
      exact ihChild (fun other hoth => hdesc other (by simp [items, hoth]))
        (fun other hoth => hadva other (by simp [items, hoth])) next
    | advance next =>
      rw [hadva item hitem _ _ hmove]
      exact ihRest (fun other hoth => hdesc other (by simp [items, hoth]))
        (fun other hoth => hadva other (by simp [items, hoth])) next

/-- A path visits every place of the tree at most once. -/
theorem path_subperm (side : α → Ordering) (tree : SearchTree α) :
    (tree.path side).Subperm tree.items := by
  induction tree with
  | none => exact List.Subperm.refl _
  | last child ih => exact ih
  | entry child item rest ihChild ihRest =>
    have hperm : (item :: (child.items ++ rest.items)).Perm (child.items ++ item :: rest.items) :=
      perm_middle.symm
    refine List.Subperm.trans ?_ hperm.subperm
    rw [path, subperm_cons]
    cases side item with
    | lt => exact ihChild.trans (sublist_append_left _ _).subperm
    | eq => exact nil_subperm
    | gt => exact ihRest.trans (sublist_append_right _ _).subperm

variable {side : α → Ordering} {item : α} {tree : SearchTree α}

theorem nodup_path (hnd : tree.items.Nodup) : (tree.path side).Nodup := by
  obtain ⟨visited, hperm, hsubl⟩ := tree.path_subperm side
  exact hperm.nodup_iff.mp (hnd.sublist hsubl)

theorem mem_items_of_below {upper : α} (hbel : tree.Below upper item) :
    upper ∈ tree.items ∧ item ∈ tree.items := by
  induction tree with
  | none => exact hbel.elim
  | last child ih => exact ih hbel
  | entry child other rest ihChild ihRest =>
    rcases hbel with ⟨rfl, hmem⟩ | hbel | hbel
    · simp [items, hmem]
    · simp [items, ihChild hbel]
    · simp [items, ihRest hbel]

theorem mem_items_of_behind {earlier : α} (hbeh : tree.Behind earlier item) :
    earlier ∈ tree.items ∧ item ∈ tree.items := by
  induction tree with
  | none => exact hbeh.elim
  | last child ih => exact ih hbeh
  | entry child other rest ihChild ihRest =>
    rcases hbeh with ⟨rfl, hmem⟩ | hbeh | hbeh
    · simp [items, hmem]
    · simp [items, ihChild hbeh]
    · simp [items, ihRest hbeh]

theorem mem_items_of_mem_path (hmem : item ∈ tree.path side) : item ∈ tree.items :=
  (tree.path_subperm side).subset hmem

/-- What is looked for is on the path once, at its end, or not at all. -/
theorem path_cases (side : α → Ordering) (tree : SearchTree α) :
    (∀ item ∈ tree.path side, side item ≠ .eq) ∨ ∃ others item, tree.path side = others ++ [item] ∧
      side item = .eq ∧
        ∀ other ∈ others, side other ≠ .eq := by
  have hcons : ∀ {item : α} {rest : List α}, side item ≠ .eq →
      ((∀ item ∈ rest, side item ≠ .eq) ∨ ∃ others item, rest = others ++ [item] ∧
        side item = .eq ∧ ∀ other ∈ others, side other ≠ .eq) →
      (∀ other ∈ item :: rest, side other ≠ .eq) ∨ ∃ others last, item :: rest = others ++ [last] ∧
        side last = .eq ∧ ∀ other ∈ others, side other ≠ .eq := by
    rintro item rest hitem (hall | ⟨others, last, rfl, hlast, hoths⟩)
    · exact .inl (forall_mem_cons.mpr ⟨hitem, hall⟩)
    · exact .inr ⟨item :: others, last, rfl, hlast, forall_mem_cons.mpr ⟨hitem, hoths⟩⟩
  induction tree with
  | none => exact .inl fun _ h => absurd h not_mem_nil
  | last child ih => exact ih
  | entry child item rest ihChild ihRest =>
    rw [path]
    cases hside : side item with
    | lt => exact hcons (by simp [hside]) ihChild
    | eq => exact .inr ⟨[], item, rfl, hside, by simp⟩
    | gt => exact hcons (by simp [hside]) ihRest

theorem replay_append (visit : σ → α → Move σ ρ) (items more : List α) (state : σ) :
    replay visit (items ++ more) state = (replay visit items state).elim .inl
      (replay visit more) := by
  induction items generalizing state with
  | nil => rfl
  | cons item rest ih =>
    rw [cons_append, replay, replay]
    cases visit state item with
    | halt result => rfl
    | descend next => exact ih next
    | advance next => exact ih next

theorem path_eq_nil_iff : tree.path side = [] ↔ tree.items = [] := by
  induction tree with
  | none => rfl
  | last child ih => exact ih
  | entry child item rest => simp [path, items]

section

variable {before : α → α → Prop} {side : α → Ordering} {tree : SearchTree α} {item : α}

/-- An item below an entry comes before it. -/
theorem before_of_below (hord : tree.items.Pairwise before) {upper : α}
    (hbel : tree.Below upper item) : before item upper := by
  induction tree with
  | none => exact hbel.elim
  | last child ih => exact ih hord hbel
  | entry child other rest ihChild ihRest =>
    rw [items, pairwise_append, pairwise_cons] at hord
    obtain ⟨hchild, ⟨-, hrest⟩, hcross⟩ := hord
    rcases hbel with ⟨rfl, hmem⟩ | hbel | hbel
    · exact hcross item hmem other mem_cons_self
    · exact ihChild hchild hbel
    · exact ihRest hrest hbel

/-- An item behind an entry comes after it. -/
theorem before_of_behind (hord : tree.items.Pairwise before) {earlier : α}
    (hbeh : tree.Behind earlier item) : before earlier item := by
  induction tree with
  | none => exact hbeh.elim
  | last child ih => exact ih hord hbeh
  | entry child other rest ihChild ihRest =>
    rw [items, pairwise_append, pairwise_cons] at hord
    obtain ⟨hchild, ⟨hoth, hrest⟩, -⟩ := hord
    rcases hbeh with ⟨rfl, hmem⟩ | hbeh | hbeh
    · exact hoth item hmem
    · exact ihChild hchild hbeh
    · exact ihRest hrest hbeh

theorem leadsTo_entry {child rest : SearchTree α} {other : α} :
    (entry child other rest).LeadsTo side item ↔
      (item ∈ child.items → side other = .lt ∧ child.LeadsTo side item) ∧
        (item ∈ rest.items → side other = .gt ∧ rest.LeadsTo side item) := by
  constructor
  · rintro ⟨hdown, hon⟩
    refine ⟨fun hin => ⟨hdown other (.inl ⟨rfl, hin⟩), ?_⟩, fun hin =>
      ⟨hon other (.inl ⟨rfl, hin⟩), ?_⟩⟩
    · exact ⟨fun upper h => hdown upper (.inr (.inl h)), fun o h => hon o (.inr (.inl h))⟩
    · exact ⟨fun upper h => hdown upper (.inr (.inr h)), fun o h => hon o (.inr (.inr h))⟩
  · rintro ⟨hchild, hrest⟩
    refine ⟨fun upper hbel => ?_, fun earlier hbeh => ?_⟩
    · rcases hbel with ⟨rfl, hin⟩ | h | h
      · exact (hchild hin).1
      · exact (hchild (mem_items_of_below h).2).2.1 upper h
      · exact (hrest (mem_items_of_below h).2).2.1 upper h
    · rcases hbeh with ⟨rfl, hin⟩ | h | h
      · exact (hrest hin).1
      · exact (hchild (mem_items_of_behind h).2).2.2 earlier h
      · exact (hrest (mem_items_of_behind h).2).2.2 earlier h

/-- Assumes: different items. An item is on the path just when the entries lead to it. -/
theorem mem_path_iff (hnd : tree.items.Nodup) (hmem : item ∈ tree.items) :
    item ∈ tree.path side ↔ tree.LeadsTo side item := by
  induction tree with
  | none => exact absurd hmem not_mem_nil
  | last child ih => exact ih hnd hmem
  | entry child other rest ihChild ihRest =>
    rw [items, nodup_append, nodup_cons] at hnd
    obtain ⟨hchild, ⟨hoth, hrest⟩, hcross⟩ := hnd
    rw [path, mem_cons, leadsTo_entry]
    -- The item is in one place only, so that it is in one of the three parts.
    rcases mem_append.mp hmem with hin | hin
    · have hne := hcross item hin other mem_cons_self
      have hoff : item ∉ rest.items := fun h => hcross item hin item (mem_cons_of_mem _ h) rfl
      rw [or_iff_right hne, and_iff_left fun h => absurd h hoff, forall_prop_of_true hin,
        ← ihChild hchild hin]
      cases side other with
      | lt => exact (and_iff_right rfl).symm
      | eq => exact iff_of_false not_mem_nil (by simp)
      | gt => exact iff_of_false (fun h => hoff (mem_items_of_mem_path h)) (by simp)
    · have hoff : item ∉ child.items := fun h => hcross item h item hin rfl
      rw [and_iff_right fun h => absurd h hoff]
      rcases mem_cons.mp hin with rfl | hin
      · exact iff_of_true (.inl rfl) fun h => absurd h hoth
      · rw [or_iff_right fun h : item = other => hoth (h ▸ hin), forall_prop_of_true hin,
          ← ihRest hrest hin]
        cases side other with
        | lt => exact iff_of_false (fun h => hoff (mem_items_of_mem_path h)) (by simp)
        | eq => exact iff_of_false not_mem_nil (by simp)
        | gt => exact (and_iff_right rfl).symm

/-- Assumes: an ordered tree, and an item with those before it less than what is looked for. The
item is on the path just when the path goes down at every entry below which the item lies. -/
theorem mem_path_iff_below (hord : tree.items.Pairwise before) (hnd : tree.items.Nodup)
    (hmem : item ∈ tree.items)
    (hgrea : ∀ other ∈ tree.items, before other item → side other = .gt) :
    item ∈ tree.path side ↔ ∀ upper, tree.Below upper item → side upper = .lt :=
  (mem_path_iff hnd hmem).trans (and_iff_left fun other hbeh =>
    hgrea other (mem_items_of_behind hbeh).1 (before_of_behind hord hbeh))

end

end SearchTree

end AdvancedOs.Foundation.SearchTrees
