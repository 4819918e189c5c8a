import HtmlQuery.Proofs.Tree.Building
import HtmlQuery.Proofs.Tree.DocumentOrder

/-!
# What the walks of a tree pass

Walks are bounded by the number of nodes. `Trail` and `Drains` are the same walks without a bound: along one kind of
link, and over pending nodes that give way to their children. Each is a relation that holds only of walks that come to
an end. A bounded walk that does not use its bound up has come to its end (`trail_of_length_lt`,
`drains_of_length_lt`), and in a well-formed tree none does. What the walk under a node passes is the one recursive
listing of what is under each node (`WellFormed.listsBelow_iff`), and it agrees with the walks along the other links
(`walks_agree`).
-/

namespace HtmlQuery.Tree

variable {t : Tree} {n p : NodeId} {n? : Option NodeId} {ns l l' pending : List NodeId}
  {link : NodeId → Option NodeId} {below : NodeId → List NodeId} {fuel : Nat}

/-! ## Walks without a bound -/

/-- Following a link from a place on comes to an end and passes `l`. -/
inductive Trail (link : NodeId → Option NodeId) : Option NodeId → List NodeId → Prop
  | done : Trail link none []
  | step {n : NodeId} {l : List NodeId} : Trail link (link n) l → Trail link (some n) (n :: l)

/-- Taking the first of the pending nodes and putting its children in its place, again and again, comes to an end and
passes `l`. -/
inductive Drains (t : Tree) : List NodeId → List NodeId → Prop
  | done : Drains t [] []
  | step {n : NodeId} {pending l : List NodeId} : Drains t (t.children n ++ pending) l →
      Drains t (n :: pending) (n :: l)

/-- The nodes met by following a link, at most `fuel` of them. -/
def along (link : NodeId → Option NodeId) : Nat → Option NodeId → List NodeId
  | 0, _ => []
  | _, none => []
  | fuel + 1, some n => n :: along link fuel (link n)

theorem climb_eq_along (t : Tree) (fuel : Nat) (n? : Option NodeId) :
    t.climb fuel n? = along t.parent fuel n? := by
  induction fuel generalizing n? with
  | zero => rfl
  | succ fuel ih =>
    cases n? with
    | none => rfl
    | some n => rw [climb, along, ih]

theorem forward_eq_along (t : Tree) (fuel : Nat) (n? : Option NodeId) :
    t.forward fuel n? = along t.next fuel n? := by
  induction fuel generalizing n? with
  | zero => rfl
  | succ fuel ih =>
    cases n? with
    | none => rfl
    | some n => rw [forward, along, ih]

theorem backward_eq_along (t : Tree) (fuel : Nat) (n? : Option NodeId) :
    t.backward fuel n? = along t.prev fuel n? := by
  induction fuel generalizing n? with
  | zero => rfl
  | succ fuel ih =>
    cases n? with
    | none => rfl
    | some n => rw [backward, along, ih]

theorem trail_of_length_lt (h : (along link fuel n?).length < fuel) : Trail link n? (along link fuel n?) := by
  induction fuel generalizing n? with
  | zero => exact absurd h (Nat.not_lt_zero _)
  | succ fuel ih =>
    cases n? with
    | none => exact .done
    | some n =>
      rw [along, List.length_cons] at h
      rw [along]
      exact .step (ih (Nat.lt_of_succ_lt_succ h))

theorem drains_of_length_lt (h : (t.preorder fuel pending).length < fuel) :
    Drains t pending (t.preorder fuel pending) := by
  induction fuel generalizing pending with
  | zero => exact absurd h (Nat.not_lt_zero _)
  | succ fuel ih =>
    cases pending with
    | nil => exact .done
    | cons n pending =>
      rw [preorder_succ_cons, List.length_cons] at h
      rw [preorder_succ_cons]
      exact .step (ih (Nat.lt_of_succ_lt_succ h))

/-! ## The recursive listing -/

/-- `below` lists what is under each node: each child in order, followed by what is under the child. -/
def ListsBelow (t : Tree) (below : NodeId → List NodeId) : Prop :=
  ∀ n, below n = (t.children n).flatMap fun c => c :: below c

theorem Lists.unique (hl : Lists t ns l) (hl' : Lists t ns l') : l = l' := by
  induction hl generalizing l' with
  | nil =>
    cases hl'
    rfl
  | cons _ _ ihbelow ihrest =>
    cases hl' with
    | cons hbelow hrest => rw [ihbelow hbelow, ihrest hrest]

theorem Lists.eq_flatMap (hl : Lists t ns l) (h : t.ListsBelow below) : l = ns.flatMap fun c => c :: below c := by
  induction hl with
  | nil => rfl
  | @cons n ns _ _ _ _ ihbelow ihrest =>
    rw [List.flatMap_cons, h n, ← ihbelow, ← ihrest, List.cons_append]

/-! ## Walks of well-formed trees -/

/-- What the walks from a node pass, and that each comes to its end. -/
structure Walks (t : Tree) (n : NodeId) : Prop where
  descendants_drain : Drains t (t.children n) (t.descendants n)
  nodup : (t.descendants n).Nodup
  not_under_itself : n ∉ t.descendants n
  /-- What is under the node has it as an ancestor. -/
  descendant_iff : ∀ x, x ∈ t.descendants n ↔ t.isDescendantOf x n = true
  ancestor_iff : ∀ x, x ∈ t.descendants n ↔ n ∈ t.ancestors x
  ancestors_trail : Trail t.parent (t.parent n) (t.ancestors n)
  preceding_trail : Trail t.prev (t.prev n) (t.precedingSiblings n)
  following_trail : Trail t.next (t.next n) (t.followingSiblings n)
  /-- The siblings are the two sides of the node in the list of its parent. -/
  siblings : ∀ p, t.parent n = some p → ∃ before after, t.children p = before ++ n :: after ∧
    t.precedingSiblings n = before.reverse ∧ t.followingSiblings n = after
  alone : t.parent n = none → t.precedingSiblings n = [] ∧ t.followingSiblings n = []

namespace WellFormed

variable (h : t.WellFormed)
include h

theorem eq_flatMap_of_lists (hl : Lists t ns l) : l = ns.flatMap fun c => c :: t.descendants c := by
  induction hl with
  | nil => rfl
  | @cons n ns below rest hbelow _ _ ihrest =>
    have hn : t.descendants n = below := (h.lists_descendants n).unique hbelow
    rw [List.flatMap_cons, hn, ← ihrest, List.cons_append]

/-- The walk under each node passes what the recursion lists, which is settled by its equation. -/
theorem listsBelow_iff : t.ListsBelow below ↔ below = t.descendants := by
  constructor
  · intro hbelow
    funext n
    rw [hbelow n, ← (h.lists_descendants n).eq_flatMap hbelow]
  · rintro rfl n
    exact h.eq_flatMap_of_lists (h.lists_descendants n)

theorem trail_ancestors (n : NodeId) : Trail t.parent (t.parent n) (t.ancestors n) := by
  cases hp : t.parent n with
  | none =>
    rw [ancestors_of_loose hp]
    exact .done
  | some p =>
    have hlt : (t.ancestors n).length < t.size := h.depth_lt_size (has_of_parent hp)
    rw [ancestors, climb_eq_along, hp] at hlt ⊢
    exact trail_of_length_lt hlt

/-- A node that is not alone has siblings on its two sides, fewer than there are nodes. -/
theorem exists_sides (hp : t.parent n = some p) : ∃ before after, t.children p = before ++ n :: after ∧
    t.precedingSiblings n = before.reverse ∧ t.followingSiblings n = after ∧
    before.length < t.size ∧ after.length < t.size := by
  obtain ⟨before, after, hsplit, -⟩ := h.exists_split hp
  have hlength := h.length_children_le p
  rw [hsplit, List.length_append, List.length_cons] at hlength
  exact ⟨before, after, hsplit, h.precedingSiblings_of_split hsplit, h.followingSiblings_of_split hsplit,
    by omega, by omega⟩

theorem siblings_of_loose (hp : t.parent n = none) : t.precedingSiblings n = [] ∧ t.followingSiblings n = [] := by
  obtain ⟨hprev, hnext⟩ := h.loose n hp
  rw [precedingSiblings, followingSiblings, hprev, hnext]
  exact ⟨backward_none t _, forward_none t _⟩

theorem trail_siblings (n : NodeId) : Trail t.prev (t.prev n) (t.precedingSiblings n) ∧
    Trail t.next (t.next n) (t.followingSiblings n) := by
  cases hp : t.parent n with
  | none =>
    obtain ⟨hprev, hnext⟩ := h.loose n hp
    obtain ⟨hpreceding, hfollowing⟩ := h.siblings_of_loose hp
    rw [hprev, hnext, hpreceding, hfollowing]
    exact ⟨.done, .done⟩
  | some p =>
    obtain ⟨before, after, -, hpreceding, hfollowing, hbefore, hafter⟩ := h.exists_sides hp
    rw [← List.length_reverse, ← hpreceding] at hbefore
    rw [← hfollowing] at hafter
    rw [precedingSiblings, backward_eq_along] at hbefore ⊢
    rw [followingSiblings, forward_eq_along] at hafter ⊢
    exact ⟨trail_of_length_lt hbefore, trail_of_length_lt hafter⟩

theorem not_mem_descendants_self (n : NodeId) : n ∉ t.descendants n := by
  intro hn
  exact (h.mem_ancestors_iff_above.1 (h.mem_descendants_iff.1 hn)).2 rfl

end WellFormed

/-- **The walks of a well-formed tree agree.** The one under a node is the recursive listing and passes just the nodes
that have it as an ancestor, the ones along siblings are the two sides of a node, and all of them end. -/
theorem walks_agree (h : t.WellFormed) :
    (∀ below, t.ListsBelow below ↔ below = t.descendants) ∧ ∀ n, t.Walks n := by
  refine ⟨fun below => h.listsBelow_iff, fun n => ?_⟩
  exact {
    descendants_drain := drains_of_length_lt (h.length_descendants_lt n)
    nodup := h.nodup_descendants n
    not_under_itself := h.not_mem_descendants_self n
    descendant_iff := fun x => by rw [h.mem_descendants_iff, isDescendantOf, List.contains_iff_mem]
    ancestor_iff := fun x => h.mem_descendants_iff
    ancestors_trail := h.trail_ancestors n
    preceding_trail := (h.trail_siblings n).1
    following_trail := (h.trail_siblings n).2
    siblings := fun p hp => by
      obtain ⟨before, after, hsplit, hpreceding, hfollowing, -, -⟩ := h.exists_sides hp
      exact ⟨before, after, hsplit, hpreceding, hfollowing⟩
    alone := h.siblings_of_loose }

/-- A list whose last item was moved to the front. -/
def reordered : Tree := ((parse "<ul><li>a<li>b<li>c</ul>" .default).insertBefore 1 6 (some 2)).2

theorem walks_agree_reordered : reordered.WellFormed ∧
    [6, 7, 2, 3, 4, 5] = (reordered.children 1).flatMap (fun c => c :: reordered.descendants c) ∧
    (∀ x, x ∈ [6, 7, 2, 3, 4, 5] ↔ 1 ∈ reordered.ancestors x) ∧
    Trail reordered.prev (some 2) [2, 6] := by
  have hwf : reordered.WellFormed := (wellFormed_parse _ _).insertBefore 1 6 (some 2)
  have hunder : reordered.descendants 1 = [6, 7, 2, 3, 4, 5] := by decide +kernel
  have hprev : reordered.prev 4 = some 2 := by decide +kernel
  have hpreceding : reordered.precedingSiblings 4 = [2, 6] := by decide +kernel
  obtain ⟨hlisting, hwalks⟩ := walks_agree hwf
  have hrecursion := (hlisting _).2 rfl 1
  have hdual := (hwalks 1).ancestor_iff
  have htrail := (hwalks 4).preceding_trail
  rw [hunder] at hrecursion hdual
  rw [hprev, hpreceding] at htrail
  exact ⟨hwf, hrecursion, hdual, htrail⟩

end HtmlQuery.Tree
