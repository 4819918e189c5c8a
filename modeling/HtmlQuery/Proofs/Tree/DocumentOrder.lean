import HtmlQuery.Proofs.Tree.Siblings

/-!
# Document order

A node precedes what is under it, and what is under one child precedes what is under a later one (`Precedes`). The walk
under a node of a well-formed tree lists the nodes that have it as an ancestor (`mem_descendants_iff`), each once and in
this order (`pairwise_descendants`). Both are read off `Lists`, the listing by subtrees, which the walk with its pending
nodes gives because it has steps enough for it (`lists_descendants`).
-/

namespace HtmlQuery.Tree

variable {t : Tree} {a b c d n p x y : NodeId} {ns l : List NodeId}

/-- Document order. -/
inductive Precedes (t : Tree) : NodeId → NodeId → Prop
  | above {a b : NodeId} : Above t a b → a ≠ b → Precedes t a b
  | beside {p c d a b : NodeId} : [c, d].Sublist (t.children p) → Above t c a → Above t d b →
      Precedes t a b

/-- `l` lists some nodes and all that is under them: each node, then what is under it, then the next one. -/
inductive Lists (t : Tree) : List NodeId → List NodeId → Prop
  | nil : Lists t [] []
  | cons {n : NodeId} {ns below rest : List NodeId} : Lists t (t.children n) below → Lists t ns rest →
      Lists t (n :: ns) (n :: (below ++ rest))

/-- Each of some nodes precedes the later ones, with all that is under it and under them. -/
def InOrder (t : Tree) (ns : List NodeId) : Prop :=
  ns.Pairwise fun a b => ∀ x y, Above t a x → Above t b y → Precedes t x y

theorem inOrder_children (t : Tree) (n : NodeId) : t.InOrder (t.children n) :=
  List.pairwise_iff_forall_sublist.2 fun hsub _ _ hx hy => .beside hsub hx hy

/-! ## Nodes above and below -/

/-- Of two nodes above a third one, one is above the other. -/
theorem Above.total (ha : Above t a n) (hb : Above t b n) : Above t a b ∨ Above t b a := by
  induction ha with
  | refl => exact .inr hb
  | up hp ha ih =>
    rcases hb.eq_or with rfl | ⟨q, hq, hb⟩
    · exact .inl (.up hp ha)
    · rw [hp, Option.some.injEq] at hq
      exact ih (hq ▸ hb)

namespace WellFormed

variable (h : t.WellFormed)
include h

/-- Below a node are the node and what is below its children. -/
theorem above_iff_children : Above t n x ↔ x = n ∨ ∃ c ∈ t.children n, Above t c x := by
  constructor
  · intro hx
    induction hx with
    | refl => exact .inl rfl
    | @up x q hq _ ih =>
      rcases ih with rfl | ⟨c, hc, hcq⟩
      · exact .inr ⟨x, h.mem_children_iff.2 hq, .refl x⟩
      · exact .inr ⟨c, hc, .up hq hcq⟩
  · rintro (rfl | ⟨c, hc, hx⟩)
    · exact .refl x
    · exact Above.trans (.up (h.mem_children_iff.1 hc) (.refl n)) hx

/-- What is below a child of a node is what has the node as an ancestor. -/
theorem exists_child_above_iff : (∃ c ∈ t.children n, Above t c x) ↔ n ∈ t.ancestors x := by
  rw [h.mem_ancestors_iff]
  constructor
  · rintro ⟨c, hc, hx⟩
    have hcn := h.mem_children_iff.1 hc
    rcases hx.eq_or with rfl | ⟨q, hq, hx⟩
    · exact ⟨n, hcn, .refl n⟩
    · exact ⟨q, hq, Above.trans (.up hcn (.refl n)) hx⟩
  · rintro ⟨q, hq, hn⟩
    rcases h.above_iff_children.1 hn with rfl | ⟨c, hc, hcq⟩
    · exact ⟨x, h.mem_children_iff.2 hq, .refl x⟩
    · exact ⟨c, hc, .up hq hcq⟩

theorem mem_ancestors_iff_above : n ∈ t.ancestors x ↔ Above t n x ∧ n ≠ x := by
  rw [h.mem_ancestors_iff]
  constructor
  · rintro ⟨q, hq, hn⟩
    exact ⟨.up hq hn, fun he => Above.not_parent h.ranked (he ▸ hq) hn⟩
  · rintro ⟨hx, hne⟩
    exact hx.eq_or.resolve_left hne

/-- What is above a node of the document is the document or under it. -/
theorem above_root_of_above (hn : Above t root n) (hp : Above t p n) : Above t root p := by
  rcases hn.total hp with hp | hp
  · exact hp
  · rcases hp.eq_or with rfl | ⟨q, hq, -⟩
    · exact .refl root
    · rw [h.root_loose] at hq
      simp at hq

/-- Nothing is below two children of one node. -/
theorem apart_of_siblings (hc : t.parent c = some p) (hd : t.parent d = some p) (hne : c ≠ d)
    (hcx : Above t c x) : ¬ Above t d x := by
  have hnot : ∀ {c d}, t.parent c = some p → t.parent d = some p → c ≠ d → ¬ Above t c d := by
    intro c d hc hd hne hcd
    obtain ⟨q, hq, hcq⟩ := hcd.eq_or.resolve_left hne
    rw [hd, Option.some.injEq] at hq
    exact Above.not_parent h.ranked hc (hq ▸ hcq)
  intro hdx
  rcases hcx.total hdx with hcd | hdc
  · exact hnot hc hd hne hcd
  · exact hnot hd hc (Ne.symm hne) hdc

theorem not_precedes_self (a : NodeId) : ¬ Precedes t a a := by
  rintro (⟨-, hne⟩ | ⟨hsub, hc, hd⟩)
  · exact hne rfl
  · rename_i p c d
    have hne : c ≠ d := by simpa using hsub.nodup (h.nodup_children p)
    have hmem : ∀ m ∈ [c, d], t.parent m = some p := fun m hm => h.mem_children_iff.1 (hsub.subset hm)
    exact h.apart_of_siblings (hmem c (by simp)) (hmem d (by simp)) hne hc hd

theorem nodup_of_precedes (hl : l.Pairwise (Precedes t)) : l.Nodup := by
  have hne : ∀ {a b}, Precedes t a b → a ≠ b := by
    rintro a _ hab rfl
    exact h.not_precedes_self a hab
  exact hl.imp hne

end WellFormed

/-! ## Listings -/

/-- The walk over pending nodes lists the first of them and goes on with the others. -/
theorem Lists.preorder (hl : Lists t ns l) (fuel : Nat) (pending : List NodeId) :
    t.preorder (l.length + fuel) (ns ++ pending) = l ++ t.preorder fuel pending := by
  induction hl generalizing fuel pending with
  | nil => simp
  | @cons n ns below rest _ _ ihbelow ihrest =>
    have hfuel : (n :: (below ++ rest)).length + fuel =
        below.length + (rest.length + fuel) + 1 := by
      rw [List.length_cons, List.length_append]
      omega
    rw [hfuel, List.cons_append, preorder_succ_cons, ihbelow, ihrest, List.cons_append,
      List.append_assoc]

theorem exists_lists (h : ∀ n ∈ ns, ∃ l, Lists t (t.children n) l) : ∃ l, Lists t ns l := by
  induction ns with
  | nil => exact ⟨[], .nil⟩
  | cons n ns ih =>
    obtain ⟨⟨below, hbelow⟩, hns⟩ := List.forall_mem_cons.1 h
    obtain ⟨rest, hrest⟩ := ih hns
    exact ⟨n :: (below ++ rest), .cons hbelow hrest⟩

section
variable (h : t.WellFormed)
include h

/-- Children are deeper than their parent, and no node is as deep as there are nodes. -/
theorem WellFormed.exists_lists_children (n : NodeId) : ∃ l, Lists t (t.children n) l := by
  induction hk : t.size - t.depth n using Nat.strongRecOn generalizing n with
  | _ k ih =>
    refine exists_lists fun c hc => ?_
    have hdepth := h.depth_of_mem_children hc
    have hlt := h.depth_lt_size (has_of_mem_children hc)
    exact ih (t.size - t.depth c) (by omega) c rfl

theorem Lists.mem_iff (hl : Lists t ns l) : x ∈ l ↔ ∃ n ∈ ns, Above t n x := by
  induction hl with
  | nil => simp
  | cons _ _ ihbelow ihrest =>
    rw [List.mem_cons, List.mem_append, ihbelow, ihrest, ← or_assoc, ← h.above_iff_children]
    simp

theorem Lists.pairwise (hl : Lists t ns l) (hns : t.InOrder ns) : l.Pairwise (Precedes t) := by
  induction hl with
  | nil => exact .nil
  | @cons n ns below rest hbelow hrest ihbelow ihrest =>
    obtain ⟨hn, hns⟩ := List.pairwise_cons.1 hns
    have hunder : ∀ x ∈ below, Above t n x ∧ n ≠ x := fun x hx =>
      h.mem_ancestors_iff_above.1 (h.exists_child_above_iff.1 ((hbelow.mem_iff h).1 hx))
    have hlater : ∀ x, Above t n x → ∀ y ∈ rest, Precedes t x y := fun x hx y hy => by
      obtain ⟨m, hm, hmy⟩ := (hrest.mem_iff h).1 hy
      exact hn m hm x y hx hmy
    refine List.pairwise_cons.2 ⟨fun y hy => ?_, List.pairwise_append.2
      ⟨ihbelow (t.inOrder_children n), ihrest hns, fun x hx => hlater x (hunder x hx).1⟩⟩
    rcases List.mem_append.1 hy with hy | hy
    · exact .above (hunder y hy).1 (hunder y hy).2
    · exact hlater n (.refl n) y hy

namespace WellFormed

theorem pairwise_of_lists (hl : Lists t (t.children n) l) : l.Pairwise (Precedes t) :=
  hl.pairwise h (t.inOrder_children n)

/-- The document is under no node, so a listing of what is under one has fewer nodes than the tree. -/
theorem length_lt_of_lists (hl : Lists t (t.children n) l) : l.length < t.size := by
  have hanc : ∀ x ∈ l, n ∈ t.ancestors x := fun x hx =>
    h.exists_child_above_iff.1 ((hl.mem_iff h).1 hx)
  have hroot : root ∉ l := fun hr => by
    have := hanc root hr
    rw [ancestors_of_loose h.root_loose] at this
    simp at this
  have hnodup : l.Nodup := h.nodup_of_precedes (h.pairwise_of_lists hl)
  have hsub : root :: l ⊆ List.range t.size := fun x hx => by
    rw [List.mem_range, ← has_iff]
    rcases List.mem_cons.1 hx with rfl | hx
    · exact h.has_root
    · obtain ⟨q, hq, -⟩ := h.mem_ancestors_iff.1 (hanc x hx)
      exact has_of_parent hq
  have hle := (List.subperm_of_subset (List.nodup_cons.2 ⟨hroot, hnodup⟩) hsub).length_le
  rwa [List.length_range] at hle

/-! ## The walk under a node -/

theorem lists_descendants (n : NodeId) : Lists t (t.children n) (t.descendants n) := by
  obtain ⟨l, hl⟩ := h.exists_lists_children n
  have hwalk := hl.preorder (t.size - l.length) []
  rw [Nat.add_sub_cancel' (Nat.le_of_lt (h.length_lt_of_lists hl)), preorder_nil, List.append_nil,
    List.append_nil] at hwalk
  rw [descendants, hwalk]
  exact hl

theorem lists_subtree (n : NodeId) : Lists t [n] (t.subtree n) := by
  have hl : Lists t [n] (n :: (t.descendants n ++ [])) := .cons (h.lists_descendants n) .nil
  rwa [List.append_nil, ← subtree_eq_cons] at hl

theorem mem_descendants_iff : x ∈ t.descendants n ↔ n ∈ t.ancestors x := by
  rw [(h.lists_descendants n).mem_iff h, h.exists_child_above_iff]

theorem pairwise_descendants (n : NodeId) : (t.descendants n).Pairwise (Precedes t) :=
  h.pairwise_of_lists (h.lists_descendants n)

theorem nodup_descendants (n : NodeId) : (t.descendants n).Nodup :=
  h.nodup_of_precedes (h.pairwise_descendants n)

theorem length_descendants_lt (n : NodeId) : (t.descendants n).length < t.size :=
  h.length_lt_of_lists (h.lists_descendants n)

end WellFormed

end

end HtmlQuery.Tree
