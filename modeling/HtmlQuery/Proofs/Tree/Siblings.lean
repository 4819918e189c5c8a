import HtmlQuery.Proofs.Tree.WellFormed

/-!
# Walks along siblings and ancestors

In a well-formed tree the walks along sibling links list the two sides of a node in the list of its parent
(`precedingSiblings_of_split`, `followingSiblings_of_split`), and `properAncestors` lists the ancestors other
than the document. All three are lists in which the part behind a member is the list of that member
(`precedingSiblings_behind`, `properAncestors_behind`).
-/

namespace HtmlQuery.Tree

variable {t : Tree} {n m p u : NodeId} {before after pre post : List NodeId}

theorem forward_none (t : Tree) (fuel : Nat) : t.forward fuel none = [] := by cases fuel <;> rfl

theorem backward_none (t : Tree) (fuel : Nat) : t.backward fuel none = [] := by cases fuel <;> rfl

theorem precedingSiblings_of_none (h : t.prev n = none) : t.precedingSiblings n = [] := by
  rw [precedingSiblings, h, backward_none]

theorem followingSiblings_of_none (h : t.next n = none) : t.followingSiblings n = [] := by
  rw [followingSiblings, h, forward_none]

theorem properAncestors_congr (hp : t.parent n = t.parent m) :
    t.properAncestors n = t.properAncestors m := by
  rw [properAncestors, properAncestors, ancestors, ancestors, hp]

namespace WellFormed

variable (h : t.WellFormed)
include h

theorem length_children_le (p : NodeId) : (t.children p).length ≤ t.size := by
  have hsub : t.children p ⊆ List.range t.size := fun c hc =>
    List.mem_range.2 (has_iff.1 (h.child_has p c hc))
  simpa using (List.subperm_of_subset (h.nodup_children p) hsub).length_le

theorem forward_of_split {fuel : Nat} (hsplit : t.children p = before ++ n :: after)
    (hfuel : after.length ≤ fuel) : t.forward fuel (t.next n) = after := by
  induction after generalizing n before fuel with
  | nil =>
    rw [(h.neighbours p before n [] hsplit).2]
    exact forward_none t fuel
  | cons m after ih =>
    obtain ⟨f, rfl⟩ : ∃ f, fuel = f + 1 := ⟨fuel - 1, by simp at hfuel; omega⟩
    rw [(h.neighbours p before n (m :: after) hsplit).2, List.head?_cons, forward,
      @ih m (before ++ [n]) f (by rw [hsplit]; simp) (by simpa using hfuel)]

theorem backward_of_split {fuel : Nat} (hsplit : t.children p = before.reverse ++ n :: after)
    (hfuel : before.length ≤ fuel) : t.backward fuel (t.prev n) = before := by
  induction before generalizing n after fuel with
  | nil =>
    rw [(h.neighbours p [] n after hsplit).1]
    exact backward_none t fuel
  | cons m before ih =>
    obtain ⟨f, rfl⟩ : ∃ f, fuel = f + 1 := ⟨fuel - 1, by simp at hfuel; omega⟩
    rw [(h.neighbours p _ n after hsplit).1, List.reverse_cons, List.getLast?_concat, backward,
      @ih m (n :: after) f (by rw [hsplit]; simp) (by simpa using hfuel)]

/-! ## Siblings -/

theorem followingSiblings_of_split (hsplit : t.children p = before ++ n :: after) :
    t.followingSiblings n = after := by
  refine h.forward_of_split hsplit ?_
  have := h.length_children_le p
  rw [hsplit] at this
  simp at this
  omega

theorem precedingSiblings_of_split (hsplit : t.children p = before ++ n :: after) :
    t.precedingSiblings n = before.reverse := by
  refine h.backward_of_split (by rw [List.reverse_reverse]; exact hsplit) ?_
  have := h.length_children_le p
  rw [hsplit] at this
  simp at this ⊢
  omega

/-- A node that precedes another stands before it in the list of their parent. -/
theorem precedingSiblings_eq_append_iff : t.precedingSiblings n = pre ++ u :: post ↔
    ∃ p after, t.children p = post.reverse ++ u :: (pre.reverse ++ n :: after) := by
  constructor
  · intro hpre
    cases hp : t.parent n with
    | none => simp [precedingSiblings_of_none (h.loose n hp).1] at hpre
    | some p =>
      obtain ⟨before, after, hsplit, -, -⟩ := h.exists_split hp
      rw [h.precedingSiblings_of_split hsplit] at hpre
      refine ⟨p, after, ?_⟩
      rw [hsplit, List.reverse_eq_iff.1 hpre]
      simp
  · rintro ⟨p, after, hsplit⟩
    have hsplit' : t.children p = (post.reverse ++ u :: pre.reverse) ++ n :: after := by
      rw [hsplit]
      simp
    rw [h.precedingSiblings_of_split hsplit']
    simp

/-- A node that follows another stands behind it in the list of their parent. -/
theorem followingSiblings_eq_append_iff : t.followingSiblings n = pre ++ u :: post ↔
    ∃ p before, t.children p = before ++ n :: (pre ++ u :: post) := by
  constructor
  · intro hpost
    cases hp : t.parent n with
    | none => simp [followingSiblings_of_none (h.loose n hp).2] at hpost
    | some p =>
      obtain ⟨before, after, hsplit, -, -⟩ := h.exists_split hp
      rw [h.followingSiblings_of_split hsplit] at hpost
      exact ⟨p, before, hpost ▸ hsplit⟩
  · rintro ⟨p, before, hsplit⟩
    exact h.followingSiblings_of_split hsplit

theorem precedingSiblings_behind (hpre : t.precedingSiblings n = pre ++ u :: post) :
    t.precedingSiblings u = post := by
  obtain ⟨p, after, hsplit⟩ := h.precedingSiblings_eq_append_iff.1 hpre
  rw [h.precedingSiblings_of_split hsplit, List.reverse_reverse]

theorem parent_of_mem_precedingSiblings (hu : u ∈ t.precedingSiblings n) :
    t.parent u = t.parent n := by
  obtain ⟨pre, post, hpre⟩ := List.append_of_mem hu
  obtain ⟨p, after, hsplit⟩ := h.precedingSiblings_eq_append_iff.1 hpre
  have hmem : ∀ c ∈ [u, n], t.parent c = some p := fun c hc => h.mem_children_iff.1 <| by
    rw [hsplit]
    rcases List.mem_pair.1 hc with rfl | rfl <;> simp
  rw [hmem u (by simp), hmem n (by simp)]

/-- The nearest element before a node has none between it and the node. -/
theorem prevElement_eq_some_iff : t.prevElement n = some u ↔
    ∃ p before between after, t.children p = before ++ u :: (between ++ n :: after) ∧
      t.isElement u = true ∧ ∀ m ∈ between, t.isElement m = false := by
  rw [prevElement, List.find?_eq_some_iff_append]
  constructor
  · rintro ⟨hu, pre, post, hpre, hfirst⟩
    obtain ⟨p, after, hsplit⟩ := h.precedingSiblings_eq_append_iff.1 hpre
    exact ⟨p, post.reverse, pre.reverse, after, hsplit, hu, fun m hm => by
      simpa using hfirst m (List.mem_reverse.1 hm)⟩
  · rintro ⟨p, before, between, after, hsplit, hu, hfirst⟩
    refine ⟨hu, between.reverse, before.reverse, ?_, fun m hm => ?_⟩
    · exact h.precedingSiblings_eq_append_iff.2 ⟨p, after, by simpa using hsplit⟩
    · simpa using hfirst m (List.mem_reverse.1 hm)

/-- The nearest element behind a node has none between the node and it. -/
theorem nextElement_eq_some_iff : t.nextElement n = some u ↔
    ∃ p before between after, t.children p = before ++ n :: (between ++ u :: after) ∧
      t.isElement u = true ∧ ∀ m ∈ between, t.isElement m = false := by
  rw [nextElement, List.find?_eq_some_iff_append]
  constructor
  · rintro ⟨hu, between, after, hbehind, hfirst⟩
    obtain ⟨p, before, hsplit⟩ := h.followingSiblings_eq_append_iff.1 hbehind
    exact ⟨p, before, between, after, hsplit, hu, fun m hm => by simpa using hfirst m hm⟩
  · rintro ⟨p, before, between, after, hsplit, hu, hfirst⟩
    exact ⟨hu, between, after, h.followingSiblings_eq_append_iff.2 ⟨p, before, hsplit⟩,
      fun m hm => by simpa using hfirst m hm⟩

/-! ## Ancestors other than the document -/

theorem properAncestors_of_parent (hp : t.parent n = some p) (hroot : p ≠ root) :
    t.properAncestors n = p :: t.properAncestors p := by
  rw [properAncestors, ancestors_of_parent h.ends hp, List.takeWhile_cons, if_pos (by simpa using hroot),
    properAncestors]

theorem properAncestors_of_top (hp : t.parent n = some root ∨ t.parent n = none) :
    t.properAncestors n = [] := by
  rcases hp with hp | hp
  · rw [properAncestors, ancestors_of_parent h.ends hp]
    simp
  · rw [properAncestors, ancestors_of_loose hp, List.takeWhile_nil]

theorem properAncestors_behind (hpre : t.properAncestors n = pre ++ u :: post) :
    t.properAncestors u = post := by
  induction pre generalizing n with
  | nil =>
    rw [List.nil_append] at hpre
    rcases hp : t.parent n with - | p
    · simp [h.properAncestors_of_top (.inr hp)] at hpre
    · by_cases hroot : p = root
      · simp [h.properAncestors_of_top (.inl (hroot ▸ hp))] at hpre
      · rw [h.properAncestors_of_parent hp hroot, List.cons.injEq] at hpre
        exact hpre.1 ▸ hpre.2
  | cons m pre ih =>
    rcases hp : t.parent n with - | p
    · simp [h.properAncestors_of_top (.inr hp)] at hpre
    · by_cases hroot : p = root
      · simp [h.properAncestors_of_top (.inl (hroot ▸ hp))] at hpre
      · rw [h.properAncestors_of_parent hp hroot, List.cons_append, List.cons.injEq] at hpre
        exact ih hpre.2

/-- The proper ancestors of a node are the nodes above its parent, the document apart. -/
theorem mem_properAncestors_iff :
    u ∈ t.properAncestors n ↔ u ≠ root ∧ ∃ p, t.parent n = some p ∧ Above t u p := by
  rw [← h.mem_ancestors_iff]
  induction hl : t.ancestors n generalizing n with
  | nil => simp [properAncestors, hl]
  | cons p l ih =>
    cases hp : t.parent n with
    | none => simp [ancestors_of_loose hp] at hl
    | some q =>
      rw [ancestors_of_parent h.ends hp, List.cons.injEq] at hl
      obtain ⟨rfl, hl⟩ := hl
      by_cases hroot : q = root
      · subst hroot
        rw [ancestors_of_loose h.root_loose] at hl
        subst hl
        rw [h.properAncestors_of_top (.inl hp)]
        simp
      · rw [h.properAncestors_of_parent hp hroot, List.mem_cons, List.mem_cons, ih hl]
        constructor
        · rintro (rfl | ⟨hu, hmem⟩)
          · exact ⟨hroot, .inl rfl⟩
          · exact ⟨hu, .inr hmem⟩
        · rintro ⟨hu, rfl | hmem⟩
          · exact .inl rfl
          · exact .inr ⟨hu, hmem⟩

/-- Nearer ancestors come first. -/
theorem pairwise_properAncestors (n : NodeId) :
    (t.properAncestors n).Pairwise fun near far => far ∈ t.ancestors near := by
  refine List.pairwise_iff_forall_sublist.2 fun {near far} hsub => ?_
  obtain ⟨r₁, r₂, hsplit, hnear, hfar⟩ := List.cons_sublist_iff.1 hsub
  obtain ⟨pre, post, rfl⟩ := List.append_of_mem hnear
  have hfar' : far ∈ t.properAncestors near := by
    rw [List.append_assoc, List.cons_append] at hsplit
    rw [h.properAncestors_behind hsplit]
    exact List.mem_append_right _ (List.singleton_sublist.1 hfar)
  exact h.mem_ancestors_iff.2 (h.mem_properAncestors_iff.1 hfar').2

end WellFormed

end HtmlQuery.Tree
