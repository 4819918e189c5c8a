import HtmlQuery.Proofs.Tree.Refusal
import HtmlQuery.Tree.Branch

/-!
# Insertions

What an insertion does and when it is done. `WellFormed.insertBefore_linked` says it once: a node that may come under a
parent, in front of a child of it or at the end, comes out of its old place and is linked at the new one. From it follow
the effect and the frame (`Inserted`, `inserted_of_ok`), the conditions (`insertBefore_ok_iff`), and that a child that
was taken out comes back where it was (`insertBefore_removeChild`). A node is not put in front of itself: such an
insertion leaves the tree as it is, also where the node is under another parent or under none (`insertBefore_self`).
-/

namespace HtmlQuery.Tree

variable {t t' : Tree} {n m p q c mark parent child : NodeId} {before after : List NodeId}

theorem append_eq_insertBefore (t : Tree) (parent child : NodeId) :
    t.append parent child = t.insertBefore parent child none := by
  cases hfault : t.insertionFault? parent child <;> simp only [append, insertBefore, hfault]

/-- What putting a child under a parent does, in front of a mark or at the end, and what it leaves alone. -/
structure Inserted (t t' : Tree) (parent child : NodeId) (mark : Option NodeId) : Prop where
  parent_child : t'.parent child = some parent
  /-- The parent's list is the old one without the child, and then with the child in front of the mark. -/
  list : ∃ before after, (t.children parent).filter (· ≠ child) = before ++ after ∧ after.head? = mark ∧
    t'.children parent = before ++ child :: after
  /-- Another parent loses exactly the child. -/
  old_list : ∀ q, q ≠ parent → t.parent child = some q → ∃ before after,
    t.children q = before ++ child :: after ∧ t'.children q = before ++ after
  other_list : ∀ q, q ≠ parent → t.parent child ≠ some q → t'.children q = t.children q
  size : t'.size = t.size
  kind? : ∀ m, t'.kind? m = t.kind? m
  location : ∀ m, t'.location m = t.location m
  /-- Nodes under the child keep all their links, and the child keeps its branch. -/
  below : ∀ m, Above t child m → m ≠ child → t'.get? m = t.get? m
  branch : t'.branch? child = t.branch? child

/-- A node whose links downwards stay, with those of all nodes under it, keeps its branch. -/
theorem branchTo_congr (hkind : ∀ m, t'.kind? m = t.kind? m)
    (hchildren : ∀ m, Above t n m → t'.children m = t.children m)
    (hbelow : ∀ m, Above t n m → ∀ c ∈ t.children m, Above t n c) (depth : Nat) (hm : Above t n m) :
    t'.branchTo depth m = t.branchTo depth m := by
  induction depth generalizing m with
  | zero => rw [branchTo, branchTo, hkind]
  | succ depth ih =>
    have hsame : ∀ c ∈ t.children m, t'.branchTo depth c = t.branchTo depth c := fun c hc =>
      ih (hbelow m hm c hc)
    rw [branchTo, branchTo, hkind, hchildren m hm, List.filterMap_congr hsame]

/-! ## The change -/

section
variable (h : t.WellFormed)
include h

theorem WellFormed.children_detach (c q : NodeId) :
    (t.detach c).children q = (t.children q).filter (· ≠ c) := by
  cases hp : t.parent c with
  | none =>
    have hc : c ∉ t.children q := fun hc => by simp [h.mem_children_iff.1 hc] at hp
    rw [detach_of_loose hp, filter_of_not_mem hc]
  | some p =>
    rw [Tree.children_detach hp]
    split
    · rw [‹q = p›]
    · rename_i hq
      have hc : c ∉ t.children q := fun hc => hq <| by
        rwa [h.mem_children_iff.1 hc, Option.some.injEq] at hp
      rw [filter_of_not_mem hc]

/-- An insertion that is allowed is done: the child is linked in its new place in the tree without it. -/
theorem WellFormed.insertBefore_linked (hi : Insertable t parent child) {mark : Option NodeId}
    (hmark : ∀ m ∈ mark, m ≠ child ∧ m ∈ t.children parent) : ∃ t' before after,
      t.insertBefore parent child mark = (.ok (), t') ∧
        (t.detach child).children parent = before ++ after ∧ after.head? = mark ∧
        Linked (t.detach child) t' parent child before after := by
  have hfault : t.insertionFault? parent child = none := h.no_fault_iff.2 hi
  cases mark with
  | none =>
    exact ⟨t.attach parent child, _, [], by simp only [Tree.insertBefore, hfault], (List.append_nil _).symm, rfl,
      h.attach_linked child parent⟩
  | some mark =>
    obtain ⟨hne, hmem⟩ := hmark mark rfl
    have hparent : t.parent mark = some parent := h.mem_children_iff.1 hmem
    have hstays : mark ∈ (t.detach child).children parent := h.mark_mem_detach hne hparent
    obtain ⟨before, after, hsplit⟩ := List.append_of_mem hstays
    refine ⟨_, before, mark :: after, ?_, hsplit, rfl, h.attachBefore_linked hi hsplit⟩
    simp only [Tree.insertBefore, hfault, if_neg hne, hparent, ne_eq, not_true_eq_false, if_false,
      if_pos (List.contains_iff_mem.2 hstays)]

/-- An insertion that was done was allowed. -/
theorem WellFormed.insertable_of_ok {mark : Option NodeId}
    (hok : (t.insertBefore parent child mark).1 = .ok ()) :
    Insertable t parent child ∧ ∀ m ∈ mark, m = child ∨ m ∈ t.children parent := by
  cases hfault : t.insertionFault? parent child with
  | some fault => simp [Tree.insertBefore, hfault] at hok
  | none =>
    refine ⟨h.no_fault_iff.1 hfault, fun m hm => ?_⟩
    rw [Option.mem_def] at hm
    subst hm
    simp only [Tree.insertBefore, hfault] at hok
    split_ifs at hok with hself hforeign
    · exact .inl hself
    · exact .inr (h.mem_children_iff.2 (not_not.1 hforeign))

/-! ## Effect and frame -/

/-- Taking a child out changes only the child, its parent and other children of that. -/
theorem WellFormed.get?_detach_away (hp : t.parent c = some p) (hm : m ≠ c) (hmp : m ≠ p)
    (hbeside : t.parent m ≠ some p) : (t.detach c).get? m = t.get? m := by
  obtain ⟨before, after, hsplit, hprev, hnext⟩ := h.exists_split hp
  obtain ⟨hbefore, hafter⟩ := @not_neighbour m before after fun hmem => hbeside <| h.mem_children_iff.1 <| by
    rw [hsplit]
    exact mem_with hmem
  rw [get?_detach hp, hprev, hnext]
  simp [hm, hmp, hbefore, hafter]

/-- Linking a child changes only the child, its parent and other children of that. -/
theorem WellFormed.get?_linked_away (hl : Linked t t' p c before after)
    (hsplit : t.children p = before ++ after) (hm : m ≠ c) (hmp : m ≠ p)
    (hbeside : t.parent m ≠ some p) : t'.get? m = t.get? m := by
  obtain ⟨hbefore, hafter⟩ := @not_neighbour m before after fun hmem => hbeside <|
    h.mem_children_iff.1 (hsplit ▸ hmem)
  rw [hl m]
  simp [hm, hmp, hbefore, hafter]

section
variable (hi : Insertable t parent child) (hl : Linked (t.detach child) t' parent child before after)
  (hsplit : (t.detach child).children parent = before ++ after)
include hi hl hsplit

/-- What is under the child is away from both changes. -/
theorem WellFormed.get?_below (hm : Above t child m) (hne : m ≠ child) : t'.get? m = t.get? m := by
  obtain ⟨q, hq, hcq⟩ := hm.eq_or.resolve_left (Ne.symm hne)
  have hparent : t.parent m ≠ some parent := fun he =>
    hi.not_above (Option.some.inj (hq.symm.trans he) ▸ hcq)
  have hmp : m ≠ parent := fun he => hi.not_above (he ▸ hm)
  have hin : t'.get? m = (t.detach child).get? m := by
    refine (h.detach child).get?_linked_away hl hsplit hne hmp ?_
    rw [parent_detach, if_neg hne]
    exact hparent
  rw [hin]
  cases hp : t.parent child with
  | none => rw [detach_of_loose hp]
  | some p =>
    have hnot : ¬ Above t child p := Above.not_parent h.ranked hp
    refine h.get?_detach_away hp hne (fun he => hnot (he ▸ hm)) fun he => hnot ?_
    exact Option.some.inj (hq.symm.trans he) ▸ hcq

omit hsplit in
theorem WellFormed.children_inserted (q : NodeId) : t'.children q =
    if q = parent then before ++ child :: after else (t.children q).filter (· ≠ child) := by
  obtain ⟨kind, hkind, -⟩ := hi.container
  have hp : (t.detach child).has parent = true := by
    rw [has, size_detach]
    exact has_of_kind? hkind
  rw [hl.children hp, h.children_detach]

theorem WellFormed.inserted_of_linked : Inserted t t' parent child after.head? := by
  have hc : (t.detach child).has child = true := by
    rw [has, size_detach]
    exact hi.has_child
  have hlist := h.children_inserted hi hl
  have hkept : ∀ q, q ≠ parent → t.parent child ≠ some q → t'.children q = t.children q := by
    intro q hq hother
    have hchild : child ∉ t.children q := fun hmem => hother (h.mem_children_iff.1 hmem)
    rw [hlist, if_neg hq, filter_of_not_mem hchild]
  have hkind : ∀ m, t'.kind? m = t.kind? m := fun m => by rw [hl.kind?, kind?_detach]
  have hsize : t'.size = t.size := by rw [hl.size_eq, size_detach]
  have hbelow : ∀ m, Above t child m → ∀ c ∈ t.children m, Above t child c := fun m hm c hc =>
    .up (h.mem_children_iff.1 hc) hm
  constructor
  case parent_child => rw [hl.parent hc, if_pos rfl]
  case list => exact ⟨before, after, h.children_detach child parent ▸ hsplit, rfl, by rw [hlist, if_pos rfl]⟩
  case old_list =>
    intro q hq hold
    obtain ⟨before, after, hsplit, -, -⟩ := h.exists_split hold
    refine ⟨before, after, hsplit, ?_⟩
    rw [hlist, if_neg hq, ← h.children_detach, h.children_detach_eq hsplit]
  case other_list => exact hkept
  case size => exact hsize
  case kind? => exact hkind
  case location => exact fun m => by rw [hl.location, location_detach]
  case below => exact fun m => h.get?_below hi hl hsplit
  case branch =>
    rw [branch?, branch?, hsize]
    refine branchTo_congr hkind (fun m hm => hkept m ?_ fun hp => ?_) hbelow _ (.refl child)
    · exact fun he => hi.not_above (he ▸ hm)
    · exact Above.not_parent h.ranked hp hm

end

theorem WellFormed.inserted {mark : Option NodeId} (hmark : mark ≠ some child)
    (hok : (t.insertBefore parent child mark).1 = .ok ()) :
    Inserted t (t.insertBefore parent child mark).2 parent child mark := by
  obtain ⟨hi, hmarks⟩ := h.insertable_of_ok hok
  have hplace : ∀ m ∈ mark, m ≠ child ∧ m ∈ t.children parent := fun m hm => by
    have hne : m ≠ child := fun he => hmark (he ▸ hm)
    exact ⟨hne, (hmarks m hm).resolve_left hne⟩
  obtain ⟨t', before, after, heq, hsplit, rfl, hl⟩ := h.insertBefore_linked hi hplace
  rw [heq]
  exact h.inserted_of_linked hi hl hsplit

end

/-- **What an insertion does and what it leaves alone.** -/
theorem inserted_of_ok (h : t.WellFormed) (parent child : NodeId) :
    ((t.append parent child).1 = .ok () → Inserted t (t.append parent child).2 parent child none) ∧
    ∀ mark, mark ≠ some child → (t.insertBefore parent child mark).1 = .ok () →
      Inserted t (t.insertBefore parent child mark).2 parent child mark := by
  refine ⟨fun hok => ?_, fun mark hmark hok => h.inserted hmark hok⟩
  rw [append_eq_insertBefore] at hok ⊢
  exact h.inserted (by simp) hok

/-- The second item of a list moves in front of the first one, or out of the list. -/
theorem inserted_of_ok_items : ∃ t, empty.run? items = some t ∧ t.WellFormed ∧
    (t.append 0 3).1 = .ok () ∧ Inserted t (t.append 0 3).2 0 3 none ∧
    some 2 ≠ some 3 ∧ (t.insertBefore 1 3 (some 2)).1 = .ok () ∧
    Inserted t (t.insertBefore 1 3 (some 2)).2 1 3 (some 2) := by
  obtain ⟨t, ht, happend, hinsert⟩ : ∃ t, empty.run? items = some t ∧ (t.append 0 3).1 = .ok () ∧
      (t.insertBefore 1 3 (some 2)).1 = .ok () := ⟨_, rfl, rfl, rfl⟩
  have hwf : t.WellFormed := wellFormed_empty.run? ht
  exact ⟨t, ht, hwf, happend, (inserted_of_ok hwf 0 3).1 happend, by decide, hinsert,
    (inserted_of_ok hwf 1 3).2 (some 2) (by decide) hinsert⟩

/-! ## Conditions -/

/-- In front of itself a child stays where it is, under whatever parent. -/
theorem insertBefore_self (t : Tree) (parent child : NodeId) :
    (t.insertBefore parent child (some child)).2 = t := by
  cases hfault : t.insertionFault? parent child <;> simp only [insertBefore, hfault, if_true]

/-- **When a child is put in front of a mark.** It is done exactly when the child may come under the parent and the mark
is a child of the parent or the child itself; and then the child is under the parent, unless it was to come in front of
itself and was not there before. -/
theorem insertBefore_ok_iff (h : t.WellFormed) (parent child mark : NodeId) :
    ((t.insertBefore parent child (some mark)).1 = .ok () ↔
      Insertable t parent child ∧ (mark = child ∨ mark ∈ t.children parent)) ∧
    ((t.insertBefore parent child (some mark)).1 = .ok () → (mark = child → child ∈ t.children parent) →
      child ∈ (t.insertBefore parent child (some mark)).2.children parent) := by
  refine ⟨⟨fun hok => ?_, fun ⟨hi, hmark⟩ => ?_⟩, fun hok hself => ?_⟩
  · obtain ⟨hi, hmarks⟩ := h.insertable_of_ok hok
    exact ⟨hi, hmarks mark rfl⟩
  · by_cases hne : mark = child
    · simp only [insertBefore, h.no_fault_iff.2 hi, if_pos hne]
    · have hplace : ∀ m ∈ some mark, m ≠ child ∧ m ∈ t.children parent := fun m hm =>
        Option.some.inj hm ▸ ⟨hne, hmark.resolve_left hne⟩
      obtain ⟨t', before, after, heq, -⟩ := h.insertBefore_linked hi hplace
      rw [heq]
  · by_cases hne : mark = child
    · subst hne
      rw [insertBefore_self]
      exact hself rfl
    · obtain ⟨before, after, -, -, hlist⟩ := (h.inserted (fun he => hne (Option.some.inj he)) hok).list
      rw [hlist]
      simp

/-- The first item of a list in front of the second one. -/
theorem insertBefore_ok_iff_items : ∃ t, empty.run? items = some t ∧ t.WellFormed ∧
    Insertable t 1 2 ∧ 3 ∈ t.children 1 ∧ (t.insertBefore 1 2 (some 3)).1 = .ok () ∧
    2 ∈ (t.insertBefore 1 2 (some 3)).2.children 1 := by
  obtain ⟨t, ht, hok⟩ : ∃ t, empty.run? items = some t ∧ (t.insertBefore 1 2 (some 3)).1 = .ok () :=
    ⟨_, rfl, rfl⟩
  have hwf : t.WellFormed := wellFormed_empty.run? ht
  obtain ⟨hiff, hunder⟩ := insertBefore_ok_iff hwf 1 2 3
  obtain ⟨hi, hmark⟩ := hiff.1 hok
  exact ⟨t, ht, hwf, hi, hmark.resolve_left (by decide), hok, hunder hok nofun⟩

/-- A text that is in no list may be put into one in front of itself, and is in none afterwards. -/
theorem not_insertBefore_ok_iff_child : ¬ ∀ (t : Tree) (parent child mark : NodeId), t.WellFormed →
    ((t.insertBefore parent child (some mark)).1 = .ok () ↔
      Insertable t parent child ∧ mark ∈ t.children parent) ∧
    ((t.insertBefore parent child (some mark)).1 = .ok () →
      child ∈ (t.insertBefore parent child (some mark)).2.children parent) := by
  intro h
  obtain ⟨t, ht, hok, hnot⟩ : ∃ t, empty.run? items = some t ∧
      (t.insertBefore 1 4 (some 4)).1 = .ok () ∧ 4 ∉ t.children 1 := ⟨_, rfl, rfl, by decide⟩
  have hunder := (h t 1 4 4 (wellFormed_empty.run? ht)).2 hok
  rw [insertBefore_self] at hunder
  exact hnot hunder

/-! ## Taking a removal back -/

section
variable (h : t.WellFormed)
include h

theorem WellFormed.insertable_of_child (hp : t.parent c = some p) : Insertable (t.detach c) p c := by
  have hc := h.mem_children_iff.2 hp
  refine ⟨?_, ?_, ?_, fun ha => Above.not_parent h.ranked hp ha.of_detach⟩
  · rw [kind?_detach]
    exact h.container p (List.ne_nil_of_mem hc)
  · rw [has, size_detach]
    exact has_of_parent hp
  · rintro rfl
    rw [h.root_loose] at hp
    simp at hp

/-- Linking a child again where it was taken out gives back each node with all its links. -/
theorem WellFormed.eq_of_relinked (hp : t.parent c = some p) (hsplit : t.children p = before ++ c :: after)
    (hl : Linked (t.detach c) t' p c before after) : t' = t := by
  obtain ⟨hprev, hnext⟩ := h.neighbours p before c after hsplit
  refine ext_get? fun m => ?_
  rw [hl m, get?_detach hp, hprev, hnext, Option.map_map]
  cases hm : t.get? m with
  | none => rfl
  | some x =>
    have hparent : m = c → x.parent = some p := by rintro rfl; simpa [parent, hm] using hp
    have hchildren : m = p → x.children = before ++ c :: after := by
      rintro rfl
      simpa [children, hm] using hsplit
    have hself : m = c → x.prev = before.getLast? ∧ x.next = after.head? := by
      rintro rfl
      exact ⟨by simpa [prev, hm] using hprev, by simpa [next, hm] using hnext⟩
    -- the two neighbours of the child name it again
    have hleft : before.getLast? = some m → x.next = some c := fun hlast => by
      obtain ⟨l, rfl⟩ := List.getLast?_eq_some_iff.1 hlast
      have := (h.neighbours p l m (c :: after) (by simpa using hsplit)).2
      simpa [next, hm] using this
    have hright : after.head? = some m → x.prev = some c := fun hhead => by
      obtain ⟨r, rfl⟩ := List.head?_eq_some_iff.1 hhead
      have := (h.neighbours p (before ++ [c]) m r (by simpa using hsplit)).1
      simpa [prev, hm] using this
    cases x
    grind

end

/-- **A child that is removed and put in front of the sibling that followed it gives back the same tree.** -/
theorem insertBefore_removeChild (h : t.WellFormed) (hp : t.parent c = some p) :
    (t.removeChild p c).1 = .ok c ∧
      (t.removeChild p c).2.insertBefore p c (t.next c) = (.ok (), t) := by
  obtain ⟨before, after, hsplit, -, hnext⟩ := h.exists_split hp
  have hremove : t.removeChild p c = (.ok c, t.detach c) := by
    simp [removeChild, has_of_parent hp, h.parent_has c p hp, hp]
  have hdetach : (t.detach c).detach c = t.detach c := detach_of_loose (by rw [parent_detach, if_pos rfl])
  have hwithout := h.children_detach_eq hsplit
  have hmark : ∀ m ∈ t.next c, m ≠ c ∧ m ∈ (t.detach c).children p := fun m hm => by
    have hmem : m ∈ after := List.mem_of_head? (hnext ▸ hm)
    have hnot := h.not_mem_rest hsplit
    rw [hwithout]
    exact ⟨fun he => hnot (he ▸ List.mem_append_right _ hmem), List.mem_append_right _ hmem⟩
  obtain ⟨t', before', after', heq, hsplit', hafter, hl⟩ :=
    (h.detach c).insertBefore_linked (h.insertable_of_child hp) hmark
  rw [hdetach] at hsplit' hl
  -- the place in front of the old sibling is the old place
  obtain ⟨rfl, rfl⟩ : before' = before ∧ after' = after :=
    split_unique_of_head? (hwithout ▸ (h.detach c).nodup_children p) (hwithout.symm.trans hsplit')
      (hafter.trans hnext)
  rw [hremove, heq, h.eq_of_relinked hp hsplit hl]
  exact ⟨rfl, rfl⟩

/-- The first item of a list goes out and back in front of the second one. -/
theorem insertBefore_removeChild_items : ∃ t, empty.run? items = some t ∧ t.WellFormed ∧
    t.parent 2 = some 1 ∧ t.next 2 = some 3 ∧
    (t.removeChild 1 2).2.insertBefore 1 2 (some 3) = (.ok (), t) := by
  obtain ⟨t, ht, hp, hnext⟩ : ∃ t, empty.run? items = some t ∧ t.parent 2 = some 1 ∧ t.next 2 = some 3 :=
    ⟨_, rfl, rfl, rfl⟩
  have hwf : t.WellFormed := wellFormed_empty.run? ht
  exact ⟨t, ht, hwf, hp, hnext, hnext ▸ (insertBefore_removeChild hwf hp).2⟩

end HtmlQuery.Tree
