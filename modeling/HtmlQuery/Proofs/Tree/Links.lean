import HtmlQuery.Tree.Walk
import Mathlib.Data.List.Basic

/-!
# Links after an edit

What `detach`, `attach` and `attachBefore` do to the views of a tree. `get?_detach` gives the whole node;
the others follow from it view by view. Putting a loose node under a parent is one relation for both ways of
doing it: `Linked t t' p c before after` says that `t'` is `t` with `c` between `before` and `after` under
`p`, and that nothing else is different (`linked_attach`, `linked_attachBefore`).
-/

namespace HtmlQuery.Tree

variable {t t' : Tree} {n m p c mark : NodeId}

/-! ## Views through a change -/

theorem ext_get? (h : ∀ n, t.get? n = t'.get? n) : t = t' := by
  cases t
  cases t'
  congr 1
  exact Array.ext_getElem? h

theorem has_iff : t.has n = true ↔ n < t.size := by simp [has]

theorem has_iff_get? : t.has n = true ↔ ∃ node, t.get? n = some node := by
  rw [has_iff, get?, size]
  constructor
  · exact fun h => ⟨_, Array.getElem?_eq_getElem h⟩
  · rintro ⟨_, h⟩
    exact (Array.getElem?_eq_some_iff.1 h).1

theorem get?_of_not_has (h : t.has n = false) : t.get? n = none := by
  rw [get?_eq_none_iff]
  simpa [has] using h

theorem prev_of_not_has (h : t.has n = false) : t.prev n = none := by
  rw [prev, get?_of_not_has h]; rfl

theorem next_of_not_has (h : t.has n = false) : t.next n = none := by
  rw [next, get?_of_not_has h]; rfl

theorem has_of_parent (h : t.parent n = some p) : t.has n = true := by
  obtain ⟨node, hnode, -⟩ := Option.bind_eq_some_iff.1 h
  exact has_iff_get?.2 ⟨node, hnode⟩

theorem has_of_kind? {kind : NodeKind} (h : t.kind? n = some kind) : t.has n = true := by
  obtain ⟨node, hnode, -⟩ := Option.map_eq_some_iff.1 h
  exact has_iff_get?.2 ⟨node, hnode⟩

theorem exists_kind?_of_has (h : t.has n = true) : ∃ kind, t.kind? n = some kind := by
  obtain ⟨node, hnode⟩ := has_iff_get?.1 h
  exact ⟨node.kind, Option.map_eq_some_iff.2 ⟨node, hnode, rfl⟩⟩

theorem kind?_of_element? {e : Element} (h : t.element? n = some e) : t.kind? n = some (.element e) := by
  obtain ⟨kind, hkind, he⟩ := Option.bind_eq_some_iff.1 h
  cases kind with
  | element data => exact hkind.trans (congrArg _ (congrArg _ (Option.some.inj he)))
  | _ => cases he

theorem has_of_mem_children (h : c ∈ t.children n) : t.has n = true := by
  unfold children at h
  split at h
  · exact has_iff_get?.2 ⟨_, by assumption⟩
  · simp at h

theorem children_eq : t.children n = ((t.get? n).map (·.children)).getD [] := by
  unfold children
  cases t.get? n <;> rfl

section
variable {f : Node → Node}

theorem bind_modify {α : Type} {link : Node → Option α} (hf : ∀ x, link (f x) = link x) :
    ((t.modify n f).get? m).bind link = (t.get? m).bind link := by
  rw [get?_modify]
  split <;> cases t.get? m <;> simp [hf]

theorem parent_modify (hf : ∀ x, (f x).parent = x.parent) :
    (t.modify n f).parent m = t.parent m := bind_modify hf

theorem next_modify (hf : ∀ x, (f x).next = x.next) : (t.modify n f).next m = t.next m :=
  bind_modify hf

theorem prev_modify (hf : ∀ x, (f x).prev = x.prev) : (t.modify n f).prev m = t.prev m :=
  bind_modify hf

theorem children_modify (hf : ∀ x, (f x).children = x.children) :
    (t.modify n f).children m = t.children m := by
  rw [children_eq, get?_modify, children_eq]
  split <;> cases t.get? m <;> simp [hf]

end

theorem get?_modify_eq_map (f : Node → Node) :
    (t.modify n f).get? m = (t.get? m).map fun x => if n = m then f x else x := by
  rw [get?_modify]
  split <;> simp

/-! ## A new node -/

section
variable (kind : NodeKind) (location : Option Location)

theorem get?_size (t : Tree) : t.get? t.size = none := get?_eq_none_iff.2 (Nat.le_refl _)

theorem bind_alloc {α : Type} {link : Node → Option α} (hlink : link (.detached kind location) = none)
    (n : NodeId) : ((t.alloc kind location).get? n).bind link = (t.get? n).bind link := by
  rw [get?_alloc]
  split
  · subst n
    rw [get?_size]
    exact hlink
  · rfl

@[simp] theorem parent_alloc (n : NodeId) : (t.alloc kind location).parent n = t.parent n :=
  bind_alloc kind location rfl n

@[simp] theorem next_alloc (n : NodeId) : (t.alloc kind location).next n = t.next n :=
  bind_alloc kind location rfl n

@[simp] theorem prev_alloc (n : NodeId) : (t.alloc kind location).prev n = t.prev n :=
  bind_alloc kind location rfl n

@[simp] theorem children_alloc (n : NodeId) :
    (t.alloc kind location).children n = t.children n := by
  rw [children_eq, get?_alloc, children_eq]
  split
  · subst n
    rw [get?_size]
    rfl
  · rfl

theorem kind?_alloc (n : NodeId) :
    (t.alloc kind location).kind? n = if n = t.size then some kind else t.kind? n := by
  rw [kind?, get?_alloc, kind?]
  split <;> rfl

end

/-! ## Lists with one member less -/

theorem mem_with {before after : List NodeId} (h : m ∈ before ++ after) : m ∈ before ++ c :: after := by
  rw [List.mem_append] at h ⊢
  exact h.imp_right (List.mem_cons_of_mem _)

theorem filter_of_not_mem {l : List NodeId} (h : c ∉ l) : l.filter (· ≠ c) = l := by
  rw [List.filter_eq_self]
  intro m hm
  have : m ≠ c := by
    rintro rfl
    exact h hm
  simpa using this

/-! ## Taking a node out -/

theorem detach_of_loose (h : t.parent n = none) : t.detach n = t := by
  unfold detach
  split
  · rfl
  · rename_i node hnode
    have : node.parent = none := by simpa [parent, hnode] using h
    rw [this]

theorem get?_detach (h : t.parent n = some p) (m : NodeId) :
    (t.detach n).get? m = (t.get? m).map fun x =>
      { x with
        parent := if m = n then none else x.parent
        children := if m = p then x.children.filter (· ≠ n) else x.children
        next := if t.prev n = some m then t.next n else if m = n then none else x.next
        prev := if t.next n = some m then t.prev n else if m = n then none else x.prev } := by
  obtain ⟨node, hnode, hp⟩ := Option.bind_eq_some_iff.1 h
  have hprev : t.prev n = node.prev := by simp [prev, hnode]
  have hnext : t.next n = node.next := by simp [next, hnode]
  simp only [hprev, hnext, detach, hnode, hp, join]
  cases node.prev <;> cases node.next <;>
    simp only [get?_modify_eq_map, Option.map_map, Function.comp_def] <;>
    congr 1 <;> funext x <;> cases x <;> grind

theorem size_detach (t : Tree) (n : NodeId) : (t.detach n).size = t.size := by
  cases h : t.parent n with
  | none => rw [detach_of_loose h]
  | some p =>
    refine Nat.le_antisymm (get?_eq_none_iff.1 ?_) (get?_eq_none_iff.1 ?_)
    · rw [get?_detach h, get?_size]; rfl
    · have := get?_detach h (t.detach n).size
      rw [get?_size] at this
      simpa using this.symm

theorem kind?_detach (t : Tree) (n m : NodeId) : (t.detach n).kind? m = t.kind? m := by
  cases h : t.parent n with
  | none => rw [detach_of_loose h]
  | some p =>
    rw [kind?, get?_detach h, kind?]
    cases t.get? m <;> rfl

theorem location_detach (t : Tree) (n m : NodeId) : (t.detach n).location m = t.location m := by
  cases h : t.parent n with
  | none => rw [detach_of_loose h]
  | some p =>
    rw [location, get?_detach h, location]
    cases t.get? m <;> rfl

theorem parent_detach (t : Tree) (n m : NodeId) :
    (t.detach n).parent m = if m = n then none else t.parent m := by
  cases h : t.parent n with
  | none =>
    rw [detach_of_loose h]
    split
    · rw [‹m = n›, h]
    · rfl
  | some p =>
    rw [parent, get?_detach h, parent]
    cases t.get? m <;> simp

section
variable (h : t.parent n = some p)
include h

theorem children_detach (m : NodeId) : (t.detach n).children m =
    if m = p then (t.children p).filter (· ≠ n) else t.children m := by
  by_cases hp : m = p
  · subst hp
    cases hm : t.get? m <;> simp [children_eq, get?_detach h, hm]
  · cases hm : t.get? m <;> simp [children_eq, get?_detach h, hm, hp]

theorem next_detach (hm : t.has m = true) : (t.detach n).next m =
    if t.prev n = some m then t.next n else if m = n then none else t.next m := by
  obtain ⟨x, hx⟩ := has_iff_get?.1 hm
  simp [next, get?_detach h m, hx]

theorem prev_detach (hm : t.has m = true) : (t.detach n).prev m =
    if t.next n = some m then t.prev n else if m = n then none else t.prev m := by
  obtain ⟨x, hx⟩ := has_iff_get?.1 hm
  simp [prev, get?_detach h m, hx]

end

/-! ## Putting a node in -/

/-- `t'` is `t` with `c` put between `before` and `after` under `p`. -/
def Linked (t t' : Tree) (p c : NodeId) (before after : List NodeId) : Prop :=
  ∀ m, t'.get? m = (t.get? m).map fun x =>
    { x with
      parent := if m = c then some p else x.parent
      children := if m = p then before ++ c :: after else x.children
      next := if m = c then after.head? else if before.getLast? = some m then some c else x.next
      prev := if m = c then before.getLast? else if after.head? = some m then some c else x.prev }

theorem attach_detach (t : Tree) (p c : NodeId) : (t.detach c).attach p c = t.attach p c := by
  rw [attach, detach_of_loose (by rw [parent_detach, if_pos rfl]), attach]

theorem linked_attach (hc : t.parent c = none) (hprev : t.prev c = none) (hnext : t.next c = none)
    (hlast : c ∉ t.children p) : Linked t (t.attach p c) p c (t.children p) [] := by
  intro m
  rw [attach, detach_of_loose hc]
  cases hl : (t.children p).getLast? with
  | none =>
    have hnil : t.children p = [] := List.getLast?_eq_none_iff.1 hl
    simp only [get?_modify_eq_map, Option.map_map, Function.comp_def]
    cases hm : t.get? m with
    | none => rfl
    | some x =>
      have h1 : m = p → x.children = [] := by rintro rfl; simpa [children, hm] using hnil
      have h2 : m = c → x.prev = none := by rintro rfl; simpa [prev, hm] using hprev
      have h3 : m = c → x.next = none := by rintro rfl; simpa [next, hm] using hnext
      cases x
      grind
  | some last =>
    have hne : last ≠ c := by rintro rfl; exact hlast (List.mem_of_getLast? hl)
    simp only [get?_modify_eq_map, Option.map_map, Function.comp_def]
    cases hm : t.get? m with
    | none => rfl
    | some x =>
      have h1 : m = p → x.children = t.children p := by rintro rfl; simp [children, hm]
      have h3 : m = c → x.next = none := by rintro rfl; simpa [next, hm] using hnext
      cases x
      grind

theorem putBefore_append {before after : List NodeId} (h : mark ∉ before) :
    putBefore mark c (before ++ mark :: after) = before ++ c :: mark :: after := by
  induction before with
  | nil => simp [putBefore]
  | cons b before ih =>
    rw [List.mem_cons, not_or] at h
    rw [List.cons_append, putBefore, if_neg (Ne.symm h.1), ih h.2, List.cons_append]

theorem get?_relink_of_not_mem {l : List NodeId} {left : Option NodeId} (h : m ∉ l) :
    (t.relink left l).get? m = t.get? m := by
  induction l generalizing t left with
  | nil => rfl
  | cons b l ih =>
    rw [List.mem_cons, not_or] at h
    rw [relink, ih h.2, get?_modify, if_neg (Ne.symm h.1)]

theorem get?_relink {before after : List NodeId} {left : Option NodeId}
    (h : (before ++ m :: after).Nodup) :
    (t.relink left (before ++ m :: after)).get? m = (t.get? m).map fun x =>
      { x with prev := before.getLast?.or left, next := after.head? } := by
  induction before generalizing t left with
  | nil =>
    have hm : m ∉ after := (List.nodup_cons.1 h).1
    rw [List.nil_append, relink, get?_relink_of_not_mem hm, get?_modify, if_pos rfl]
    rfl
  | cons b before ih =>
    rw [List.cons_append, List.nodup_cons] at h
    have hb : b ≠ m := fun he => h.1 (by simp [he])
    rw [List.cons_append, relink, ih h.2, get?_modify, if_neg hb]
    cases before <;> simp [List.getLast?_cons]

/-- Who the neighbours are in a list with one more member: the new member on one side for those at its place,
the old neighbours for all others. -/
theorem neighbours_insert {before after l r : List NodeId} (hnd : (before ++ c :: after).Nodup)
    (h : before ++ c :: after = l ++ m :: r) : (m = c ∧ l = before ∧ r = after) ∨
      ∃ l' r', before ++ after = l' ++ m :: r' ∧ m ≠ c ∧
        l.getLast? = (if after.head? = some m then some c else l'.getLast?) ∧
        r.head? = (if before.getLast? = some m then some c else r'.head?) := by
  have hbefore : m ∈ after → before.getLast? ≠ some m := fun hm hl =>
    (List.nodup_append.1 hnd).2.2 m (List.mem_of_getLast? hl) m (List.mem_cons_of_mem _ hm) rfl
  have hafter : m ∈ before → after.head? ≠ some m := fun hm hl =>
    (List.nodup_append.1 hnd).2.2 m hm m (List.mem_cons_of_mem _ (List.mem_of_head? hl)) rfl
  rcases List.append_eq_append_iff.1 h with ⟨as, hl, has⟩ | ⟨bs, hb, hbs⟩
  · cases as with
    | nil =>
      simp only [List.nil_append, List.cons.injEq] at has
      exact .inl ⟨has.1.symm, by simpa using hl, has.2.symm⟩
    | cons a as =>
      -- behind the new member
      simp only [List.cons_append, List.cons.injEq] at has
      obtain ⟨rfl, rfl⟩ := has
      have hm : m ≠ c := fun he => by simp [he, List.nodup_append] at hnd
      refine .inr ⟨before ++ as, r, by simp, hm, ?_, by rw [if_neg (hbefore (by simp))]⟩
      subst hl
      cases as with
      | nil => simp
      | cons a as =>
        have : a ≠ m := fun he => by simp [he, List.nodup_append] at hnd
        simp [this, List.getLast?_cons]
  · cases bs with
    | nil =>
      simp only [List.nil_append, List.cons.injEq] at hbs
      exact .inl ⟨hbs.1, by simpa using hb.symm, hbs.2⟩
    | cons b bs =>
      -- in front of the new member
      simp only [List.cons_append, List.cons.injEq] at hbs
      obtain ⟨rfl, rfl⟩ := hbs
      subst hb
      have hm : m ≠ c := fun he => by simp [he, List.nodup_append] at hnd
      refine .inr ⟨l, bs ++ after, by simp, hm, by rw [if_neg (hafter (by simp))], ?_⟩
      rcases List.eq_nil_or_concat bs with rfl | ⟨bs, b, rfl⟩
      · simp
      · have : b ≠ m := fun he => by simp [he, List.nodup_append] at hnd
        cases bs <;> simp [this, List.getLast?_cons]

theorem split_unique {l r l' r' : List NodeId} (hnd : (l ++ m :: r).Nodup)
    (h : l ++ m :: r = l' ++ m :: r') : l = l' ∧ r = r' := by
  have hr : m ∉ r := (List.nodup_cons.1 (List.nodup_append.1 hnd).2.1).1
  have hl : m ∉ l := fun hm => (List.nodup_append.1 hnd).2.2 m hm m (List.mem_cons_self ..) rfl
  obtain ⟨h₁, -, h₂⟩ := (List.append_cons_inj_of_notMem hl hr).1 h
  exact ⟨h₁, h₂⟩

theorem split_unique_of_head? {l r l' r' : List NodeId} (hnd : (l ++ r).Nodup) (h : l ++ r = l' ++ r')
    (hhead : r'.head? = r.head?) : l' = l ∧ r' = r := by
  cases r with
  | nil =>
    obtain rfl : r' = [] := List.head?_eq_none_iff.1 hhead
    exact ⟨by simpa using h.symm, rfl⟩
  | cons m r =>
    obtain ⟨r', rfl⟩ := List.head?_eq_some_iff.1 hhead
    obtain ⟨rfl, rfl⟩ := split_unique hnd h
    exact ⟨rfl, rfl⟩

/-- Who the neighbours are in a list with one member less. -/
theorem neighbours_remove {before after l r : List NodeId} (hnd : (before ++ c :: after).Nodup)
    (h : before ++ after = l ++ m :: r) : ∃ l' r', before ++ c :: after = l' ++ m :: r' ∧ m ≠ c ∧
      l.getLast? = (if after.head? = some m then before.getLast? else l'.getLast?) ∧
      r.head? = (if before.getLast? = some m then after.head? else r'.head?) := by
  obtain ⟨hc, hnd'⟩ := List.nodup_cons.1 (List.perm_middle.nodup_iff.1 hnd)
  rw [h] at hc hnd'
  have hm : m ∈ before ++ after := by simp [h]
  obtain ⟨l', r', hsplit⟩ : ∃ l' r', before ++ c :: after = l' ++ m :: r' :=
    List.append_of_mem (mem_with hm)
  rcases neighbours_insert hnd hsplit with ⟨rfl, -, -⟩ | ⟨l'', r'', hlr, hmc, hleft, hright⟩
  · simp at hc
  obtain ⟨rfl, rfl⟩ := split_unique hnd' (h.symm.trans hlr)
  refine ⟨l', r', hsplit, hmc, ?_, ?_⟩
  · split
    · rename_i hhead
      obtain ⟨after, rfl⟩ := List.head?_eq_some_iff.1 hhead
      rw [(split_unique hnd' h.symm).1]
    · rw [hleft, if_neg (by assumption)]
  · split
    · rename_i hlast
      obtain ⟨before, rfl⟩ := List.getLast?_eq_some_iff.1 hlast
      rw [List.append_assoc, List.singleton_append] at h
      rw [(split_unique hnd' h.symm).2]
    · rw [hright, if_neg (by assumption)]

/-- The neighbours of a child in its parent's list are the ones that it names. -/
def Neighbours (t : Tree) (p : NodeId) : Prop :=
  ∀ before n after, t.children p = before ++ n :: after →
    t.prev n = before.getLast? ∧ t.next n = after.head?

section
variable {before after : List NodeId} (hch : t.children p = before ++ mark :: after)
  (hnd : (t.children p).Nodup) (hc : c ∉ t.children p) (hpc : p ≠ c)
include hch hnd hc

theorem nodup_attachBefore : (before ++ c :: mark :: after).Nodup := by
  rw [hch] at hnd hc
  exact List.perm_middle.nodup_iff.2 (List.nodup_cons.2 ⟨hc, hnd⟩)

include hpc

/-- Putting a node in front of another is relinking a list in a tree where only the parent's list and the
node's parent are different. -/
theorem attachBefore_eq_relink : ∃ t₂ : Tree,
    t.attachBefore p c mark = t₂.relink none (before ++ c :: mark :: after) ∧
      ∀ m, t₂.get? m = (t.get? m).map fun x =>
        { x with
          parent := if m = c then some p else x.parent
          children := if m = p then before ++ c :: mark :: after else x.children } := by
  have hput : putBefore mark c (t.children p) = before ++ c :: mark :: after := by
    rw [hch, putBefore_append]
    rw [hch] at hnd
    exact fun h => (List.nodup_append.1 hnd).2.2 mark h mark (List.mem_cons_self ..) rfl
  have hget : ∀ m, ((t.modify p fun node =>
      { node with children := putBefore mark c node.children }).modify c fun node =>
        { node with parent := some p }).get? m = (t.get? m).map fun x =>
      { x with
        parent := if m = c then some p else x.parent
        children := if m = p then before ++ c :: mark :: after else x.children } := by
    intro m
    simp only [get?_modify_eq_map, Option.map_map, Function.comp_def]
    cases hm : t.get? m with
    | none => rfl
    | some x =>
      have : m = p → putBefore mark c x.children = before ++ c :: mark :: after := by
        rintro rfl
        rw [← hput]
        simp [children, hm]
      cases x
      grind
  refine ⟨_, ?_, hget⟩
  have hp : t.has p = true := has_of_mem_children (c := mark) (by simp [hch])
  obtain ⟨node, hnode⟩ := has_iff_get?.1 hp
  rw [attachBefore]
  congr 1
  rw [children_eq, hget, hnode]
  simp

theorem linked_attachBefore (hl : t.Neighbours p) :
    Linked t (t.attachBefore p c mark) p c before (mark :: after) := by
  obtain ⟨t₂, heq, hget⟩ := attachBefore_eq_relink hch hnd hc hpc
  have hnd' := nodup_attachBefore hch hnd hc
  intro m
  rw [heq]
  by_cases hmem : m ∈ before ++ c :: mark :: after
  · obtain ⟨l, r, hlr⟩ := List.append_of_mem hmem
    rw [hlr, get?_relink (hlr ▸ hnd'), ← hlr, hget, Option.map_map]
    rcases neighbours_insert hnd' hlr with ⟨rfl, rfl, rfl⟩ | ⟨l', r', hsplit, hmc, hleft, hright⟩
    · cases t.get? m <;> simp
    · obtain ⟨hprev, hnext⟩ := hl l' m r' (hch.trans hsplit)
      cases hx : t.get? m with
      | none => rfl
      | some x =>
        simp only [prev, next, hx, Option.bind_some] at hprev hnext
        simp [hmc, hleft, hright, hprev, hnext]
  · rw [get?_relink_of_not_mem hmem, hget]
    have hmc : m ≠ c := fun h => hmem (by simp [h])
    have hmark : mark ≠ m := fun h => hmem (by simp [h])
    have hbefore : before.getLast? ≠ some m := fun h =>
      hmem (List.mem_append_left _ (List.mem_of_getLast? h))
    simp [hmc, hmark, hbefore]

end

/-! ## Views of a linked tree -/

section
variable {before after : List NodeId} (h : Linked t t' p c before after)
include h

theorem Linked.size_eq : t'.size = t.size := by
  refine Nat.le_antisymm (get?_eq_none_iff.1 ?_) (get?_eq_none_iff.1 ?_)
  · rw [h, get?_eq_none_iff.2 (Nat.le_refl _)]; rfl
  · have := h t'.size
    rw [get?_eq_none_iff.2 (Nat.le_refl _)] at this
    simpa using this.symm

theorem Linked.kind? (m : NodeId) : t'.kind? m = t.kind? m := by
  rw [Tree.kind?, h, Tree.kind?]
  cases t.get? m <;> rfl

theorem Linked.location (m : NodeId) : t'.location m = t.location m := by
  rw [Tree.location, h, Tree.location]
  cases t.get? m <;> rfl

theorem Linked.parent (hc : t.has c = true) (m : NodeId) :
    t'.parent m = if m = c then some p else t.parent m := by
  rw [Tree.parent, h, Tree.parent]
  cases hm : t.get? m with
  | none =>
    have : m ≠ c := by rintro rfl; obtain ⟨x, hx⟩ := has_iff_get?.1 hc; simp [hx] at hm
    simp [this]
  | some x => simp

theorem Linked.children (hp : t.has p = true) (m : NodeId) :
    t'.children m = if m = p then before ++ c :: after else t.children m := by
  rw [children_eq, h, children_eq]
  cases hm : t.get? m with
  | none =>
    have : m ≠ p := by rintro rfl; obtain ⟨x, hx⟩ := has_iff_get?.1 hp; simp [hx] at hm
    simp [this]
  | some x => simp

theorem Linked.next (hm : t.has m = true) : t'.next m =
    if m = c then after.head? else if before.getLast? = some m then some c else t.next m := by
  obtain ⟨x, hx⟩ := has_iff_get?.1 hm
  simp [Tree.next, h m, hx]

theorem Linked.prev (hm : t.has m = true) : t'.prev m =
    if m = c then before.getLast? else if after.head? = some m then some c else t.prev m := by
  obtain ⟨x, hx⟩ := has_iff_get?.1 hm
  simp [Tree.prev, h m, hx]

end

end HtmlQuery.Tree
