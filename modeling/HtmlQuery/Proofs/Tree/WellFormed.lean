import HtmlQuery.Proofs.Tree.Ancestry

/-!
# Well-formed trees

`WellFormed t` collects what the four kinds of links of a tree owe each other: child lists and parents say the
same, siblings are neighbours in the list of their parent, only containers have children, and parents lead to a
loose node. `WellFormed.of_ranked` derives it from fewer facts, `WellFormed.of_moved` from what is so around a node
that was moved. Every edit keeps it (`WellFormed.detach`, `WellFormed.linked` and the operations built on the two),
so every run of edits on the empty tree does (`WellFormed.run?`).
-/

namespace HtmlQuery.Tree

variable {t t' : Tree} {n m p c : NodeId} {before after : List NodeId}

/-- The links of a tree agree. -/
structure WellFormed (t : Tree) : Prop where
  /-- Node 0 is the document. -/
  root_kind : t.kind? root = some .document
  root_loose : t.parent root = none
  /-- Links lead to nodes. -/
  parent_has : ∀ n p, t.parent n = some p → t.has p = true
  child_has : ∀ p, ∀ c ∈ t.children p, t.has c = true
  prev_has : ∀ n m, t.prev n = some m → t.has m = true
  next_has : ∀ n m, t.next n = some m → t.has m = true
  /-- A node is in the list of its parent once and in no other list. -/
  count_children : ∀ p c, (t.children p).count c = if t.parent c = some p then 1 else 0
  /-- Siblings are neighbours in the list of their parent. -/
  neighbours : ∀ p, t.Neighbours p
  loose : ∀ n, t.parent n = none → t.prev n = none ∧ t.next n = none
  /-- Only the document and elements have children. -/
  container : ∀ n, t.children n ≠ [] → ∃ kind, t.kind? n = some kind ∧ kind.isContainer = true
  /-- Parents lead to a node without a parent in fewer steps than there are nodes. -/
  ends : ∀ n, t.has n = true → ∃ k < t.size, ∃ top, t.up k n = some top ∧ t.parent top = none

/-! ## Consequences -/

section
variable (hcount : ∀ p c, (t.children p).count c = if t.parent c = some p then 1 else 0)
include hcount

theorem mem_children_iff_of_count : c ∈ t.children p ↔ t.parent c = some p := by
  rw [← List.count_pos_iff, hcount]
  split <;> simp [*]

theorem nodup_children_of_count (p : NodeId) : (t.children p).Nodup :=
  List.nodup_iff_count.2 fun c => by
    rw [hcount]
    split <;> omega

/-- A tree is well-formed if its lists and parents agree, siblings are neighbours and parents are ranked. -/
theorem WellFormed.of_ranked {rank : NodeId → Nat} (hkind : t.kind? root = some .document)
    (hroot : t.parent root = none) (hneighbours : ∀ p, t.Neighbours p)
    (hloose : ∀ n, t.parent n = none → t.prev n = none ∧ t.next n = none)
    (hcontainer : ∀ n, t.children n ≠ [] → ∃ kind, t.kind? n = some kind ∧ kind.isContainer = true)
    (hrank : t.Ranked rank) : t.WellFormed := by
  have hmem : ∀ {p c}, c ∈ t.children p ↔ t.parent c = some p := mem_children_iff_of_count hcount
  have hparent : ∀ n p, t.parent n = some p → t.has p = true := fun n p h =>
    has_of_mem_children (hmem.2 h)
  have hchild : ∀ p, ∀ c ∈ t.children p, t.has c = true := fun p c h => has_of_parent (hmem.1 h)
  -- a sibling link leads to another member of the same list
  have hsibling : ∀ n m, t.prev n = some m ∨ t.next n = some m → t.has m = true := by
    intro n m h
    cases hp : t.parent n with
    | none => simp [hloose n hp] at h
    | some p =>
      obtain ⟨before, after, hsplit⟩ := List.append_of_mem (hmem.2 hp)
      obtain ⟨hprev, hnext⟩ := hneighbours p before n after hsplit
      refine hchild p m ?_
      rw [hsplit]
      rcases h with h | h
      · exact List.mem_append_left _ (List.mem_of_getLast? (hprev ▸ h))
      · exact List.mem_append_right _ (List.mem_cons_of_mem _ (List.mem_of_head? (hnext ▸ h)))
  exact {
    root_kind := hkind
    root_loose := hroot
    parent_has := hparent
    child_has := hchild
    prev_has := fun n m h => hsibling n m (.inl h)
    next_has := fun n m h => hsibling n m (.inr h)
    count_children := hcount
    neighbours := hneighbours
    loose := hloose
    container := hcontainer
    ends := fun n hn => exists_top hrank hparent hn }

end

namespace WellFormed

variable (h : t.WellFormed)
include h

theorem mem_children_iff : c ∈ t.children p ↔ t.parent c = some p :=
  mem_children_iff_of_count h.count_children

theorem nodup_children (p : NodeId) : (t.children p).Nodup :=
  nodup_children_of_count h.count_children p

theorem ranked : t.Ranked t.depth := ranked_depth h.ends

theorem mem_ancestors_iff {a : NodeId} :
    a ∈ t.ancestors n ↔ ∃ p, t.parent n = some p ∧ Above t a p := Tree.mem_ancestors_iff h.ends

theorem has_root : t.has root = true := has_of_kind? h.root_kind

/-- The place of a node in the list of its parent. -/
theorem exists_split (hp : t.parent n = some p) : ∃ before after,
    t.children p = before ++ n :: after ∧ t.prev n = before.getLast? ∧ t.next n = after.head? := by
  obtain ⟨before, after, hsplit⟩ := List.append_of_mem (h.mem_children_iff.2 hp)
  exact ⟨before, after, hsplit, h.neighbours p before n after hsplit⟩

theorem depth_of_mem_children (hc : c ∈ t.children n) : t.depth c = t.depth n + 1 := by
  rw [depth, ancestors_of_parent h.ends (h.mem_children_iff.1 hc), List.length_cons, depth]

theorem depth_lt_size (hn : t.has n = true) : t.depth n < t.size := by
  obtain ⟨k, hk, top, hup, htop⟩ := h.ends n hn
  cases hp : t.parent n with
  | none =>
    rw [depth, ancestors_of_loose hp]
    exact Nat.zero_lt_of_lt hk
  | some p =>
    cases k with
    | zero =>
      obtain rfl : n = top := Option.some.inj hup
      simp [hp] at htop
    | succ k =>
      rw [up, hp, Option.bind_some] at hup
      rw [depth, ancestors, hp, climb_eq_of_up hup htop (Nat.lt_of_succ_lt hk), length_climb_of_up hup]
      exact hk

end WellFormed

/-! ## Edits keep it -/

theorem wellFormed_empty : empty.WellFormed := by
  have hget : ∀ n, empty.get? n = if n = 0 then some (.detached .document none) else none := by
    intro n
    cases n <;> rfl
  have hparent : ∀ n, empty.parent n = none := fun n => by
    rw [parent, hget]
    split <;> rfl
  have hchildren : ∀ n, empty.children n = [] := fun n => by
    rw [children_eq, hget]
    split <;> rfl
  have hrank : empty.Ranked fun _ => 0 := fun n p hp => by
    rw [hparent] at hp
    simp at hp
  refine .of_ranked ?_ rfl rfl ?_ ?_ ?_ hrank
  · intro p c
    rw [hchildren, hparent]
    rfl
  · intro p before n after hsplit
    rw [hchildren] at hsplit
    simp at hsplit
  · intro n _
    rw [prev, next, hget]
    split <;> exact ⟨rfl, rfl⟩
  · intro n hn
    exact absurd (hchildren n) hn

/-- Whether a tree is well-formed depends on its links, and on kinds only as far as they tell containers from
other nodes. -/
theorem WellFormed.of_sameLinks (h : t.WellFormed) (hparent : ∀ n, t'.parent n = t.parent n)
    (hchildren : ∀ n, t'.children n = t.children n) (hprev : ∀ n, t'.prev n = t.prev n)
    (hnext : ∀ n, t'.next n = t.next n) (hroot : t'.kind? root = some .document)
    (hkind : ∀ n kind, t.kind? n = some kind → kind.isContainer = true →
      ∃ kind', t'.kind? n = some kind' ∧ kind'.isContainer = true) : t'.WellFormed := by
  have hrank : t'.Ranked t.depth := fun n p hp => h.ranked n p (hparent n ▸ hp)
  refine .of_ranked ?_ hroot (hparent root ▸ h.root_loose) ?_ ?_ ?_ hrank
  · intro p c
    rw [hchildren, hparent]
    exact h.count_children p c
  · intro p before n after hsplit
    rw [hprev, hnext]
    exact h.neighbours p before n after (hchildren p ▸ hsplit)
  · intro n hn
    rw [hprev, hnext]
    exact h.loose n (hparent n ▸ hn)
  · intro n hn
    rw [hchildren] at hn
    obtain ⟨kind, hk, hc⟩ := h.container n hn
    exact hkind n kind hk hc

/-- A new node is loose. -/
theorem WellFormed.alloc (h : t.WellFormed) (kind : NodeKind) (location : Option Location) :
    (t.alloc kind location).WellFormed := by
  have hold : ∀ n, t.has n = true → (t.alloc kind location).kind? n = t.kind? n := fun n hn => by
    rw [kind?_alloc, if_neg (Nat.ne_of_lt (has_iff.1 hn))]
  refine h.of_sameLinks (parent_alloc _ _) (children_alloc _ _) (prev_alloc _ _) (next_alloc _ _)
    (hold root h.has_root ▸ h.root_kind) ?_
  intro n k hk hc
  exact ⟨k, hold n (has_of_kind? hk) ▸ hk, hc⟩

theorem kind?_setKind (hn : t.has n = true) (kind : NodeKind) (m : NodeId) :
    (t.setKind n kind).kind? m = if n = m then some kind else t.kind? m := by
  rw [Tree.setKind, kind?, get?_modify, kind?]
  split
  · subst m
    obtain ⟨node, hnode⟩ := has_iff_get?.1 hn
    simp [hnode]
  · rfl

/-- A new payload in a node that may have children in both cases, or in neither. -/
theorem WellFormed.setKind (h : t.WellFormed) {kind kind' : NodeKind} (hk : t.kind? n = some kind)
    (hroot : n = root → kind' = .document) (hc : kind.isContainer = kind'.isContainer) :
    (t.setKind n kind').WellFormed := by
  have hkind := kind?_setKind (has_of_kind? hk) kind'
  refine h.of_sameLinks (fun _ => parent_modify fun _ => rfl) (fun _ => children_modify fun _ => rfl)
    (fun _ => prev_modify fun _ => rfl) (fun _ => next_modify fun _ => rfl) ?_ ?_
  · rw [hkind]
    split
    · rw [hroot (by assumption)]
    · exact h.root_kind
  · intro m k hm hcontainer
    rw [hkind]
    split
    · subst m
      rw [hk, Option.some.injEq] at hm
      subst hm
      exact ⟨kind', rfl, hc ▸ hcontainer⟩
    · exact ⟨k, hm, hcontainer⟩

/-- A node outside of a list is no end of its parts. -/
theorem not_neighbour (h : m ∉ before ++ after) :
    before.getLast? ≠ some m ∧ after.head? ≠ some m := by
  rw [List.mem_append, not_or] at h
  exact ⟨fun hc => h.1 (List.mem_of_getLast? hc), fun hc => h.2 (List.mem_of_head? hc)⟩

/-- `t'` is `t` with the links of `c` and the list of `p` changed, where `c` came and goes under `p` alone. -/
structure Moved (t t' : Tree) (p c : NodeId) : Prop where
  kind? : ∀ m, t'.kind? m = t.kind? m
  parent : ∀ m, m ≠ c → t'.parent m = t.parent m
  children : ∀ q, q ≠ p → t'.children q = t.children q
  /-- Nodes under another parent, or under none, keep their neighbours. -/
  beside : ∀ m, m ≠ c → t.parent m ≠ some p → t'.prev m = t.prev m ∧ t'.next m = t.next m
  before : ∀ q, t.parent c = some q → q = p
  after : ∀ q, t'.parent c = some q → q = p

/-- What was moved well leaves a well-formed tree: only the moved node and its parent need a look. -/
theorem WellFormed.of_moved {rank : NodeId → Nat} (h : t.WellFormed) (hm : Moved t t' p c)
    (hroot : t'.parent root = none)
    (hcount : ∀ x, (t'.children p).count x = if t'.parent x = some p then 1 else 0)
    (hneighbours : t'.Neighbours p)
    (hloose : t'.parent c = none → t'.prev c = none ∧ t'.next c = none)
    (hcontainer : t'.children p ≠ [] → ∃ kind, t.kind? p = some kind ∧ kind.isContainer = true)
    (hrank : t'.Ranked rank) : t'.WellFormed := by
  refine .of_ranked ?_ (hm.kind? root ▸ h.root_kind) hroot ?_ ?_ ?_ hrank
  · intro q x
    by_cases hq : q = p
    · exact hq ▸ hcount x
    rw [hm.children q hq, h.count_children]
    by_cases hx : x = c
    · subst hx
      rw [if_neg fun he => hq (hm.before q he), if_neg fun he => hq (hm.after q he)]
    · rw [hm.parent x hx]
  · intro q l m r hlr
    by_cases hq : q = p
    · subst hq
      exact hneighbours l m r hlr
    rw [hm.children q hq] at hlr
    have hparent : t.parent m = some q := h.mem_children_iff.1 (by simp [hlr])
    have hmc : m ≠ c := fun he => hq (hm.before q (he ▸ hparent))
    obtain ⟨hprev, hnext⟩ := hm.beside m hmc (by rw [hparent]; exact fun he => hq (Option.some.inj he))
    rw [hprev, hnext]
    exact h.neighbours q l m r hlr
  · intro m hnone
    by_cases hmc : m = c
    · subst hmc
      exact hloose hnone
    rw [hm.parent m hmc] at hnone
    obtain ⟨hprev, hnext⟩ := hm.beside m hmc (by simp [hnone])
    rw [hprev, hnext]
    exact h.loose m hnone
  · intro q hq
    rw [hm.kind?]
    by_cases hqp : q = p
    · subst hqp
      exact hcontainer hq
    · rw [hm.children q hqp] at hq
      exact h.container q hq

/-! ### Taking a node out -/

section
variable (h : t.WellFormed) (hsplit : t.children p = before ++ n :: after)
include h hsplit

theorem WellFormed.not_mem_rest : n ∉ before ++ after :=
  (List.nodup_cons.1 (List.perm_middle.nodup_iff.1 (hsplit ▸ h.nodup_children p))).1

theorem WellFormed.children_detach_eq : (t.detach n).children p = before ++ after := by
  have hp : t.parent n = some p := h.mem_children_iff.1 (by simp [hsplit])
  rw [children_detach hp, if_pos rfl, hsplit, List.filter_append, List.filter_cons, if_neg (by simp),
    ← List.filter_append, filter_of_not_mem (h.not_mem_rest hsplit)]

theorem WellFormed.moved_detach : Moved t (t.detach n) p n := by
  have hp : t.parent n = some p := h.mem_children_iff.1 (by simp [hsplit])
  obtain ⟨hprev, hnext⟩ := h.neighbours p before n after hsplit
  constructor
  case kind? => exact kind?_detach t n
  case parent => exact fun m hm => by rw [parent_detach, if_neg hm]
  case children => exact fun q hq => by rw [children_detach hp, if_neg hq]
  case before => exact fun q hq => Option.some.inj (hq.symm.trans hp)
  case after =>
    intro q hq
    rw [parent_detach, if_pos rfl] at hq
    simp at hq
  case beside =>
    intro m hmn hm
    cases hhas : t.has m with
    | false =>
      have hhas' : (t.detach n).has m = false := by rw [has, size_detach]; exact hhas
      simp only [prev_of_not_has, next_of_not_has, hhas, hhas', true_and]
    | true =>
      obtain ⟨h₁, h₂⟩ := @not_neighbour m before after fun hc => hm (h.mem_children_iff.1 (by
        rw [hsplit]
        exact mem_with hc))
      rw [prev_detach hp hhas, next_detach hp hhas, if_neg hmn, if_neg hmn, hprev, hnext, if_neg h₁,
        if_neg h₂]
      exact ⟨rfl, rfl⟩

theorem WellFormed.neighbours_detach : (t.detach n).Neighbours p := by
  have hp : t.parent n = some p := h.mem_children_iff.1 (by simp [hsplit])
  obtain ⟨hprev, hnext⟩ := h.neighbours p before n after hsplit
  intro l m r hlr
  rw [h.children_detach_eq hsplit] at hlr
  obtain ⟨l', r', hlr', hmn, hleft, hright⟩ := neighbours_remove (hsplit ▸ h.nodup_children p) hlr
  obtain ⟨hl, hr⟩ := h.neighbours p l' m r' (hsplit.trans hlr')
  have hhas := h.child_has p m (by rw [hsplit, hlr']; simp)
  rw [prev_detach hp hhas, next_detach hp hhas, if_neg hmn, if_neg hmn, hprev, hnext, hl, hr]
  exact ⟨hleft.symm, hright.symm⟩

theorem WellFormed.loose_detach : (t.detach n).prev n = none ∧ (t.detach n).next n = none := by
  have hp : t.parent n = some p := h.mem_children_iff.1 (by simp [hsplit])
  obtain ⟨hprev, hnext⟩ := h.neighbours p before n after hsplit
  have hhas := has_of_parent hp
  obtain ⟨h₁, h₂⟩ := not_neighbour (h.not_mem_rest hsplit)
  rw [prev_detach hp hhas, next_detach hp hhas, hprev, hnext, if_neg h₁, if_neg h₂]
  exact ⟨if_pos rfl, if_pos rfl⟩

end

/-- Taking a node out. -/
theorem WellFormed.detach (h : t.WellFormed) (n : NodeId) : (t.detach n).WellFormed := by
  cases hp : t.parent n with
  | none => rw [detach_of_loose hp]; exact h
  | some p =>
    obtain ⟨before, after, hsplit, -, -⟩ := h.exists_split hp
    have hrank : (t.detach n).Ranked t.depth := fun m q hm => by
      rw [parent_detach] at hm
      split at hm
      · simp at hm
      · exact h.ranked m q hm
    refine h.of_moved (h.moved_detach hsplit) ?_ ?_ (h.neighbours_detach hsplit)
      (fun _ => h.loose_detach hsplit) ?_ hrank
    · rw [parent_detach, h.root_loose, ite_self]
    · intro x
      rw [parent_detach]
      by_cases hx : x = n
      · rw [h.children_detach_eq hsplit, hx, List.count_eq_zero.2 (h.not_mem_rest hsplit)]
        simp
      · rw [if_neg hx, ← h.count_children, children_detach hp, if_pos rfl]
        exact List.count_filter (by simpa using hx)
    · exact fun _ => h.container p (by simp [hsplit])

/-! ### Putting a node in -/

theorem WellFormed.nodup_linked (h : t.WellFormed) (hsplit : t.children p = before ++ after)
    (hloose : t.parent c = none) : (before ++ c :: after).Nodup := by
  have hnot : c ∉ t.children p := fun hmem => by
    rw [h.mem_children_iff, hloose] at hmem
    simp at hmem
  exact List.perm_middle.nodup_iff.2 (List.nodup_cons.2 (hsplit ▸ ⟨hnot, h.nodup_children p⟩))

section
variable (h : t.WellFormed) (hl : Linked t t' p c before after)
  (hsplit : t.children p = before ++ after) (hc : t.has c = true) (hloose : t.parent c = none)
  (hp : t.has p = true)
include h hl hsplit hc hloose hp

theorem WellFormed.moved_linked : Moved t t' p c := by
  constructor
  case kind? => exact hl.kind?
  case parent => exact fun m hm => by rw [hl.parent hc, if_neg hm]
  case children => exact fun q hq => by rw [hl.children hp, if_neg hq]
  case before => exact fun q hq => by simp [hloose] at hq
  case after =>
    intro q hq
    rw [hl.parent hc, if_pos rfl] at hq
    exact (Option.some.inj hq).symm
  case beside =>
    intro m hmc hm
    cases hhas : t.has m with
    | false =>
      have hhas' : t'.has m = false := by rw [has, hl.size_eq]; exact hhas
      simp only [prev_of_not_has, next_of_not_has, hhas, hhas', true_and]
    | true =>
      obtain ⟨h₁, h₂⟩ := @not_neighbour m before after fun hin => hm
        (h.mem_children_iff.1 (hsplit ▸ hin))
      rw [hl.prev hhas, hl.next hhas, if_neg hmc, if_neg hmc, if_neg h₁, if_neg h₂]
      exact ⟨rfl, rfl⟩

theorem WellFormed.count_linked (x : NodeId) :
    (t'.children p).count x = if t'.parent x = some p then 1 else 0 := by
  have hx := h.count_children p x
  rw [hl.children hp, if_pos rfl, hl.parent hc, List.perm_middle.count_eq]
  by_cases hxc : x = c
  · subst hxc
    rw [List.count_cons_self, ← hsplit, hx, hloose]
    simp
  · rw [if_neg hxc, List.count_cons_of_ne (Ne.symm hxc), ← hsplit, hx]

theorem WellFormed.neighbours_linked : t'.Neighbours p := by
  intro l m r hlr
  rw [hl.children hp, if_pos rfl] at hlr
  have hhas : t.has m = true := by
    have hmem : m ∈ before ++ c :: after := by simp [hlr]
    rw [List.perm_middle.mem_iff, List.mem_cons, ← hsplit] at hmem
    exact hmem.elim (fun he => he ▸ hc) (h.child_has p m)
  rw [hl.prev hhas, hl.next hhas]
  rcases neighbours_insert (h.nodup_linked hsplit hloose) hlr with
    ⟨rfl, rfl, rfl⟩ | ⟨l', r', hlr', hmc, hleft, hright⟩
  · exact ⟨if_pos rfl, if_pos rfl⟩
  · obtain ⟨h₁, h₂⟩ := h.neighbours p l' m r' (hsplit.trans hlr')
    rw [if_neg hmc, if_neg hmc, h₁, h₂]
    exact ⟨hleft.symm, hright.symm⟩

end

/-- The nodes below a node that is put in move down by more than the depth of its parent. -/
theorem WellFormed.ranked_linked (h : t.WellFormed)
    (hparent : ∀ m, t'.parent m = if m = c then some p else t.parent m) (habove : ¬ Above t c p) :
    t'.Ranked fun n => t.depth n + @ite Nat (Above t c n) (Classical.dec _) (t.depth p + 1) 0 := by
  intro m q hm
  rw [hparent] at hm
  split at hm
  · subst m
    rw [Option.some.injEq] at hm
    subst hm
    simp only [if_neg habove, if_pos (Above.refl c)]
    omega
  · rename_i hmc
    have hdepth := h.ranked m q hm
    have hiff : Above t c q ↔ Above t c m := by
      refine ⟨.up hm, fun ha => ?_⟩
      rcases ha.eq_or with rfl | ⟨q', hq', ha⟩
      · exact absurd rfl hmc
      · rw [hm, Option.some.injEq] at hq'
        exact hq' ▸ ha
    by_cases ha : Above t c m
    · simp only [if_pos ha, if_pos (hiff.2 ha)]
      omega
    · simp only [if_neg ha, if_neg (mt hiff.1 ha)]
      omega

/-- Putting a loose node under a container that is not below it. -/
theorem WellFormed.linked (h : t.WellFormed) (hl : Linked t t' p c before after)
    (hsplit : t.children p = before ++ after) (hc : t.has c = true) (hroot : c ≠ root)
    (hloose : t.parent c = none) {kind : NodeKind} (hkind : t.kind? p = some kind)
    (hcontainer : kind.isContainer = true) (habove : ¬ Above t c p) : t'.WellFormed := by
  have hp := has_of_kind? hkind
  refine h.of_moved (h.moved_linked hl hsplit hc hloose hp) ?_ (h.count_linked hl hsplit hc hloose hp)
    (h.neighbours_linked hl hsplit hc hloose hp) ?_ (fun _ => ⟨kind, hkind, hcontainer⟩)
    (h.ranked_linked (hl.parent hc) habove)
  · rw [hl.parent hc, if_neg (Ne.symm hroot), h.root_loose]
  · intro hnone
    rw [hl.parent hc, if_pos rfl] at hnone
    simp at hnone

/-! ## Operations -/

/-- What a node and its new parent must be. -/
structure Insertable (t : Tree) (parent child : NodeId) : Prop where
  container : ∃ kind, t.kind? parent = some kind ∧ kind.isContainer = true
  has_child : t.has child = true
  ne_root : child ≠ root
  not_above : ¬ Above t child parent

section
variable {parent child mark : NodeId} (h : t.WellFormed)
include h

theorem WellFormed.above_iff {a : NodeId} : Above t a n ↔ a = n ∨ a ∈ t.ancestors n := by
  rw [h.mem_ancestors_iff]
  exact ⟨Above.eq_or, fun ha => ha.elim (fun he => he ▸ .refl a) fun ⟨_, hp, ha⟩ => .up hp ha⟩

theorem WellFormed.no_fault_iff :
    t.insertionFault? parent child = none ↔ Insertable t parent child := by
  have habove : (child = parent ∨ child ∈ t.ancestors parent) ↔ Above t child parent :=
    h.above_iff.symm
  unfold insertionFault?
  constructor
  · intro hf
    split at hf
    · simp at hf
    · rename_i kind hkind
      split_ifs at hf with h₁ h₂ h₃
      simp only [Bool.not_eq_true', Bool.not_eq_false, isDescendantOf, List.contains_iff_mem,
        or_assoc, habove, not_or, Bool.or_eq_true, decide_eq_true_eq] at h₁ h₂ h₃
      exact ⟨⟨kind, hkind, h₁⟩, h₂, h₃.1, h₃.2⟩
  · rintro ⟨⟨kind, hkind, h₁⟩, h₂, h₃, h₄⟩
    rw [hkind]
    rw [← habove, not_or] at h₄
    simp [h₁, h₂, h₃, h₄, isDescendantOf]

/-- The tree from which an insertion starts: the child is loose and still fits. -/
theorem WellFormed.detached (hi : Insertable t parent child) : (t.detach child).WellFormed ∧
    Insertable (t.detach child) parent child ∧ (t.detach child).parent child = none := by
  refine ⟨h.detach child, ⟨?_, ?_, hi.ne_root, fun ha => hi.not_above ha.of_detach⟩, ?_⟩
  · rw [kind?_detach]
    exact hi.container
  · rw [has, size_detach]
    exact hi.has_child
  · rw [parent_detach, if_pos rfl]

theorem WellFormed.not_mem_detach (child p : NodeId) : child ∉ (t.detach child).children p := by
  rw [(h.detach child).mem_children_iff, parent_detach, if_pos rfl]
  simp

theorem WellFormed.attach_linked (child p : NodeId) :
    Linked (t.detach child) (t.attach p child) p child ((t.detach child).children p) [] := by
  have hloose : (t.detach child).parent child = none := by rw [parent_detach, if_pos rfl]
  obtain ⟨hprev, hnext⟩ := (h.detach child).loose child hloose
  rw [← attach_detach]
  exact linked_attach hloose hprev hnext (h.not_mem_detach child p)

theorem WellFormed.attachBefore_linked (hi : Insertable t parent child)
    (hsplit : (t.detach child).children parent = before ++ mark :: after) :
    Linked (t.detach child) ((t.detach child).attachBefore parent child mark) parent child before
      (mark :: after) := by
  have hne : parent ≠ child := fun he => hi.not_above (he ▸ .refl _)
  exact linked_attachBefore hsplit ((h.detach child).nodup_children parent) (h.not_mem_detach child parent)
    hne ((h.detach child).neighbours parent)

theorem WellFormed.attach (hi : Insertable t parent child) : (t.attach parent child).WellFormed := by
  obtain ⟨h', ⟨⟨kind, hkind, hcontainer⟩, hhas, hroot, habove⟩, hloose⟩ := h.detached hi
  exact h'.linked (h.attach_linked child parent) (List.append_nil _).symm hhas hroot hloose hkind
    hcontainer habove

theorem WellFormed.attachBefore (hi : Insertable t parent child)
    (hmark : mark ∈ (t.detach child).children parent) :
    ((t.detach child).attachBefore parent child mark).WellFormed := by
  obtain ⟨h', ⟨⟨kind, hkind, hcontainer⟩, hhas, hroot, habove⟩, hloose⟩ := h.detached hi
  obtain ⟨before, after, hsplit⟩ := List.append_of_mem hmark
  exact h'.linked (h.attachBefore_linked hi hsplit) hsplit hhas hroot hloose hkind hcontainer habove

theorem WellFormed.append (parent child : NodeId) : (t.append parent child).2.WellFormed := by
  unfold Tree.append
  split
  · exact h
  · exact h.attach (h.no_fault_iff.1 (by assumption))

theorem WellFormed.insertBefore (parent child : NodeId) (mark : Option NodeId) :
    (t.insertBefore parent child mark).2.WellFormed := by
  unfold Tree.insertBefore
  split
  · exact h
  · exact h.attach (h.no_fault_iff.1 (by assumption))
  · rename_i mark hf
    have hi := h.no_fault_iff.1 hf
    split
    · exact h
    · split
      · exact h
      · simp only
        split
        · exact h.attachBefore hi (List.contains_iff_mem.1 (by assumption))
        · exact h.detach child

theorem WellFormed.removeChild (parent child : NodeId) :
    (t.removeChild parent child).2.WellFormed := by
  unfold Tree.removeChild
  split_ifs
  · exact h
  · exact h
  · exact h
  · exact h.detach child

theorem WellFormed.editElement {α : Type} (n : NodeId) (ask : Element → α)
    (change : Element → Element) : (t.editElement n ask change).2.WellFormed := by
  unfold Tree.editElement
  split
  · exact h
  · rename_i data hkind
    refine h.setKind hkind (fun hn => ?_) rfl
    rw [hn, h.root_kind] at hkind
    simp at hkind
  · exact h

end

/-! ## Runs -/

/-- An edit with its arguments. -/
inductive Edit where
  | alloc (kind : NodeKind) (location : Option Location)
  | append (parent child : NodeId)
  | insertBefore (parent child : NodeId) (mark : Option NodeId)
  | removeChild (parent child : NodeId)
  | detach (node : NodeId)
  | setAttribute (node : NodeId) (name value : String)
  | removeAttribute (node : NodeId) (name : String)

/-- The tree after an edit, refused or not. Only `detach` must be given the handle of a node. -/
def edit? (t : Tree) : Edit → Option Tree
  | .alloc kind location => some (t.alloc kind location)
  | .append parent child => some (t.append parent child).2
  | .insertBefore parent child mark => some (t.insertBefore parent child mark).2
  | .removeChild parent child => some (t.removeChild parent child).2
  | .detach node => t.detach? node
  | .setAttribute node name value => some (t.setAttribute node name value).2
  | .removeAttribute node name => some (t.removeAttribute node name).2

/-- The tree after edits, one after the other. -/
def run? (t : Tree) : List Edit → Option Tree
  | [] => some t
  | e :: es => (t.edit? e).bind fun t => t.run? es

theorem WellFormed.edit? (h : t.WellFormed) {e : Edit} (he : t.edit? e = some t') :
    t'.WellFormed := by
  cases e <;> simp only [Tree.edit?, detach?, Option.ite_none_right_eq_some, Option.some.injEq] at he
  case alloc kind location => exact he ▸ h.alloc kind location
  case append parent child => exact he ▸ h.append parent child
  case insertBefore parent child mark => exact he ▸ h.insertBefore parent child mark
  case removeChild parent child => exact he ▸ h.removeChild parent child
  case detach node => exact he.2 ▸ h.detach node
  case setAttribute node name value => exact he ▸ h.editElement node _ _
  case removeAttribute node name => exact he ▸ h.editElement node _ _

theorem WellFormed.run? (h : t.WellFormed) {es : List Edit} (he : t.run? es = some t') :
    t'.WellFormed := by
  induction es generalizing t with
  | nil =>
    simp only [Tree.run?, Option.some.injEq] at he
    exact he ▸ h
  | cons e es ih =>
    obtain ⟨t₁, h₁, he⟩ := Option.bind_eq_some_iff.1 he
    exact ih (h.edit? h₁) he

/-- **Every run of edits on an empty document ends in a well-formed tree.** -/
theorem wellFormed_of_edits (es : List Edit) (t : Tree) (h : empty.run? es = some t) :
    t.WellFormed := wellFormed_empty.run? h

/-- Moves within one parent and to another, with an attempt to put a node under itself. -/
def moves : List Edit :=
  [.alloc (.element (.bare "ul")) none, .alloc (.element (.bare "li")) none, .alloc (.text "x") none,
    .append 0 1, .append 1 2, .insertBefore 1 3 (some 2), .append 2 1, .append 1 3,
    .insertBefore 0 3 (some 1), .setAttribute 2 "class" "a b", .removeChild 1 2, .detach 3, .append 9 2]

theorem wellFormed_of_edits_moves : ∃ t, empty.run? moves = some t ∧
    t.children 0 = [1] ∧ t.children 1 = [] ∧ t.parent 3 = none ∧ t.WellFormed :=
  ⟨_, rfl, rfl, rfl, rfl, wellFormed_of_edits moves _ rfl⟩

end HtmlQuery.Tree
