import HtmlQuery.Proofs.Tree.NormalForm

/-!
# Elements that were ended in time

A start tag moves the insertion point out of one element only, so that an element can come under one that its start
tag ends. It cannot come under an element that is `Rules.Guarded`: there, a child that is ended by the same start tags
would itself have ended the element. Ten of the elements whose end tags may be left out are guarded
(`Rules.guarded_of_mem`). One start tag keeps `NodeKind.EndedInTime` for the spine that is being read
(`Spine.endedInTime_step`), by what it finds open around the insertion point (`Spine.endedInTime_closeFor`), so it
holds of every tree that was read as HTML (`Tree.endedInTime_parse`).
-/

namespace HtmlQuery

open Branch

namespace Rules

/-- A start tag that ends the element ends no other element right under it, since that one would have ended the
element before. -/
def Guarded (outer : String) : Prop :=
  ∀ opened incoming, closesImplicitly opened incoming = true → closesImplicitly outer incoming = true →
    closesImplicitly outer opened = true

/-- The elements with end tags that may be left out, but for groups of options and the parts of tables around rows. -/
def guardedTags : List String := ["li", "dt", "dd", "p", "rt", "rp", "option", "tr", "td", "th"]

theorem exists_row_of_closes {opened incoming : String} (h : closesImplicitly opened incoming = true) :
    ∃ tags, (opened, tags) ∈ closers ∧ incoming ∈ tags := by
  unfold closesImplicitly at h
  split at h
  · rename_i tags hlookup
    obtain ⟨l, r, hrow, -⟩ := List.lookup_eq_some_iff.1 hlookup
    exact ⟨tags, by simp [hrow], List.contains_iff_mem.1 h⟩
  · cases h

theorem guarded_of_mem {tag : String} (h : tag ∈ guardedTags) : Guarded tag := by
  have htable : ∀ outer ∈ guardedTags, ∀ row ∈ closers, ∀ incoming ∈ row.2,
      closesImplicitly outer incoming = true → closesImplicitly outer row.1 = true := by decide +kernel
  intro opened incoming hopened houter
  obtain ⟨tags, hrow, hincoming⟩ := exists_row_of_closes hopened
  exact htable tag h (opened, tags) hrow incoming hincoming houter

end Rules

/-! ## Children -/

namespace NodeKind

/-- No child of a guarded element has a start tag that ends the element. -/
def EndedInTime (kind : NodeKind) (kinds : List NodeKind) : Prop :=
  ∀ e inner, kind = .element e → Rules.Guarded e.tag → .element inner ∈ kinds →
    Rules.closesImplicitly e.tag inner.tag = false

variable {kind new : NodeKind} {kinds : List NodeKind}

theorem endedInTime_of_no_element (h : ∀ inner, .element inner ∉ kinds) : kind.EndedInTime kinds := by
  intro e inner _ _ hinner
  exact absurd hinner (h inner)

theorem endedInTime_append_iff {more : List NodeKind} :
    kind.EndedInTime (kinds ++ more) ↔ kind.EndedInTime kinds ∧ kind.EndedInTime more := by
  constructor
  · intro h
    exact ⟨fun e inner he hguarded hinner => h e inner he hguarded (List.mem_append_left _ hinner),
      fun e inner he hguarded hinner => h e inner he hguarded (List.mem_append_right _ hinner)⟩
  · rintro ⟨hkinds, hmore⟩ e inner he hguarded hinner
    rcases List.mem_append.1 hinner with hinner | hinner
    · exact hkinds e inner he hguarded hinner
    · exact hmore e inner he hguarded hinner

end NodeKind

/-! ## Spines -/

namespace Spine

variable {p : NodeKind → List NodeKind → Prop} {s s' outer : Spine} {e : Element} {b : Branch} {tag : String}

theorem Every.done (h : s.Every p []) : AllEvery p s.done := by
  cases s with
  | document => exact h.2
  | inside => exact h.2.2

theorem Every.mapDone {f : List Branch → List Branch} (h : s.Every p [])
    (hp : p s.kind ((f s.done).map Branch.kind)) (hdone : AllEvery p (f s.done)) : (s.mapDone f).Every p [] := by
  rw [← List.append_nil ((f s.done).map Branch.kind)] at hp
  cases s with
  | document => exact ⟨hp, hdone⟩
  | inside => exact ⟨h.1, hp, hdone⟩

theorem Every.close? (h : s.Every p []) (hclose : s.close? tag = some s') : s'.Every p [] := by
  fun_induction Spine.close? tag s with
  | case1 => cases hclose
  | case2 outer e done _ =>
    rw [Option.some.injEq] at hclose
    rw [← hclose]
    exact h.leave
  | case3 outer e done _ ih => exact ih h.leave hclose

/-- Around the insertion point and under it, guarded elements were ended in time. -/
def EndedInTime (s : Spine) : Prop := s.Every NodeKind.EndedInTime []

theorem EndedInTime.push (h : s.EndedInTime) (hb : b.Every NodeKind.EndedInTime)
    (hkind : s.kind.EndedInTime [b.kind]) : (s.push b).EndedInTime := by
  have hpoint := Every.at_point h
  rw [List.append_nil] at hpoint
  exact Every.push h (NodeKind.endedInTime_append_iff.2 ⟨hpoint, hkind⟩) hb

/-- What is no element may come under every element. -/
theorem EndedInTime.push_leaf {kind : NodeKind} (h : s.EndedInTime) (hkind : ∀ inner, kind ≠ .element inner) :
    (s.push (.node kind [])).EndedInTime := by
  refine h.push ⟨NodeKind.endedInTime_of_no_element (by simp), trivial⟩ ?_
  refine NodeKind.endedInTime_of_no_element fun inner hinner => ?_
  exact hkind inner (List.mem_singleton.1 hinner).symm

/-- Where text is added, some of the complete branches stay, and a text comes behind them. -/
theorem exists_joinText (data : String) (done : List Branch) : ∃ bs text,
    bs <+: done ∧ joinText data done = bs ++ [.node (.text text) []] := by
  unfold joinText
  split
  · exact ⟨_, _, List.dropLast_prefix done, rfl⟩
  · exact ⟨_, _, List.prefix_refl done, rfl⟩

theorem EndedInTime.addText (h : s.EndedInTime) (data : String) : (s.addText data).EndedInTime := by
  unfold Spine.addText
  split
  · exact h
  obtain ⟨bs, text, ⟨more, hmore⟩, hjoin⟩ := exists_joinText data s.done
  have hpoint := Every.at_point h
  have hdone := Every.done h
  rw [← hmore, List.append_nil, List.map_append, NodeKind.endedInTime_append_iff] at hpoint
  rw [← hmore, allEvery_append] at hdone
  refine Every.mapDone h ?_ ?_
  · rw [hjoin, List.map_append, NodeKind.endedInTime_append_iff]
    exact ⟨hpoint.1, NodeKind.endedInTime_of_no_element (by simp [Branch.kind])⟩
  · rw [hjoin, allEvery_append]
    exact ⟨hdone.1, ⟨NodeKind.endedInTime_of_no_element (by simp), trivial⟩, trivial⟩

/-! ## Steps -/

/-- Behind the start tag of an element that may end the one it comes in, no guarded element is open around the
insertion point that the start tag ends: where it ends the innermost one, the one around that is not ended by both. -/
theorem EndedInTime.closeFor (h : s.EndedInTime) (tag : String) : (s.closeFor tag).EndedInTime ∧
    ∀ e, (s.closeFor tag).kind = .element e → Rules.Guarded e.tag → Rules.closesImplicitly e.tag tag = false := by
  cases s with
  | document done => exact ⟨h, by simp [Spine.closeFor, Spine.kind]⟩
  | inside outer inner done =>
    rw [Spine.closeFor]
    split
    · rename_i hcloses
      have hleave : (inside outer inner done).leave.EndedInTime := Every.leave h
      refine ⟨hleave, fun e he hguarded => ?_⟩
      have hunder : outer.kind.EndedInTime [.element inner] :=
        (NodeKind.endedInTime_append_iff.1 (Every.at_point h.1)).2
      rw [Spine.leave, kind_push] at he
      have hinner : Rules.closesImplicitly e.tag inner.tag = false :=
        hunder e inner he hguarded (List.mem_singleton.2 rfl)
      cases hboth : Rules.closesImplicitly e.tag tag with
      | false => rfl
      | true =>
        rw [hguarded inner.tag tag hcloses hboth] at hinner
        cases hinner
    · rename_i hstays
      refine ⟨h, fun e he _ => ?_⟩
      rw [Spine.kind, NodeKind.element.injEq] at he
      rw [← he]
      simpa using hstays

theorem endedInTime_contentBranches (kind : NodeKind) (content : Option String) :
    kind.EndedInTime ((contentBranches content).map Branch.kind) ∧
      AllEvery NodeKind.EndedInTime (contentBranches content) := by
  unfold contentBranches
  cases content with
  | none => exact ⟨NodeKind.endedInTime_of_no_element (by simp), trivial⟩
  | some data =>
    dsimp only
    split
    · exact ⟨NodeKind.endedInTime_of_no_element (by simp), trivial⟩
    · exact ⟨NodeKind.endedInTime_of_no_element (by simp [Branch.kind]),
        ⟨NodeKind.endedInTime_of_no_element (by simp), trivial⟩, trivial⟩

theorem EndedInTime.addElement (h : s.EndedInTime) (model : ContentModel) (content : Option String)
    (hstays : ∀ outer, s.kind = .element outer → Rules.Guarded outer.tag →
      Rules.closesImplicitly outer.tag e.tag = false) : (s.addElement e model content).EndedInTime := by
  have hbranch : (node (.element e) (contentBranches content)).Every NodeKind.EndedInTime :=
    endedInTime_contentBranches (.element e) content
  have hpush : (s.push (.node (.element e) (contentBranches content))).EndedInTime := by
    refine h.push hbranch fun outer inner houter hguarded hinner => ?_
    obtain rfl : inner = e := by simpa [Branch.kind] using hinner
    exact hstays outer houter hguarded
  unfold Spine.addElement
  split
  · exact every_inside_iff.2 hpush
  · exact hpush

theorem endedInTime_step {o : ParseOptions} (hxml : o.xml = false) (h : s.EndedInTime) (l : Lexeme) :
    (s.step o l).EndedInTime := by
  obtain ⟨token, place, content⟩ := l
  unfold Spine.step
  cases token with
  | text data => exact h.addText data
  | comment data => exact h.push_leaf (by simp)
  | doctype data => exact h.push_leaf (by simp)
  | endTag tag =>
    dsimp only
    cases hclose : s.close? tag with
    | none => exact h
    | some s' => exact Every.close? h hclose
  | startTag tag attributes selfClosing =>
    obtain ⟨hfor, hstays⟩ := h.closeFor tag
    dsimp only
    rw [hxml, if_neg Bool.false_ne_true]
    split
    · exact hfor.addElement _ _ hstays
    · exact hfor

theorem endedInTime_foldl {o : ParseOptions} (hxml : o.xml = false) (h : s.EndedInTime) (ls : List Lexeme) :
    (ls.foldl (step o) s).EndedInTime := by
  induction ls generalizing s with
  | nil => exact h
  | cons l ls ih => exact ih (endedInTime_step hxml h l)

end Spine

/-! ## Trees -/

theorem Branch.endedInTime_ofText (html : String) {o : ParseOptions} (hxml : o.xml = false) :
    (Branch.ofText html o).Every NodeKind.EndedInTime := by
  have hempty : (Spine.document []).EndedInTime := ⟨NodeKind.endedInTime_of_no_element (by simp), trivial⟩
  exact (Spine.endedInTime_foldl hxml hempty _).whole

namespace Tree

theorem endedInTime_parse (html : String) {o : ParseOptions} (hxml : o.xml = false) {n : NodeId} {kind : NodeKind}
    (h : (parse html o).kind? n = some kind) : kind.EndedInTime ((parse html o).childKinds n) := by
  have hsize := has_iff.1 (has_of_kind? h)
  rw [size_parse] at hsize
  have hevery := (laidOut_parse html o).every_iff.1 (Branch.endedInTime_ofText html hxml)
  refine hevery n (Nat.zero_le n) ?_ kind h
  rw [root, Nat.zero_add]
  exact hsize

/-- **In a tree that was read as HTML, no list item, paragraph, ruby text, option, or row or cell of a table has a
child whose start tag ends it**, whatever was left out or folded. -/
theorem no_closer_under_guarded (html : String) {o : ParseOptions} (hxml : o.xml = false) {n c : NodeId}
    {e inner : Element} (hc : c ∈ (parse html o).children n) (he : (parse html o).element? n = some e)
    (htag : e.tag ∈ Rules.guardedTags) (hinner : (parse html o).element? c = some inner) :
    Rules.closesImplicitly e.tag inner.tag = false := by
  have hchild : .element inner ∈ (parse html o).childKinds n :=
    List.mem_filterMap.2 ⟨c, hc, kind?_of_element? hinner⟩
  exact endedInTime_parse html hxml (kind?_of_element? he) e inner rfl (Rules.guarded_of_mem htag) hchild

/-- Rows and cells of which some come under others, with tags as they are written and without divisions. -/
def rows : Tree :=
  parse "<tr><th><p><td>a</p><DIV><td><tr>" ⟨⟨false, true⟩, some ⟨some (.predicate (· ≠ "DIV")), [], none⟩, false, false⟩

theorem no_closer_under_guarded_rows : 7 ∈ rows.children 6 ∧ rows.element? 6 = some (.bare "td") ∧
    rows.element? 7 = some (.bare "tr") ∧ Rules.closesImplicitly "td" "tr" = false := by
  have hchild : 7 ∈ rows.children 6 := by decide +kernel
  have hcell : rows.element? 6 = some (.bare "td") := by decide +kernel
  have hrow : rows.element? 7 = some (.bare "tr") := by decide +kernel
  have htag : (Element.bare "td").tag ∈ Rules.guardedTags := by decide
  exact ⟨hchild, hcell, hrow, no_closer_under_guarded _ rfl hchild hcell htag hrow⟩

end Tree

end HtmlQuery
