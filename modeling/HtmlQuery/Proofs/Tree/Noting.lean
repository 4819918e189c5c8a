import HtmlQuery.Proofs.Tree.Locations
import HtmlQuery.Proofs.Tree.Shape

/-!
# Nodes without a place

A tree that is read with locations keeps the place of every node but two kinds of nodes: the document, and the text of
an element that is read verbatim, which is added with the element and not from a token of its own. `Tree.Noting` says
so of a tree under construction. A node that is added keeps it if the node has a place exactly where its parent takes
ordinary content (`Noting.grown`), and a step adds such nodes only (`Noting.step`), so it holds of every tree that is
read (`location_parse_eq_none_iff`).
-/

namespace HtmlQuery

/-- The content right under a payload is read verbatim. -/
def NodeKind.ReadVerbatim (xml : Bool) (kind : NodeKind) : Prop :=
  xml = false ∧ ∃ e, kind = .element e ∧ (Rules.isRawText e.tag = true ∨ Rules.rcdataTags.contains e.tag = true)

theorem NodeKind.TakesAll.not_readVerbatim {xml : Bool} {kind : NodeKind} (h : kind.TakesAll xml) :
    ¬ kind.ReadVerbatim xml := by
  rintro ⟨hxml, e, rfl, htag⟩
  obtain ⟨-, hraw, hrcdata⟩ := tag_of_normal (h.2 hxml e rfl)
  rcases htag with htag | htag
  · exact Bool.false_ne_true (hraw.symm.trans htag)
  · exact Bool.false_ne_true (hrcdata.symm.trans htag)

/-- Verbatim content comes behind a start tag that asks for it. -/
theorem Lexeme.Faithful.readVerbatim {xml selfClosing : Bool} {tag data : String} {attributes : Attributes}
    {place : Location} (h : Lexeme.Faithful xml ⟨.startTag tag attributes selfClosing, place, some data⟩) :
    (NodeKind.element (.ofAttributes tag attributes)).ReadVerbatim xml := by
  have hmodel : Rules.contentModel tag selfClosing xml = .rawText ∨
      Rules.contentModel tag selfClosing xml = .rcdata :=
    (NodeKind.verbatim_cases h).imp_left And.left
  unfold Rules.contentModel at hmodel
  cases xml with
  | true => cases selfClosing <;> simp at hmodel
  | false =>
    refine ⟨rfl, _, rfl, ?_⟩
    show Rules.isRawText tag = true ∨ Rules.rcdataTags.contains tag = true
    rw [if_neg Bool.false_ne_true] at hmodel
    split at hmodel
    · simp at hmodel
    split at hmodel
    · exact .inl (by assumption)
    split at hmodel
    · exact .inr (by assumption)
    · simp at hmodel

/-! ## New nodes -/

namespace Tree

variable {t t' : Tree} {xml : Bool} {p n : NodeId} {kind : NodeKind} {location : Option Location}

/-- A node keeps no place exactly if it is the document or what is read verbatim. -/
structure Noting (xml : Bool) (t : Tree) : Prop where
  root : t.location Tree.root = none
  under : ∀ n p kind, t.parent n = some p → t.kind? p = some kind → (t.location n = none ↔ kind.ReadVerbatim xml)

theorem noting_empty (xml : Bool) : Noting xml empty where
  root := rfl
  under n p kind hp _ := by
    obtain rfl : n = 0 := Nat.lt_one_iff.1 (has_iff.1 (has_of_parent hp))
    exact absurd hp.symm (Option.some_ne_none p)

theorem location_eq (t : Tree) (n : NodeId) : t.location n = t.marks[n]?.bind (·.2) := by
  rw [getElem?_marks, Option.bind_map]
  rfl

/-- A node that is added keeps the place that is given, and the others keep theirs. -/
theorem location_of_marks {mark : Bool} (h : t'.marks = t.marks ++ [(mark, location)]) (m : NodeId) :
    t'.location m = if m = t.size then location else t.location m := by
  have hlength : t.marks.length = t.size := by rw [marks, List.length_map]; rfl
  rw [location_eq, location_eq, h]
  split
  · subst m
    rw [← hlength, List.getElem?_concat_length]
    rfl
  · rename_i hm
    rcases Nat.lt_or_gt_of_ne hm with hlt | hgt
    · rw [List.getElem?_append_left (hlength ▸ hlt)]
    · have hbehind : t.marks.length + 1 ≤ m := hlength ▸ hgt
      rw [List.getElem?_eq_none (by rwa [List.length_append, List.length_singleton]),
        List.getElem?_eq_none (Nat.le_of_succ_le hbehind)]

/-- A node may be added that has a place exactly where its parent takes ordinary content. -/
theorem Noting.grown {container : NodeKind} {mark : Bool} (h : t.Noting xml) (hwf : t.WellFormed)
    (hgrown : Grown t t' p kind) (hmarks : t'.marks = t.marks ++ [(mark, location)])
    (hp : t.kind? p = some container) (hnew : location = none ↔ container.ReadVerbatim xml) : t'.Noting xml where
  root := by
    rw [location_of_marks hmarks, if_neg (Nat.ne_of_lt (has_iff.1 hwf.has_root)), h.root]
  under n q kind' hq hkind' := by
    have hold : ∀ {r : NodeId}, t.has r = true → t'.kind? r = t.kind? r := fun hr => by
      rw [hgrown.kind?, if_neg (Nat.ne_of_lt (has_iff.1 hr))]
    have hmem : n ∈ t'.children q := hgrown.wellFormed.mem_children_iff.2 hq
    rw [location_of_marks hmarks]
    rw [hgrown.children] at hmem
    have hcases : n = t.size ∧ q = p ∨ n ∈ t.children q := by
      split at hmem
      · rcases List.mem_append.1 hmem with hmem | hmem
        · exact .inr hmem
        · exact .inl ⟨List.mem_singleton.1 hmem, by assumption⟩
      · exact .inr hmem
    rcases hcases with ⟨rfl, rfl⟩ | hmem
    · rw [hold (has_of_kind? hp), hp, Option.some.injEq] at hkind'
      rw [if_pos rfl, hnew, hkind']
    · have hparent : t.parent n = some q := hwf.mem_children_iff.1 hmem
      rw [hold (hwf.parent_has n q hparent)] at hkind'
      rw [if_neg (Nat.ne_of_lt (has_iff.1 (has_of_parent hparent)))]
      exact h.under n q kind' hparent hkind'

/-- A text that grows is a text as before. -/
theorem Noting.setKind_text {before : String} (h : t.Noting xml) (hwf : t.WellFormed)
    (htext : t.text? n = some before) (data : String) : (t.setKind n (.text data)).Noting xml := by
  have hlocation : ∀ m, (t.setKind n (.text data)).location m = t.location m := fun m => by
    rw [location_eq, marks_setKind_text htext, location_eq]
  obtain ⟨old, hold, htext⟩ := Option.bind_eq_some_iff.1 htext
  refine ⟨(hlocation _).trans h.root, fun m p kind hp hkind => ?_⟩
  have hsame : (t.setKind n (.text data)).parent m = t.parent m := parent_modify fun _ => rfl
  have hparent : t.parent m = some p := hsame.symm.trans hp
  obtain ⟨container, hcontainer⟩ := exists_kind?_of_has (hwf.parent_has m p hparent)
  have hunder := h.under m p container hparent hcontainer
  rw [kind?_setKind (has_of_kind? hold)] at hkind
  rw [hlocation]
  split at hkind
  · -- a text has nothing under it
    subst p
    obtain ⟨found, hfound, hmay⟩ := hwf.container n (List.ne_nil_of_mem (hwf.mem_children_iff.2 hparent))
    obtain rfl := Option.some.inj (hold.symm.trans hfound)
    cases old with
    | text => exact absurd hmay Bool.false_ne_true
    | _ => exact absurd htext.symm (Option.some_ne_none before)
  · rw [hcontainer, Option.some.injEq] at hkind
    exact hkind ▸ hunder

end Tree

/-! ## Steps -/

namespace Builder

open HtmlQuery.Tree

variable {b : Builder} {s : Spine} {o : ParseOptions} {xml : Bool} {place : Location}

theorem Noting.addUnder {p : NodeId} {container : NodeKind} {location : Option Location} (h : b.tree.Noting xml)
    (hwf : b.tree.WellFormed) (hp : b.tree.kind? p = some container) (hcontainer : container.isContainer = true)
    (hnew : location = none ↔ container.ReadVerbatim xml) (kind : NodeKind) :
    (b.addUnder p kind location).tree.Noting xml := by
  have hgrown : Grown b.tree (b.addUnder p kind location).tree p kind := hwf.grown hp hcontainer kind location
  exact h.grown hwf hgrown (b.marks_addUnder p kind location) hp hnew

/-- A node at the insertion point keeps its place. -/
theorem Noting.add (h : b.tree.Noting xml) (hholds : b.Holds s) (hshapes : s.Shapes xml) (kind : NodeKind) :
    (b.add kind (some place)).tree.Noting xml := by
  have hcurrent : b.tree.kind? b.current = some s.kind := hholds.current ▸ hholds.at_point.kind?
  refine Noting.addUnder h hholds.wellFormed hcurrent hshapes.takesAll.1 ?_ kind
  exact iff_of_false (Option.some_ne_none place) hshapes.takesAll.not_readVerbatim

theorem Noting.addText (h : b.tree.Noting xml) (hholds : b.Holds s) (hshapes : s.Shapes xml) (data : String) :
    (b.addText data (some place)).tree.Noting xml := by
  unfold Builder.addText
  split
  · exact h
  split
  · exact Noting.add h hholds hshapes _
  split
  · rename_i htext
    exact h.setKind_text hholds.wellFormed htext _
  · exact Noting.add h hholds hshapes _

/-- An element keeps its place, and its verbatim content has none. -/
theorem Noting.addElement {tag : String} {attributes : Attributes} {selfClosing : Bool} {content : Option String}
    {start : Location} (h : b.tree.Noting xml) (hholds : b.Holds s) (hshapes : s.Shapes xml) (model : ContentModel)
    (hl : Lexeme.Faithful xml ⟨.startTag tag attributes selfClosing, start, content⟩) :
    (b.addElement (.ofAttributes tag attributes) model content (some place)).tree.Noting xml := by
  let e : Element := .ofAttributes tag attributes
  let added : Builder := b.add (.element e) (some place)
  have hadded : added.tree.Noting xml := Noting.add h hholds hshapes (.element e)
  have hwf : added.tree.WellFormed := (hholds.add (.element e) (some place)).wellFormed
  have hkind : added.tree.kind? b.tree.size = some (.element e) := by
    have hcurrent : b.tree.kind? b.current = some s.kind := hholds.current ▸ hholds.at_point.kind?
    have hgrown := hholds.wellFormed.grown hcurrent hshapes.takesAll.1 (.element e) (some place)
    exact (hgrown.kind? b.tree.size).trans (if_pos rfl)
  unfold Builder.addElement
  dsimp only
  rw [apply_ite Builder.tree, ite_self]
  cases content with
  | none => exact hadded
  | some data =>
    dsimp only
    split
    · exact hadded
    · exact Noting.addUnder hadded hwf hkind rfl (iff_of_true rfl hl.readVerbatim) (.text data)

theorem Noting.step (ho : o.locations = true) (h : b.tree.Noting o.xml) (hholds : b.Holds s)
    (hshapes : s.Shapes o.xml) {l : Lexeme} (hl : l.Faithful o.xml) : (b.step o l).tree.Noting o.xml := by
  obtain ⟨token, place, content⟩ := l
  have hnote : o.note place = some place := if_pos ho
  unfold Builder.step
  cases token with
  | text data =>
    dsimp only
    rw [hnote]
    exact Noting.addText h hholds hshapes data
  | comment data =>
    dsimp only
    rw [hnote]
    exact Noting.add h hholds hshapes _
  | doctype data =>
    dsimp only
    rw [hnote]
    exact Noting.add h hholds hshapes _
  | endTag tag =>
    dsimp only
    rw [tree_close]
    exact h
  | startTag tag attributes selfClosing =>
    have hfor : ∃ s', (if o.xml then b else b.closeFor tag).Holds s' ∧ s'.Shapes o.xml := by
      split
      · exact ⟨s, hholds, hshapes⟩
      · exact ⟨_, hholds.closeFor tag, hshapes.closeFor tag⟩
    have htree : (if o.xml then b else b.closeFor tag).tree = b.tree := by
      split
      · rfl
      · exact b.tree_closeFor tag
    obtain ⟨s', hholds', hshapes'⟩ := hfor
    rw [← htree] at h
    dsimp only
    rw [hnote]
    split
    · exact Noting.addElement h hholds' hshapes' _ hl
    · exact h

theorem Noting.foldl (ho : o.locations = true) (h : b.tree.Noting o.xml) (hholds : b.Holds s)
    (hshapes : s.Shapes o.xml) {ls : List Lexeme} (hls : ∀ l ∈ ls, l.Faithful o.xml) :
    (ls.foldl (Builder.step o) b).tree.Noting o.xml := by
  induction ls generalizing b s with
  | nil => exact h
  | cons l ls ih =>
    obtain ⟨hl, hls⟩ := List.forall_mem_cons.1 hls
    exact ih (Noting.step ho h hholds hshapes hl) (hholds.step o l) (hshapes.step hl) hls

end Builder

namespace Tree

variable {html : String} {o : ParseOptions} {n : NodeId}

theorem noting_parse (html : String) (ho : o.locations = true) : (parse html o).Noting o.xml := by
  rw [parse, Builder.run_eq_foldl]
  exact Builder.Noting.foldl ho (noting_empty o.xml) Builder.holds_empty (Spine.shapes_empty o.xml)
    Scanner.faithful_stream

/-- **With locations, the nodes without a place are the document and the texts of verbatim elements.** -/
theorem location_parse_eq_none_iff (ho : o.locations = true) (hn : (parse html o).has n = true) :
    (parse html o).location n = none ↔ n = root ∨ (o.xml = false ∧
      ∃ p e, (parse html o).parent n = some p ∧ (parse html o).element? p = some e ∧
        (Rules.isRawText e.tag = true ∨ Rules.rcdataTags.contains e.tag = true)) := by
  have hnoting := noting_parse html ho
  have hwf := wellFormed_parse html o
  by_cases hroot : n = root
  · subst hroot
    exact iff_of_true hnoting.root (.inl rfl)
  obtain ⟨p, hp⟩ := attached_parse html o hn hroot
  obtain ⟨kind, hkind⟩ := exists_kind?_of_has (hwf.parent_has n p hp)
  rw [hnoting.under n p kind hp hkind]
  constructor
  · rintro ⟨hxml, e, rfl, htag⟩
    exact .inr ⟨hxml, p, e, hp, by rw [element?, hkind]; rfl, htag⟩
  · rintro (hn | ⟨hxml, q, e, hq, he, htag⟩)
    · exact absurd hn hroot
    · obtain rfl := Option.some.inj (hp.symm.trans hq)
      obtain rfl := Option.some.inj (hkind.symm.trans (kind?_of_element? he))
      exact ⟨hxml, e, rfl, htag⟩

/-- A paragraph and a title with a text in each. -/
theorem location_parse_eq_none_iff_title : let o : ParseOptions := ⟨.all, none, true, false⟩
    o.locations = true ∧ (parse "<p>a<title>b" o).has 2 = true ∧ (parse "<p>a<title>b" o).has 4 = true ∧
      (parse "<p>a<title>b" o).location 2 ≠ none ∧ (parse "<p>a<title>b" o).location 4 = none := by
  intro o
  have hhas : (parse "<p>a<title>b" o).has 2 = true ∧ (parse "<p>a<title>b" o).has 4 = true := by decide +kernel
  refine ⟨rfl, hhas.1, hhas.2, fun hnone => ?_, ?_⟩
  · have hparagraph : (parse "<p>a<title>b" o).parent 2 = some 1 ∧
        (parse "<p>a<title>b" o).tag? 1 = some "p" := by decide +kernel
    rcases (location_parse_eq_none_iff rfl hhas.1).1 hnone with hroot | ⟨-, p, e, hp, he, htag⟩
    · exact absurd hroot (by decide)
    · obtain rfl := Option.some.inj (hparagraph.1.symm.trans hp)
      obtain hp : e.tag = "p" := by
        have htag := hparagraph.2
        rw [tag?, he] at htag
        exact Option.some.inj htag
      rw [hp] at htag
      exact absurd htag (by decide)
  · have htitle : (parse "<p>a<title>b" o).parent 4 = some 3 ∧
        (parse "<p>a<title>b" o).element? 3 = some (.bare "title") := by decide +kernel
    exact (location_parse_eq_none_iff rfl hhas.2).2 (.inr ⟨rfl, 3, _, htitle.1, htitle.2, by decide⟩)

/-- The text of a title keeps no place. -/
theorem not_located_title : ¬ ∀ (html : String) (o : ParseOptions) (n : NodeId), o.locations = true →
    (parse html o).has n = true → n ≠ root → ∃ p, (parse html o).location n = some p := by
  intro h
  obtain ⟨p, hp⟩ := h "<title>b</title>" ⟨.all, none, true, false⟩ 2 rfl (by decide +kernel) (by decide)
  have hnone : (parse "<title>b</title>" ⟨.all, none, true, false⟩).location 2 = none := by decide +kernel
  exact absurd (hp.symm.trans hnone) (Option.some_ne_none p)

end Tree

end HtmlQuery
