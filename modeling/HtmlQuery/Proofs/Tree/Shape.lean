import HtmlQuery.Proofs.Token.Scanned
import HtmlQuery.Proofs.Tree.Canonical
import HtmlQuery.Proofs.Tree.Content

/-!
# The shape of a parsed tree

`Branch.Every p` says that `p` holds of each payload of a branch with the payloads right under it, `Spine.Every p`
the same of a spine. What a reader needs to keep it is a fact about one payload at a time (`Every.push`), so each step
keeps `NodeKind.Shaped`: no text is empty or next to another, only containers have children, and void and verbatim
elements have what their content model gives (`Shapes.step`). Read off the numbered tree this is its documented shape
(`documentShape_parse`).
-/

namespace HtmlQuery

open Branch

/-! ## Properties of payloads with the payloads under them -/

namespace Branch

mutual

/-- The property holds of each payload of the branch with the payloads of its children. -/
def Every (p : NodeKind → List NodeKind → Prop) : Branch → Prop
  | node kind children => p kind (children.map Branch.kind) ∧ AllEvery p children

/-- The property holds of each payload of the branches with the payloads of its children. -/
def AllEvery (p : NodeKind → List NodeKind → Prop) : List Branch → Prop
  | [] => True
  | b :: bs => Every p b ∧ AllEvery p bs

end

variable {p : NodeKind → List NodeKind → Prop} {t : Tree}

theorem allEvery_append {bs cs : List Branch} : AllEvery p (bs ++ cs) ↔ AllEvery p bs ∧ AllEvery p cs := by
  induction bs with
  | nil => simp [AllEvery]
  | cons b bs ih => rw [List.cons_append, AllEvery, AllEvery, ih, and_assoc]

end Branch

/-- The payloads of the children of a node. -/
def Tree.childKinds (t : Tree) (n : NodeId) : List NodeKind := (t.children n).filterMap t.kind?

namespace Branch

variable {p : NodeKind → List NodeKind → Prop} {t : Tree}

theorem AllLaidOut.filterMap_kind? {bs : List Branch} {n : NodeId} (h : AllLaidOut t n bs) :
    (tops n bs).filterMap t.kind? = bs.map Branch.kind := by
  induction bs generalizing n with
  | nil => rfl
  | cons b bs ih =>
    obtain ⟨hb, hbs⟩ := h
    obtain ⟨kind, children⟩ := b
    rw [tops, List.filterMap_cons, hb.1, ih hbs]
    rfl

mutual

/-- A property holds everywhere in a branch that is laid out if it does at all of its numbers. -/
theorem LaidOut.every_iff : ∀ {b : Branch} {n : Nat}, b.LaidOut t n → (b.Every p ↔
    ∀ m : Nat, n ≤ m → m < n + b.size → ∀ kind, t.kind? m = some kind → p kind (t.childKinds m))
  | node kind children, n, ⟨hkind, hchildren, hall⟩ => by
    have htop : t.childKinds n = children.map Branch.kind := by
      rw [Tree.childKinds, hchildren, hall.filterMap_kind?]
    rw [Every, hall.every_iff, size_node, ← htop]
    constructor
    · rintro ⟨hp, hinner⟩ m hle hlt kind' hkind'
      obtain rfl | hlt' := Nat.eq_or_lt_of_le hle
      · rw [hkind, Option.some.injEq] at hkind'
        exact hkind' ▸ hp
      · exact hinner m hlt' (by omega) kind' hkind'
    · exact fun h => ⟨h n (Nat.le_refl n) (by omega) kind hkind,
        fun m hle hlt => h m (by omega) (by omega)⟩

theorem AllLaidOut.every_iff : ∀ {bs : List Branch} {n : Nat}, AllLaidOut t n bs → (AllEvery p bs ↔
    ∀ m : Nat, n ≤ m → m < n + sizeAll bs → ∀ kind, t.kind? m = some kind → p kind (t.childKinds m))
  | [], n, _ => by
    rw [AllEvery, true_iff, sizeAll_nil]
    exact fun m hle hlt => absurd hlt (by omega)
  | b :: bs, n, ⟨hb, hbs⟩ => by
    rw [AllEvery, hb.every_iff, hbs.every_iff, sizeAll_cons]
    constructor
    · rintro ⟨hfirst, hlater⟩ m hle hlt
      by_cases hm : m < n + b.size
      · exact hfirst m hle hm
      · exact hlater m (by omega) (by omega)
    · exact fun h => ⟨fun m hle hlt => h m hle (by omega), fun m hle hlt => h m (by omega) (by omega)⟩

end

end Branch

namespace Spine

/-- The property holds of each payload of the spine with the payloads of its children; `extra` comes behind the
complete children of the innermost open node. -/
def Every (p : NodeKind → List NodeKind → Prop) : Spine → List NodeKind → Prop
  | document done, extra => p .document (done.map Branch.kind ++ extra) ∧ AllEvery p done
  | inside outer e done, extra => outer.Every p [.element e] ∧
    p (.element e) (done.map Branch.kind ++ extra) ∧ AllEvery p done

variable {p : NodeKind → List NodeKind → Prop} {s outer : Spine} {e : Element} {b : Branch}
  {inner : List Branch} {extra extra' : List NodeKind}

/-- What comes behind the complete children matters to the innermost open node alone. -/
theorem Every.change (h : s.Every p extra) (hp : p s.kind (s.done.map Branch.kind ++ extra')) :
    s.Every p extra' := by
  cases s with
  | document => exact ⟨hp, h.2⟩
  | inside => exact ⟨h.1, hp, h.2.2⟩

theorem Every.at_point (h : s.Every p extra) : p s.kind (s.done.map Branch.kind ++ extra) := by
  cases s with
  | document => exact h.1
  | inside => exact h.2.1

theorem every_push_iff : (s.push b).Every p [] ↔ s.Every p [b.kind] ∧ b.Every p := by
  cases s <;> simp [push, mapDone, Every, allEvery_append, AllEvery, and_assoc]

theorem every_inside_iff : (inside outer e inner).Every p [] ↔
    (outer.push (.node (.element e) inner)).Every p [] := by
  rw [every_push_iff, Every, Branch.Every, List.append_nil]
  rfl

theorem Every.push (h : s.Every p extra) (hp : p s.kind (s.done.map Branch.kind ++ [b.kind])) (hb : b.Every p) :
    (s.push b).Every p [] :=
  every_push_iff.2 ⟨h.change hp, hb⟩

theorem Every.leave (h : s.Every p []) : s.leave.Every p [] := by
  cases s with
  | document => exact h
  | inside => exact every_inside_iff.1 h

theorem Every.whole (h : s.Every p []) : s.whole.Every p := by
  fun_induction Spine.whole s with
  | case1 done => exact ⟨by simpa using h.1, h.2⟩
  | case2 outer e done ih => exact ih (every_inside_iff.1 h)

end Spine

/-! ## Shaped payloads -/

namespace NodeKind

/-- What a node of a parsed text is together with its children. -/
structure Shaped (xml : Bool) (kind : NodeKind) (kinds : List NodeKind) : Prop where
  no_document : .document ∉ kinds
  no_adjacent : kinds.IsChain fun a b => ¬ (a.text?.isSome = true ∧ b.text?.isSome = true)
  filled : kind ≠ .text ""
  leaf : kind.isContainer = false → kinds = []
  void : xml = false → ∀ e, kind = .element e → Rules.isVoid e.tag = true → kinds = []
  /-- Raw text does not hold the end tag of its element. -/
  rawText : xml = false → ∀ e, kind = .element e → Rules.isRawText e.tag = true →
    kinds = [] ∨ ∃ data, kinds = [.text data] ∧
      ∀ post, post <:+ data.toList → Text.startsIgnoringCase (Token.closing e.tag) post = false
  rcdata : xml = false → ∀ e, kind = .element e → Rules.rcdataTags.contains e.tag = true →
    kinds = [] ∨ ∃ data, kinds = [.text data]

/-- Children may come under the payload as they please. -/
def TakesAll (xml : Bool) (kind : NodeKind) : Prop :=
  kind.isContainer = true ∧
    (xml = false → ∀ e, kind = .element e → Rules.contentModel e.tag false false = .normal)

variable {xml : Bool} {kind new : NodeKind} {kinds : List NodeKind}

theorem shaped_childless (h : kind ≠ .text "") : kind.Shaped xml [] where
  no_document := List.not_mem_nil
  no_adjacent := List.isChain_nil
  filled := h
  leaf _ := rfl
  void _ _ _ _ := rfl
  rawText _ _ _ _ := .inl rfl
  rcdata _ _ _ _ := .inl rfl

/-- A tag with ordinary content is in none of the lists of the other content models. -/
theorem tag_of_normal {tag : String} (h : Rules.contentModel tag false false = .normal) :
    Rules.isVoid tag = false ∧ Rules.isRawText tag = false ∧ Rules.rcdataTags.contains tag = false := by
  unfold Rules.contentModel at h
  simp only [Bool.false_eq_true, if_false, Bool.false_or] at h
  split at h
  · cases h
  split at h
  · cases h
  split at h
  · cases h
  · simp_all

theorem TakesAll.shaped (h : kind.TakesAll xml) (hdocument : .document ∉ kinds)
    (hadjacent : kinds.IsChain fun a b => ¬ (a.text?.isSome = true ∧ b.text?.isSome = true)) :
    kind.Shaped xml kinds where
  no_document := hdocument
  no_adjacent := hadjacent
  filled := by
    rintro rfl
    exact Bool.false_ne_true h.1
  leaf hleaf := absurd (hleaf.symm.trans h.1) Bool.false_ne_true
  void hxml e he htag := absurd ((tag_of_normal (h.2 hxml e he)).1.symm.trans htag) Bool.false_ne_true
  rawText hxml e he htag := absurd ((tag_of_normal (h.2 hxml e he)).2.1.symm.trans htag) Bool.false_ne_true
  rcdata hxml e he htag := absurd ((tag_of_normal (h.2 hxml e he)).2.2.symm.trans htag) Bool.false_ne_true

/-- A payload that may come behind the children there are. -/
theorem TakesAll.snoc (h : kind.TakesAll xml) (hkinds : kind.Shaped xml kinds) (hdocument : new ≠ .document)
    (hadjacent : ∀ last ∈ kinds.getLast?, ¬ (last.text?.isSome = true ∧ new.text?.isSome = true)) :
    kind.Shaped xml (kinds ++ [new]) := by
  refine h.shaped (fun hmem => ?_) ?_
  · rcases List.mem_append.1 hmem with hmem | hmem
    · exact hkinds.no_document hmem
    · exact hdocument (List.mem_singleton.1 hmem).symm
  · exact List.isChain_append.2 ⟨hkinds.no_adjacent, List.isChain_singleton _, by simpa using hadjacent⟩

/-- A text may grow. -/
theorem TakesAll.grow {before after : String} (h : kind.TakesAll xml)
    (hkinds : kind.Shaped xml (kinds ++ [.text before])) : kind.Shaped xml (kinds ++ [.text after]) := by
  refine h.shaped (fun hmem => ?_) ?_
  · rcases List.mem_append.1 hmem with hmem | hmem
    · exact hkinds.no_document (List.mem_append_left _ hmem)
    · exact absurd (List.mem_singleton.1 hmem) (by simp)
  · have hchain := List.isChain_append.1 hkinds.no_adjacent
    exact List.isChain_append.2 ⟨hchain.1, List.isChain_singleton _, by simpa [text?] using hchain.2.2⟩

/-- Where there is verbatim content, the content model of the start tag asked for it. -/
theorem verbatim_cases {tag data : String} {attributes : Attributes} {selfClosing : Bool} {place : Location}
    (h : Lexeme.Faithful xml ⟨.startTag tag attributes selfClosing, place, some data⟩) :
    Rules.contentModel tag selfClosing xml = .rawText ∧
      (∀ post, post <:+ data.toList → Text.startsIgnoringCase (Token.closing tag) post = false) ∨
    Rules.contentModel tag selfClosing xml = .rcdata := by
  have hmodel := h tag attributes selfClosing rfl
  dsimp only at hmodel
  split at hmodel
  · cases hmodel
  · cases hmodel
  · rename_i hraw
    obtain ⟨found, heq, hclosing⟩ := hmodel
    obtain rfl := Option.some.inj heq
    exact .inl ⟨hraw, hclosing⟩
  · rename_i hrcdata
    exact .inr hrcdata

/-- An element with the verbatim content that its tag asks for. -/
theorem shaped_verbatim {tag : String} {attributes : Attributes} {selfClosing : Bool} {place : Location}
    {content : Option String} (h : Lexeme.Faithful xml ⟨.startTag tag attributes selfClosing, place, content⟩) :
    (NodeKind.element (.ofAttributes tag attributes)).Shaped xml
      ((Spine.contentBranches content).map Branch.kind) := by
  unfold Spine.contentBranches
  cases content with
  | none => exact shaped_childless (by simp)
  | some data =>
    dsimp only
    split
    · exact shaped_childless (by simp)
    refine ⟨by simp [Branch.kind], List.isChain_singleton _, by simp, by simp [isContainer], ?_, ?_,
      fun _ _ _ _ => .inr ⟨data, rfl⟩⟩
    · rintro rfl e he hvoid
      obtain rfl := NodeKind.element.inj he
      have hmodel : Rules.contentModel tag selfClosing false = .void := by
        simpa [Rules.contentModel] using fun _ hnot => absurd (hnot.symm.trans hvoid) Bool.false_ne_true
      rcases verbatim_cases h with ⟨hraw, -⟩ | hrcdata <;> simp_all
    · rintro rfl e he hraw
      obtain rfl := NodeKind.element.inj he
      have hmodel : Rules.contentModel tag selfClosing false ≠ .rcdata := by
        rw [Rules.contentModel, if_neg Bool.false_ne_true, if_pos (show Rules.isRawText tag = true from hraw)]
        split <;> decide
      rcases verbatim_cases h with ⟨-, hclosing⟩ | hrcdata
      · exact .inr ⟨data, rfl, hclosing⟩
      · exact absurd hrcdata hmodel

end NodeKind

/-! ## Steps -/

namespace Spine

/-- Every payload of the spine is shaped, and its open elements take ordinary content. -/
structure Shapes (xml : Bool) (s : Spine) : Prop where
  every : s.Every (NodeKind.Shaped xml) []
  plain : xml = false → s.Plain

variable {xml : Bool} {s outer : Spine} {e : Element} {b : Branch} {inner : List Branch} {kind : NodeKind}

theorem Shapes.takesAll (h : s.Shapes xml) : s.kind.TakesAll xml := by
  cases s with
  | document => exact ⟨rfl, nofun⟩
  | inside outer e done =>
    refine ⟨rfl, fun hxml e' he => ?_⟩
    obtain rfl := NodeKind.element.inj he
    exact (h.plain hxml).1

theorem Shapes.push (h : s.Shapes xml) (hdocument : b.kind ≠ .document)
    (hadjacent : b.kind.text?.isSome = true → ∀ last ∈ s.done.getLast?, last.isText = false)
    (hb : b.Every (NodeKind.Shaped xml)) : (s.push b).Shapes xml where
  every := by
    have hpoint := h.every.at_point
    rw [List.append_nil] at hpoint
    refine h.every.push (h.takesAll.snoc hpoint hdocument ?_) hb
    rintro kind hkind ⟨hlast, htext⟩
    rw [List.getLast?_map] at hkind
    obtain ⟨last, hmem, rfl⟩ := Option.map_eq_some_iff.1 hkind
    have hother := hadjacent htext last hmem
    exact Bool.false_ne_true (hother.symm.trans hlast)
  plain hxml := (plain_mapDone _ _).2 (h.plain hxml)

/-- A payload without children that is no text. -/
theorem Shapes.push_leaf (h : s.Shapes xml) (hdocument : kind ≠ .document) (htext : kind.text? = none) :
    (s.push (.node kind [])).Shapes xml := by
  refine h.push hdocument (fun hsome => ?_) ⟨NodeKind.shaped_childless ?_, trivial⟩
  · rw [Branch.kind, htext] at hsome
    exact absurd hsome Bool.false_ne_true
  · rintro rfl
    exact Option.some_ne_none _ htext

theorem Shapes.leave (h : s.Shapes xml) : s.leave.Shapes xml where
  every := h.every.leave
  plain hxml := by
    cases s with
    | document => trivial
    | inside => exact (plain_mapDone _ _).2 (h.plain hxml).2

theorem Shapes.enter (h : (s.push (.node (.element e) inner)).Shapes xml)
    (hmodel : xml = false → Rules.contentModel e.tag false false = .normal) :
    (inside s e inner).Shapes xml where
  every := every_inside_iff.2 h.every
  plain hxml := ⟨hmodel hxml, (plain_mapDone _ _).1 (h.plain hxml)⟩

theorem Shapes.close? {s' : Spine} {tag : String} (h : s.Shapes xml) (hclose : s.close? tag = some s') :
    s'.Shapes xml := by
  fun_induction Spine.close? tag s with
  | case1 => exact absurd hclose.symm (Option.some_ne_none _)
  | case2 outer e done _ => exact Option.some.inj hclose ▸ h.leave
  | case3 outer e done _ ih => exact ih h.leave hclose

theorem Shapes.closeFor (h : s.Shapes xml) (tag : String) : (s.closeFor tag).Shapes xml := by
  unfold Spine.closeFor
  split
  · exact h
  · split
    · exact h.leave
    · exact h

theorem Shapes.addText (h : s.Shapes xml) (data : String) : (s.addText data).Shapes xml := by
  unfold Spine.addText
  split
  · exact h
  rename_i hdata
  have hdata : data ≠ "" := by simpa using hdata
  have hfilled : ∀ before, NodeKind.text (before ++ data) ≠ .text "" := fun before heq =>
    hdata (String.append_eq_empty_iff.1 (NodeKind.text.inj heq)).2
  rcases List.eq_nil_or_concat' s.done with hdone | ⟨bs, last, hdone⟩
  · have hjoin : s.mapDone (joinText data) = s.push (.node (.text data) []) := by
      cases s <;> simp_all [Spine.done, mapDone, Spine.push, joinText]
    rw [hjoin]
    exact h.push (by simp [Branch.kind]) (by simp [hdone])
      ⟨NodeKind.shaped_childless (by simpa using hdata), trivial⟩
  obtain ⟨kind, inner⟩ := last
  have hpush := eq_push_of_done hdone
  generalize s.mapDone (fun _ => bs) = s' at hpush
  subst hpush
  cases htext : kind.text? with
  | none =>
    rw [mapDone_joinText_other data s' inner htext]
    refine h.push (by simp [Branch.kind]) ?_ ⟨NodeKind.shaped_childless (by simpa using hdata), trivial⟩
    simp [isText, Branch.kind, htext]
  | some before =>
    -- the text that comes last has nothing under it, and the new text goes into it
    obtain rfl : kind = .text before := by
      cases kind <;> simp [NodeKind.text?] at htext
      rw [htext]
    obtain ⟨hevery, hlast, -⟩ := every_push_iff.1 h.every
    obtain rfl : inner = [] := by simpa using hlast.leaf rfl
    rw [mapDone_joinText_text]
    have htakes : s'.kind.TakesAll xml := by simpa using h.takesAll
    exact {
      every := every_push_iff.2 ⟨hevery.change (htakes.grow hevery.at_point),
        NodeKind.shaped_childless (hfilled before), trivial⟩
      plain := fun hxml => (plain_mapDone _ _).2 ((plain_mapDone _ _).1 (h.plain hxml)) }

theorem Shapes.addElement {tag : String} {attributes : Attributes} {selfClosing : Bool} {place : Location}
    {content : Option String} (h : s.Shapes xml)
    (hl : Lexeme.Faithful xml ⟨.startTag tag attributes selfClosing, place, content⟩) :
    (s.addElement (.ofAttributes tag attributes) (Rules.contentModel tag selfClosing xml) content).Shapes xml := by
  have hcontent : AllEvery (NodeKind.Shaped xml) (contentBranches content) := by
    unfold contentBranches
    split
    · split
      · trivial
      · rename_i hdata
        exact ⟨⟨NodeKind.shaped_childless (by simpa using hdata), trivial⟩, trivial⟩
    · trivial
  have hpush : (s.push (.node (.element (.ofAttributes tag attributes)) (contentBranches content))).Shapes xml :=
    h.push (by simp [Branch.kind]) (by simp [Branch.kind, NodeKind.text?])
      ⟨NodeKind.shaped_verbatim hl, hcontent⟩
  unfold Spine.addElement
  split
  · rename_i hmodel
    refine hpush.enter ?_
    rintro rfl
    have hopen : selfClosing = false := by
      cases selfClosing with
      | false => rfl
      | true => cases hmodel
    rwa [hopen] at hmodel
  · exact hpush

theorem Shapes.step {o : ParseOptions} (h : s.Shapes o.xml) {l : Lexeme} (hl : l.Faithful o.xml) :
    (s.step o l).Shapes o.xml := by
  obtain ⟨token, place, content⟩ := l
  unfold Spine.step
  cases token with
  | text data => exact h.addText data
  | comment data => exact h.push_leaf (by simp) rfl
  | doctype data => exact h.push_leaf (by simp) rfl
  | endTag tag =>
    dsimp only
    cases hclose : s.close? tag with
    | none => exact h
    | some s' => exact h.close? hclose
  | startTag tag attributes selfClosing =>
    have hfor : (if o.xml then s else s.closeFor tag).Shapes o.xml := by
      split
      · exact h
      · exact h.closeFor tag
    dsimp only
    split
    · exact hfor.addElement hl
    · exact hfor

theorem shapes_empty (xml : Bool) : (document []).Shapes xml where
  every := ⟨NodeKind.shaped_childless (by simp), trivial⟩
  plain _ := trivial

theorem shapes_foldl {o : ParseOptions} (h : s.Shapes o.xml) {ls : List Lexeme}
    (hls : ∀ l ∈ ls, l.Faithful o.xml) : (ls.foldl (step o) s).Shapes o.xml := by
  induction ls generalizing s with
  | nil => exact h
  | cons l ls ih =>
    obtain ⟨hl, hls⟩ := List.forall_mem_cons.1 hls
    exact ih (h.step hl) hls

end Spine

/-- Every payload of the branch of a text is shaped. -/
theorem Branch.every_ofText (html : String) (o : ParseOptions) :
    (Branch.ofText html o).Every (NodeKind.Shaped o.xml) :=
  (Spine.shapes_foldl (Spine.shapes_empty o.xml) Scanner.faithful_stream).every.whole

/-! ## The shape of a tree -/

namespace Tree

variable {t : Tree} {n m : NodeId}

theorem WellFormed.map_kind?_children (h : t.WellFormed) (n : NodeId) :
    (t.children n).map t.kind? = (t.childKinds n).map some := by
  have hall : ∀ {cs : List NodeId}, (∀ c ∈ cs, t.has c = true) →
      cs.map t.kind? = (cs.filterMap t.kind?).map some := by
    intro cs hcs
    induction cs with
    | nil => rfl
    | cons c cs ih =>
      obtain ⟨hc, hcs⟩ := List.forall_mem_cons.1 hcs
      obtain ⟨kind, hkind⟩ := exists_kind?_of_has hc
      rw [List.map_cons, List.filterMap_cons, hkind, ih hcs]
      rfl
  exact hall (h.child_has n)

theorem WellFormed.children_eq_nil (h : t.WellFormed) (hkinds : t.childKinds n = []) : t.children n = [] := by
  have hmap := h.map_kind?_children n
  rw [hkinds] at hmap
  exact List.map_eq_nil_iff.1 hmap

theorem WellFormed.exists_only_child {kind : NodeKind} (h : t.WellFormed) (hkinds : t.childKinds n = [kind]) :
    ∃ c, t.children n = [c] ∧ t.kind? c = some kind := by
  have hmap := h.map_kind?_children n
  rw [hkinds] at hmap
  obtain ⟨c, cs, hc, hkind, hcs⟩ := List.map_eq_cons_iff.1 hmap
  obtain rfl := List.map_eq_nil_iff.1 hcs
  exact ⟨c, hc, hkind⟩

/-- A walk passes what it starts at and children. -/
theorem mem_preorder {fuel : Nat} {pending : List NodeId} (h : n ∈ t.preorder fuel pending) :
    n ∈ pending ∨ ∃ p, n ∈ t.children p := by
  induction fuel generalizing pending with
  | zero => exact absurd h List.not_mem_nil
  | succ fuel ih =>
    cases pending with
    | nil => exact absurd h (by simp)
    | cons m pending =>
      rw [preorder_succ_cons] at h
      rcases List.mem_cons.1 h with rfl | h
      · exact .inl List.mem_cons_self
      · rcases ih h with h | h
        · rcases List.mem_append.1 h with h | h
          · exact .inr ⟨m, h⟩
          · exact .inl (List.mem_cons_of_mem _ h)
        · exact .inr h

/-- The documented shape of a tree that was read from a text. -/
structure DocumentShape (t : Tree) (xml : Bool) : Prop where
  /-- The links agree, and parents lead up to a node without one. -/
  wellFormed : t.WellFormed
  only_document : ∀ n, t.kind? n = some .document → n = root
  /-- Nodes are numbered in document order. -/
  order : t.descendants root = List.range' 1 (t.size - 1)
  /-- No node was taken out of the tree. -/
  attached : ∀ n, t.has n = true → n ≠ root → ∃ p, t.parent n = some p
  filled : ∀ n, t.text? n ≠ some ""
  no_adjacent : ∀ n m, t.next n = some m → ¬ ((t.text? n).isSome = true ∧ (t.text? m).isSome = true)
  leaf : ∀ n kind, t.kind? n = some kind → kind.isContainer = false → t.children n = []
  void : xml = false → ∀ n e, t.element? n = some e → Rules.isVoid e.tag = true → t.children n = []
  verbatim : xml = false → ∀ n e, t.element? n = some e →
    Rules.isRawText e.tag = true ∨ Rules.rcdataTags.contains e.tag = true →
    t.children n = [] ∨ ∃ c, t.children n = [c] ∧ (t.text? c).isSome = true

section
variable (html : String) (o : ParseOptions)

theorem shaped_parse {kind : NodeKind} (h : (parse html o).kind? n = some kind) :
    kind.Shaped o.xml ((parse html o).childKinds n) := by
  have hsize := has_iff.1 (has_of_kind? h)
  rw [size_parse] at hsize
  exact ((laidOut_parse html o).every_iff.1 (Branch.every_ofText html o)) n (Nat.zero_le n) 
    (by rw [root, Nat.zero_add]; exact hsize) kind h

theorem attached_parse (h : (parse html o).has n = true) (hn : n ≠ root) :
    ∃ p, (parse html o).parent n = some p := by
  have hmem : n ∈ (parse html o).descendants root := by
    have hsize : n < (parse html o).size := has_iff.1 h
    have hpos : 0 < n := Nat.pos_of_ne_zero hn
    rw [descendants_parse, List.mem_range'_1]
    exact ⟨hpos, by rwa [Nat.add_sub_of_le (Nat.lt_of_le_of_lt (Nat.zero_le n) hsize)]⟩
  have hchild : ∃ p, n ∈ (parse html o).children p := by
    rcases mem_preorder hmem with h | h
    · exact ⟨_, h⟩
    · exact h
  obtain ⟨p, hp⟩ := hchild
  exact ⟨p, (wellFormed_parse html o).mem_children_iff.1 hp⟩

theorem no_adjacent_parse (h : (parse html o).next n = some m) :
    ¬ (((parse html o).text? n).isSome = true ∧ ((parse html o).text? m).isSome = true) := by
  have hwf := wellFormed_parse html o
  have hkinds := hwf.map_kind?_children
  obtain ⟨p, hp⟩ : ∃ p, (parse html o).parent n = some p := by
    cases hparent : (parse html o).parent n with
    | none => exact absurd ((hwf.loose n hparent).2.symm.trans h) (by simp)
    | some p => exact ⟨p, rfl⟩
  obtain ⟨before, after, hsplit, -, hnext⟩ := hwf.exists_split hp
  obtain ⟨after, rfl⟩ : ∃ later, after = m :: later := by
    rw [h] at hnext
    exact ⟨_, List.eq_cons_of_mem_head? hnext.symm⟩
  obtain ⟨kind, hkind⟩ := exists_kind?_of_has (hwf.parent_has n p hp)
  obtain ⟨kn, hkn⟩ := exists_kind?_of_has (has_of_parent hp)
  obtain ⟨km, hkm⟩ := exists_kind?_of_has (hwf.next_has n m h)
  have hchain := (shaped_parse html o hkind).no_adjacent
  rw [childKinds, hsplit, List.filterMap_append, List.filterMap_cons, hkn, List.filterMap_cons, hkm] at hchain
  have hpair := (List.isChain_cons_cons.1 hchain.right_of_append).1
  rw [text?, text?, hkn, hkm]
  exact hpair

theorem only_document_parse (h : (parse html o).kind? n = some .document) : n = root := by
  by_contra hroot
  obtain ⟨p, hp⟩ := attached_parse html o (has_of_kind? h) hroot
  have hwf := wellFormed_parse html o
  obtain ⟨kind, hkind⟩ := exists_kind?_of_has (hwf.parent_has n p hp)
  have hmem : .document ∈ (parse html o).childKinds p :=
    List.mem_filterMap.2 ⟨n, hwf.mem_children_iff.2 hp, h⟩
  exact (shaped_parse html o hkind).no_document hmem

theorem filled_parse : (parse html o).text? n ≠ some "" := by
  intro h
  obtain ⟨kind, hkind, htext⟩ := Option.bind_eq_some_iff.1 h
  refine (shaped_parse html o hkind).filled ?_
  cases kind with
  | text data => exact congrArg _ (Option.some.inj htext)
  | _ => cases htext

theorem verbatim_parse {e : Element} (hxml : o.xml = false) (h : (parse html o).element? n = some e)
    (htag : Rules.isRawText e.tag = true ∨ Rules.rcdataTags.contains e.tag = true) :
    (parse html o).children n = [] ∨
      ∃ c, (parse html o).children n = [c] ∧ ((parse html o).text? c).isSome = true := by
  have hwf := wellFormed_parse html o
  have hshaped := shaped_parse html o (kind?_of_element? h)
  have hkinds : (parse html o).childKinds n = [] ∨ ∃ data, (parse html o).childKinds n = [.text data] := by
    cases htag with
    | inl hraw => exact (hshaped.rawText hxml e rfl hraw).imp_right fun ⟨data, hdata, _⟩ => ⟨data, hdata⟩
    | inr hrcdata => exact hshaped.rcdata hxml e rfl hrcdata
  rcases hkinds with hempty | ⟨data, hdata⟩
  · exact .inl (hwf.children_eq_nil hempty)
  · obtain ⟨c, hc, hkind⟩ := hwf.exists_only_child hdata
    exact .inr ⟨c, hc, by rw [text?, hkind]; rfl⟩

end

/-- **Every tree that is read from a text has the documented shape.** -/
theorem documentShape_parse (html : String) (o : ParseOptions) :
    (parse html o).DocumentShape o.xml where
  wellFormed := wellFormed_parse html o
  only_document _ := only_document_parse html o
  order := descendants_parse html o
  attached _ := attached_parse html o
  filled _ := filled_parse html o
  no_adjacent _ _ := no_adjacent_parse html o
  leaf _ _ hn hkind := (wellFormed_parse html o).children_eq_nil ((shaped_parse html o hn).leaf hkind)
  void hxml _ e hn htag := (wellFormed_parse html o).children_eq_nil
    ((shaped_parse html o (kind?_of_element? hn)).void hxml e rfl htag)
  verbatim hxml _ _ hn htag := verbatim_parse html o hxml hn htag

end Tree

end HtmlQuery
