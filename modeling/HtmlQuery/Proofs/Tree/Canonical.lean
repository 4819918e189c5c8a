import HtmlQuery.Proofs.Tree.Reading
import Mathlib.Data.List.Chain
import Mathlib.Data.List.Infix

/-!
# Writing and reading canonical trees

A tree is `Canonical` when markup can say what it says: names that are read back as they are written, no text next
to another, verbatim content without its end tag, and no element under one that it would close. Written in a
dialect with quotes and read again, such a tree comes back as it is, up to what the dialect itself changes
(`Branch.reread`). The proof reads the markup of a branch as one push onto the spine (`reads_write`).
-/

namespace HtmlQuery

/-! ## Canonical trees -/

namespace Branch

/-- Whether the payload on top is a text. -/
def isText (b : Branch) : Bool := b.kind.text?.isSome

/-- What branches side by side must be. -/
structure Siblings (bs : List Branch) : Prop where
  no_document : ∀ b ∈ bs, b.kind ≠ .document
  no_adjacent : bs.IsChain fun a b => ¬ (a.isText = true ∧ b.isText = true)

/-- Nothing, or one text of which a property holds. -/
def AtMostText (p : String → Prop) (bs : List Branch) : Prop :=
  bs = [] ∨ ∃ data, bs = [.node (.text data) []] ∧ p data

/-- What an element with its children must be. -/
structure CanonicalElement (e : Element) (children : List Branch) : Prop where
  tag : Token.ReadableTag e.tag
  names : ∀ a ∈ e.attributes.toList, Token.ReadableName a.name
  /-- Attributes are set by name, so no name comes twice. -/
  nodup : e.attributes.names.Nodup
  siblings : Siblings children
  void : Rules.isVoid e.tag = true → children = []
  /-- Raw text does not contain the end tag of its element. -/
  rawText : Rules.isRawText e.tag = true → AtMostText (fun data => ∀ post, post <:+ data.toList →
    Text.startsIgnoringCase (Token.closing e.tag) post = false) children
  rcdata : Rules.rcdataTags.contains e.tag = true → AtMostText (fun _ => True) children
  not_closing : ∀ b ∈ children, ∀ inner, b.kind = .element inner →
    Rules.closesImplicitly e.tag inner.tag = false

/-- What a node with its children must be. -/
def CanonicalNode : NodeKind → List Branch → Prop
  | .document, children => Siblings children
  | .element e, children => CanonicalElement e children
  | .text data, children => data ≠ "" ∧ children = []
  | .comment data, children => Text.contains ['-', '-', '>'] data.toList = false ∧ children = []
  | .doctype data, children => Text.trim data.toList = data.toList ∧ '>' ∉ data.toList ∧ children = []

mutual

/-- Every node of the branch is as it must be. -/
def Canonical : Branch → Prop
  | node kind children => CanonicalNode kind children ∧ AllCanonical children

/-- Every node of the branches is as it must be. -/
def AllCanonical : List Branch → Prop
  | [] => True
  | b :: bs => Canonical b ∧ AllCanonical bs

end

end Branch

/-! ## What a dialect changes -/

/-- The payload of the strict XHTML 1.0 document type. -/
def Dialect.xhtmlPayload : String :=
  "html PUBLIC \"-//W3C//DTD XHTML 1.0 Strict//EN\" " ++
    "\"http://www.w3.org/TR/xhtml1/DTD/xhtml1-strict.dtd\""

/-- The payload that a document type has when it is read back from a dialect. -/
def Dialect.rereadDoctype (d : Dialect) (data : String) : String :=
  match d with
  | html5 => "html"
  | xhtml => xhtmlPayload
  | default => data
  | minimal => data

/-- A payload as it is read back from a dialect. -/
def NodeKind.reread (d : Dialect) : NodeKind → NodeKind
  | element e => .element (.ofAttributes e.tag ⟨e.attributes.toList.map d.reread⟩)
  | doctype data => .doctype (d.rereadDoctype data)
  | kind => kind

namespace Branch

mutual

/-- A branch as it is read back from a dialect. -/
def reread (d : Dialect) : Branch → Branch
  | node kind children => node (kind.reread d) (rereadAll d children)

/-- Branches as they are read back from a dialect. -/
def rereadAll (d : Dialect) : List Branch → List Branch
  | [] => []
  | b :: bs => reread d b :: rereadAll d bs

end

variable {d : Dialect} {wo : WriteOptions} {b : Branch} {bs : List Branch}

mutual

theorem reread_eq_self : ∀ {b : Branch}, (∀ kind ∈ b.payloads, kind.reread d = kind) → b.reread d = b
  | node kind children, h => by
    rw [payloads, List.forall_mem_cons] at h
    rw [reread, h.1, rereadAll_eq_self h.2]

theorem rereadAll_eq_self : ∀ {bs : List Branch}, (∀ kind ∈ payloadsAll bs, kind.reread d = kind) →
    rereadAll d bs = bs
  | [], _ => rfl
  | b :: bs, h => by
    rw [payloadsAll, List.forall_mem_append] at h
    rw [rereadAll, reread_eq_self h.1, rereadAll_eq_self h.2]

end

/-- The default dialect changes nothing, if `id` and classes of each element are those of its attributes. -/
theorem reread_default (h : ∀ e, .element e ∈ b.payloads → .ofAttributes e.tag e.attributes = e) :
    b.reread .default = b := by
  have hsame : Dialect.default.reread = id := by
    funext a
    simp [Dialect.reread]
  refine reread_eq_self fun kind hkind => ?_
  cases kind with
  | element e =>
    rw [NodeKind.reread, hsame, List.map_id]
    exact congrArg _ (h e hkind)
  | _ => rfl

theorem isText_reread (d : Dialect) (b : Branch) : (b.reread d).isText = b.isText := by
  obtain ⟨kind, children⟩ := b
  cases kind <;> rfl

theorem doctype_eq (d : Dialect) (data : String) : (d.doctype data).toList =
    "<!DOCTYPE ".toList ++ (d.rereadDoctype data).toList ++ ['>'] := by
  cases d with
  | html5 =>
    show "<!DOCTYPE html>".toList = "<!DOCTYPE ".toList ++ "html".toList ++ ['>']
    decide +kernel
  | xhtml =>
    show Dialect.xhtmlDoctype.toList = "<!DOCTYPE ".toList ++ Dialect.xhtmlPayload.toList ++ ['>']
    decide +kernel
  | _ => simp [Dialect.doctype, Dialect.rereadDoctype]

theorem readable_rereadDoctype (d : Dialect) {data : String} (htrim : Text.trim data.toList = data.toList)
    (hend : '>' ∉ data.toList) : Text.trim (d.rereadDoctype data).toList = (d.rereadDoctype data).toList ∧
      '>' ∉ (d.rereadDoctype data).toList := by
  cases d with
  | html5 =>
    show Text.trim "html".toList = "html".toList ∧ '>' ∉ "html".toList
    decide +kernel
  | xhtml =>
    show Text.trim Dialect.xhtmlPayload.toList = Dialect.xhtmlPayload.toList ∧
      '>' ∉ Dialect.xhtmlPayload.toList
    decide +kernel
  | _ => exact ⟨htrim, hend⟩

theorem write_eq_cons (htext : b.isText = false) (hdocument : b.kind ≠ .document) (wo : WriteOptions)
    (parentTag : Option String) : ∃ cs, b.write wo parentTag = '<' :: cs := by
  obtain ⟨kind, children⟩ := b
  cases kind with
  | document => exact absurd rfl hdocument
  | text => simp [isText, Branch.kind, NodeKind.text?] at htext
  | comment data => exact ⟨_, by rw [write]; rfl⟩
  | doctype data => exact ⟨_, by rw [write, doctype_eq]; rfl⟩
  | element e => exact ⟨_, by rw [write, openTag]; rfl⟩

end Branch

/-! ## Spines -/

namespace Spine

open Branch

/-- Every open element takes ordinary content. -/
def Plain : Spine → Prop
  | document _ => True
  | inside outer e _ => Rules.contentModel e.tag false false = .normal ∧ outer.Plain

/-- What a spine must be for branches to come next. -/
structure Admits (s : Spine) (bs : List Branch) : Prop where
  plain : s.Plain
  no_document : ∀ b ∈ bs, b.kind ≠ .document
  not_closing : ∀ b ∈ bs, ∀ e inner, s.kind = .element e → b.kind = .element inner →
    Rules.closesImplicitly e.tag inner.tag = false
  no_adjacent : (s.done.getLast?.toList ++ bs).IsChain fun a b => ¬ (a.isText = true ∧ b.isText = true)

variable {s : Spine} {tag : String} {b : Branch} {bs : List Branch}

theorem plain_mapDone (s : Spine) (f : List Branch → List Branch) : (s.mapDone f).Plain ↔ s.Plain := by
  cases s <;> rfl

theorem close?_of_plain (h : s.Plain) (htag : Rules.contentModel tag false false ≠ .normal) :
    s.close? tag = none := by
  fun_induction close? tag s with
  | case1 => rfl
  | case2 outer e done heq =>
    rw [beq_iff_eq] at heq
    exact absurd (heq ▸ h.1) htag
  | case3 outer e done _ ih => exact ih ((plain_mapDone _ _).2 h.2)

theorem Admits.tail {b' : Branch} (h : s.Admits (b :: bs)) (htext : b'.isText = b.isText) :
    (s.push b').Admits bs where
  plain := (plain_mapDone _ _).2 h.plain
  no_document b hb := h.no_document b (List.mem_cons_of_mem _ hb)
  not_closing b hb e inner he := h.not_closing b (List.mem_cons_of_mem _ hb) e inner (by simpa using he)
  no_adjacent := by
    have hchain := h.no_adjacent.right_of_append
    rw [done_push, List.getLast?_concat, Option.toList_some, List.singleton_append]
    cases bs with
    | nil => exact List.isChain_singleton _
    | cons b bs =>
      rw [List.isChain_cons_cons] at hchain ⊢
      rwa [htext]

theorem addText_of_admits {data : String} {inner : List Branch}
    (h : s.Admits (.node (.text data) inner :: bs)) (hdata : data ≠ "") :
    s.addText data = s.push (.node (.text data) []) := by
  rw [addText, if_neg (by simpa using hdata)]
  rcases List.eq_nil_or_concat' s.done with hdone | ⟨bs, ⟨kind, children⟩, hdone⟩
  · cases s <;> simp_all [Spine.done, mapDone, push, joinText]
  · have hchain := h.no_adjacent
    rw [hdone, List.getLast?_concat, Option.toList_some, List.singleton_append,
      List.isChain_cons_cons] at hchain
    have htext : kind.text? = none := by simpa [isText, Branch.kind, NodeKind.text?] using hchain.1
    rw [eq_push_of_done hdone]
    exact mapDone_joinText_other data _ children htext

/-- Behind text that is admitted comes markup. -/
theorem Admits.atMarkup {rest : List Char} (h : s.Admits (b :: bs)) (htext : b.isText = true)
    (hrest : Token.AtMarkup rest) (wo : WriteOptions) (parentTag : Option String) :
    Token.AtMarkup (writeAll wo parentTag bs ++ rest) := by
  cases bs with
  | nil => exact hrest
  | cons b' bs =>
    have hother : b'.isText = false := by
      have hchain := (List.isChain_cons_cons.1 h.no_adjacent.right_of_append).1
      simpa [htext] using hchain
    obtain ⟨cs, hcs⟩ := write_eq_cons hother (h.no_document b' (by simp)) wo parentTag
    rw [writeAll, hcs]
    exact Token.atMarkup_cons _

theorem step_startTag {e : Element} {children : List Branch} (h : s.Admits (.node (.element e) children :: bs))
    (as : Attributes) (selfClosing : Bool) (content : Option String) :
    s.step .default ⟨.startTag e.tag as selfClosing, .start, content⟩ =
      s.addElement (.ofAttributes e.tag as) (Rules.contentModel e.tag selfClosing false) content := by
  have hfor : s.closeFor e.tag = s := by
    cases s with
    | document => rfl
    | inside outer e' done =>
      rw [closeFor, h.not_closing _ List.mem_cons_self e' e rfl rfl]
      rfl
  rw [step]
  dsimp only [ParseOptions.default]
  rw [hfor]
  rfl

/-! ## Reading written elements -/

section
variable {d : Dialect} {e : Element} {children : List Branch} {rest : List Char}
  (hd : d ≠ .minimal) (hc : CanonicalElement e children) (h : s.Admits (.node (.element e) children :: bs))
include hd hc h

theorem reads_empty : Reads .default s
    (s.push (.node (NodeKind.reread d (.element e)) [])) (openTag d e ++ ' ' :: '/' :: '>' :: rest) rest := by
  have hreads : Reads .default s _ (openTag d e ++ ' ' :: '/' :: '>' :: rest) rest :=
    reads_openTag_empty hd hc.tag hc.names hc.nodup
  rw [step_startTag h] at hreads
  exact hreads

theorem reads_void (hvoid : Rules.isVoid e.tag = true) : Reads .default s
    (s.push (.node (NodeKind.reread d (.element e)) [])) (openTag d e ++ '>' :: rest) rest := by
  have hmodel : Rules.contentModel e.tag false false = .void := by simp [Rules.contentModel, hvoid]
  have hreads : Reads .default s _ (openTag d e ++ '>' :: rest) rest :=
    reads_openTag hd hc.tag hc.names hc.nodup (.inr hmodel)
  rw [step_startTag h, hmodel] at hreads
  exact hreads

theorem reads_verbatim {decode : Bool} {content : List Char} {data : String}
    (hmodel : Rules.contentModel e.tag false false = if decode then .rcdata else .rawText)
    (hcontent : ∀ post, post <:+ content → Text.startsIgnoringCase (Token.closing e.tag) post = false)
    (hdata : String.ofList (if decode then Reference.decode content else content) = data) :
    Reads .default s (s.push (.node (NodeKind.reread d (.element e)) (contentBranches (some data))))
      (openTag d e ++ '>' :: (content ++ (Token.closing e.tag ++ '>' :: rest))) rest := by
  have hnormal : Rules.contentModel e.tag false false ≠ .normal := by
    rw [hmodel]
    cases decode <;> decide
  have hopen : Reads .default s _ (openTag d e ++ '>' :: (content ++ (Token.closing e.tag ++ '>' :: rest))) _ :=
    reads_openTag_verbatim hd hc.tag hc.names hc.nodup hmodel hcontent
  rw [step_startTag h, hdata, addElement, if_neg hnormal] at hopen
  -- no open element has the tag of a verbatim one, so the end tag closes nothing
  have hclose : Reads .default (s.push (.node (NodeKind.reread d (.element e))
      (contentBranches (some data)))) _ (Token.closing e.tag ++ '>' :: rest) rest := reads_endTag hc.tag
  have hplain : (s.push (.node (NodeKind.reread d (.element e)) (contentBranches (some data)))).Plain :=
    (plain_mapDone _ _).2 h.plain
  rw [close?_of_plain hplain hnormal] at hclose
  exact hopen.trans hclose

theorem reads_normal (hmodel : Rules.contentModel e.tag false false = .normal) {content : List Char}
    {inner : List Branch}
    (hinner : Reads .default (inside s (.ofAttributes e.tag ⟨e.attributes.toList.map d.reread⟩) [])
      (inside s (.ofAttributes e.tag ⟨e.attributes.toList.map d.reread⟩) inner)
      (content ++ (Token.closing e.tag ++ '>' :: rest)) (Token.closing e.tag ++ '>' :: rest)) :
    Reads .default s (s.push (.node (NodeKind.reread d (.element e)) inner))
      (openTag d e ++ '>' :: (content ++ (Token.closing e.tag ++ '>' :: rest))) rest := by
  have hopen : Reads .default s _
      (openTag d e ++ '>' :: (content ++ (Token.closing e.tag ++ '>' :: rest))) _ :=
    reads_openTag hd hc.tag hc.names hc.nodup (.inl hmodel)
  rw [step_startTag h, addElement, if_pos hmodel] at hopen
  have hclose : Reads .default (inside s (.ofAttributes e.tag ⟨e.attributes.toList.map d.reread⟩) inner)
    _ (Token.closing e.tag ++ '>' :: rest) rest := reads_endTag hc.tag
  rw [close?, if_pos (by simp [Element.ofAttributes])] at hclose
  exact hopen.trans (hinner.trans hclose)

end

/-! ## Reading written branches -/

/-- The children of a verbatim element are its content. -/
theorem exists_verbatim {p : String → Prop} {children : List Branch} (h : AtMostText p children)
    (hp : p "") (hall : AllCanonical children) (wo : WriteOptions) (parentTag : Option String) :
    ∃ data, p data ∧ writeAll wo parentTag children = writeText parentTag data ∧
      rereadAll wo.dialect children = contentBranches (some data) := by
  rcases h with rfl | ⟨data, rfl, hdata⟩
  · refine ⟨"", hp, ?_, rfl⟩
    rw [writeText, show Reference.escapeText "" = "" from rfl]
    exact (ite_self _).symm
  · refine ⟨data, hdata, by rw [writeAll, writeAll, write, List.append_nil], ?_⟩
    have hdata : data.isEmpty = false := by simpa using hall.1.1.1
    rw [contentBranches]
    simp [rereadAll, reread, NodeKind.reread, hdata]

section
variable {wo : WriteOptions} {e : Element} {children : List Branch} {rest : List Char}
  (hd : wo.dialect ≠ .minimal) (hc : CanonicalElement e children)
  (h : s.Admits (.node (.element e) children :: bs)) (hvoid : ¬ Rules.isVoid e.tag = true)
include hd hc h hvoid

theorem reads_rawText (hall : AllCanonical children) (hraw : Rules.isRawText e.tag = true) :
    Reads .default s (s.push ((node (.element e) children).reread wo.dialect))
      (openTag wo.dialect e ++ '>' :: (writeAll wo (some e.tag) children ++
        (Token.closing e.tag ++ '>' :: rest))) rest := by
  have hmodel : Rules.contentModel e.tag false false = if false then .rcdata else .rawText := by
    simp [Rules.contentModel, hvoid, hraw]
  have hnil : ∀ post, post <:+ "".toList → Text.startsIgnoringCase (Token.closing e.tag) post = false :=
    Token.no_closing_of_not_mem List.not_mem_nil
  obtain ⟨data, hclosing, hwrite, hreread⟩ :=
    exists_verbatim (hc.rawText hraw) hnil hall wo (some e.tag)
  rw [hwrite, reread, hreread, writeText, if_pos (by simpa using hraw)]
  exact reads_verbatim hd hc h hmodel hclosing (by simp)

theorem reads_rcdata (hall : AllCanonical children) (hraw : ¬ Rules.isRawText e.tag = true)
    (hrcdata : Rules.rcdataTags.contains e.tag = true) :
    Reads .default s (s.push ((node (.element e) children).reread wo.dialect))
      (openTag wo.dialect e ++ '>' :: (writeAll wo (some e.tag) children ++
        (Token.closing e.tag ++ '>' :: rest))) rest := by
  have hmodel : Rules.contentModel e.tag false false = if true then .rcdata else .rawText := by
    rw [Rules.contentModel, Bool.false_or, if_neg Bool.false_ne_true, if_neg hvoid, if_neg hraw,
      if_pos hrcdata, if_pos rfl]
  obtain ⟨data, -, hwrite, hreread⟩ := exists_verbatim (hc.rcdata hrcdata) trivial hall wo (some e.tag)
  rw [hwrite, reread, hreread, writeText, if_neg (by simpa using hraw)]
  -- references stand for every `<` of the text, so its end tag is the first one
  refine reads_verbatim hd hc h hmodel (Token.no_closing_of_not_mem ?_) ?_
  · exact Reference.not_mem_escapeText data
  · rw [if_pos rfl, Reference.decode_escapeText, String.ofList_toList]

/-- An element with ordinary content is read if its children are read inside it. -/
theorem reads_children (hraw : ¬ Rules.isRawText e.tag = true)
    (hrcdata : ¬ Rules.rcdataTags.contains e.tag = true)
    (hchildren : ∀ {inner : Spine} {rest : List Char}, inner.Admits children → Token.AtMarkup rest →
      Reads .default inner (inner.mapDone (· ++ rereadAll wo.dialect children))
        (writeAll wo (some e.tag) children ++ rest) rest) :
    Reads .default s (s.push ((node (.element e) children).reread wo.dialect))
      (openTag wo.dialect e ++ '>' :: (writeAll wo (some e.tag) children ++
        (Token.closing e.tag ++ '>' :: rest))) rest := by
  have hmodel : Rules.contentModel e.tag false false = .normal := by
    rw [Rules.contentModel, Bool.false_or, if_neg Bool.false_ne_true, if_neg hvoid, if_neg hraw,
      if_neg hrcdata]
  have hinner : (inside s (.ofAttributes e.tag ⟨e.attributes.toList.map wo.dialect.reread⟩)
      []).Admits children :=
    { plain := ⟨hmodel, h.plain⟩
      no_document := hc.siblings.no_document
      not_closing := fun b hb e' inner he hinner => by
        obtain rfl := NodeKind.element.inj he
        exact hc.not_closing b hb inner hinner
      no_adjacent := hc.siblings.no_adjacent }
  exact reads_normal hd hc h hmodel (hchildren hinner (Token.atMarkup_cons _))

end

/-- An element is read, by its kind of content. -/
theorem reads_element {wo : WriteOptions} {e : Element} {children : List Branch} {rest : List Char}
    (hd : wo.dialect ≠ .minimal) (hc : CanonicalElement e children) (hall : AllCanonical children)
    (h : s.Admits (.node (.element e) children :: bs)) (parentTag : Option String)
    (hchildren : Rules.isRawText e.tag = false → ∀ {inner : Spine} {rest : List Char},
      inner.Admits children → Token.AtMarkup rest →
      Reads .default inner (inner.mapDone (· ++ rereadAll wo.dialect children))
        (writeAll wo (some e.tag) children ++ rest) rest) :
    Reads .default s (s.push ((node (.element e) children).reread wo.dialect))
      ((node (.element e) children).write wo parentTag ++ rest) rest := by
  rw [write, List.append_assoc]
  by_cases hvoid : Rules.isVoid e.tag = true
  · obtain rfl := hc.void hvoid
    rw [if_pos hvoid, reread]
    split
    · exact reads_empty hd hc h
    · exact reads_void hd hc h hvoid
  rw [if_neg hvoid]
  by_cases hempty : (wo.closesEmpty && children.isEmpty) = true
  · obtain rfl : children = [] := by simpa using (Bool.and_eq_true_iff.1 hempty).2
    rw [if_pos hempty, reread]
    exact reads_empty hd hc h
  have hshape : '>' :: writeAll wo (some e.tag) children ++ "</".toList ++ e.tag.toList ++ ['>'] ++ rest =
      '>' :: (writeAll wo (some e.tag) children ++ (Token.closing e.tag ++ '>' :: rest)) := by
    simp [Token.closing]
  rw [if_neg hempty, hshape]
  by_cases hraw : Rules.isRawText e.tag = true
  · exact reads_rawText hd hc h hvoid hall hraw
  by_cases hrcdata : Rules.rcdataTags.contains e.tag = true
  · exact reads_rcdata hd hc h hvoid hall hraw hrcdata
  · exact reads_children hd hc h hvoid hraw hrcdata (hchildren (Bool.eq_false_iff.2 hraw))

mutual

/-- The markup of a branch that is admitted is read as that branch. -/
theorem reads_write {wo : WriteOptions} (hd : wo.dialect ≠ .minimal) {parentTag : Option String}
    {s : Spine} {b : Branch} {bs : List Branch} {rest : List Char} (hb : b.Canonical)
    (h : s.Admits (b :: bs)) (hparent : (parentTag.map Rules.isRawText).getD false = false)
    (hrest : b.isText = true → Token.AtMarkup rest) :
    Reads .default s (s.push (b.reread wo.dialect)) (b.write wo parentTag ++ rest) rest := by
  match b, hb with
  | node .document children, _ => exact absurd rfl (h.no_document _ List.mem_cons_self)
  | node (.text data) children, hb =>
    obtain ⟨hdata, rfl⟩ := hb.1
    rw [write, writeText, hparent, if_neg Bool.false_ne_true]
    have hread := reads_text (o := .default) (s := s) hdata (hrest rfl)
    rw [addText_of_admits h hdata] at hread
    exact hread
  | node (.comment data) children, hb =>
    obtain ⟨hdata, rfl⟩ := hb.1
    have hshape : "<!--".toList ++ data.toList ++ "-->".toList ++ rest =
        '<' :: '!' :: '-' :: '-' :: (data.toList ++ '-' :: '-' :: '>' :: rest) := by simp
    rw [write, hshape]
    exact reads_comment hdata
  | node (.doctype data) children, hb =>
    obtain ⟨htrim, hend, rfl⟩ := hb.1
    obtain ⟨htrim', hend'⟩ := readable_rereadDoctype wo.dialect htrim hend
    rw [write, doctype_eq, List.append_assoc, List.singleton_append]
    exact reads_doctype htrim' hend'
  | node (.element e) children, hb =>
    exact reads_element hd hb.1 hb.2 h parentTag fun hraw _ _ hinner hrest =>
      reads_writeAll hd hb.2 hinner (by simpa using hraw) hrest

/-- The markup of branches that are admitted is read as those branches. -/
theorem reads_writeAll {wo : WriteOptions} (hd : wo.dialect ≠ .minimal) {parentTag : Option String}
    {s : Spine} {bs : List Branch} {rest : List Char} (hbs : AllCanonical bs) (h : s.Admits bs)
    (hparent : (parentTag.map Rules.isRawText).getD false = false) (hrest : Token.AtMarkup rest) :
    Reads .default s (s.mapDone (· ++ rereadAll wo.dialect bs)) (writeAll wo parentTag bs ++ rest)
      rest := by
  match bs, hbs with
  | [], _ =>
    have hs : s.mapDone (· ++ []) = s := by cases s <;> simp [mapDone]
    rw [writeAll, rereadAll, hs]
    exact .refl
  | b :: bs, hbs =>
    have hmap : s.mapDone (· ++ (b.reread wo.dialect :: rereadAll wo.dialect bs)) =
        (s.push (b.reread wo.dialect)).mapDone (· ++ rereadAll wo.dialect bs) := by
      cases s <;> simp [push, mapDone]
    rw [writeAll, rereadAll, List.append_assoc, hmap]
    have hbehind : b.isText = true → Token.AtMarkup (writeAll wo parentTag bs ++ rest) :=
      fun htext => h.atMarkup htext hrest wo parentTag
    exact (reads_write hd hbs.1 h hparent hbehind).trans
      (reads_writeAll hd hbs.2 (h.tail (isText_reread _ _)) hparent hrest)

end

end Spine

/-! ## Writing and reading -/

namespace Branch

/-- A canonical document that is written with quotes is read back. -/
theorem ofText_write {b : Branch} (hb : b.Canonical) (hkind : b.kind = .document) {wo : WriteOptions}
    (hd : wo.dialect ≠ .minimal) (parentTag : Option String) :
    Branch.ofText (String.ofList (b.write wo parentTag)) .default = b.reread wo.dialect := by
  obtain ⟨kind, children⟩ := b
  obtain rfl : kind = .document := hkind
  have hadmits : (Spine.document []).Admits children :=
    { plain := trivial
      no_document := hb.1.no_document
      not_closing := fun _ _ _ _ he => by simp [Spine.kind] at he
      no_adjacent := hb.1.no_adjacent }
  have hread : Spine.Reads .default (.document []) _ (writeAll wo none children ++ []) [] :=
    Spine.reads_writeAll hd hb.2 hadmits rfl Token.atMarkup_nil
  rw [List.append_nil, ← @String.toList_ofList (writeAll wo none children)] at hread
  rw [Branch.ofText, write, hread.ofText]
  simp [Spine.mapDone, Spine.whole, reread, NodeKind.reread]

end Branch

namespace Tree

/-- The document with all that is under it is as it must be. -/
def Canonical (t : Tree) : Prop := ∃ b, t.branch? root = some b ∧ b.kind = .document ∧ b.Canonical

/-- **A canonical tree that is written with quotes and read again is the same tree**, up to what its dialect
changes: the payloads of document types, and empty boolean attributes in XHTML. -/
theorem parse_write (t : Tree) (o : WriteOptions) (h : t.Canonical) (ho : o.dialect ≠ .minimal) :
    (parse (t.write root o) .default).branch? root = (t.branch? root).map (·.reread o.dialect) := by
  obtain ⟨b, hb, hkind, hc⟩ := h
  rw [branch?_parse, write, hb]
  exact congrArg some (Branch.ofText_write hc hkind ho _)

/-- A document with a script and a field that is not enabled. -/
def form : List Edit :=
  [.alloc (.doctype "html") none, .alloc (.element (.bare "script")) none, .alloc (.text "a<b") none,
    .alloc (.element (.ofAttributes "input" (.ofList [("disabled", "")]))) none, .append 0 1,
    .append 0 2, .append 2 3, .append 0 4]

theorem parse_write_form : ∃ t, empty.run? form = some t ∧ t.Canonical ∧
    (parse (t.write root (.ofDialect .xhtml)) .default).branch? root = some (.node .document
      [.node (.doctype Dialect.xhtmlPayload) [], .node (.element (.bare "script")) [.node (.text "a<b") []],
        .node (.element (.ofAttributes "input" (.ofList [("disabled", "disabled")]))) []]) := by
  obtain ⟨t, ht, hb⟩ : ∃ t, empty.run? form = some t ∧ t.branch? root = some (.node .document
      [.node (.doctype "html") [], .node (.element (.bare "script")) [.node (.text "a<b") []],
        .node (.element (.ofAttributes "input" (.ofList [("disabled", "")]))) []]) := ⟨_, rfl, by rfl⟩
  have hscript : Branch.CanonicalElement (.bare "script") [.node (.text "a<b") []] :=
    { tag := by decide
      names := nofun
      nodup := by decide
      siblings := ⟨by simp [Branch.kind], List.isChain_singleton _⟩
      void := by decide
      rawText := fun _ => .inr ⟨_, rfl, fun post hpost => by
        have hnone : ∀ post ∈ "a<b".toList.tails,
            Text.startsIgnoringCase (Token.closing "script") post = false := by decide
        exact hnone post ((List.mem_tails ..).2 hpost)⟩
      rcdata := fun _ => .inr ⟨_, rfl, trivial⟩
      not_closing := by simp [Branch.kind] }
  have hinput : Branch.CanonicalElement (.ofAttributes "input" (.ofList [("disabled", "")])) [] :=
    { tag := by decide
      names := by decide +kernel
      nodup := by decide
      siblings := ⟨by simp, List.isChain_nil⟩
      void := fun _ => rfl
      rawText := fun _ => .inl rfl
      rcdata := fun _ => .inl rfl
      not_closing := by simp }
  have hdoctype : Branch.Canonical (.node (.doctype "html") []) :=
    ⟨⟨by decide, by decide, rfl⟩, trivial⟩
  have htext : Branch.Canonical (.node (.text "a<b") []) := ⟨⟨by decide, rfl⟩, trivial⟩
  have hc : t.Canonical := by
    refine ⟨_, hb, rfl, ⟨?_, ?_⟩, hdoctype, ⟨hscript, htext, trivial⟩, ⟨hinput, trivial⟩, trivial⟩
    · simp [Branch.kind]
    · simp [Branch.isText, Branch.kind, NodeKind.text?]
  refine ⟨t, ht, hc, ?_⟩
  rw [parse_write t (.ofDialect .xhtml) hc (by decide), hb]
  rfl
end Tree

end HtmlQuery
