import HtmlQuery.Proofs.Token.Prose
import HtmlQuery.Proofs.Tree.NormalForm
import HtmlQuery.Proofs.Tree.Walks

/-!
# Text that is written and read again

Read as XML, a text has no verbatim content, so the text of its tree is its prose (`textContent_xml`). Whatever a tree
was read as, the writer goes by the tags of elements: it leaves out what is under a void element, and it writes the text
right under an element of raw text as it stands. Where nothing is left out and no `<` of such a text begins markup, the
prose of what is written is the text of the nodes in document order, each text that is written as it stands being
decoded (`Writable.prose_write`). So the text survives as long as that changes none of them (`textContent_write_xhtml`).
-/

namespace HtmlQuery

open Branch

/-! ## Text of XML -/

namespace Scanner

variable {s s' : Scanner} {token : Token} {place : Location}

/-- Reading a token takes its text off the prose of what is left. -/
theorem prose_of_next : Token.prose s.folding s.cursor.rest = match s.next with
    | (some (token, _), s') => Token.textOf (some token) ++ Token.prose s.folding s'.cursor.rest
    | (none, _) => [] := by
  fun_induction next s with
  | case1 s hrest => rw [hrest, Token.prose_nil]
  | case2 s c cs hrest token rest hscan =>
    dsimp only
    rw [hrest, Token.prose_of_scan (List.cons_ne_nil c cs) hscan, upTo_scanned (hrest ▸ hscan)]
  | case3 s c cs hrest rest hscan ih =>
    rw [upTo_scanned (hrest ▸ hscan)] at ih
    rw [hrest, Token.prose_of_scan (List.cons_ne_nil c cs) hscan]
    exact ih

/-- No element of XML has verbatim content. -/
theorem verbatim_xml (token : Token) (s : Scanner) : s.verbatim true token = (none, s) := by
  cases token with
  | startTag tag attributes selfClosing => cases selfClosing <;> rfl
  | _ => rfl

theorem text?_xml (o : ParseOptions) (token : Token) (place : Location) :
    (((⟨token, place, none⟩ : Lexeme).text? o).map String.toList).getD [] = Token.textOf (some token) := by
  cases token with
  | startTag tag attributes selfClosing =>
    dsimp only [Lexeme.text?]
    split <;> rfl
  | _ => rfl

/-- The texts of a stream of XML are the prose of what is read. -/
theorem text_stream (o : ParseOptions) (s : Scanner) :
    (String.join ((s.stream true).filterMap (·.text? o))).toList = Token.prose s.folding s.cursor.rest := by
  rw [String.toList_join]
  fun_induction stream true s with
  | case1 s s' hnext =>
    rw [prose_of_next, hnext]
    rfl
  | case2 s token place s' hnext ih =>
    rw [verbatim_xml, (next_scanned hnext).1] at ih
    rw [verbatim_xml, prose_of_next, hnext, List.filterMap_cons]
    dsimp only at ih ⊢
    rw [← ih, ← text?_xml o token place]
    cases (⟨token, place, none⟩ : Lexeme).text? o with
    | none => rfl
    | some data => rw [List.flatMap_cons]; rfl

end Scanner

/-- The text of a tree that was read as XML is the prose of what was read. -/
theorem Tree.textContent_xml (html : String) {o : ParseOptions} (hxml : o.xml = true) :
    ((Tree.parse html o).textContent root).toList = Token.prose o.folding html.toList := by
  rw [textContent_parse, ParseOptions.lexemes, hxml, Scanner.text_stream]
  rfl

/-! ## Payloads that can be written -/

/-- What the payload says can be written so that it is read as one construct. -/
def NodeKind.Spelled : NodeKind → Prop
  | document => True
  | element e => Token.SpelledTag e.tag ∧ ∀ name ∈ e.attributes.names, Token.SpelledName name
  | text _ => True
  | comment data => Text.contains ['-', '-', '>'] data.toList = false
  | doctype data => Text.trim data.toList = data.toList ∧ '>' ∉ data.toList

theorem Lexeme.spelled_other? {o : ParseOptions} {l : Lexeme} {kind : NodeKind} (h : l.token.Spelled)
    (hother : l.other? o = some kind) : kind.Spelled := by
  rcases other?_cases hother with ⟨data, htoken, rfl⟩ | ⟨data, htoken, rfl⟩ | ⟨tag, as, selfClosing, htoken, rfl⟩ <;>
    rwa [htoken] at h

theorem Branch.Siblings.tail {b : Branch} {bs : List Branch} (h : Siblings (b :: bs)) : Siblings bs where
  no_document b hb := h.no_document b (List.mem_cons_of_mem _ hb)
  no_adjacent := h.no_adjacent.tail

namespace Tree

variable {t : Tree} {n : NodeId} {html : String} {o : ParseOptions} {kind : NodeKind}

/-- No node is loose but the document. -/
theorem mem_subtree_parse (h : (parse html o).has n = true) : n ∈ (parse html o).subtree root := by
  rw [subtree_parse, List.mem_range'_1, Nat.zero_add]
  exact ⟨Nat.zero_le n, has_iff.1 h⟩

theorem spelled_parse (h : (parse html o).kind? n = some kind) : kind.Spelled := by
  have hmem : kind ∈ (Branch.ofText html o).payloads := by
    rw [← filterMap_kind?_parse]
    exact List.mem_filterMap.2 ⟨n, mem_subtree_parse (has_of_kind? h), h⟩
  exact payloads_forall html o trivial (fun _ => trivial)
    (fun l hl _ hother => l.spelled_other? (Scanner.spelled_stream l hl) hother) kind hmem

/-! ## Texts of nodes -/

/-- A text right under an element of raw text: it is written as it stands. -/
def verbatim? (t : Tree) (n : NodeId) : Option String :=
  if (((t.parent n).bind t.tag?).map Rules.isRawText).getD false then t.text? n else none

/-- The characters of a node, if it is a text. -/
def chars (t : Tree) (n : NodeId) : List Char := ((t.text? n).map String.toList).getD []

/-- The characters that are read where the text of a node is written. -/
def readBack (t : Tree) (n : NodeId) : List Char :=
  match t.verbatim? n with
  | some data => Reference.decode data.toList
  | none => t.chars n

theorem toList_textContent (t : Tree) (n : NodeId) : (t.textContent n).toList = (t.subtree n).flatMap t.chars := by
  rw [textContent, String.toList_join, strings]
  induction t.subtree n with
  | nil => rfl
  | cons m ns ih =>
    rw [List.filterMap_cons, List.flatMap_cons, ← ih, chars]
    cases t.text? m <;> rfl

theorem chars_of_verbatim? {data : String} (h : t.verbatim? n = some data) : t.chars n = data.toList := by
  unfold verbatim? at h
  split at h
  · rw [chars, h]
    rfl
  · cases h

theorem has_of_verbatim? {data : String} (h : t.verbatim? n = some data) : t.has n = true := by
  unfold verbatim? at h
  split at h
  · obtain ⟨kind, hkind, -⟩ := Option.bind_eq_some_iff.1 h
    exact has_of_kind? hkind
  · cases h

theorem readBack_of_text?_eq_none (h : t.text? n = none) : t.readBack n = [] := by
  rw [readBack, verbatim?, chars, h, ite_self]
  rfl

/-- Reading makes no text longer. -/
theorem length_readBack_le (t : Tree) (n : NodeId) : (t.readBack n).length ≤ (t.chars n).length := by
  unfold readBack
  split
  · rename_i data h
    rw [chars_of_verbatim? h]
    exact Reference.length_decode_le _
  · exact Nat.le_refl _

/-! ## Writing -/

/-- What a tree must be for its texts to be written so that none is left out or begins markup. -/
structure Writable (t : Tree) : Prop where
  wellFormed : t.WellFormed
  spelled : ∀ n kind, t.kind? n = some kind → kind.Spelled
  siblings : ∀ n, Siblings ((t.children n).filterMap t.branch?)
  void : ∀ n e, t.element? n = some e → Rules.isVoid e.tag = true → t.textContent n = ""
  verbatim : ∀ n data, t.verbatim? n = some data → ¬ Token.HoldsMarkup data.toList

variable {fold : Folding} {wo : WriteOptions} {rest : List Char} {parentTag : Option String}
  {ns below l : List NodeId}

namespace Writable

variable (h : t.Writable)
include h

/-- A text is read back as it is, or decoded if it was written as it stands. -/
theorem prose_writeText {data : String} (htext : t.text? n = some data)
    (hparent : (t.parent n).bind t.tag? = parentTag) (hrest : Token.AtMarkup rest) :
    Token.prose fold (writeText parentTag data ++ rest) = t.readBack n ++ Token.prose fold rest := by
  have hverbatim : t.verbatim? n = if (parentTag.map Rules.isRawText).getD false then some data else none := by
    rw [verbatim?, hparent, htext]
  unfold writeText
  split
  · rename_i hraw
    rw [if_pos hraw] at hverbatim
    rw [Token.prose_verbatim (h.verbatim n data hverbatim) hrest, readBack, hverbatim]
  · rename_i hraw
    rw [if_neg hraw] at hverbatim
    rw [Token.prose_escapeText data hrest, readBack, hverbatim, chars, htext]
    rfl

/-- There is no text under a void element. -/
theorem readBack_void {e : Element} (he : t.element? n = some e) (hvoid : Rules.isVoid e.tag = true)
    (hbelow : Lists t (t.children n) below) : below.flatMap t.readBack = [] := by
  have hchars : (t.subtree n).flatMap t.chars = [] := by
    rw [← toList_textContent, h.void n e he hvoid]
    rfl
  rw [hbelow.unique (h.wellFormed.lists_descendants n), List.flatMap_eq_nil_iff]
  intro m hm
  have hnil := List.flatMap_eq_nil_iff.1 hchars m (by rw [subtree_eq_cons]; exact List.mem_cons_of_mem _ hm)
  have hle := t.length_readBack_le m
  rw [hnil] at hle
  exact List.length_eq_zero_iff.1 (Nat.le_zero.1 hle)

/-- Nothing is under a node that may have no children. -/
theorem below_leaf (hkind : t.kind? n = some kind) (hleaf : kind.isContainer = false)
    (hbelow : Lists t (t.children n) below) : below = [] := by
  have hchildren : t.children n = [] := by
    by_contra hne
    obtain ⟨kind', hkind', hcontainer⟩ := h.wellFormed.container n hne
    rw [hkind, Option.some.injEq] at hkind'
    subst hkind'
    exact Bool.false_ne_true (hleaf.symm.trans hcontainer)
  rw [hchildren] at hbelow
  cases hbelow
  rfl

/-- What is read of an element is what is read of its children. -/
theorem prose_write_element {e : Element} {bs : List Branch} (hd : wo.dialect ≠ .minimal)
    (he : t.element? n = some e) (hbelow : Lists t (t.children n) below)
    (hbs : ∀ rest, Token.AtMarkup rest → Token.prose fold (writeAll wo (some e.tag) bs ++ rest) =
      below.flatMap t.readBack ++ Token.prose fold rest) :
    Token.prose fold ((node (.element e) bs).write wo parentTag ++ rest) =
      below.flatMap t.readBack ++ Token.prose fold rest := by
  obtain ⟨htag, hnames⟩ := h.spelled n _ (kind?_of_element? he)
  have hopen := fun rest => @Token.prose_openTag fold rest e htag
    (fun a ha => hnames a.name (List.mem_map_of_mem ha)) wo.dialect hd
  rw [Branch.write, List.append_assoc]
  split
  · rename_i hvoid
    rw [h.readBack_void he hvoid hbelow]
    split
    · exact (hopen rest).2
    · exact (hopen rest).1
  split
  · rename_i hempty
    -- without children the element is closed at once, and nothing is read of what is under it
    have hnothing := hbs [] Token.atMarkup_nil
    rw [List.isEmpty_iff.1 (Bool.and_eq_true_iff.1 hempty).2, writeAll, List.append_nil, Token.prose_nil,
      List.append_nil] at hnothing
    rw [← hnothing]
    exact (hopen rest).2
  · have hinside : '>' :: writeAll wo (some e.tag) bs ++ "</".toList ++ e.tag.toList ++ ['>'] ++ rest =
        '>' :: (writeAll wo (some e.tag) bs ++ (Token.closing e.tag ++ '>' :: rest)) := by simp [Token.closing]
    have hend : Token.AtMarkup (Token.closing e.tag ++ '>' :: rest) := Token.atMarkup_cons _
    rw [hinside, (hopen _).1, hbs _ hend, Token.prose_closing htag]

/-- What is read of a node is its text and what is read of its children. -/
theorem prose_write_node {bs : List Branch} (hd : wo.dialect ≠ .minimal) (hkind : t.kind? n = some kind)
    (hdocument : kind ≠ .document) (hparent : (t.parent n).bind t.tag? = parentTag)
    (hbelow : Lists t (t.children n) below)
    (hbs : ∀ rest, Token.AtMarkup rest → Token.prose fold (writeAll wo (t.tag? n) bs ++ rest) =
      below.flatMap t.readBack ++ Token.prose fold rest)
    (hrest : kind.text?.isSome = true → Token.AtMarkup rest) :
    Token.prose fold ((node kind bs).write wo parentTag ++ rest) =
      t.readBack n ++ (below.flatMap t.readBack ++ Token.prose fold rest) := by
  have htext : t.text? n = kind.text? := by rw [text?, hkind]; rfl
  have hspelled := h.spelled n kind hkind
  cases kind with
  | document => exact absurd rfl hdocument
  | element e =>
    have he : t.element? n = some e := by rw [element?, hkind]; rfl
    rw [tag?, he] at hbs
    rw [readBack_of_text?_eq_none htext, List.nil_append]
    exact h.prose_write_element hd he hbelow hbs
  | text data =>
    rw [h.below_leaf hkind rfl hbelow, Branch.write]
    exact h.prose_writeText htext hparent (hrest rfl)
  | comment data =>
    have hwrite : (node (.comment data) bs).write wo parentTag ++ rest =
        '<' :: '!' :: '-' :: '-' :: (data.toList ++ '-' :: '-' :: '>' :: rest) := by simp [Branch.write]
    rw [h.below_leaf hkind rfl hbelow, readBack_of_text?_eq_none htext, hwrite]
    exact Token.prose_comment hspelled
  | doctype data =>
    obtain ⟨htrim, hend⟩ := readable_rereadDoctype wo.dialect hspelled.1 hspelled.2
    have hwrite : (node (.doctype data) bs).write wo parentTag ++ rest =
        "<!DOCTYPE ".toList ++ (wo.dialect.rereadDoctype data).toList ++ '>' :: rest := by
      rw [Branch.write, doctype_eq, List.append_assoc, List.singleton_append]
    rw [h.below_leaf hkind rfl hbelow, readBack_of_text?_eq_none htext, hwrite]
    exact Token.prose_doctype htrim hend

theorem parent_tag_children (n : NodeId) :
    ∀ c ∈ t.children n, t.has c = true ∧ (t.parent c).bind t.tag? = t.tag? n := by
  intro c hc
  rw [h.wellFormed.mem_children_iff.1 hc]
  exact ⟨h.wellFormed.child_has n c hc, rfl⟩

/-- The texts of nodes that are written side by side are read back in document order. -/
theorem prose_writeAll (hd : wo.dialect ≠ .minimal) (hl : Lists t ns l)
    (hns : ∀ n ∈ ns, t.has n = true ∧ (t.parent n).bind t.tag? = parentTag)
    (hsiblings : Siblings (ns.filterMap t.branch?)) (hrest : Token.AtMarkup rest) :
    Token.prose fold (writeAll wo parentTag (ns.filterMap t.branch?) ++ rest) =
      l.flatMap t.readBack ++ Token.prose fold rest := by
  induction hl generalizing parentTag rest with
  | nil => rfl
  | @cons n ns below l hbelow _ ihbelow ihl =>
    obtain ⟨⟨hn, hparent⟩, hns⟩ := List.forall_mem_cons.1 hns
    obtain ⟨kind, hkind⟩ := exists_kind?_of_has hn
    have hbranch : t.branch? n = some (node kind ((t.children n).filterMap t.branch?)) := by
      rw [branch?_eq h.wellFormed, hkind]
      rfl
    rw [List.filterMap_cons, hbranch] at hsiblings
    have hdocument : kind ≠ .document := hsiblings.no_document _ List.mem_cons_self
    have hlater := fun htext => (Spine.admits_siblings hsiblings).atMarkup htext hrest wo parentTag
    rw [List.filterMap_cons, hbranch, writeAll, List.append_assoc, List.flatMap_cons, List.flatMap_append,
      List.append_assoc, List.append_assoc, ← ihl hns hsiblings.tail hrest]
    exact h.prose_write_node hd hkind hdocument hparent hbelow
      (fun _ hrest => ihbelow (h.parent_tag_children n) (h.siblings n) hrest) hlater

/-- The prose of a document that is written is what is read of its texts. -/
theorem prose_write (hd : wo.dialect ≠ .minimal) :
    Token.prose fold (t.write root wo).toList = (t.subtree root).flatMap t.readBack := by
  have hkind := h.wellFormed.root_kind
  have htext : t.text? root = none := by rw [text?, hkind]; rfl
  have htag : t.tag? root = none := by rw [tag?, element?, hkind]; rfl
  have hwrite : (t.write root wo).toList = writeAll wo (t.tag? root) ((t.children root).filterMap t.branch?) ++ [] := by
    rw [write, branch?_eq h.wellFormed, hkind, htag, List.append_nil]
    exact String.toList_ofList
  rw [hwrite, h.prose_writeAll hd (h.wellFormed.lists_descendants root) (h.parent_tag_children root) (h.siblings root)
    Token.atMarkup_nil, Token.prose_nil, List.append_nil, subtree_eq_cons, List.flatMap_cons,
    readBack_of_text?_eq_none htext, List.nil_append]

end Writable

theorem siblings_parse (html : String) (o : ParseOptions) (n : NodeId) :
    Siblings (((parse html o).children n).filterMap (parse html o).branch?) := by
  have hwf := wellFormed_parse html o
  have hkinds : (((parse html o).children n).filterMap (parse html o).branch?).map Branch.kind =
      (parse html o).childKinds n := by
    rw [List.map_filterMap, childKinds]
    refine List.filterMap_congr fun c _ => ?_
    rw [branch?_eq hwf]
    cases (parse html o).kind? c <;> rfl
  by_cases hchildren : (parse html o).children n = []
  · rw [hchildren]
    exact ⟨nofun, List.isChain_nil⟩
  · obtain ⟨kind, hkind, -⟩ := hwf.container n hchildren
    have hshaped := shaped_parse html o hkind
    rw [← hkinds] at hshaped
    exact siblings_of_shaped hshaped

/-! ## The text of a tree -/

theorem length_flatMap_le {α β : Type} {f g : α → List β} {l : List α}
    (hle : ∀ a ∈ l, (f a).length ≤ (g a).length) : (l.flatMap f).length ≤ (l.flatMap g).length := by
  induction l with
  | nil => exact Nat.le_refl _
  | cons a l ih =>
    obtain ⟨ha, hl⟩ := List.forall_mem_cons.1 hle
    rw [List.flatMap_cons, List.flatMap_cons, List.length_append, List.length_append]
    exact Nat.add_le_add ha (ih hl)

/-- Where no piece is longer, the whole is the same only if each piece is. -/
theorem eq_of_flatMap_eq {α β : Type} {f g : α → List β} {l : List α}
    (hle : ∀ a ∈ l, (f a).length ≤ (g a).length) (heq : l.flatMap f = l.flatMap g) : ∀ a ∈ l, f a = g a := by
  induction l with
  | nil => exact nofun
  | cons a l ih =>
    obtain ⟨ha, hl⟩ := List.forall_mem_cons.1 hle
    have hrest := length_flatMap_le hl
    have hlength := congrArg List.length heq
    rw [List.flatMap_cons, List.flatMap_cons] at heq hlength
    rw [List.length_append, List.length_append] at hlength
    obtain ⟨hfirst, hlater⟩ := List.append_inj heq (by omega)
    exact List.forall_mem_cons.2 ⟨hfirst, ih hl hlater⟩

/-- A text is read back as it is, unless it is written as it stands and does not decode to itself. -/
theorem readBack_eq_chars_iff (t : Tree) (n : NodeId) :
    t.readBack n = t.chars n ↔ ∀ data, t.verbatim? n = some data → Reference.decodeString data = data := by
  unfold readBack
  split
  · rename_i data h
    rw [chars_of_verbatim? h]
    constructor
    · intro hsame data' hdata
      obtain rfl := Option.some.inj (h.symm.trans hdata)
      rw [Reference.decodeString, hsame, String.ofList_toList]
    · intro hsame
      have hdata := congrArg String.toList (hsame data h)
      rwa [Reference.decodeString, String.toList_ofList] at hdata
  · rename_i h
    exact iff_of_true rfl fun data hdata => absurd (h.symm.trans hdata) (by simp)

/-- **Written as XHTML and read as XML, a tree keeps its text just where the texts right under elements of raw text
decode to themselves**, if these hold no markup and there is no text under void elements. Such text is shut out because
the writer drops it: read as XML, an element with the tag of a void one may have text under it, but it is written
without its children all the same. -/
theorem textContent_write_xhtml (html : String) (o o' : ParseOptions) (selfClosing : Option Bool)
    (hxml : o'.xml = true)
    (hvoid : ∀ n e, (parse html o).element? n = some e → Rules.isVoid e.tag = true →
      (parse html o).textContent n = "")
    (hmarkup : ∀ n data, (parse html o).verbatim? n = some data → ¬ Token.HoldsMarkup data.toList) :
    (parse ((parse html o).write root ⟨.xhtml, selfClosing⟩) o').textContent root =
        (parse html o).textContent root ↔
      ∀ n data, (parse html o).verbatim? n = some data → Reference.decodeString data = data := by
  have hwritable : (parse html o).Writable := {
    wellFormed := wellFormed_parse html o
    spelled := fun _ _ => spelled_parse
    siblings := siblings_parse html o
    void := hvoid
    verbatim := hmarkup }
  have hd : (⟨.xhtml, selfClosing⟩ : WriteOptions).dialect ≠ .minimal := nofun
  have hread : ((parse ((parse html o).write root ⟨.xhtml, selfClosing⟩) o').textContent root).toList =
      ((parse html o).subtree root).flatMap (parse html o).readBack := by
    rw [textContent_xml _ hxml, hwritable.prose_write hd]
  rw [← String.toList_inj, hread, toList_textContent]
  have hle := fun n (_ : n ∈ (parse html o).subtree root) => (parse html o).length_readBack_le n
  constructor
  · intro heq n data hdata
    have hn : n ∈ (parse html o).subtree root := mem_subtree_parse (has_of_verbatim? hdata)
    exact (readBack_eq_chars_iff _ n).1 (eq_of_flatMap_eq hle heq n hn) data hdata
  · exact fun hsame => List.flatMap_congr fun n _ => (readBack_eq_chars_iff _ n).2 (hsame n)

/-- A comparison in a script, beside escaped text, a void element and a comment. -/
theorem textContent_write_xhtml_comparison : ∃ t, t = parse "<p>a &amp; b<script>1 < 2</script><br/><!--c--></p>"
      ⟨.all, none, false, true⟩ ∧ t.verbatim? 4 = some "1 < 2" ∧ t.textContent root = "a & b1 < 2" ∧
    (parse (t.write root ⟨.xhtml, none⟩) ⟨.all, none, false, true⟩).textContent root = "a & b1 < 2" := by
  have hfacts : ∃ t, t = parse "<p>a &amp; b<script>1 < 2</script><br/><!--c--></p>" ⟨.all, none, false, true⟩ ∧
      (∀ n < t.size, ∀ e ∈ t.element? n, Rules.isVoid e.tag = true → t.textContent n = "") ∧
      (∀ n < t.size, ∀ data ∈ t.verbatim? n, ¬ Token.HoldsMarkup data.toList ∧
        Reference.decodeString data = data) ∧
      t.verbatim? 4 = some "1 < 2" ∧ t.textContent root = "a & b1 < 2" :=
    ⟨_, rfl, by decide +kernel, by decide +kernel, by decide +kernel, by decide +kernel⟩
  obtain ⟨t, rfl, hvoid, hverbatim, hscript, hcontent⟩ := hfacts
  refine ⟨_, rfl, hscript, hcontent, ?_⟩
  rw [← hcontent]
  refine (textContent_write_xhtml _ _ _ none rfl (fun n e he => ?_) fun n data hdata => ?_).2 fun n data hdata => ?_
  · exact hvoid n (has_iff.1 (has_of_kind? (kind?_of_element? he))) e he
  · exact (hverbatim n (has_iff.1 (has_of_verbatim? hdata)) data hdata).1
  · exact (hverbatim n (has_iff.1 (has_of_verbatim? hdata)) data hdata).2

/-- A reference in a script is written as what it stands for, which begins a start tag, and what is under a void element
is not written. -/
theorem textContent_write_xhtml_ne :
    (parse ((parse "<script>a&lt;b</script>" ⟨.all, none, false, true⟩).write root ⟨.xhtml, none⟩)
        ⟨.all, none, false, true⟩).textContent root ≠
      (parse "<script>a&lt;b</script>" ⟨.all, none, false, true⟩).textContent root ∧
    (parse ((parse "<br>x</br>" ⟨.all, none, false, true⟩).write root ⟨.xhtml, none⟩)
        ⟨.all, none, false, true⟩).textContent root ≠
      (parse "<br>x</br>" ⟨.all, none, false, true⟩).textContent root := by
  decide +kernel

end Tree

end HtmlQuery
