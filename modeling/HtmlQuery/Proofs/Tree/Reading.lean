import HtmlQuery.Proofs.Token.Written
import HtmlQuery.Proofs.Tree.Building

/-!
# Reading a text onto a spine

`Spine.Reads o s s' cs rest` says that reading the characters `cs` from the spine `s` on is reading `rest` from `s'`
on: the part of `cs` in front of `rest` takes the one spine to the other. It composes (`Reads.trans`), each scanned
token is one step of it (`reads_of_scan`), and read to the end it gives the branch of the text (`Reads.ofText`).
-/

namespace HtmlQuery

namespace Spine

/-- Reading `cs` from the spine `s` on is reading `rest` from `s'` on. -/
def Reads (o : ParseOptions) (s s' : Spine) (cs rest : List Char) : Prop :=
  ∀ scanner : Scanner, scanner.cursor.rest = cs → scanner.folding = o.folding →
    ∃ scanner' : Scanner, scanner'.cursor.rest = rest ∧ scanner'.folding = o.folding ∧
      (scanner.stream o.xml).foldl (step o) s = (scanner'.stream o.xml).foldl (step o) s'

variable {o : ParseOptions} {s s₁ s₂ : Spine} {cs rest rest' : List Char} {token : Token}

theorem Reads.refl : Reads o s s cs cs := fun scanner hcs hfold => ⟨scanner, hcs, hfold, rfl⟩

theorem Reads.trans (h₁ : Reads o s s₁ cs rest) (h₂ : Reads o s₁ s₂ rest rest') :
    Reads o s s₂ cs rest' := fun scanner hcs hfold => by
  obtain ⟨scanner₁, hrest, hfold₁, heq₁⟩ := h₁ scanner hcs hfold
  obtain ⟨scanner₂, hrest', hfold₂, heq₂⟩ := h₂ scanner₁ hrest hfold₁
  exact ⟨scanner₂, hrest', hfold₂, heq₁.trans heq₂⟩

/-- A text that is read to its end has the spine that is reached. -/
theorem Reads.ofText {html : String} (h : Reads o (.document []) s html.toList []) :
    Spine.ofText html o = s := by
  obtain ⟨scanner, hrest, -, heq⟩ := h (.ofString html o.folding) rfl rfl
  rw [Spine.ofText, ParseOptions.lexemes, heq, Scanner.stream_of_none (Scanner.next_of_end hrest)]
  rfl

/-- A token is a step. Its verbatim content, if it has any, is read with it. -/
theorem reads_of_scan {content : Option String} (hne : cs ≠ [])
    (hscan : Token.scan o.folding cs = (some token, rest))
    (hcontent : ∀ scanner : Scanner, scanner.cursor.rest = rest →
      (scanner.verbatim o.xml token).1 = content ∧
      (scanner.verbatim o.xml token).2.cursor.rest = rest' ∧
      (scanner.verbatim o.xml token).2.folding = scanner.folding) :
    Reads o s (s.step o ⟨token, .start, content⟩) cs rest' := by
  intro scanner hcs hfold
  subst hcs
  rw [← hfold] at hscan
  obtain ⟨hfound, hrest', hfold'⟩ := hcontent (scanner.upTo rest) (Scanner.upTo_scanned hscan)
  refine ⟨_, hrest', hfold'.trans hfold, ?_⟩
  rw [Scanner.stream_of_some (Scanner.next_of_scan hne hscan), List.foldl_cons, hfound]
  rfl

theorem reads_token (hne : cs ≠ []) (hscan : Token.scan o.folding cs = (some token, rest))
    (hplain : ∀ scanner : Scanner, scanner.verbatim o.xml token = (none, scanner)) :
    Reads o s (s.step o ⟨token, .start, none⟩) cs rest :=
  reads_of_scan hne hscan fun scanner hrest => by
    rw [hplain]
    exact ⟨rfl, hrest, rfl⟩

/-! ## Written constructs -/

section
variable {data tag : String}

theorem reads_text (hdata : data ≠ "") (hrest : Token.AtMarkup rest) :
    Reads o s (s.addText data) ((Reference.escapeText data).toList ++ rest) rest := by
  refine reads_token ?_ (Token.scan_text hdata hrest) fun _ => rfl
  exact fun hnil => Reference.escapeText_ne_nil hdata (List.append_eq_nil_iff.1 hnil).1

theorem reads_comment (h : Text.contains ['-', '-', '>'] data.toList = false) :
    Reads o s (s.push (.node (.comment data) []))
      ('<' :: '!' :: '-' :: '-' :: (data.toList ++ '-' :: '-' :: '>' :: rest)) rest :=
  reads_token (List.cons_ne_nil _ _) (Token.scan_comment h) fun _ => rfl

theorem reads_doctype (htrim : Text.trim data.toList = data.toList) (hend : '>' ∉ data.toList) :
    Reads o s (s.push (.node (.doctype data) []))
      ("<!DOCTYPE ".toList ++ data.toList ++ '>' :: rest) rest := by
  have hscan : Token.scan o.folding ("<!DOCTYPE ".toList ++ data.toList ++ '>' :: rest) = _ :=
    Token.scan_doctype htrim hend
  rw [String.ofList_toList] at hscan
  exact reads_token (by simp) hscan fun _ => rfl

theorem reads_endTag (htag : Token.ReadableTag tag) :
    Reads o s ((s.close? tag).getD s) (Token.closing tag ++ '>' :: rest) rest :=
  reads_token (by simp) (Token.scan_endTag htag) fun _ => rfl

end

section
variable {d : Dialect} {e : Element} (hd : d ≠ .minimal) (htag : Token.ReadableTag e.tag)
  (hnames : ∀ a ∈ e.attributes.toList, Token.ReadableName a.name) (hnodup : e.attributes.names.Nodup)
include hd htag hnames hnodup

/-- A start tag that ends in `>`. -/
theorem reads_openTag (hmodel : Rules.contentModel e.tag false o.xml = .normal ∨
    Rules.contentModel e.tag false o.xml = .void) :
    Reads o s (s.step o ⟨.startTag e.tag ⟨e.attributes.toList.map d.reread⟩ false, .start, none⟩)
      (openTag d e ++ '>' :: rest) rest := by
  refine reads_token (by simp [openTag])
    (Token.scan_openTag (fun a _ => Dialect.preserves_of_ne hd a) htag hnames hnodup).1 fun scanner => ?_
  rcases hmodel with hmodel | hmodel <;> rw [Scanner.verbatim, hmodel, Scanner.content?]

/-- A start tag that ends in ` />`. -/
theorem reads_openTag_empty :
    Reads o s (s.step o ⟨.startTag e.tag ⟨e.attributes.toList.map d.reread⟩ true, .start, none⟩)
      (openTag d e ++ ' ' :: '/' :: '>' :: rest) rest := by
  have hmodel : Rules.contentModel e.tag true o.xml = .void := by
    unfold Rules.contentModel
    split <;> rfl
  refine reads_token (by simp [openTag])
    (Token.scan_openTag (fun a _ => Dialect.preserves_of_ne hd a) htag hnames hnodup).2 fun scanner => ?_
  rw [Scanner.verbatim, hmodel, Scanner.content?]

/-- A start tag with verbatim content, which is decoded or not. -/
theorem reads_openTag_verbatim {decode : Bool} {content : List Char}
    (hmodel : Rules.contentModel e.tag false o.xml = if decode then .rcdata else .rawText)
    (hcontent : ∀ post, post <:+ content → Text.startsIgnoringCase (Token.closing e.tag) post = false) :
    Reads o s (s.step o ⟨.startTag e.tag ⟨e.attributes.toList.map d.reread⟩ false, .start,
        some (String.ofList (if decode then Reference.decode content else content))⟩)
      (openTag d e ++ '>' :: (content ++ (Token.closing e.tag ++ rest)))
      (Token.closing e.tag ++ rest) := by
  refine reads_of_scan (by simp [openTag])
    (Token.scan_openTag (fun a _ => Dialect.preserves_of_ne hd a) htag hnames hnodup).1 fun scanner hrest => ?_
  have hraw : scanner.rawText e.tag decode =
      (String.ofList (if decode then Reference.decode content else content),
        scanner.upTo (Token.closing e.tag ++ rest)) := by
    have hcut : Text.cutBefore (Text.startsIgnoringCase ('<' :: '/' :: e.tag.toList))
        (content ++ (Token.closing e.tag ++ rest)) = _ := Token.cutBefore_closing htag hcontent
    rw [Scanner.rawText, hrest, hcut]
    rfl
  have hfound : scanner.verbatim o.xml (.startTag e.tag ⟨e.attributes.toList.map d.reread⟩ false) =
      (scanner.rawText e.tag decode).map some id := by
    rw [Scanner.verbatim, hmodel]
    cases decode <;> rfl
  rw [hfound, hraw]
  exact ⟨rfl, Scanner.upTo_rest (by rw [hrest]; exact List.suffix_append ..), rfl⟩

end

end Spine

end HtmlQuery
