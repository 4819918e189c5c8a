import HtmlQuery.Proofs.Tree.Content
import HtmlQuery.Proofs.Tree.Reading

/-!
# Attributes of written elements

An element that is written and read again has its attributes, in order and with their values, if the dialect writes
no value without quotes that is not read back (`head?_elements_write`). The minimal dialect writes such values: those
with a blank that is not ASCII, and those with a text in them that reads as a reference (`not_parse_write_minimal`).
-/

namespace HtmlQuery

namespace Dialect

theorem reread_of_ne {d : Dialect} (h : d ≠ xhtml) (a : Attribute) : d.reread a = a := by
  simp [reread, h]

end Dialect

namespace Tree

variable {t : Tree} {n : NodeId} {e : Element}

/-- An element is written as its start tag, which is closed in one of two ways, and what comes behind it. -/
theorem exists_write_element (hn : t.kind? n = some (.element e)) (o : WriteOptions) : ∃ rest : List Char,
    (t.write n o).toList = openTag o.dialect e ++ '>' :: rest ∨
      (t.write n o).toList = openTag o.dialect e ++ ' ' :: '/' :: '>' :: rest := by
  obtain ⟨children, hbranch⟩ : ∃ children, t.branch? n = some (.node (.element e) children) := by
    rw [branch?]
    cases t.size <;> exact ⟨_, by rw [branchTo, hn]; rfl⟩
  rw [write, hbranch]
  dsimp only
  rw [String.toList_ofList, Branch.write]
  split
  · split
    · exact ⟨[], .inr rfl⟩
    · exact ⟨[], .inl rfl⟩
  · split
    · exact ⟨[], .inr rfl⟩
    · exact ⟨_, .inl (by simp only [List.cons_append, List.append_assoc]; rfl)⟩

/-- The first start tag of a text, if it comes first in it, is that of the first element. -/
theorem head?_elements_parse {html tag : String} {attributes : Attributes} {selfClosing : Bool} {rest : List Char}
    {o : ParseOptions} (hall : o.strainer = none)
    (hscan : Token.scan o.folding html.toList = (some (.startTag tag attributes selfClosing), rest)) :
    ((parse html o).elements root).head? = some (.ofAttributes tag attributes) := by
  have hne : html.toList ≠ [] := by
    intro hnil
    rw [hnil, Token.scan] at hscan
    · exact Token.noConfusion (Option.some.inj (Prod.mk.inj hscan).1)
    · intro tail h
      cases h
  have hnext := Scanner.next_of_scan (s := .ofString html o.folding) hne hscan
  rw [elements_parse, ParseOptions.lexemes, Scanner.stream_of_some hnext, List.filterMap_cons]
  simp [Lexeme.start?, Lexeme.element?, Builder.keeps, hall]

/-- An element that is written and read again has the attributes that the dialect writes. -/
theorem head?_elements_write {o : WriteOptions} (hn : t.kind? n = some (.element e)) (htag : Token.ReadableTag e.tag)
    (hnames : ∀ a ∈ e.attributes.toList, Token.ReadableName a.name) (hnodup : e.attributes.names.Nodup)
    (hkept : ∀ a ∈ e.attributes.toList, o.dialect.Preserves a) :
    ((parse (t.write n o) .default).elements root).head? =
      some (.ofAttributes e.tag ⟨e.attributes.toList.map o.dialect.reread⟩) := by
  obtain ⟨rest, hwrite | hwrite⟩ := exists_write_element hn o
  · exact head?_elements_parse rfl (by rw [hwrite]; exact (Token.scan_openTag hkept htag hnames hnodup).1)
  · exact head?_elements_parse rfl (by rw [hwrite]; exact (Token.scan_openTag hkept htag hnames hnodup).2)

/-- Written with quotes left out and read again, an element has the same attributes, if every value that is written
without quotes has no blank in it and is decoded to itself. -/
theorem parse_write_minimal {closesEmpty : Option Bool} (hn : t.kind? n = some (.element e))
    (htag : Token.ReadableTag e.tag) (hnames : ∀ a ∈ e.attributes.toList, Token.ReadableName a.name)
    (hnodup : e.attributes.names.Nodup)
    (hkept : ∀ a ∈ e.attributes.toList, a.value ≠ "" → (∀ c ∈ a.value.toList, Dialect.needsQuotes c = false) →
      Token.ReadableBare a.value) :
    ((parse (t.write n ⟨.minimal, closesEmpty⟩) .default).elements root).head?.map (·.attributes) =
      some e.attributes := by
  have hpreserves : ∀ a ∈ e.attributes.toList, Dialect.minimal.Preserves a := fun a ha hbare =>
    hkept a ha (by simp_all [Dialect.unquotes]) (by simp_all [Dialect.unquotes])
  have hreread : e.attributes.toList.map Dialect.minimal.reread = e.attributes.toList := by
    rw [List.map_congr_left fun a _ => Dialect.reread_of_ne (by decide) a, List.map_id']
  rw [head?_elements_write hn htag hnames hnodup hpreserves, hreread]
  rfl

theorem parse_write_minimal_link :
    let e : Element := .ofAttributes "a" (.ofList [("href", "/?R&D"), ("title", "two words"), ("rel", "&lt;=")])
    let t := Tree.empty.alloc (.element e) none
    (t.kind? 1 = some (.element e) ∧ Token.ReadableTag e.tag ∧
      (∀ a ∈ e.attributes.toList, Token.ReadableName a.name) ∧ e.attributes.names.Nodup ∧
      ∀ a ∈ e.attributes.toList, a.value ≠ "" → (∀ c ∈ a.value.toList, Dialect.needsQuotes c = false) →
        Token.ReadableBare a.value) ∧
      ((parse (t.write 1 ⟨.minimal, none⟩) .default).elements root).head?.map (·.attributes) =
        some e.attributes := by
  intro e t
  have htag : Token.ReadableTag e.tag := by decide
  have hnames : ∀ a ∈ e.attributes.toList, Token.ReadableName a.name := by decide +kernel
  have hnodup : e.attributes.names.Nodup := by decide
  have hall : ∀ a ∈ e.attributes.toList, a.value.toList.all (!Dialect.needsQuotes ·) = true →
      Token.ReadableBare a.value := by decide +kernel
  have hkept : ∀ a ∈ e.attributes.toList, a.value ≠ "" →
      (∀ c ∈ a.value.toList, Dialect.needsQuotes c = false) → Token.ReadableBare a.value :=
    fun a ha _ hplain => hall a ha (List.all_eq_true.2 fun c hc => by rw [hplain c hc]; rfl)
  exact ⟨⟨rfl, htag, hnames, hnodup, hkept⟩, parse_write_minimal rfl htag hnames hnodup hkept⟩

/-- A blank that is not ASCII ends a value that is written without quotes, and what reads as a reference in it is
decoded. -/
theorem not_parse_write_minimal : ¬ ∀ (t : Tree) (n : NodeId) (e : Element), t.kind? n = some (.element e) →
    Token.ReadableTag e.tag → (∀ a ∈ e.attributes.toList, Token.ReadableName a.name) → e.attributes.names.Nodup →
      ((parse (t.write n ⟨.minimal, none⟩) .default).elements root).head?.map (·.attributes) =
        some e.attributes := by
  intro h
  have hlost := h (Tree.empty.alloc (.element
    (.ofAttributes "p" (.ofList [("title", "a\u00a0b"), ("rel", "&lt;")]))) none) 1 _ rfl (by decide)
    (by decide +kernel) (by decide)
  revert hlost
  decide +kernel

end Tree

end HtmlQuery
