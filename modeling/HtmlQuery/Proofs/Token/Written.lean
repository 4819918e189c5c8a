import HtmlQuery.Proofs.Reference.RoundTrip
import HtmlQuery.Token.Scan
import HtmlQuery.Tree.Dialect
import Mathlib.Data.List.DropRight

/-!
# Scanning what was written

Each construct that `Branch.write` writes is scanned as one token that ends where the construct ends, whatever
comes behind it: text in front of markup (`scan_text`), comments (`scan_comment`), document types (`scan_doctype`),
start tags (`scan_openTag`) and end tags (`scan_endTag`). The end of verbatim content is found in front of its
end tag (`cutBefore_closing`).
-/

namespace HtmlQuery

/-! ## Cuts -/

namespace Text

/-- A cut is where it is made if it could be made nowhere before. -/
theorem cutBefore_append {here : List Char → Bool} {before after : List Char} (hafter : here after = true)
    (hbefore : ∀ post, post <:+ before → post ≠ [] → here (post ++ after) = false) :
    cutBefore here (before ++ after) = some (before, after) := by
  induction before with
  | nil =>
    cases after with
    | nil => rw [List.append_nil, cutBefore, if_pos hafter]
    | cons c cs => rw [List.nil_append, cutBefore, if_pos hafter]
  | cons c cs ih =>
    have hc := hbefore (c :: cs) (List.suffix_refl _) (by simp)
    rw [List.cons_append] at hc
    rw [List.cons_append, cutBefore, hc,
      ih fun post hpost hne => hbefore post (hpost.trans (List.suffix_cons c cs)) hne]
    rfl

theorem startsIgnoringCase_eq (pre cs : List Char) :
    startsIgnoringCase pre cs = (pre.map Char.toLower).isPrefixOf (cs.map Char.toLower) := by
  induction pre generalizing cs with
  | nil => rw [startsIgnoringCase]; rfl
  | cons p pre ih =>
    cases cs with
    | nil => rfl
    | cons c cs => rw [startsIgnoringCase, ih]; rfl

theorem startsIgnoringCase_self (pre rest : List Char) :
    startsIgnoringCase pre (pre ++ rest) = true := by
  rw [startsIgnoringCase_eq, List.map_append, List.isPrefixOf_iff_prefix]
  exact List.prefix_append ..

end Text

namespace Token

/-- Nothing or markup comes next. -/
def AtMarkup (rest : List Char) : Prop := ∀ c ∈ rest.head?, c = '<'

theorem atMarkup_nil : AtMarkup [] := by simp [AtMarkup]

theorem atMarkup_cons (rest : List Char) : AtMarkup ('<' :: rest) := by simp [AtMarkup]

variable {fold : Folding} {rest : List Char}

/-! ## Text, comments and document types -/

theorem ne_of_not_mem {cs : List Char} {d : Char} (h : d ∉ cs) : ∀ c ∈ cs, decide (c ≠ d) = true :=
  fun c hc => by simpa using fun he : c = d => h (he ▸ hc)

theorem scan_text {data : String} (hdata : data ≠ "") (hrest : AtMarkup rest) :
    scan fold ((Reference.escapeText data).toList ++ rest) = (some (text data), rest) := by
  have hnot := Reference.not_mem_escapeText data
  obtain ⟨htake, hdrop⟩ := Text.span_append (p := (· ≠ '<')) (ne_of_not_mem hnot)
    fun c hc => by simpa using hrest c hc
  obtain ⟨c, cs, hcs⟩ := List.exists_cons_of_ne_nil (Reference.escapeText_ne_nil hdata)
  have hscan : scan fold ((Reference.escapeText data).toList ++ rest) =
      (scanText ((Reference.escapeText data).toList ++ rest)).map some id := by
    rw [hcs, List.cons_append, scan]
    intro tail heq
    exact hnot (by rw [hcs, (List.cons.inj heq).1]; exact List.mem_cons_self)
  rw [hscan, scanText, htake, hdrop, Reference.decode_escapeText, String.ofList_toList]
  rfl

/-- An end of a comment does not start in a text that has none in it. -/
theorem not_commentEnd {body post : List Char} (h : Text.contains ['-', '-', '>'] body = false)
    (hpost : post <:+ body) (hne : post ≠ []) :
    ['-', '-', '>'].isPrefixOf (post ++ ('-' :: '-' :: '>' :: rest)) = false := by
  match post, hne with
  | [a], _ => simp [List.isPrefixOf]
  | [a, b], _ => simp [List.isPrefixOf]
  | a :: b :: c :: post, _ =>
    refine Bool.eq_false_iff.2 fun hprefix => ?_
    have hprefix' : ['-', '-', '>'] <+: a :: b :: c :: post := by
      simpa [List.isPrefixOf, List.cons_prefix_cons] using hprefix
    have hcontains : Text.contains ['-', '-', '>'] body = true :=
      Text.contains_iff.2 (hprefix'.isInfix.trans hpost.isInfix)
    simp [h] at hcontains

theorem scan_comment {data : String} (h : Text.contains ['-', '-', '>'] data.toList = false) :
    scan fold ('<' :: '!' :: '-' :: '-' :: (data.toList ++ '-' :: '-' :: '>' :: rest)) =
      (some (comment data), rest) := by
  have hcut : Text.cutAt ['-', '-', '>'] (data.toList ++ '-' :: '-' :: '>' :: rest) =
      some (data.toList, rest) := by
    rw [Text.cutAt, Text.cutBefore_append (by simp [List.isPrefixOf])
      fun post hpost hne => not_commentEnd h hpost hne]
    rfl
  rw [scan, if_pos (by simp [List.isPrefixOf])]
  dsimp only [List.drop]
  rw [scanComment, hcut]
  dsimp only [Prod.map]
  rw [String.ofList_toList]
  rfl

theorem span_tagEnd {cs : List Char} (h : '>' ∉ cs) :
    (cs ++ '>' :: rest).takeWhile (· ≠ '>') = cs ∧ skipTagEnd (cs ++ '>' :: rest) = rest := by
  have hend : ∀ c ∈ ('>' :: rest).head?, decide (c ≠ '>') = false := by simp
  obtain ⟨htake, hdrop⟩ := Text.span_append (ne_of_not_mem h) hend
  rw [skipTagEnd, hdrop]
  exact ⟨htake, rfl⟩

theorem scan_doctype {data : List Char} (htrim : Text.trim data = data) (hend : '>' ∉ data) :
    scan fold ("<!DOCTYPE ".toList ++ data ++ '>' :: rest) =
      (some (doctype (String.ofList data)), rest) := by
  have hend' : '>' ∉ ' ' :: data := by simpa using hend
  obtain ⟨htake, hskip⟩ := @span_tagEnd rest _ hend'
  have hblank : Text.trim (' ' :: data) = data := by
    rw [Text.trim, List.dropWhile_cons_of_pos (by decide)]
    exact htrim
  have hscan : scan fold ("<!DOCTYPE ".toList ++ data ++ '>' :: rest) =
      (scanDoctype (' ' :: data ++ '>' :: rest)).map some id := rfl
  rw [hscan, scanDoctype, htake, hblank, hskip]
  rfl

/-! ## Tags -/

/-- The characters of tags that reading leaves as they are. -/
def isLowerTagChar (c : Char) : Bool :=
  ('a' ≤ c && c ≤ 'z') || Text.isAsciiDigit c || c = ':' || c = '-'

theorem isTagNameChar_of_lower {c : Char} (h : isLowerTagChar c = true) : isTagNameChar c = true := by
  simp only [isLowerTagChar, Bool.or_eq_true] at h
  simp only [isTagNameChar, Reference.isAsciiAlphanumeric, Text.isAsciiLetter, Bool.or_eq_true]
  rcases h with ((h | h) | h) | h
  · exact .inl (.inl (.inl (.inl h)))
  · exact .inl (.inl (.inr h))
  · exact .inl (.inr h)
  · exact .inr h

theorem toLower_of_lower {c : Char} (h : isLowerTagChar c = true) : c.toLower = c := by
  have hnot : ¬ (c.val ≥ 'A'.val ∧ c.val ≤ 'Z'.val) := by
    rintro ⟨h₁, h₂⟩
    simp only [isLowerTagChar, Text.isAsciiDigit, Bool.or_eq_true, Bool.and_eq_true, decide_eq_true_eq,
      Char.le_def, UInt32.le_iff_toNat_le, ge_iff_le] at h h₁ h₂
    have hA : 'A'.val.toNat = 65 := rfl
    have hZ : 'Z'.val.toNat = 90 := rfl
    have ha : 'a'.val.toNat = 97 := rfl
    have h9 : '9'.val.toNat = 57 := rfl
    rcases h with ((h | h) | rfl) | rfl
    · omega
    · omega
    · exact absurd h₁ (by decide)
    · exact absurd h₁ (by decide)
  exact dif_neg hnot

/-- Lower case brings in small letters only. -/
theorem toLower_ne {c d : Char} (hd : d.toNat < 97) (h : c ≠ d) : c.toLower ≠ d := by
  intro he
  by_cases hc : c.val ≥ 'A'.val ∧ c.val ≤ 'Z'.val
  · have hval : c.toLower.val = c.val + ('a'.val - 'A'.val) := congrArg Char.val (dif_pos hc)
    rw [he] at hval
    have hsum := congrArg UInt32.toNat hval
    rw [UInt32.toNat_add] at hsum
    have h₁ := UInt32.le_iff_toNat_le.1 hc.1
    have h₂ := UInt32.le_iff_toNat_le.1 hc.2
    have hA : 'A'.val.toNat = 65 := rfl
    have hZ : 'Z'.val.toNat = 90 := rfl
    have hshift : ('a'.val - 'A'.val).toNat = 32 := rfl
    have hdval : d.val.toNat = d.toNat := rfl
    omega
  · have hsame : c.toLower = c := dif_neg hc
    exact h (hsame.symm.trans he)

/-- A tag that is read as one tag. -/
def SpelledTag (tag : String) : Prop := tag ≠ "" ∧ ∀ c ∈ tag.toList, isTagNameChar c = true

/-- An attribute name that is read as one name. -/
def SpelledName (name : String) : Prop := name ≠ "" ∧ ∀ c ∈ name.toList, endsAttributeName c = false

/-- A tag that is read back as it was written. -/
def ReadableTag (tag : String) : Prop := tag ≠ "" ∧ ∀ c ∈ tag.toList, isLowerTagChar c = true

instance (tag : String) : Decidable (ReadableTag tag) :=
  decidable_of_iff (tag ≠ "" ∧ tag.toList.all isLowerTagChar = true) (by rw [ReadableTag, List.all_eq_true])

/-- An attribute name that is read back as it was written. -/
def ReadableName (name : String) : Prop :=
  name ≠ "" ∧ (∀ c ∈ name.toList, endsAttributeName c = false) ∧ Text.lowercase name = name

instance (name : String) : Decidable (ReadableName name) := decidable_of_iff
  (name ≠ "" ∧ name.toList.all (!endsAttributeName ·) = true ∧ Text.lowercase name = name)
  (by simp [ReadableName])

/-- A value that is read back as it was written without quotes: no blank ends it, and no reference in it is
replaced. -/
def ReadableBare (value : String) : Prop :=
  (∀ c ∈ value.toList, Text.isWhitespace c = false) ∧ Reference.decode value.toList = value.toList

instance (value : String) : Decidable (ReadableBare value) := decidable_of_iff
  (value.toList.all (!Text.isWhitespace ·) = true ∧ Reference.decode value.toList = value.toList)
  (by simp [ReadableBare])

theorem ReadableTag.spelled {tag : String} (h : ReadableTag tag) : SpelledTag tag :=
  ⟨h.1, fun c hc => isTagNameChar_of_lower (h.2 c hc)⟩

theorem ReadableName.spelled {name : String} (h : ReadableName name) : SpelledName name := ⟨h.1, h.2.1⟩

theorem SpelledName.exists_head {name : String} (h : SpelledName name) :
    ∃ c cs, name.toList = c :: cs ∧ Text.isWhitespace c = false ∧ c ≠ '=' := by
  obtain ⟨hne, hname⟩ := h
  obtain ⟨c, cs, hcs⟩ := List.exists_cons_of_ne_nil fun hnil => hne (String.toList_eq_nil_iff.1 hnil)
  have hc := hname c (by rw [hcs]; exact List.mem_cons_self)
  simp only [endsAttributeName, Bool.or_eq_false_iff, decide_eq_false_iff_not] at hc
  exact ⟨c, cs, hcs, hc.1.1.1, hc.1.1.2⟩

theorem takeWhile_tag {tag : String} (h : SpelledTag tag) : tag.toList.takeWhile isTagNameChar = tag.toList :=
  List.takeWhile_eq_self_iff.2 h.2

theorem tagName_append (fold : Folding) {tag : String} (h : SpelledTag tag)
    (hrest : ∀ c ∈ rest.head?, isTagNameChar c = false) :
    tagName fold (tag.toList ++ rest) = tagName fold tag.toList ∧ afterTagName (tag.toList ++ rest) = rest := by
  obtain ⟨htake, hdrop⟩ := Text.span_append h.2 hrest
  rw [tagName, tagName, afterTagName, htake, hdrop, takeWhile_tag h]
  exact ⟨rfl, rfl⟩

theorem tagName_ne_empty {tag : String} (h : SpelledTag tag) : (tagName fold tag.toList).isEmpty = false := by
  rw [tagName, takeWhile_tag h, String.ofList_toList]
  split
  · simpa [Text.lowerAscii] using h.1
  · simpa using h.1

theorem ReadableTag.tagName_eq {tag : String} (h : ReadableTag tag) (fold : Folding) :
    tagName fold tag.toList = tag := by
  have hlower : Text.lowerAscii tag = tag := by
    rw [Text.lowerAscii, List.map_congr_left fun c hc => toLower_of_lower (h.2 c hc), List.map_id',
      String.ofList_toList]
  rw [tagName, takeWhile_tag h.spelled, String.ofList_toList, hlower, ite_self]

/-- Behind a `<` that begins no end tag, declaration or instruction comes the name of a start tag. -/
theorem scan_name {c : Char} {cs : List Char} (hbang : c ≠ '!') (hslash : c ≠ '/') (hquestion : c ≠ '?') :
    scan fold ('<' :: c :: cs) = (scanStartTag fold (c :: cs)).map some id := by
  have hlower : c.toLower ≠ '!' := toLower_ne (by decide) hbang
  have hdoctype : Text.startsIgnoringCase "!doctype".toList (c :: cs) = false := by
    rw [show "!doctype".toList = '!' :: "doctype".toList from rfl, Text.startsIgnoringCase, Bool.and_eq_false_iff]
    exact .inl (by simpa using Ne.symm hlower)
  rw [scan, if_neg (by simp [List.isPrefixOf, Ne.symm hbang]), if_neg (by rw [hdoctype]; decide)]
  all_goals simp [hbang, hslash, hquestion]

theorem scan_tag {c : Char} {cs : List Char} (h : isTagNameChar c = true) :
    scan fold ('<' :: c :: cs) = (scanStartTag fold (c :: cs)).map some id := by
  have hbang : c ≠ '!' := by rintro rfl; revert h; decide
  have hslash : c ≠ '/' := by rintro rfl; revert h; decide
  have hquestion : c ≠ '?' := by rintro rfl; revert h; decide
  exact scan_name hbang hslash hquestion

/-- The end tag of an element, up to its name. -/
def closing (tag : String) : List Char := '<' :: '/' :: tag.toList

theorem scan_closing {tag : String} (h : SpelledTag tag) :
    scan fold (closing tag ++ '>' :: rest) = (some (endTag (tagName fold tag.toList)), rest) := by
  have hend : ∀ c ∈ ('>' :: rest).head?, isTagNameChar c = false := fun c hc => by
    obtain rfl : '>' = c := by simpa using hc
    decide
  obtain ⟨hname, hafter⟩ := tagName_append fold h hend
  have hscan : scan fold (closing tag ++ '>' :: rest) =
      (scanEndTag fold (tag.toList ++ '>' :: rest)).map some id := rfl
  rw [hscan, scanEndTag, hname, hafter]
  rfl

theorem scan_endTag {tag : String} (h : ReadableTag tag) :
    scan fold (closing tag ++ '>' :: rest) = (some (endTag tag), rest) := by
  rw [scan_closing h.spelled, h.tagName_eq]

/-! ## Attributes -/

/-- What may come behind an attribute: something that ends a value, and no equals sign. -/
structure Ends (rest : List Char) : Prop where
  head : ∃ c cs, rest = c :: cs ∧ endsBareValue c = true
  no_equals : (skipBlanks rest).head? ≠ some '='

theorem endsAttributeName_of_bare {c : Char} (h : endsBareValue c = true) : endsAttributeName c = true := by
  simp only [endsBareValue, endsAttributeName, Bool.or_eq_true] at h ⊢
  exact h.imp (fun h => .inl (.inl h)) id

theorem skipBlanks_of_head {c : Char} {cs : List Char} (h : Text.isWhitespace c = false) :
    skipBlanks (c :: cs) = c :: cs := List.dropWhile_cons_of_neg (by simp [h])

theorem scanAttributes_of_some {as : Attributes} {cs : List Char} {a : Attribute}
    (h : scanAttribute fold cs = some (a, rest)) :
    scanAttributes fold as cs = scanAttributes fold (as.set a.name a.value) rest := by
  rw [scanAttributes]
  split <;> simp_all

theorem scanAttributes_of_none {as : Attributes} {cs : List Char}
    (h : scanAttribute fold cs = none) : scanAttributes fold as cs = (as, skipBlanks cs) := by
  rw [scanAttributes]
  split <;> simp_all

theorem scanAttributes_congr {as : Attributes} {cs ds : List Char} (h : skipBlanks cs = skipBlanks ds) :
    scanAttributes fold as cs = scanAttributes fold as ds := by
  have hattr : scanAttribute fold cs = scanAttribute fold ds := by
    rw [scanAttribute, scanAttribute, h]
  cases hcs : scanAttribute fold cs with
  | none => rw [scanAttributes_of_none hcs, scanAttributes_of_none (hattr ▸ hcs), h]
  | some found =>
    obtain ⟨a, rest⟩ := found
    rw [scanAttributes_of_some hcs, scanAttributes_of_some (hattr.symm.trans hcs)]

end Token

/-- An attribute as it is read back from a dialect: an empty value that is written as the name is the name. -/
def Dialect.reread (d : Dialect) (a : Attribute) : Attribute :=
  ⟨a.name, if a.value.isEmpty && (d = xhtml && booleanAttributes.contains a.name) then a.name
    else a.value⟩

/-- An attribute as it is read back from a dialect with its name folded. -/
def Dialect.rereadFolded (d : Dialect) (fold : Folding) (a : Attribute) : Attribute :=
  ⟨Token.attributeName fold a.name.toList, (d.reread a).value⟩

theorem Dialect.rereadFolded_eq (d : Dialect) (fold : Folding) {a : Attribute} (ha : Token.ReadableName a.name) :
    d.rereadFolded fold a = d.reread a := by
  rw [rereadFolded, Token.attributeName, String.ofList_toList, ha.2.2, ite_self]
  rfl

/-- Whether a dialect writes a value without quotes. -/
def Dialect.unquotes (d : Dialect) (a : Attribute) : Bool :=
  !a.value.isEmpty && d = minimal && !a.value.toList.any needsQuotes

/-- A dialect writes a value without quotes only if it is read back. -/
def Dialect.Preserves (d : Dialect) (a : Attribute) : Prop := d.unquotes a = true → Token.ReadableBare a.value

instance (d : Dialect) (a : Attribute) : Decidable (d.Preserves a) :=
  inferInstanceAs (Decidable (d.unquotes a = true → Token.ReadableBare a.value))

theorem Dialect.preserves_of_ne {d : Dialect} (h : d ≠ minimal) (a : Attribute) : d.Preserves a := by
  simp [Preserves, unquotes, h]

namespace Token

variable {d : Dialect} {a : Attribute}

/-- What is written as a value is read as `value`, whatever ends it. -/
def ReadsValue (cs : List Char) (value : String) : Prop :=
  ∀ rest : List Char, (∀ c ∈ rest.head?, endsBareValue c = true) →
    ∃ raw, scanValue (skipBlanks (cs ++ rest)) = (raw, rest) ∧ String.ofList (Reference.decode raw) = value

theorem readsValue_quoted {raw : List Char} (h : '"' ∉ raw) :
    ReadsValue ('"' :: raw ++ ['"']) (String.ofList (Reference.decode raw)) := by
  refine fun rest _ => ⟨raw, ?_, rfl⟩
  have hend : ∀ c ∈ ('"' :: rest).head?, decide (c ≠ '"') = false := by simp
  obtain ⟨htake, hdrop⟩ := Text.span_append (ne_of_not_mem h) hend
  rw [List.append_assoc, List.singleton_append, List.cons_append, skipBlanks_of_head (by decide), scanValue, htake,
    hdrop]
  rfl

theorem scanValue_of_head {c : Char} {cs : List Char} (h : c ≠ '"' ∧ c ≠ '\'') :
    scanValue (c :: cs) =
      ((c :: cs).takeWhile (!endsBareValue ·), (c :: cs).dropWhile (!endsBareValue ·)) := by
  rw [scanValue]
  · rintro ds heq
    exact h.1 (List.cons.inj heq).1
  · rintro ds heq
    exact h.2 (List.cons.inj heq).1

/-- A value without quotes is read back if and only if no blank ends it and nothing in it is decoded. -/
theorem readsValue_bare_iff {value : String} (hne : value ≠ "")
    (hplain : ∀ c ∈ value.toList, Dialect.needsQuotes c = false) :
    ReadsValue value.toList value ↔ ReadableBare value := by
  have hmark : ∀ c ∈ value.toList, (c ≠ '"' ∧ c ≠ '\'') ∧ c ≠ '>' := fun c hc => by
    have hc := hplain c hc
    simp_all [Dialect.needsQuotes]
  obtain ⟨v, vs, hvs⟩ := List.exists_cons_of_ne_nil fun hnil => hne (String.toList_eq_nil_iff.1 hnil)
  have hv : v ∈ value.toList := by rw [hvs]; exact List.mem_cons_self
  constructor
  · intro hreads
    obtain ⟨raw, hscan, hdecode⟩ := hreads ['>'] (by simp; decide)
    obtain ⟨c, cs, hfront⟩ : ∃ c cs, skipBlanks (value.toList ++ ['>']) = c :: cs :=
      List.exists_cons_of_ne_nil fun hnil => by
        have hall := List.dropWhile_eq_nil_iff.1 hnil '>' (by simp)
        revert hall
        decide
    have hsuffix : c :: cs <:+ value.toList ++ ['>'] := hfront ▸ List.dropWhile_suffix _
    have hhead : c ≠ '"' ∧ c ≠ '\'' := by
      rcases List.mem_append.1 (hsuffix.subset List.mem_cons_self) with hc | hc
      · exact (hmark c hc).1
      · rw [List.mem_singleton.1 hc]
        decide
    rw [hfront, scanValue_of_head hhead, Prod.mk.injEq] at hscan
    obtain ⟨htake, hdrop⟩ := hscan
    -- decoding makes nothing longer, so the value is read from all of what was written
    have hparts := List.takeWhile_append_dropWhile (p := (!endsBareValue ·)) (l := c :: cs)
    rw [htake, hdrop] at hparts
    rw [← hparts, List.suffix_append_self_iff] at hsuffix
    have hlength : value.toList.length ≤ raw.length := by
      rw [← hdecode, String.toList_ofList]
      exact Reference.length_decode_le raw
    obtain rfl := hsuffix.eq_of_length_le hlength
    refine ⟨fun c hc => ?_, by rw [← String.toList_ofList (l := Reference.decode _), hdecode]⟩
    have hinside := Text.of_mem_takeWhile (htake ▸ hc)
    simp_all [endsBareValue]
  · intro h rest hrest
    have hinside : ∀ c ∈ value.toList, (!endsBareValue c) = true := fun c hc => by
      simp [endsBareValue, h.1 c hc, (hmark c hc).2]
    obtain ⟨htake, hdrop⟩ := Text.span_append hinside fun c hc => by rw [hrest c hc]; rfl
    refine ⟨value.toList, ?_, by rw [h.2, String.ofList_toList]⟩
    rw [hvs] at htake hdrop ⊢
    rw [List.cons_append, skipBlanks_of_head (h.1 v hv), scanValue_of_head (hmark v hv).1, ← List.cons_append, htake,
      hdrop]

/-- A value is left out, or what stands behind the equals sign is read back. -/
theorem writeValue_cases (h : d.Preserves a) :
    (d.writeValue a = [] ∧ (d.reread a).value = "") ∨
    ∃ cs, d.writeValue a = '=' :: cs ∧ ReadsValue cs (d.reread a).value := by
  have hboolean : ∀ name ∈ Dialect.booleanAttributes, '"' ∉ name.toList ∧ '&' ∉ name.toList := by
    decide
  rw [Dialect.Preserves, Dialect.unquotes] at h
  unfold Dialect.writeValue Dialect.reread
  by_cases hempty : a.value.isEmpty = true
  · rw [if_pos hempty, hempty, Bool.true_and]
    by_cases hname : (decide (d = .xhtml) && Dialect.booleanAttributes.contains a.name) = true
    · obtain ⟨hquote, hamp⟩ := hboolean a.name (List.contains_iff_mem.1 (Bool.and_eq_true_iff.1 hname).2)
      have hread := readsValue_quoted hquote
      rw [Reference.decode_of_not_mem hamp, String.ofList_toList] at hread
      rw [if_pos hname, if_pos hname]
      exact .inr ⟨_, rfl, hread⟩
    · rw [if_neg hname, if_neg hname]
      exact .inl ⟨rfl, String.isEmpty_iff.1 hempty⟩
  · rw [Bool.eq_false_iff.2 hempty] at h
    rw [if_neg hempty, Bool.eq_false_iff.2 hempty, Bool.false_and, if_neg Bool.false_ne_true]
    by_cases hbare : (decide (d = .minimal) && !a.value.toList.any Dialect.needsQuotes) = true
    · rw [if_pos hbare]
      exact .inr ⟨_, rfl, (readsValue_bare_iff (fun hnil => hempty (String.isEmpty_iff.2 hnil))
        (by simpa using (Bool.and_eq_true_iff.1 hbare).2)).2 (h (by simpa using hbare))⟩
    · have hread := readsValue_quoted (Reference.not_mem_escapeValue a.value)
      rw [Reference.decode_escapeValue, String.ofList_toList] at hread
      rw [if_neg hbare]
      exact .inr ⟨_, rfl, hread⟩

/-- A written attribute is read back, up to the blanks behind it. -/
theorem scanAttribute_written (fold : Folding) (hkept : d.Preserves a) (ha : SpelledName a.name)
    (hrest : Ends rest) : ∃ rest', scanAttribute fold (d.writeAttribute a ++ rest) =
      some (d.rereadFolded fold a, rest') ∧ skipBlanks rest' = skipBlanks rest := by
  obtain ⟨c, cs, hcs, hblank, -⟩ := ha.exists_head
  obtain ⟨-, hname⟩ := ha
  have hfront : skipBlanks (d.writeAttribute a ++ rest) = a.name.toList ++ (d.writeValue a ++ rest) := by
    rw [Dialect.writeAttribute, hcs, skipBlanks, List.cons_append, List.cons_append,
      List.dropWhile_cons_of_pos (by decide), List.append_assoc]
    exact skipBlanks_of_head hblank
  have hends : ∀ c ∈ (d.writeValue a ++ rest).head?, (!endsAttributeName c) = false := by
    obtain ⟨e, es, rfl, he⟩ := hrest.head
    rcases writeValue_cases hkept with ⟨hvalue, -⟩ | ⟨w, hvalue, -⟩ <;> rw [hvalue]
    · simpa using endsAttributeName_of_bare he
    · simp
      decide
  obtain ⟨htake, hdrop⟩ := Text.span_append (fun c hc => by rw [hname c hc]; rfl) hends
  rw [scanAttribute, hfront, htake, hdrop]
  rw [if_neg (by simp [hcs])]
  rcases writeValue_cases hkept with ⟨hvalue, hread⟩ | ⟨w, hvalue, hreads⟩ <;> rw [hvalue]
  · refine ⟨skipBlanks rest, ?_, List.dropWhile_idempotent ..⟩
    rw [List.nil_append]
    split
    · rename_i tail htail
      exact absurd (by rw [htail]; rfl) hrest.no_equals
    · rw [Dialect.rereadFolded, hread]
  · refine ⟨rest, ?_, rfl⟩
    obtain ⟨e, es, hhead, he⟩ := hrest.head
    obtain ⟨raw, hscan, hread⟩ := hreads rest (by simpa [hhead] using he)
    rw [List.cons_append, skipBlanks_of_head (by decide)]
    change some (Attribute.mk (attributeName fold a.name.toList)
      (String.ofList (Reference.decode (scanValue (skipBlanks _)).1)), (scanValue (skipBlanks _)).2) = _
    rw [hscan, hread]
    rfl

theorem ends_written (hrest : Ends rest) {as : List Attribute} (has : ∀ a ∈ as, SpelledName a.name) :
    Ends (as.flatMap d.writeAttribute ++ rest) := by
  cases as with
  | nil => exact hrest
  | cons a as =>
    obtain ⟨c, cs, hcs, hblank, hequals⟩ := (has a List.mem_cons_self).exists_head
    rw [List.flatMap_cons, Dialect.writeAttribute, hcs]
    refine ⟨⟨_, _, rfl, by decide⟩, ?_⟩
    simp only [List.cons_append, skipBlanks]
    rw [List.dropWhile_cons_of_pos (by decide)]
    change (skipBlanks (c :: _)).head? ≠ _
    rw [skipBlanks_of_head hblank]
    simpa using hequals

theorem scanAttributes_written (fold : Folding) {as : List Attribute} (hkept : ∀ a ∈ as, d.Preserves a)
    (hrest : Ends rest) (hstop : scanAttribute fold rest = none)
    (has : ∀ a ∈ as, SpelledName a.name) (before : Attributes) :
    scanAttributes fold before (as.flatMap d.writeAttribute ++ rest) =
      ((as.map (d.rereadFolded fold)).foldl (fun as a => as.set a.name a.value) before, skipBlanks rest) := by
  induction as generalizing before with
  | nil => exact scanAttributes_of_none hstop
  | cons a as ih =>
    obtain ⟨ha, has'⟩ := List.forall_mem_cons.1 has
    obtain ⟨hkeep, hkept'⟩ := List.forall_mem_cons.1 hkept
    obtain ⟨rest', hscan, hblanks⟩ := scanAttribute_written fold hkeep ha (ends_written (d := d) hrest has')
    rw [List.flatMap_cons, List.append_assoc, scanAttributes_of_some hscan,
      scanAttributes_congr hblanks, ih hkept' has', List.map_cons, List.foldl_cons]

end Token

namespace Attributes

theorem setIn_of_not_mem {name : String} (value : String) {as : List Attribute}
    (h : name ∉ as.map (·.name)) : setIn name value as = as ++ [⟨name, value⟩] := by
  induction as with
  | nil => rfl
  | cons a as ih =>
    rw [List.map_cons, List.mem_cons, not_or] at h
    rw [setIn, if_neg (by simpa using Ne.symm h.1), ih h.2, List.cons_append]

/-- Attributes with different names are what setting them one after the other makes. -/
theorem foldl_set {before after : List Attribute} (h : ((before ++ after).map (·.name)).Nodup) :
    after.foldl (fun as a => as.set a.name a.value) (Attributes.mk before) =
      Attributes.mk (before ++ after) := by
  induction after generalizing before with
  | nil => rw [List.foldl_nil, List.append_nil]
  | cons a after ih =>
    have hnew : a.name ∉ before.map (·.name) := fun hmem => by
      rw [List.map_append, List.map_cons, List.nodup_append] at h
      exact h.2.2 _ hmem _ List.mem_cons_self rfl
    rw [List.append_cons] at h ⊢
    rw [List.foldl_cons, set, setIn_of_not_mem _ hnew, ih h]

end Attributes

namespace Token

variable {d : Dialect} {e : Element}

/-- The attributes of an element as they are read back from a dialect with their names folded. -/
def rereadAttributes (d : Dialect) (fold : Folding) (e : Element) : Attributes :=
  (e.attributes.toList.map (d.rereadFolded fold)).foldl (fun as a => as.set a.name a.value) ∅

theorem rereadAttributes_eq (d : Dialect) (fold : Folding)
    (hnames : ∀ a ∈ e.attributes.toList, ReadableName a.name) (hnodup : e.attributes.names.Nodup) :
    rereadAttributes d fold e = ⟨e.attributes.toList.map d.reread⟩ := by
  have hmap : e.attributes.toList.map (d.rereadFolded fold) = e.attributes.toList.map d.reread :=
    List.map_congr_left fun a ha => d.rereadFolded_eq fold (hnames a ha)
  have hset := @Attributes.foldl_set [] (e.attributes.toList.map d.reread)
    (by rw [List.nil_append, List.map_map]; exact hnodup)
  rw [rereadAttributes, hmap]
  exact hset

theorem scanStartTag_written (fold : Folding) (hkept : ∀ a ∈ e.attributes.toList, d.Preserves a)
    (htag : SpelledTag e.tag) (hnames : ∀ a ∈ e.attributes.toList, SpelledName a.name)
    (hrest : Ends rest) (hhead : ∀ c ∈ rest.head?, isTagNameChar c = false)
    (hstop : scanAttribute fold rest = none) :
    scanStartTag fold (e.tag.toList ++ e.attributes.toList.flatMap d.writeAttribute ++ rest) =
      match skipBlanks rest with
      | '/' :: rest => (startTag (tagName fold e.tag.toList) (rereadAttributes d fold e) true, skipTagEnd rest)
      | rest => (startTag (tagName fold e.tag.toList) (rereadAttributes d fold e) false, skipTagEnd rest) := by
  have hend : ∀ c ∈ (e.attributes.toList.flatMap d.writeAttribute ++ rest).head?,
      isTagNameChar c = false := by
    cases e.attributes.toList with
    | nil => exact hhead
    | cons a as =>
      intro c hc
      obtain rfl : ' ' = c := by simpa [Dialect.writeAttribute] using hc
      decide
  obtain ⟨hname, hafter⟩ := tagName_append fold htag hend
  have hread : scanAttributes fold ∅ (e.attributes.toList.flatMap d.writeAttribute ++ rest) =
      (rereadAttributes d fold e, skipBlanks rest) := scanAttributes_written fold hkept hrest hstop hnames ∅
  have hne : (tagName fold e.tag.toList).isEmpty = false := tagName_ne_empty htag
  rw [scanStartTag, List.append_assoc, hname, hafter, hread, if_neg (by rw [hne]; exact Bool.false_ne_true)]
  cases skipBlanks rest with
  | nil => rfl
  | cons c cs =>
    by_cases hc : c = '/'
    · subst hc
      rfl
    · split <;> split <;> grind

theorem scan_openTag_folded (hkept : ∀ a ∈ e.attributes.toList, d.Preserves a) (htag : SpelledTag e.tag)
    (hnames : ∀ a ∈ e.attributes.toList, SpelledName a.name) :
    scan fold (openTag d e ++ '>' :: rest) =
      (some (startTag (tagName fold e.tag.toList) (rereadAttributes d fold e) false), rest) ∧
    scan fold (openTag d e ++ ' ' :: '/' :: '>' :: rest) =
      (some (startTag (tagName fold e.tag.toList) (rereadAttributes d fold e) true), rest) := by
  obtain ⟨c, cs, hcs⟩ := List.exists_cons_of_ne_nil fun hnil => htag.1 (String.toList_eq_nil_iff.1 hnil)
  have hscan : ∀ rest, scan fold (openTag d e ++ rest) = (scanStartTag fold
      (e.tag.toList ++ e.attributes.toList.flatMap d.writeAttribute ++ rest)).map some id := by
    intro rest
    rw [openTag, hcs]
    exact scan_tag (htag.2 c (by rw [hcs]; exact List.mem_cons_self))
  have hblank : skipBlanks (' ' :: '/' :: '>' :: rest) = '/' :: '>' :: rest := by
    rw [skipBlanks, List.dropWhile_cons_of_pos (by decide)]
    exact skipBlanks_of_head (by decide)
  have hclose : skipBlanks ('>' :: rest) = '>' :: rest := skipBlanks_of_head (by decide)
  rw [hscan, hscan]
  constructor
  · rw [scanStartTag_written fold hkept htag hnames ⟨⟨_, _, rfl, by decide⟩, by simp [hclose]⟩
      (by simp; decide) (by rw [scanAttribute, hclose]; rfl), hclose]
    rfl
  · rw [scanStartTag_written fold hkept htag hnames ⟨⟨_, _, rfl, by decide⟩, by simp [hblank]⟩
      (by simp; decide) (by rw [scanAttribute, hblank]; rfl), hblank]
    rfl

theorem scan_openTag (hkept : ∀ a ∈ e.attributes.toList, d.Preserves a) (htag : ReadableTag e.tag)
    (hnames : ∀ a ∈ e.attributes.toList, ReadableName a.name) (hnodup : e.attributes.names.Nodup) :
    scan fold (openTag d e ++ '>' :: rest) =
      (some (startTag e.tag ⟨e.attributes.toList.map d.reread⟩ false), rest) ∧
    scan fold (openTag d e ++ ' ' :: '/' :: '>' :: rest) =
      (some (startTag e.tag ⟨e.attributes.toList.map d.reread⟩ true), rest) := by
  have hscan := @scan_openTag_folded d e fold rest hkept htag.spelled fun a ha => (hnames a ha).spelled
  rwa [htag.tagName_eq, rereadAttributes_eq d fold hnames hnodup] at hscan

/-! ## Verbatim content -/

/-- An end tag does not start in a text that has none in it and go on in the end tag behind it. -/
theorem not_closing {tag : String} (htag : ReadableTag tag) {post : List Char} (hne : post ≠ [])
    (h : Text.startsIgnoringCase (closing tag) post = false) :
    Text.startsIgnoringCase (closing tag) (post ++ (closing tag ++ rest)) = false := by
  rw [Text.startsIgnoringCase_eq, Bool.eq_false_iff, ne_eq, List.isPrefixOf_iff_prefix] at h ⊢
  rw [List.map_append]
  intro hprefix
  rcases List.prefix_or_prefix_of_prefix hprefix (List.prefix_append ..) with hin | ⟨cs, hcs⟩
  · exact h hin
  · -- what is left of the end tag starts with `<` again, which its name does not have
    obtain ⟨p, ps, hp⟩ := List.exists_cons_of_ne_nil (by simpa using hne : post.map Char.toLower ≠ [])
    rw [← hcs, List.prefix_append_right_inj] at hprefix
    cases cs with
    | nil =>
      rw [List.append_nil] at hcs
      exact h (hcs ▸ List.prefix_refl _)
    | cons c cs =>
      have hc : c = '<' := by
        have := (List.cons_prefix_cons.1 (show c :: cs <+: '<' :: _ from hprefix)).1
        exact this
      rw [hp, closing, List.map_cons, List.cons_append, List.cons.injEq, List.map_cons] at hcs
      have hmem : '<' ∈ Char.toLower '/' :: tag.toList.map Char.toLower := by
        rw [← hcs.2, hc]
        simp
      rw [List.map_congr_left fun c hc => toLower_of_lower (htag.2 c hc), List.map_id',
        List.mem_cons] at hmem
      rcases hmem with hmem | hmem
      · revert hmem
        decide
      · have := htag.2 _ hmem
        revert this
        decide

theorem cutBefore_closing {tag : String} (htag : ReadableTag tag) {content : List Char}
    (h : ∀ post, post <:+ content → Text.startsIgnoringCase (closing tag) post = false) :
    Text.cutBefore (Text.startsIgnoringCase (closing tag)) (content ++ (closing tag ++ rest)) =
      some (content, closing tag ++ rest) :=
  Text.cutBefore_append (Text.startsIgnoringCase_self ..) fun post hpost hne =>
    not_closing htag hne (h post hpost)

theorem no_closing_of_not_mem {tag : String} {content : List Char} (h : '<' ∉ content) :
    ∀ post, post <:+ content → Text.startsIgnoringCase (closing tag) post = false := by
  intro post hpost
  cases post with
  | nil => rfl
  | cons c cs =>
    have hc : c ≠ '<' := fun he => h (he ▸ hpost.subset List.mem_cons_self)
    rw [closing, Text.startsIgnoringCase, Bool.and_eq_false_iff]
    exact .inl (beq_eq_false_iff_ne.2 (Ne.symm (toLower_ne (by decide) hc)))

end Token

end HtmlQuery
