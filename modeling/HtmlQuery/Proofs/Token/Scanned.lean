import HtmlQuery.Proofs.Text.Lowercase
import HtmlQuery.Proofs.Token.Stream
import HtmlQuery.Proofs.Token.Written

/-!
# What scanning gives

Whatever the text is, its tokens say only what markup can say. Names in lower case are read back as they are, no
comment holds its end, and document types are trimmed (`readable_scan`). Verbatim content comes behind the start tags
that ask for it and behind no others, and does not hold the end tag of its element (`Scanner.faithful_stream`).
-/

namespace HtmlQuery

/-! ## First cuts -/

namespace Text

variable {here : List Char → Bool} {cs before after post : List Char}

/-- Where no cut is made, none could be made. -/
theorem cutBefore_none (h : cutBefore here cs = none) (hpost : post <:+ cs) : here post = false := by
  induction cs with
  | nil =>
    rw [List.suffix_nil.1 hpost, Bool.eq_false_iff]
    intro hnil
    rw [cutBefore, if_pos hnil] at h
    exact Option.some_ne_none _ h
  | cons c cs ih =>
    rw [cutBefore] at h
    split at h
    · exact absurd h (Option.some_ne_none _)
    · rename_i hc
      rcases List.suffix_cons_iff.1 hpost with rfl | hpost
      · exact Bool.eq_false_iff.2 hc
      · exact ih (Option.map_eq_none_iff.1 h) hpost

/-- No cut could be made before the one that is made. -/
theorem cutBefore_first (h : cutBefore here cs = some (before, after)) (hpost : post <:+ before)
    (hne : post ≠ []) : here (post ++ after) = false := by
  induction cs generalizing before with
  | nil =>
    rw [cutBefore] at h
    split at h
    · obtain ⟨rfl, -⟩ := Prod.mk.inj (Option.some.inj h)
      exact absurd (List.suffix_nil.1 hpost) hne
    · exact absurd h.symm (Option.some_ne_none _)
  | cons c cs ih =>
    rw [cutBefore] at h
    split at h
    · obtain ⟨rfl, -⟩ := Prod.mk.inj (Option.some.inj h)
      exact absurd (List.suffix_nil.1 hpost) hne
    · rename_i hc
      obtain ⟨⟨b, a⟩, hcut, heq⟩ := Option.map_eq_some_iff.1 h
      obtain ⟨rfl, rfl⟩ := Prod.mk.inj heq
      rcases List.suffix_cons_iff.1 hpost with rfl | hpost
      · rw [List.cons_append, ← (cutBefore_eq_some hcut).1]
        exact Bool.eq_false_iff.2 hc
      · exact ih hcut hpost

/-- What starts a text starts it whatever comes behind it. -/
theorem startsIgnoringCase_append {pre : List Char} (rest : List Char)
    (h : startsIgnoringCase pre cs = true) : startsIgnoringCase pre (cs ++ rest) = true := by
  rw [startsIgnoringCase_eq, List.isPrefixOf_iff_prefix] at h ⊢
  rw [List.map_append]
  exact h.trans (List.prefix_append ..)

end Text

namespace Token

/-! ## Names -/

theorem isTagNameChar_ascii {c : Char} (h : isTagNameChar c = true) : c.toNat < 0x80 := by
  simp only [isTagNameChar, Reference.isAsciiAlphanumeric, Text.isAsciiLetter, Text.isAsciiDigit,
    Bool.or_eq_true, Bool.and_eq_true, decide_eq_true_eq, Char.le_def, UInt32.le_iff_toNat_le] at h
  have hz : 'z'.val.toNat = 122 := rfl
  have hZ : 'Z'.val.toNat = 90 := rfl
  have h9 : '9'.val.toNat = 57 := rfl
  have hval : c.val.toNat = c.toNat := rfl
  rcases h with (((h | h) | h) | rfl) | rfl
  · omega
  · omega
  · omega
  · decide
  · decide

theorem isLowerTagChar_toLower {c : Char} (h : isTagNameChar c = true) : isLowerTagChar c.toLower = true :=
  Text.forall_ascii (p := fun c => isTagNameChar c = true → isLowerTagChar c.toLower = true)
    (by decide +kernel) (isTagNameChar_ascii h) h

theorem readableTag_tagName {cs : List Char} (hne : tagName .all cs ≠ "") : ReadableTag (tagName .all cs) := by
  refine ⟨hne, fun c hc => ?_⟩
  rw [tagName, Folding.all, if_pos rfl, Text.lowerAscii, String.toList_ofList, String.toList_ofList] at hc
  obtain ⟨d, hd, rfl⟩ := List.mem_map.1 hc
  exact isLowerTagChar_toLower (Text.of_mem_takeWhile hd)

/-- A letter that lower-casing brings in ends no name. -/
theorem not_endsAttributeName {c : Char} (hblank : Text.isWhitespace c = false)
    (hletter : 'a' ≤ c ∧ c ≤ 'z' ∨ 0x80 ≤ c.toNat) : endsAttributeName c = false := by
  have hmark : ∀ d ∈ ['=', '/', '>'], c ≠ d := by
    rintro d hd rfl
    simp only [List.mem_cons, List.not_mem_nil, or_false] at hd
    rcases hd with rfl | rfl | rfl <;> revert hletter <;> decide
  simp only [List.forall_mem_cons, List.not_mem_nil, false_imp_iff, implies_true, and_true] at hmark
  simp [endsAttributeName, hblank, hmark]

theorem readableName_attributeName {raw : List Char} (hne : raw ≠ [])
    (hraw : ∀ c ∈ raw, endsAttributeName c = false) : ReadableName (attributeName .all raw) := by
  rw [attributeName, Folding.all, if_pos rfl]
  refine ⟨fun hnil => ?_, fun d hd => ?_, Text.lowercase_lowercase _⟩
  · rw [Text.lowercase, String.toList_ofList, String.ofList_eq_empty_iff] at hnil
    exact Text.lowerFrom_ne_nil hne hnil
  · rw [Text.lowercase, String.toList_ofList, String.toList_ofList] at hd
    obtain ⟨c, hc, -, rfl | ⟨hblank, hletter⟩⟩ := Text.lowers_of_mem_lowerFrom hd
    · exact hraw _ hc
    · exact not_endsAttributeName hblank hletter

theorem spelledTag_tagName {fold : Folding} {cs : List Char} (hne : tagName fold cs ≠ "") :
    SpelledTag (tagName fold cs) := by
  cases hfold : fold.tags with
  | true =>
    have hall : tagName fold cs = tagName .all cs := by simp [tagName, hfold, Folding.all]
    rw [hall] at hne ⊢
    exact (readableTag_tagName hne).spelled
  | false =>
    have hraw : tagName fold cs = String.ofList (cs.takeWhile isTagNameChar) := by simp [tagName, hfold]
    refine ⟨hne, fun c hc => ?_⟩
    rw [hraw, String.toList_ofList] at hc
    exact Text.of_mem_takeWhile hc

theorem spelledName_attributeName {fold : Folding} {raw : List Char} (hne : raw ≠ [])
    (hraw : ∀ c ∈ raw, endsAttributeName c = false) : SpelledName (attributeName fold raw) := by
  cases hfold : fold.attributes with
  | true =>
    have hall : attributeName fold raw = attributeName .all raw := by simp [attributeName, hfold, Folding.all]
    rw [hall]
    exact (readableName_attributeName hne hraw).spelled
  | false =>
    have hsame : attributeName fold raw = String.ofList raw := by simp [attributeName, hfold]
    rw [hsame]
    exact ⟨fun hnil => hne (String.ofList_eq_empty_iff.1 hnil), by rwa [String.toList_ofList]⟩

/-- The name of an attribute comes from characters that end no name. -/
theorem name_scanAttribute {fold : Folding} {cs rest : List Char} {a : Attribute}
    (h : scanAttribute fold cs = some (a, rest)) :
    ∃ raw, raw ≠ [] ∧ (∀ c ∈ raw, endsAttributeName c = false) ∧ a.name = attributeName fold raw := by
  unfold scanAttribute at h
  dsimp only at h
  split at h
  · exact absurd h.symm (Option.some_ne_none _)
  · rename_i hraw
    refine ⟨(skipBlanks cs).takeWhile (!endsAttributeName ·), by simpa using hraw, fun c hc => ?_, ?_⟩
    · simpa using Text.of_mem_takeWhile hc
    · split at h <;> rw [← (Prod.mk.inj (Option.some.inj h)).1]

/-- A property of the names that are read holds of the names of all attributes. -/
theorem names_scanAttributes {fold : Folding} {p : String → Prop}
    (hp : ∀ raw, raw ≠ [] → (∀ c ∈ raw, endsAttributeName c = false) → p (attributeName fold raw))
    {as : Attributes} {cs : List Char} (has : ∀ name ∈ as.names, p name) :
    ∀ name ∈ (scanAttributes fold as cs).1.names, p name := by
  fun_induction scanAttributes fold as cs with
  | case1 as cs a rest h ih =>
    rw [Attributes.names_set] at ih
    split at ih
    · exact ih has
    · refine ih fun name hname => ?_
      rcases List.mem_append.1 hname with hname | hname
      · exact has name hname
      · obtain ⟨raw, hne, hraw, heq⟩ := name_scanAttribute h
        rw [List.mem_singleton.1 hname, heq]
        exact hp raw hne hraw
  | case2 as cs h => exact has

theorem nodup_scanAttributes {fold : Folding} {as : Attributes} {cs : List Char} (hnodup : as.names.Nodup) :
    (scanAttributes fold as cs).1.names.Nodup := by
  fun_induction scanAttributes fold as cs with
  | case1 as cs a rest h ih =>
    rw [Attributes.names_set] at ih
    split at ih
    · exact ih hnodup
    · rename_i hnew
      refine ih (List.nodup_append.2 ⟨hnodup, by simp, fun name hname other hother heq => hnew ?_⟩)
      rwa [← List.mem_singleton.1 hother, ← heq]
  | case2 as cs h => exact hnodup

/-! ## Tokens -/

/-- What a token says can be written and read again. -/
def Readable : Token → Prop
  | startTag tag attributes _ =>
    ReadableTag tag ∧ (∀ name ∈ attributes.names, ReadableName name) ∧ attributes.names.Nodup
  | endTag _ => True
  | text _ => True
  | comment data => Text.contains ['-', '-', '>'] data.toList = false
  | doctype data => Text.trim data.toList = data.toList ∧ '>' ∉ data.toList

/-- What a token says can be written so that it is read as one token. -/
def Spelled : Token → Prop
  | startTag tag attributes _ => SpelledTag tag ∧ ∀ name ∈ attributes.names, SpelledName name
  | endTag _ => True
  | text _ => True
  | comment data => Text.contains ['-', '-', '>'] data.toList = false
  | doctype data => Text.trim data.toList = data.toList ∧ '>' ∉ data.toList

/-- Without a name a `<` is text; else a start tag with its name and its attributes is read. -/
theorem scanStartTag_cases (fold : Folding) (cs : List Char) :
    (tagName fold cs = "" ∧ scanStartTag fold cs = (text "<", cs)) ∨
    (tagName fold cs ≠ "" ∧ ∃ selfClosing, (scanStartTag fold cs).1 =
      startTag (tagName fold cs) (scanAttributes fold ∅ (afterTagName cs)).1 selfClosing) := by
  unfold scanStartTag
  dsimp only
  split
  · rename_i hname
    exact .inl ⟨String.isEmpty_iff.1 hname, rfl⟩
  · rename_i hname
    refine .inr ⟨fun hnil => hname (String.isEmpty_iff.2 hnil), ?_⟩
    split <;> rename_i heq <;> rw [heq] <;> exact ⟨_, rfl⟩

theorem readable_scanStartTag (cs : List Char) : (scanStartTag .all cs).1.Readable := by
  rcases scanStartTag_cases .all cs with ⟨-, htext⟩ | ⟨hname, selfClosing, hstart⟩
  · rw [htext]
    trivial
  · rw [hstart]
    exact ⟨readableTag_tagName hname, names_scanAttributes (fun raw => readableName_attributeName) nofun,
      nodup_scanAttributes List.nodup_nil⟩

theorem spelled_scanStartTag (fold : Folding) (cs : List Char) : (scanStartTag fold cs).1.Spelled := by
  rcases scanStartTag_cases fold cs with ⟨-, htext⟩ | ⟨hname, selfClosing, hstart⟩
  · rw [htext]
    trivial
  · rw [hstart]
    exact ⟨spelledTag_tagName hname, names_scanAttributes (fun raw => spelledName_attributeName) nofun⟩

theorem not_contains_of_first {needle before after : List Char} (hne : needle ≠ [])
    (h : ∀ post, post <:+ before → post ≠ [] → needle.isPrefixOf (post ++ after) = false) :
    Text.contains needle before = false := by
  rw [Bool.eq_false_iff, ne_eq, Text.contains_iff]
  rintro ⟨pre, post, hsplit⟩
  have hprefix := h (needle ++ post) ⟨pre, by rw [← hsplit, List.append_assoc]⟩
    (List.append_ne_nil_of_left_ne_nil hne _)
  rw [Bool.eq_false_iff, ne_eq, List.isPrefixOf_iff_prefix, List.append_assoc] at hprefix
  exact hprefix (List.prefix_append ..)

theorem readable_scanComment (cs : List Char) : (scanComment cs).1.Readable := by
  unfold scanComment
  split
  · rename_i body rest hcut
    obtain ⟨⟨b, a⟩, hfirst, heq⟩ := Option.map_eq_some_iff.1 hcut
    obtain ⟨rfl, -⟩ := Prod.mk.inj heq
    rw [Readable, String.toList_ofList]
    exact not_contains_of_first (by decide) fun post hpost hne => Text.cutBefore_first hfirst hpost hne
  · rename_i hcut
    rw [Readable, String.toList_ofList]
    refine @not_contains_of_first _ _ [] (by decide) fun post hpost _ => ?_
    rw [List.append_nil]
    exact Text.cutBefore_none (Option.map_eq_none_iff.1 hcut) hpost

theorem readable_scanDoctype (cs : List Char) : (scanDoctype cs).1.Readable := by
  rw [scanDoctype, Readable, String.toList_ofList]
  refine ⟨Text.trim_trim _, fun hend => ?_⟩
  obtain ⟨pre, post, hsplit, -⟩ := Text.exists_trim (cs.takeWhile (· ≠ '>'))
  have hmem : '>' ∈ cs.takeWhile (· ≠ '>') := by
    rw [hsplit]
    exact List.mem_append_left _ (List.mem_append_right _ hend)
  simpa using Text.of_mem_takeWhile hmem

/-- A property of what each construct gives holds of every token. -/
theorem scan_forall {fold : Folding} {p : Token → Prop} {cs rest : List Char} {token : Token}
    (hstart : ∀ cs, p (scanStartTag fold cs).1) (hcomment : ∀ cs, p (scanComment cs).1)
    (hdoctype : ∀ cs, p (scanDoctype cs).1) (hend : ∀ tag, p (endTag tag)) (htext : ∀ data, p (text data))
    (h : scan fold cs = (some token, rest)) : p token := by
  have hsome : ∀ {read : Token × List Char}, p read.1 → read.map some id = (some token, rest) → p token :=
    fun hread heq => Option.some.inj (Prod.mk.inj heq).1 ▸ hread
  unfold scan at h
  split at h
  · split at h
    · exact hsome (hcomment _) h
    split at h
    · exact hsome (hdoctype _) h
    split at h
    · exact @hsome (scanEndTag _ _) (hend _) h
    · exact absurd (Prod.mk.inj h).1.symm (Option.some_ne_none _)
    · exact absurd (Prod.mk.inj h).1.symm (Option.some_ne_none _)
    · exact hsome (hstart _) h
  · exact @hsome (scanText _) (htext _) h

/-- Scanning in lower case gives readable tokens. -/
theorem readable_scan {cs rest : List Char} {token : Token} (h : scan .all cs = (some token, rest)) :
    token.Readable :=
  scan_forall readable_scanStartTag readable_scanComment readable_scanDoctype (fun _ => trivial) (fun _ => trivial) h

theorem spelled_scan {fold : Folding} {cs rest : List Char} {token : Token} (h : scan fold cs = (some token, rest)) :
    token.Spelled := by
  have hcomment : ∀ cs, (scanComment cs).1.Spelled := fun cs => by
    have hread := readable_scanComment cs
    unfold scanComment at hread ⊢
    split at hread <;> exact hread
  exact scan_forall (spelled_scanStartTag fold) hcomment readable_scanDoctype (fun _ => trivial) (fun _ => trivial) h

end Token

/-! ## Streams -/

/-- The verbatim content behind a token is what the content model of its element asks for. -/
def Lexeme.Faithful (xml : Bool) (l : Lexeme) : Prop :=
  ∀ tag attributes selfClosing, l.token = .startTag tag attributes selfClosing →
    match Rules.contentModel tag selfClosing xml with
    | .normal => l.content = none
    | .void => l.content = none
    | .rawText => ∃ data, l.content = some data ∧
        ∀ post, post <:+ data.toList → Text.startsIgnoringCase (Token.closing tag) post = false
    | .rcdata => ∃ data, l.content = some data

namespace Scanner

variable {xml : Bool} {s : Scanner}

/-- Raw text does not hold the end tag in front of which it ends. -/
theorem rawText_first (tag : String) (s : Scanner) {post : List Char}
    (hpost : post <:+ (s.rawText tag false).1.toList) :
    Text.startsIgnoringCase (Token.closing tag) post = false := by
  rw [rawText, if_neg Bool.false_ne_true, String.toList_ofList] at hpost
  cases hcut : Text.cutBefore (Text.startsIgnoringCase ('<' :: '/' :: tag.toList)) s.cursor.rest with
  | none =>
    rw [hcut] at hpost
    exact Text.cutBefore_none hcut hpost
  | some parts =>
    rw [hcut] at hpost
    by_cases hne : post = []
    · rw [hne]
      rfl
    · rw [Bool.eq_false_iff]
      intro hstarts
      have hlater := Text.startsIgnoringCase_append parts.2 hstarts
      rw [Token.closing, Text.cutBefore_first hcut hpost hne] at hlater
      exact Bool.false_ne_true hlater

theorem faithful_verbatim (token : Token) (place : Location) :
    Lexeme.Faithful xml ⟨token, place, (s.verbatim xml token).1⟩ := by
  rintro tag attributes selfClosing rfl
  rw [verbatim]
  cases hmodel : Rules.contentModel tag selfClosing xml with
  | normal => rfl
  | void => rfl
  | rawText => exact ⟨_, rfl, fun post => s.rawText_first tag⟩
  | rcdata => exact ⟨_, rfl⟩

theorem folding_verbatim (token : Token) : (s.verbatim xml token).2.folding = s.folding := by
  cases token with
  | startTag tag attributes selfClosing =>
    rw [verbatim]
    cases Rules.contentModel tag selfClosing xml <;> rfl
  | _ => rfl

theorem next_scanned {s' : Scanner} {token : Token} {place : Location}
    (h : s.next = (some (token, place), s')) :
    s'.folding = s.folding ∧ ∃ cs rest, Token.scan s.folding cs = (some token, rest) := by
  fun_induction next s with
  | case1 => simp at h
  | case2 s c cs hrest token rest hscan =>
    obtain ⟨hfound, rfl⟩ := Prod.mk.inj h
    obtain ⟨rfl, -⟩ := Prod.mk.inj (Option.some.inj hfound)
    exact ⟨rfl, _, _, hscan⟩
  | case3 s c cs hrest rest hscan ih => exact ih h

/-- A property of what scanners give holds of the tokens of a stream. -/
theorem stream_forall {p : Lexeme → Prop}
    (h : ∀ s' : Scanner, s'.folding = s.folding → ∀ token place, (∃ cs rest,
      Token.scan s.folding cs = (some token, rest)) → p ⟨token, place, (s'.verbatim xml token).1⟩) :
    ∀ l ∈ s.stream xml, p l := by
  fun_induction stream xml s with
  | case1 => exact nofun
  | case2 s token place s' hnext ih =>
    obtain ⟨hfold, hscan⟩ := next_scanned hnext
    refine List.forall_mem_cons.2 ⟨h s' hfold token place hscan, ih ?_⟩
    rw [folding_verbatim, hfold]
    exact h

theorem faithful_stream : ∀ l ∈ s.stream xml, l.Faithful xml :=
  stream_forall fun s' _ token place _ => s'.faithful_verbatim token place

theorem spelled_stream : ∀ l ∈ s.stream xml, l.token.Spelled :=
  stream_forall fun _ _ _ _ ⟨_, _, hscan⟩ => Token.spelled_scan hscan

theorem readable_stream (hfold : s.folding = .all) : ∀ l ∈ s.stream xml, l.token.Readable :=
  stream_forall fun _ _ _ _ ⟨_, _, hscan⟩ => Token.readable_scan (hfold ▸ hscan)

end Scanner

end HtmlQuery
