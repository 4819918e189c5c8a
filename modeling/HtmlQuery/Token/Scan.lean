import HtmlQuery.Reference.Decode
import HtmlQuery.Text.Lowercase
import HtmlQuery.Text.Search
import HtmlQuery.Token.Basic

/-!
# Scanning markup

Each function here reads one construct off the front of a text and gives what it read with the text behind
it. Nothing fails: a construct that is not closed runs to the end of the text. Main statement: scanning a
text that is not empty leaves a shorter one (`scan_shorter`).
-/

namespace HtmlQuery.Token

/-! ## Parts of tags -/

/-- The characters of tag names. -/
def isTagNameChar (c : Char) : Bool :=
  Reference.isAsciiAlphanumeric c || c = ':' || c = '-'

/-- The characters that end an attribute name. -/
def endsAttributeName (c : Char) : Bool :=
  Text.isWhitespace c || c = '=' || c = '/' || c = '>'

/-- The characters that end an attribute value without quotes. -/
def endsBareValue (c : Char) : Bool := Text.isWhitespace c || c = '>'

def skipBlanks (cs : List Char) : List Char := cs.dropWhile Text.isWhitespace

def skipTagEnd (cs : List Char) : List Char := (cs.dropWhile (· ≠ '>')).drop 1

/-- The name in front of a tag's text. -/
def tagName (fold : Folding) (cs : List Char) : String :=
  let raw := String.ofList (cs.takeWhile isTagNameChar)
  if fold.tags then Text.lowerAscii raw else raw

def afterTagName (cs : List Char) : List Char := cs.dropWhile isTagNameChar

/-- An attribute name as it is kept. -/
def attributeName (fold : Folding) (raw : List Char) : String :=
  if fold.attributes then Text.lowercase (String.ofList raw) else String.ofList raw

/-- The value in front of a text and the text behind it: up to the next quote of the kind it starts with, or
up to a blank or the end of the tag. -/
def scanValue : List Char → List Char × List Char
  | '"' :: cs => (cs.takeWhile (· ≠ '"'), (cs.dropWhile (· ≠ '"')).drop 1)
  | '\'' :: cs => (cs.takeWhile (· ≠ '\''), (cs.dropWhile (· ≠ '\'')).drop 1)
  | cs => (cs.takeWhile (!endsBareValue ·), cs.dropWhile (!endsBareValue ·))

/-- The attribute in front of a text, blanks before it aside, and the text behind it. -/
def scanAttribute (fold : Folding) (cs : List Char) : Option (Attribute × List Char) :=
  let cs := skipBlanks cs
  let raw := cs.takeWhile (!endsAttributeName ·)
  if raw.isEmpty then none
  else
    match skipBlanks (cs.dropWhile (!endsAttributeName ·)) with
    | '=' :: rest =>
      let parts := scanValue (skipBlanks rest)
      some (⟨attributeName fold raw, String.ofList (Reference.decode parts.1)⟩, parts.2)
    | rest => some (⟨attributeName fold raw, ""⟩, rest)

/-! ## Lengths -/

theorem length_skipTagEnd_le (cs : List Char) : (skipTagEnd cs).length ≤ cs.length := by
  have := Text.length_dropWhile_le (· ≠ '>') cs
  simp only [skipTagEnd, List.length_drop]
  omega

theorem scanValue_length (cs : List Char) : (scanValue cs).2.length ≤ cs.length := by
  unfold scanValue
  split
  · rename_i cs
    have := Text.length_dropWhile_le (· ≠ '"') cs
    simp only [List.length_drop, List.length_cons]
    omega
  · rename_i cs
    have := Text.length_dropWhile_le (· ≠ '\'') cs
    simp only [List.length_drop, List.length_cons]
    omega
  · exact Text.length_dropWhile_le ..

/-- Dropping a run that is not empty leaves a shorter text. -/
theorem dropWhile_shorter {p : Char → Bool} {cs : List Char} (h : cs.takeWhile p ≠ []) :
    (cs.dropWhile p).length < cs.length := by
  have hparts := congrArg List.length (List.takeWhile_append_dropWhile (p := p) (l := cs))
  rw [List.length_append] at hparts
  have := List.length_pos_iff.2 h
  omega

theorem scanAttribute_shorter {fold : Folding} {cs rest : List Char} {a : Attribute}
    (h : scanAttribute fold cs = some (a, rest)) : rest.length < cs.length := by
  unfold scanAttribute at h
  simp only at h
  split at h
  · simp at h
  · rename_i hraw
    rw [List.isEmpty_iff] at hraw
    have hskip : (skipBlanks cs).length ≤ cs.length := Text.length_dropWhile_le ..
    have hname := dropWhile_shorter hraw
    have hblank := Text.length_dropWhile_le Text.isWhitespace
      ((skipBlanks cs).dropWhile (!endsAttributeName ·))
    split at h
    · rename_i tail htail
      simp only [Option.some.injEq, Prod.mk.injEq] at h
      rw [← h.2]
      have hvalue := scanValue_length (skipBlanks tail)
      have htailskip : (skipBlanks tail).length ≤ tail.length := Text.length_dropWhile_le ..
      rw [skipBlanks] at htail
      rw [htail, List.length_cons] at hblank
      omega
    · simp only [Option.some.injEq, Prod.mk.injEq] at h
      rw [← h.2]
      exact Nat.lt_of_le_of_lt hblank (Nat.lt_of_lt_of_le hname hskip)

/-! ## Tokens -/

/-- Adds the attributes in front of a text to a list; the text behind them comes with it. -/
def scanAttributes (fold : Folding) (as : Attributes) (cs : List Char) : Attributes × List Char :=
  match _h : scanAttribute fold cs with
  | some (a, rest) => scanAttributes fold (as.set a.name a.value) rest
  | none => (as, skipBlanks cs)
termination_by cs.length
decreasing_by exact scanAttribute_shorter _h

/-- Reads a start tag, whose `<` has been read. Without a name the `<` is text. -/
def scanStartTag (fold : Folding) (cs : List Char) : Token × List Char :=
  let name := tagName fold cs
  if name.isEmpty then (text "<", cs)
  else
    match scanAttributes fold ∅ (afterTagName cs) with
    | (as, '/' :: rest) => (startTag name as true, skipTagEnd rest)
    | (as, rest) => (startTag name as false, skipTagEnd rest)

/-- Reads an end tag, whose `</` has been read. -/
def scanEndTag (fold : Folding) (cs : List Char) : Token × List Char :=
  (endTag (tagName fold cs), skipTagEnd (afterTagName cs))

/-- Reads a comment, whose `<!--` has been read. -/
def scanComment (cs : List Char) : Token × List Char :=
  match Text.cutAt ['-', '-', '>'] cs with
  | some (body, rest) => (comment (String.ofList body), rest)
  | none => (comment (String.ofList cs), [])

/-- Reads a document type, whose `<!doctype` has been read. -/
def scanDoctype (cs : List Char) : Token × List Char :=
  (doctype (String.ofList (Text.trim (cs.takeWhile (· ≠ '>')))), skipTagEnd cs)

/-- Reads a run of text. -/
def scanText (cs : List Char) : Token × List Char :=
  (text (String.ofList (Reference.decode (cs.takeWhile (· ≠ '<')))), cs.dropWhile (· ≠ '<'))

/-- Reads one construct. Declarations other than document types and processing instructions give no
token. -/
def scan (fold : Folding) : List Char → Option Token × List Char
  | '<' :: cs =>
    if ['!', '-', '-'].isPrefixOf cs then (scanComment (cs.drop 3)).map some id
    else if Text.startsIgnoringCase "!doctype".toList cs then
      (scanDoctype (cs.drop 8)).map some id
    else
      match cs with
      | '/' :: cs => (scanEndTag fold cs).map some id
      | '!' :: cs => (none, skipTagEnd cs)
      | '?' :: cs => (none, skipTagEnd cs)
      | cs => (scanStartTag fold cs).map some id
  | cs => (scanText cs).map some id

/-! ## Scanning reads something -/

theorem scanAttributes_length (fold : Folding) (as : Attributes) (cs : List Char) :
    (scanAttributes fold as cs).2.length ≤ cs.length := by
  fun_induction scanAttributes fold as cs with
  | case1 as cs a rest h ih =>
    have := scanAttribute_shorter h
    omega
  | case2 as cs h => exact Text.length_dropWhile_le ..

theorem scanStartTag_length (fold : Folding) (cs : List Char) :
    (scanStartTag fold cs).2.length ≤ cs.length := by
  unfold scanStartTag
  have hname : (afterTagName cs).length ≤ cs.length := Text.length_dropWhile_le ..
  have has := scanAttributes_length fold ∅ (afterTagName cs)
  simp only
  split
  · exact Nat.le_refl _
  · split
    · rename_i as rest heq
      rw [heq] at has
      have := length_skipTagEnd_le rest
      simp only [List.length_cons] at has
      simp only
      omega
    · rename_i as rest _ heq
      rw [heq] at has
      have := length_skipTagEnd_le rest
      simp only at has ⊢
      omega

theorem scanComment_length (cs : List Char) : (scanComment cs).2.length ≤ cs.length := by
  unfold scanComment
  split
  · rename_i h
    exact Text.cutAt_length h
  · simp

/-- Scanning a text that is not empty leaves a shorter one. -/
theorem scan_shorter (fold : Folding) (c : Char) (cs : List Char) :
    (scan fold (c :: cs)).2.length < (c :: cs).length := by
  rw [List.length_cons, Nat.lt_succ_iff]
  unfold scan
  split
  · rename_i tail heq
    simp only [List.cons.injEq] at heq
    obtain ⟨rfl, rfl⟩ := heq
    split
    · have := scanComment_length (cs.drop 3)
      simp only [Prod.map, id, List.length_drop] at this ⊢
      omega
    · split
      · have := length_skipTagEnd_le (cs.drop 8)
        simp only [scanDoctype, Prod.map, id, List.length_drop] at this ⊢
        omega
      · split
        · rename_i rest _ _
          have hskip := length_skipTagEnd_le (afterTagName rest)
          have hname : (afterTagName rest).length ≤ rest.length := Text.length_dropWhile_le ..
          simp only [scanEndTag, Prod.map, id, List.length_cons]
          omega
        · rename_i rest _ _
          have := length_skipTagEnd_le rest
          simp only [List.length_cons]
          omega
        · rename_i rest _ _
          have := length_skipTagEnd_le rest
          simp only [List.length_cons]
          omega
        · exact scanStartTag_length ..
  · rename_i hne
    have hc : (c ≠ '<') := fun h => hne cs (by rw [h])
    simp only [scanText, Prod.map, id, List.dropWhile_cons, ne_eq, hc, not_false_eq_true,
      decide_true, if_true]
    exact Text.length_dropWhile_le ..

end HtmlQuery.Token
