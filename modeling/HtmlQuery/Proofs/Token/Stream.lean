import HtmlQuery.Token.Scanner

/-!
# Token streams

The tokens of a text as a reader of documents asks for them: one after the other, and behind each start tag
the verbatim content of its element where its content model has any. No tree is involved. One token is what the next
construct gives, or the constructs behind it (`next_of_ne`).
-/

namespace HtmlQuery

/-- A token, where it starts, and the verbatim content behind it. -/
structure Lexeme where
  token : Token
  place : Location
  content : Option String
  deriving DecidableEq, Repr

/-! ## What is left to read -/

namespace Token

variable {fold : Folding} {cs rest : List Char}

theorem skipTagEnd_suffix (cs : List Char) : skipTagEnd cs <:+ cs :=
  (List.drop_suffix 1 _).trans (List.dropWhile_suffix _)

theorem scanValue_suffix (cs : List Char) : (scanValue cs).2 <:+ cs := by
  unfold scanValue
  split
  · exact ((List.drop_suffix 1 _).trans (List.dropWhile_suffix _)).trans (List.suffix_cons ..)
  · exact ((List.drop_suffix 1 _).trans (List.dropWhile_suffix _)).trans (List.suffix_cons ..)
  · exact List.dropWhile_suffix _

theorem scanAttribute_suffix {a : Attribute} (h : scanAttribute fold cs = some (a, rest)) : rest <:+ cs := by
  unfold scanAttribute at h
  dsimp only at h
  split at h
  · cases h
  have hbehind : skipBlanks ((skipBlanks cs).dropWhile (!endsAttributeName ·)) <:+ cs :=
    (List.dropWhile_suffix _).trans ((List.dropWhile_suffix _).trans (List.dropWhile_suffix _))
  split at h
  · rename_i value heq
    obtain ⟨-, rfl⟩ := Prod.mk.inj (Option.some.inj h)
    rw [heq] at hbehind
    have hvalue : (scanValue (skipBlanks value)).2 <:+ value := (scanValue_suffix _).trans (List.dropWhile_suffix _)
    exact hvalue.trans ((List.suffix_cons ..).trans hbehind)
  · obtain ⟨-, rfl⟩ := Prod.mk.inj (Option.some.inj h)
    exact hbehind

theorem scanAttributes_suffix (fold : Folding) (as : Attributes) (cs : List Char) :
    (scanAttributes fold as cs).2 <:+ cs := by
  fun_induction scanAttributes fold as cs with
  | case1 as cs a rest h ih => exact ih.trans (scanAttribute_suffix h)
  | case2 as cs h => exact List.dropWhile_suffix _

theorem scanStartTag_suffix (fold : Folding) (cs : List Char) : (scanStartTag fold cs).2 <:+ cs := by
  have has : (scanAttributes fold ∅ (afterTagName cs)).2 <:+ cs :=
    (scanAttributes_suffix ..).trans (List.dropWhile_suffix _)
  unfold scanStartTag
  dsimp only
  split
  · exact List.suffix_refl _
  split
  · rename_i as rest heq
    rw [heq] at has
    exact (skipTagEnd_suffix rest).trans ((List.suffix_cons ..).trans has)
  · rename_i as rest _ heq
    rw [heq] at has
    exact (skipTagEnd_suffix rest).trans has

theorem scanComment_suffix (cs : List Char) : (scanComment cs).2 <:+ cs := by
  unfold scanComment
  split
  · rename_i body rest hcut
    obtain ⟨⟨before, after⟩, hbefore, heq⟩ := Option.map_eq_some_iff.1 hcut
    obtain ⟨-, rfl⟩ := Prod.mk.inj heq
    rw [(Text.cutBefore_eq_some hbefore).1]
    exact (List.drop_suffix ..).trans (List.suffix_append ..)
  · exact List.nil_suffix

/-- Scanning leaves a tail of the text. -/
theorem scan_suffix (fold : Folding) (cs : List Char) : (scan fold cs).2 <:+ cs := by
  unfold scan
  split
  · rename_i cs
    refine List.IsSuffix.trans ?_ (List.suffix_cons '<' cs)
    split
    · exact (scanComment_suffix _).trans (List.drop_suffix ..)
    split
    · exact (skipTagEnd_suffix _).trans (List.drop_suffix ..)
    split
    · exact ((skipTagEnd_suffix _).trans (List.dropWhile_suffix _)).trans (List.suffix_cons ..)
    · exact (skipTagEnd_suffix _).trans (List.suffix_cons ..)
    · exact (skipTagEnd_suffix _).trans (List.suffix_cons ..)
    · exact scanStartTag_suffix fold cs
  · exact List.dropWhile_suffix _

end Token

namespace Scanner

/-! ## One token -/

section
variable {s : Scanner} {rest : List Char}

theorem upTo_rest (h : rest <:+ s.cursor.rest) : (s.upTo rest).cursor.rest = rest := by
  obtain ⟨pre, hpre⟩ := h
  have hlen : s.cursor.rest.length - rest.length = pre.length := by
    rw [← hpre, List.length_append]
    omega
  rw [upTo, Cursor.upTo, Cursor.move, hlen, ← hpre, List.drop_left]

/-- What scanning leaves is left. -/
theorem upTo_scanned {token : Option Token} (h : Token.scan s.folding s.cursor.rest = (token, rest)) :
    (s.upTo rest).cursor.rest = rest :=
  upTo_rest (by simpa [h] using Token.scan_suffix s.folding s.cursor.rest)

theorem next_of_end (h : s.cursor.rest = []) : s.next = (none, s) := by
  rw [next]
  split <;> simp_all

/-- Where there is something to read, the next construct is read, and those behind it until one gives a token. -/
theorem next_of_ne (hne : s.cursor.rest ≠ []) :
    s.next = match Token.scan s.folding s.cursor.rest with
      | (some token, rest) => (some (token, s.cursor.location), s.upTo rest)
      | (none, rest) => (s.upTo rest).next := by
  rw [next]
  split
  · exact absurd ‹_› hne
  · rename_i c cs hrest
    rw [hrest]
    split <;> simp_all

theorem next_of_scan {token : Token} (hne : s.cursor.rest ≠ [])
    (h : Token.scan s.folding s.cursor.rest = (some token, rest)) :
    s.next = (some (token, s.cursor.location), s.upTo rest) := by rw [next_of_ne hne, h]

theorem next_of_skip (hne : s.cursor.rest ≠ []) (h : Token.scan s.folding s.cursor.rest = (none, rest)) :
    s.next = (s.upTo rest).next := by rw [next_of_ne hne, h]

end

/-! ## Streams -/

/-- The verbatim content behind a token, and the scanner behind that. -/
def verbatim (xml : Bool) (token : Token) (s : Scanner) : Option String × Scanner :=
  match token with
  | .startTag tag _ selfClosing => s.content? (Rules.contentModel tag selfClosing xml) tag
  | _ => (none, s)

theorem verbatim_length (xml : Bool) (token : Token) (s : Scanner) :
    (s.verbatim xml token).2.cursor.rest.length ≤ s.cursor.rest.length := by
  cases token with
  | startTag tag attributes selfClosing => exact content?_length ..
  | _ => exact Nat.le_refl _

/-- All tokens from here on, each with the verbatim content behind it. -/
def stream (xml : Bool) (s : Scanner) : List Lexeme :=
  match _h : s.next with
  | (none, _) => []
  | (some (token, place), s') =>
    ⟨token, place, (s'.verbatim xml token).1⟩ :: stream xml (s'.verbatim xml token).2
termination_by s.cursor.rest.length
decreasing_by exact Nat.lt_of_le_of_lt (verbatim_length ..) (next_shorter _h)

theorem stream_of_none {xml : Bool} {s s' : Scanner} (h : s.next = (none, s')) :
    s.stream xml = [] := by
  rw [stream]
  split <;> simp_all

theorem stream_of_some {xml : Bool} {s s' : Scanner} {token : Token} {place : Location}
    (h : s.next = (some (token, place), s')) : s.stream xml =
      ⟨token, place, (s'.verbatim xml token).1⟩ :: (s'.verbatim xml token).2.stream xml := by
  rw [stream]
  split <;> simp_all

end Scanner

end HtmlQuery
