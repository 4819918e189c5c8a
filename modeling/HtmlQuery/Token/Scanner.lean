import HtmlQuery.Element.Rules
import HtmlQuery.Source.Cursor
import HtmlQuery.Token.Scan

/-!
# Scanner

A cursor over markup that moves from token to token and notes where each one starts. It knows nothing of
the tree: whoever builds one asks for the verbatim content of an element with `rawText`. Main statements:
a token leaves less to read (`next_shorter`), and raw text never leaves more (`rawText_length`).
-/

namespace HtmlQuery

/-- A cursor over markup, and how names are folded. -/
structure Scanner where
  cursor : Cursor
  folding : Folding

namespace Scanner

def ofString (s : String) (folding : Folding) : Scanner := ⟨.ofString s, folding⟩

def offset (s : Scanner) : Nat := s.cursor.offset

/-- The scanner where the unread text is `rest`, a tail of what is unread now. -/
def upTo (rest : List Char) (s : Scanner) : Scanner := { s with cursor := s.cursor.upTo rest }

theorem rest_upTo_length {rest : List Char} {s : Scanner}
    (h : rest.length ≤ s.cursor.rest.length) :
    (s.upTo rest).cursor.rest.length = rest.length := by
  rw [upTo, Cursor.upTo, Cursor.rest_move_length]
  omega

/-- The next token and where it starts, and the scanner behind it; no token when nothing is left but what
gives none. -/
def next (s : Scanner) : Option (Token × Location) × Scanner :=
  match _hrest : s.cursor.rest with
  | [] => (none, s)
  | c :: cs =>
    match _hscan : Token.scan s.folding (c :: cs) with
    | (some token, rest) => (some (token, s.cursor.location), s.upTo rest)
    | (none, rest) => (s.upTo rest).next
termination_by s.cursor.rest.length
decreasing_by
  have hlt := Token.scan_shorter s.folding c cs
  rw [_hscan, ← _hrest] at hlt
  rw [rest_upTo_length (Nat.le_of_lt hlt)]
  exact hlt

theorem next_shorter {s s' : Scanner} {found : Token × Location}
    (h : s.next = (some found, s')) : s'.cursor.rest.length < s.cursor.rest.length := by
  fun_induction next s with
  | case1 => simp at h
  | case2 s c cs hrest token rest hscan =>
    simp only [Prod.mk.injEq] at h
    have hlt := Token.scan_shorter s.folding c cs
    rw [hscan, ← hrest] at hlt
    rw [← h.2, rest_upTo_length (Nat.le_of_lt hlt)]
    exact hlt
  | case3 s c cs hrest rest hscan ih =>
    have hlt := Token.scan_shorter s.folding c cs
    rw [hscan, ← hrest] at hlt
    refine Nat.lt_trans (ih h) ?_
    rw [rest_upTo_length (Nat.le_of_lt hlt)]
    exact hlt

/-- The text up to the closing tag of an element, or all text where there is none, with its references
decoded or not, and the scanner in front of that tag. -/
def rawText (tag : String) (decode : Bool) (s : Scanner) : String × Scanner :=
  let close := '<' :: '/' :: tag.toList
  let parts := (Text.cutBefore (Text.startsIgnoringCase close) s.cursor.rest).getD
    (s.cursor.rest, [])
  (String.ofList (if decode then Reference.decode parts.1 else parts.1), s.upTo parts.2)

theorem rawText_length (tag : String) (decode : Bool) (s : Scanner) :
    (s.rawText tag decode).2.cursor.rest.length ≤ s.cursor.rest.length := by
  rw [rawText, upTo, Cursor.upTo, Cursor.rest_move_length]
  omega

/-- The verbatim content that an element of a content model has, and the scanner behind it. -/
def content? (model : ContentModel) (tag : String) (s : Scanner) : Option String × Scanner :=
  match model with
  | .rawText => (s.rawText tag false).map some id
  | .rcdata => (s.rawText tag true).map some id
  | .normal => (none, s)
  | .void => (none, s)

theorem content?_length (model : ContentModel) (tag : String) (s : Scanner) :
    (s.content? model tag).2.cursor.rest.length ≤ s.cursor.rest.length := by
  cases model <;> simp [content?, rawText_length]

/-- All tokens from here on, and the scanner at the end. -/
def tokens (s : Scanner) : List (Token × Location) × Scanner :=
  match _h : s.next with
  | (none, s') => ([], s')
  | (some found, s') =>
    let later := s'.tokens
    (found :: later.1, later.2)
termination_by s.cursor.rest.length
decreasing_by all_goals exact next_shorter _h

end Scanner

end HtmlQuery
