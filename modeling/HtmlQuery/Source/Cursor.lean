import HtmlQuery.Source.Location
import HtmlQuery.Text.AsciiCase
import HtmlQuery.Text.Search
import HtmlQuery.Text.Whitespace

/-!
# Cursor

A forward-only reader over a text. Every operation that moves a cursor is `move n` for some number of
characters `n`, so one lemma about `move` speaks for all of them: a cursor that has read `pre` of a text
stands at the location behind `pre` (`At.move`). Main statements: `At` is kept by every move, and the
offset of a cursor is the byte length of what was read.
-/

namespace HtmlQuery

/-- The byte length of a text in UTF-8. -/
def utf8Length : List Char → Nat
  | [] => 0
  | c :: cs => c.utf8Size + utf8Length cs

/-- The text still to be read, and where it starts. -/
structure Cursor where
  rest : List Char
  location : Location

namespace Cursor

def ofString (s : String) : Cursor := ⟨s.toList, .start⟩

def offset (c : Cursor) : Nat := c.location.offset

def atEnd (c : Cursor) : Bool := c.rest.isEmpty

def peek (c : Cursor) : Option Char := c.rest.head?

def peekSecond (c : Cursor) : Option Char := c.rest[1]?

def startsWith (pre : String) (c : Cursor) : Bool := pre.toList.isPrefixOf c.rest

/-- Whether the unread text starts with `pre` up to ASCII case. -/
def startsIgnoringCase (pre : String) (c : Cursor) : Bool :=
  Text.startsIgnoringCase pre.toList c.rest

/-! ## Moving -/

/-- Reads `n` characters, or all that are left. -/
def move (n : Nat) (c : Cursor) : Cursor :=
  ⟨c.rest.drop n, c.location.afterAll (c.rest.take n)⟩

/-- The characters in front of a byte offset, for a text that starts at byte `position`; a character that
the offset cuts is among them. -/
def countBefore (target : Nat) : Nat → List Char → Nat
  | _, [] => 0
  | position, c :: cs =>
    if position < target then countBefore target (position + c.utf8Size) cs + 1 else 0

def bump (c : Cursor) : Cursor := c.move 1

/-- Reads until the offset is `target` or more. -/
def advanceTo (target : Nat) (c : Cursor) : Cursor :=
  c.move (countBefore target c.offset c.rest)

def advanceToEnd (c : Cursor) : Cursor := c.move c.rest.length

def run (p : Char → Bool) (c : Cursor) : List Char := c.rest.takeWhile p

/-- Reads the longest run of characters that satisfy `p`. -/
def skipWhile (p : Char → Bool) (c : Cursor) : Cursor := c.move (c.run p).length

def skipWhitespace (c : Cursor) : Cursor := c.skipWhile Text.isWhitespace

/-- The cursor where the unread text is `rest`, a tail of what is unread now. -/
def upTo (rest : List Char) (c : Cursor) : Cursor := c.move (c.rest.length - rest.length)

/-! ## Searching and slicing -/

/-- The offset of the first place ahead where `here` holds of the unread text. -/
def findWhere (here : List Char → Bool) (c : Cursor) : Option Nat :=
  (Text.cutBefore here c.rest).map fun parts => c.offset + utf8Length parts.1

/-- The offset of the next occurrence of a text. -/
def find (needle : String) (c : Cursor) : Option Nat :=
  c.findWhere needle.toList.isPrefixOf

/-- The offset of the next occurrence of a text up to ASCII case. -/
def findIgnoringCase (needle : String) (c : Cursor) : Option Nat :=
  c.findWhere (Text.startsIgnoringCase needle.toList)

/-- The unread text up to a byte offset; there is none for an offset behind the cursor, past the end of
the text or inside a character. -/
def sliceTo? (target : Nat) (c : Cursor) : Option (List Char) :=
  let slice := c.rest.take (countBefore target c.offset c.rest)
  if c.offset + utf8Length slice = target then some slice else none

/-! ## Lemmas -/

/-- The cursor has read `pre` of the text `input`. -/
def At (input pre : List Char) (c : Cursor) : Prop :=
  input = pre ++ c.rest ∧ c.location = Location.start.afterAll pre

theorem at_ofString (s : String) : At s.toList [] (ofString s) := ⟨rfl, rfl⟩

/-- Moving over `n` characters adds them to what was read. -/
theorem At.move {input pre : List Char} {c : Cursor} (h : At input pre c) (n : Nat) :
    At input (pre ++ c.rest.take n) (c.move n) := by
  refine ⟨?_, ?_⟩
  · rw [Cursor.move, List.append_assoc, List.take_append_drop]
    exact h.1
  · rw [Cursor.move, Location.afterAll_append, ← h.2]

@[simp] theorem utf8Length_nil : utf8Length [] = 0 := rfl

@[simp] theorem utf8Length_cons (c : Char) (cs : List Char) :
    utf8Length (c :: cs) = c.utf8Size + utf8Length cs := rfl

@[simp] theorem utf8Length_append (cs ds : List Char) :
    utf8Length (cs ++ ds) = utf8Length cs + utf8Length ds := by
  induction cs with
  | nil => simp
  | cons c cs ih => rw [List.cons_append, utf8Length_cons, utf8Length_cons, ih, Nat.add_assoc]

theorem offset_afterAll (p : Location) (cs : List Char) :
    (p.afterAll cs).offset = p.offset + utf8Length cs := by
  induction cs generalizing p with
  | nil => rfl
  | cons c cs ih =>
    rw [Location.afterAll_cons, ih, Location.offset_after, utf8Length_cons, Nat.add_assoc]

/-- The offset of a cursor is the byte length of what it has read. -/
theorem At.offset_eq {input pre : List Char} {c : Cursor} (h : At input pre c) :
    c.offset = utf8Length pre := by
  rw [Cursor.offset, h.2, offset_afterAll]
  exact Nat.zero_add _

theorem rest_move_length (n : Nat) (c : Cursor) :
    (c.move n).rest.length = c.rest.length - n := List.length_drop

end Cursor

end HtmlQuery
