/-!
# Source locations

A location is a place in a text, given three ways at once: by line, by column and by byte offset. Main
statement: moving over a text in two steps is moving over it in one (`Location.afterAll_append`).
-/

namespace HtmlQuery

/-- A place in a source text. Lines and columns count from one, columns in characters; the offset counts
the bytes of the UTF-8 text before the place. -/
structure Location where
  line : Nat
  column : Nat
  offset : Nat
  deriving DecidableEq, Repr

namespace Location

def start : Location := ⟨1, 1, 0⟩

/-- The place behind a character that stands at `p`. -/
def after (p : Location) (c : Char) : Location :=
  if c = '\n' then ⟨p.line + 1, 1, p.offset + c.utf8Size⟩
  else ⟨p.line, p.column + 1, p.offset + c.utf8Size⟩

def afterAll (p : Location) (cs : List Char) : Location := cs.foldl after p

/-- Line and column, as people write them. -/
protected def toString (p : Location) : String :=
  toString p.line ++ ":" ++ toString p.column

/-! ## Lemmas -/

@[simp] theorem afterAll_nil (p : Location) : p.afterAll [] = p := rfl

@[simp] theorem afterAll_cons (p : Location) (c : Char) (cs : List Char) :
    p.afterAll (c :: cs) = (p.after c).afterAll cs := rfl

theorem afterAll_append (p : Location) (cs ds : List Char) :
    p.afterAll (cs ++ ds) = (p.afterAll cs).afterAll ds := List.foldl_append

@[simp] theorem offset_after (p : Location) (c : Char) :
    (p.after c).offset = p.offset + c.utf8Size := by
  unfold after; split <;> rfl

end Location

end HtmlQuery
