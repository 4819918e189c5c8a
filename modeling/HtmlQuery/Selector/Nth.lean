import HtmlQuery.Text.Int64
import HtmlQuery.Text.Whitespace

/-!
# Position formulas

The formulas `an+b` of the `:nth-…` pseudo-classes over 64-bit numbers. A formula selects the positions
`a * k + b` for `k = 0, 1, 2, …`; where the arithmetic leaves 64 bits it selects nothing.
-/

namespace HtmlQuery

/-- The formula with step `a` and offset `b`. -/
structure NthFormula where
  a : Int
  b : Int
  deriving DecidableEq, Repr

namespace NthFormula

/-- The text of a formula as it is read: without blanks and in lower case. -/
def normalize (s : String) : List Char :=
  (s.toList.filter (!Text.isWhitespace ·)).map Char.toLower

/-- The coefficient of `n`, where a bare sign, or nothing, stands for one. -/
def step? : List Char → Option Int
  | [] => some 1
  | ['+'] => some 1
  | ['-'] => some (-1)
  | cs => Int64Range.ofDigits? cs

/-- The offset behind `n`, which has a sign unless it is left out. -/
def offset? : List Char → Option Int
  | [] => some 0
  | '+' :: cs => Int64Range.ofDigits? ('+' :: cs)
  | '-' :: cs => Int64Range.ofDigits? ('-' :: cs)
  | _ => none

/-- Reads `odd`, `even`, a number or `an+b` from a normalized text. -/
def ofNormal? (cs : List Char) : Option NthFormula :=
  if cs = ['o', 'd', 'd'] then some ⟨2, 1⟩
  else if cs = ['e', 'v', 'e', 'n'] then some ⟨2, 0⟩
  else
    match cs.dropWhile (· ≠ 'n') with
    | [] => (Int64Range.ofDigits? cs).map (⟨0, ·⟩)
    | _ :: behind =>
      (step? (cs.takeWhile (· ≠ 'n'))).bind fun a => (offset? behind).map (⟨a, ·⟩)

/-- Reads a formula. Blanks are passed over and case does not matter. -/
def parse? (s : String) : Option NthFormula := ofNormal? (normalize s)

/-- Whether a formula selects a position, which counts from one. -/
def selects (f : NthFormula) (n : Int) : Bool :=
  if f.a = 0 then n = f.b
  else
    match Int64Range.sub? n f.b with
    | none => false
    | some diff =>
      match Int64Range.rem? diff f.a, Int64Range.div? diff f.a with
      | some 0, some k => 0 ≤ k
      | _, _ => false

end NthFormula

end HtmlQuery
