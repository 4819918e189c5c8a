import HtmlQuery.Text.AsciiCase

/-!
# Signed 64-bit numbers

Integers with the range of 64 bits, signed: reading one from its decimal digits, and arithmetic that gives
nothing where the result leaves the range. Division goes toward zero.
-/

namespace HtmlQuery.Int64Range

def least : Int := -0x8000000000000000

def greatest : Int := 0x7FFFFFFFFFFFFFFF

def holds (n : Int) : Bool := least ≤ n && n ≤ greatest

def check (n : Int) : Option Int := if holds n then some n else none

def sub? (m n : Int) : Option Int := check (m - n)

/-- The quotient toward zero: none by zero, or if it leaves the range. -/
def div? (m n : Int) : Option Int := if n = 0 then none else check (m.tdiv n)

/-- The remainder with the sign of the dividend: none where the quotient is none. -/
def rem? (m n : Int) : Option Int := (div? m n).map fun _ => m.tmod n

/-- The number that a run of decimal digits writes. -/
def digitsValue (digits : List Char) : Nat :=
  digits.foldl (fun n c => n * 10 + (c.toNat - '0'.toNat)) 0

/-- The digits of a number without its sign, and whether the sign is a minus. -/
def splitSign : List Char → Bool × List Char
  | '-' :: digits => (true, digits)
  | '+' :: digits => (false, digits)
  | digits => (false, digits)

/-- Reads an optionally signed run of decimal digits, if the number is in the range. -/
def ofDigits? (cs : List Char) : Option Int :=
  let (negative, digits) := splitSign cs
  if digits.isEmpty || !digits.all Text.isAsciiDigit then none
  else check (if negative then -(digitsValue digits : Int) else digitsValue digits)

end HtmlQuery.Int64Range
