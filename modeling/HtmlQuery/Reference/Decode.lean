import HtmlQuery.Reference.Table
import HtmlQuery.Text.AsciiCase
import HtmlQuery.Text.Whitespace

/-!
# Decoding character references

`reference?` reads what may follow an ampersand: a name, or a number in either base, up to a semicolon.
`decode` replaces every reference of a text in one pass and never looks at a replacement again. Main
statement: text without an ampersand stays as it is (`decode_of_not_mem`).
-/

namespace HtmlQuery.Reference

/-- The value of a digit in base sixteen or less. -/
def digitValue (c : Char) : Nat :=
  if Text.isAsciiDigit c then c.toNat - '0'.toNat
  else if 'a' ≤ c ∧ c ≤ 'f' then c.toNat - 'a'.toNat + 10
  else c.toNat - 'A'.toNat + 10

/-- A number with one more digit behind it, if it fits in 32 bits. -/
def addDigit? (base n : Nat) (c : Char) : Option Nat :=
  if n * base + digitValue c < UInt32.size then some (n * base + digitValue c) else none

/-- The number that a run of digits writes, if it fits in 32 bits. Zeros in front do not count. -/
def number? (base : Nat) (digits : List Char) : Option Nat := digits.foldlM (addDigit? base) 0

/-- A digit of base sixteen. -/
def isHexDigit (c : Char) : Bool :=
  Text.isAsciiDigit c || ('a' ≤ c && c ≤ 'f') || ('A' ≤ c && c ≤ 'F')

def isAsciiAlphanumeric (c : Char) : Bool := Text.isAsciiLetter c || Text.isAsciiDigit c

/-- The character with a code point: none for zero, surrogates and numbers past the last plane. -/
def scalar? (n : Nat) : Option Char :=
  if n ≠ 0 ∧ n.isValidChar then some (Char.ofNat n) else none

/-- The character whose code a run of digits writes. -/
def numbered? (base : Nat) (digits : List Char) : Option Char := (number? base digits).bind scalar?

/-- The number in front of a text, up to its semicolon, and the text behind that. -/
def numeric? (base : Nat) (isDigit : Char → Bool) (cs : List Char) :
    Option (List Char × List Char) :=
  match cs.dropWhile isDigit with
  | ';' :: rest =>
    if (cs.takeWhile isDigit).isEmpty then none
    else some ((numbered? base (cs.takeWhile isDigit)).toList, rest)
  | _ => none

/-- The name in front of a text, up to its semicolon, and the text behind that. A name that is not in the
table stands for itself, ampersand and semicolon included. -/
def named? (cs : List Char) : Option (List Char × List Char) :=
  match cs.dropWhile isAsciiAlphanumeric with
  | ';' :: rest =>
    let name := cs.takeWhile isAsciiAlphanumeric
    match lookup (String.ofList name) with
    | some c => some ([c], rest)
    | none => some ('&' :: name ++ [';'], rest)
  | _ => none

/-- Reads the rest of a reference, whose ampersand has been read: what it stands for, and the text behind
it. There is none where the text does not go on like a complete reference. -/
def reference? : List Char → Option (List Char × List Char)
  | '#' :: 'x' :: cs => numeric? 16 isHexDigit cs
  | '#' :: 'X' :: cs => numeric? 16 isHexDigit cs
  | '#' :: cs => numeric? 10 Text.isAsciiDigit cs
  | c :: cs => if Text.isAsciiLetter c then named? (c :: cs) else none
  | [] => none

/-! ## A reference is not empty -/

theorem numeric?_shorter {base : Nat} {isDigit : Char → Bool} {cs r rest : List Char}
    (h : numeric? base isDigit cs = some (r, rest)) : rest.length < cs.length := by
  unfold numeric? at h
  split at h
  · rename_i tail htail
    split at h
    · simp at h
    · simp only [Option.some.injEq, Prod.mk.injEq] at h
      have hle := (List.dropWhile_suffix (l := cs) isDigit).length_le
      rw [htail, h.2] at hle
      exact Nat.lt_of_succ_le hle
  · simp at h

theorem named?_shorter {cs r rest : List Char} (h : named? cs = some (r, rest)) :
    rest.length < cs.length := by
  unfold named? at h
  split at h
  · rename_i tail htail
    have hle := (List.dropWhile_suffix (l := cs) isAsciiAlphanumeric).length_le
    rw [htail] at hle
    simp only at h
    split at h <;>
    · simp only [Option.some.injEq, Prod.mk.injEq] at h
      rw [h.2] at hle
      exact Nat.lt_of_succ_le hle
  · simp at h

/-- What follows a reference is shorter than what follows its ampersand. -/
theorem reference?_shorter {cs r rest : List Char} (h : reference? cs = some (r, rest)) :
    rest.length < cs.length := by
  unfold reference? at h
  split at h
  · exact Nat.lt_trans (numeric?_shorter h) (by simp only [List.length_cons]; omega)
  · exact Nat.lt_trans (numeric?_shorter h) (by simp only [List.length_cons]; omega)
  · exact Nat.lt_trans (numeric?_shorter h) (by simp)
  · split at h
    · exact named?_shorter h
    · simp at h
  · simp at h

/-! ## Decoding -/

/-- The text with every complete reference replaced by what it stands for. -/
def decode (cs : List Char) : List Char :=
  match cs with
  | [] => []
  | c :: rest =>
    if c = '&' then
      match _h : reference? rest with
      | some (replacement, after) => replacement ++ decode after
      | none => '&' :: decode rest
    else c :: decode rest
termination_by cs.length
decreasing_by
  · have := reference?_shorter _h
    simp only [List.length_cons]
    omega
  · simp
  · simp

def decodeString (s : String) : String := String.ofList (decode s.toList)

theorem decode_cons_of_ne {c : Char} (h : c ≠ '&') (cs : List Char) :
    decode (c :: cs) = c :: decode cs := by
  rw [decode, if_neg h]

theorem decode_of_not_mem {cs : List Char} (h : '&' ∉ cs) : decode cs = cs := by
  induction cs with
  | nil => rw [decode]
  | cons c cs ih =>
    rw [List.mem_cons, not_or] at h
    rw [decode_cons_of_ne (Ne.symm h.1), ih h.2]

end HtmlQuery.Reference
