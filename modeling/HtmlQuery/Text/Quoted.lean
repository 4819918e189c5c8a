import HtmlQuery.Text.UnprintableTable

/-!
# Quoted text

The quoted form in which diagnostics show a string: between double quotes, with a backslash before
quotes and backslashes, short escapes for the common controls, and `\u` with the code point in braces
for every other character that has no glyph of its own.
-/

namespace HtmlQuery.Text

/-- The opening brace, which string literals here write by number. -/
def openBrace : Char := '\x7b'

def closeBrace : Char := '\x7d'

def hexDigits (n : Nat) : List Char := Nat.toDigits 16 n

/-- Whether a quoted text shows the character as it is. -/
def isPrintable (c : Char) : Bool :=
  0x20 ≤ c.toNat && c.toNat ≠ 0x7F && !inRanges unprintableRanges c.toNat

/-- The form of one character inside quotes. -/
def escapeForQuotes (c : Char) : List Char :=
  if c = '\x00' then ['\\', '0']
  else if c = '\t' then ['\\', 't']
  else if c = '\r' then ['\\', 'r']
  else if c = '\n' then ['\\', 'n']
  else if c = '"' then ['\\', '"']
  else if c = '\\' then ['\\', '\\']
  else if isPrintable c then [c]
  else '\\' :: 'u' :: openBrace :: hexDigits c.toNat ++ [closeBrace]

/-- A string in quotes. -/
def quoted (s : String) : String :=
  String.ofList ('"' :: s.toList.flatMap escapeForQuotes ++ ['"'])

end HtmlQuery.Text
