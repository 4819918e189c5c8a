import HtmlQuery.Text.Quoted

/-!
# JSON text

Values of JSON and their printed form over several lines, two spaces for each level. Strings escape quotes,
backslashes and control characters, and show everything else as it is.
-/

namespace HtmlQuery.CommandLine

/-- A value of JSON without fractions and truth values, which summaries do not need. -/
inductive Json where
  | number (n : Nat)
  | string (s : String)
  | array (items : List Json)
  | object (fields : List (String × Json))

namespace Json

/-- A control character by number. -/
def escapeByNumber (c : Char) : List Char :=
  let digits := Text.hexDigits c.toNat
  '\\' :: 'u' :: List.replicate (4 - digits.length) '0' ++ digits

/-- A character inside a string. -/
def escapeChar (c : Char) : List Char :=
  if c = '"' then ['\\', '"']
  else if c = '\\' then ['\\', '\\']
  else if c = '\n' then ['\\', 'n']
  else if c = '\r' then ['\\', 'r']
  else if c = '\t' then ['\\', 't']
  else if c = '\x08' then ['\\', 'b']
  else if c = '\x0C' then ['\\', 'f']
  else if c.toNat < 0x20 then escapeByNumber c
  else [c]

/-- A string between quotes. -/
def renderString (s : String) : String :=
  String.ofList ('"' :: s.toList.flatMap escapeChar ++ ['"'])

def newLine (level : Nat) : String := "\n" ++ String.ofList (List.replicate (2 * level) ' ')

mutual

/-- The printed form of a value that starts at a level. -/
def render (level : Nat) : Json → String
  | number n => toString n
  | string s => renderString s
  | array [] => "[]"
  | array (item :: items) =>
    "[" ++ newLine (level + 1) ++ render (level + 1) item ++ renderItems (level + 1) items
      ++ newLine level ++ "]"
  | object [] => "\x7b\x7d"
  | object ((name, value) :: fields) =>
    "\x7b" ++ newLine (level + 1) ++ renderString name ++ ": " ++ render (level + 1) value
      ++ renderFields (level + 1) fields ++ newLine level ++ "\x7d"

/-- The printed form of the items behind the first one. -/
def renderItems (level : Nat) : List Json → String
  | [] => ""
  | item :: items => "," ++ newLine level ++ render level item ++ renderItems level items

/-- The printed form of the fields behind the first one. -/
def renderFields (level : Nat) : List (String × Json) → String
  | [] => ""
  | (name, value) :: fields =>
    "," ++ newLine level ++ renderString name ++ ": " ++ render level value
      ++ renderFields level fields

end

def pretty (j : Json) : String := render 0 j

end Json

end HtmlQuery.CommandLine
