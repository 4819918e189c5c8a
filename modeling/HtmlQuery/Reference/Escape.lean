import HtmlQuery.Text.Search

/-!
# Escaping

The characters that markup gives a meaning are written as references: `&`, `<` and `>` in text, and the
double quote in attribute values as well.
-/

namespace HtmlQuery.Reference

/-- A character as it is written in text. -/
def escapeTextChar (c : Char) : List Char :=
  if c = '&' then ['&', 'a', 'm', 'p', ';']
  else if c = '<' then ['&', 'l', 't', ';']
  else if c = '>' then ['&', 'g', 't', ';']
  else [c]

/-- A character as it is written between double quotes. -/
def escapeValueChar (c : Char) : List Char :=
  if c = '"' then ['&', 'q', 'u', 'o', 't', ';'] else escapeTextChar c

def escapeText (s : String) : String := String.ofList (s.toList.flatMap escapeTextChar)

/-- A string as an attribute value between double quotes. -/
def escapeValue (s : String) : String := String.ofList (s.toList.flatMap escapeValueChar)

/-- A character as outlines show it: line feeds as an escape, spaces as a middle dot. -/
def showBlank (c : Char) : List Char :=
  if c = '\n' then ['\\', 'n'] else if c = ' ' then ['·'] else [c]

/-- A string with its line feeds and spaces made visible. -/
def showBlanks (s : String) : String := String.ofList (s.toList.flatMap showBlank)

end HtmlQuery.Reference
