import HtmlQuery.Element.Attributes

/-!
# Tokens

The pieces into which markup falls: start and end tags, text, comments and document types.
-/

namespace HtmlQuery

/-- A piece of markup. Attribute values and text are decoded, comments and document types are without their
delimiters. -/
inductive Token where
  /-- `<name attribute=value …>`, or with `/>` at its end. -/
  | startTag (name : String) (attributes : Attributes) (selfClosing : Bool)
  /-- `</name>`. The name is empty in `</>`. -/
  | endTag (name : String)
  /-- Text between tags. -/
  | text (data : String)
  /-- A comment. -/
  | comment (data : String)
  /-- A document type. -/
  | doctype (data : String)
  deriving DecidableEq, Repr

/-- Which names are made lower case as they are read: those of tags by ASCII's rule, those of attributes by
Unicode's. -/
structure Folding where
  tags : Bool
  attributes : Bool
  deriving DecidableEq, Repr

def Folding.all : Folding := ⟨true, true⟩

end HtmlQuery
