import HtmlQuery.Element.Rules
import HtmlQuery.Reference.Escape
import HtmlQuery.Text.AsciiCase
import HtmlQuery.Text.Whitespace
import HtmlQuery.Tree.Branch

/-!
# Writing markup

A branch is written as markup in one of four dialects. They differ in document types, in bare and unquoted
attribute values and in the endings of empty elements; text and structure are written alike in all of them.
-/

namespace HtmlQuery

/-- A dialect of markup. -/
inductive Dialect where
  /-- Keeps document types as they are and writes empty values as bare names. -/
  | default
  /-- Leaves quotes out where it can. -/
  | minimal
  /-- Writes `<!DOCTYPE html>` for every document type. -/
  | html5
  /-- Repeats the name of a bare boolean attribute as its value, ends empty elements with ` />` and writes
  the strict XHTML 1.0 document type. -/
  | xhtml
  deriving DecidableEq, Repr

namespace Dialect

/-- The name of a dialect. -/
def name : Dialect → String
  | default => "default"
  | minimal => "minimal"
  | html5 => "html5"
  | xhtml => "xhtml"

def all : List Dialect := [default, minimal, html5, xhtml]

def ofName? (s : String) : Option Dialect := all.find? (Text.eqIgnoringCase ·.name s)

def unknownNameMessage : String := "Matching variant not found"

/-- Attributes that mean something by being there. -/
def booleanAttributes : List String :=
  ["allowfullscreen", "async", "autofocus", "autoplay", "checked", "controls", "default", "defer",
    "disabled", "formnovalidate", "hidden", "ismap", "loop", "multiple", "muted", "nomodule",
    "novalidate", "open", "playsinline", "readonly", "required", "reversed", "selected", "truespeed"]

/-- The strict XHTML 1.0 document type. -/
def xhtmlDoctype : String :=
  "<!DOCTYPE html PUBLIC \"-//W3C//DTD XHTML 1.0 Strict//EN\" " ++
    "\"http://www.w3.org/TR/xhtml1/DTD/xhtml1-strict.dtd\">"

/-- A document type as a dialect writes it. -/
def doctype (d : Dialect) (body : String) : String :=
  match d with
  | html5 => "<!DOCTYPE html>"
  | xhtml => xhtmlDoctype
  | default => "<!DOCTYPE " ++ body ++ ">"
  | minimal => "<!DOCTYPE " ++ body ++ ">"

/-- Whether a character keeps a value from being written without quotes. -/
def needsQuotes (c : Char) : Bool :=
  Text.isAsciiWhitespace c || c = '"' || c = '\'' || c = '=' || c = '<' || c = '>' || c.toNat = 0x60

/-- The part of an attribute behind its name. -/
def writeValue (d : Dialect) (a : Attribute) : List Char :=
  if a.value.isEmpty then
    if d = xhtml && booleanAttributes.contains a.name then
      '=' :: '"' :: a.name.toList ++ ['"']
    else []
  else if d = minimal && !a.value.toList.any needsQuotes then '=' :: a.value.toList
  else '=' :: '"' :: (Reference.escapeValue a.value).toList ++ ['"']

/-- An attribute inside a start tag, with the blank before it. -/
def writeAttribute (d : Dialect) (a : Attribute) : List Char := ' ' :: a.name.toList ++ d.writeValue a

end Dialect

/-- A dialect and whether empty elements end with ` />`; that is XHTML's way unless it is said. -/
structure WriteOptions where
  dialect : Dialect
  selfClosing : Option Bool
  deriving DecidableEq, Repr

namespace WriteOptions

def default : WriteOptions := ⟨.default, none⟩

def ofDialect (d : Dialect) : WriteOptions := ⟨d, none⟩

def closesEmpty (o : WriteOptions) : Bool := o.selfClosing.getD (o.dialect = .xhtml)

end WriteOptions

/-- Text under an element of the given tag. -/
def writeText (parentTag : Option String) (data : String) : List Char :=
  if (parentTag.map Rules.isRawText).getD false then data.toList
  else (Reference.escapeText data).toList

/-- A start tag without its end. -/
def openTag (d : Dialect) (e : Element) : List Char :=
  '<' :: e.tag.toList ++ e.attributes.toList.flatMap d.writeAttribute

namespace Branch

mutual

/-- The markup of a branch under an element of the given tag. -/
def write (o : WriteOptions) (parentTag : Option String) : Branch → List Char
  | node .document children => writeAll o none children
  | node (.text data) _ => writeText parentTag data
  | node (.comment data) _ => "<!--".toList ++ data.toList ++ "-->".toList
  | node (.doctype data) _ => (o.dialect.doctype data).toList
  | node (.element e) children =>
    openTag o.dialect e ++
      if Rules.isVoid e.tag then if o.dialect = .xhtml then " />".toList else ['>']
      else if o.closesEmpty && children.isEmpty then " />".toList
      else '>' :: writeAll o (some e.tag) children ++ "</".toList ++ e.tag.toList ++ ['>']

/-- The markup of branches under an element of the given tag, one after the other. -/
def writeAll (o : WriteOptions) (parentTag : Option String) : List Branch → List Char
  | [] => []
  | b :: bs => write o parentTag b ++ writeAll o parentTag bs

end

end Branch

namespace Tree

/-- The markup of a node and all nodes under it. -/
def write (t : Tree) (n : NodeId) (o : WriteOptions) : String :=
  match t.branch? n with
  | some b => String.ofList (b.write o ((t.parent n).bind t.tag?))
  | none => ""

/-- The markup of all nodes under a node. -/
def writeChildren (t : Tree) (n : NodeId) (o : WriteOptions) : String :=
  String.ofList (Branch.writeAll o (t.tag? n) ((t.children n).filterMap t.branch?))

end Tree

end HtmlQuery
