/-!
# Rules of elements

What the names of HTML elements say about markup: which elements have no content, which are read
verbatim, and which start tags end an open element whose end tag was left out. All names are in lower
case.
-/

namespace HtmlQuery

/-- How the content of an element is read. -/
inductive ContentModel where
  /-- Ordinary content: what follows goes into the element. -/
  | normal
  /-- No content at all. -/
  | void
  /-- Text taken as it stands up to the closing tag. -/
  | rawText
  /-- Text up to the closing tag with its references decoded. -/
  | rcdata
  deriving DecidableEq, Repr

namespace ContentModel

/-- The name of a content model. -/
def name : ContentModel → String
  | normal => "normal"
  | void => "void"
  | rawText => "raw-text"
  | rcdata => "rcdata"

end ContentModel

namespace Rules

/-- Elements that never have content. -/
def voidTags : List String :=
  ["area", "base", "br", "col", "embed", "hr", "img", "input", "link", "meta", "param", "source",
    "track", "wbr"]

def rawTextTags : List String := ["script", "style"]

/-- Elements that hold only text, in which references count. -/
def rcdataTags : List String := ["textarea", "title"]

/-- Start tags that end an open paragraph. -/
def paragraphClosers : List String :=
  ["address", "article", "aside", "blockquote", "details", "div", "dl", "fieldset", "figcaption",
    "figure", "footer", "form", "h1", "h2", "h3", "h4", "h5", "h6", "header", "hgroup", "hr", "main",
    "menu", "nav", "ol", "p", "pre", "section", "table", "ul"]

def isVoid (tag : String) : Bool := voidTags.contains tag

/-- Whether the text of an element is written as it stands. -/
def isRawText (tag : String) : Bool := rawTextTags.contains tag

/-- The elements whose end tag may be left out, each with the start tags that end it. -/
def closers : List (String × List String) :=
  [("li", ["li"]), ("dt", ["dt", "dd"]), ("dd", ["dt", "dd"]), ("p", paragraphClosers),
    ("rt", ["rt", "rp"]), ("rp", ["rt", "rp"]), ("optgroup", ["optgroup"]),
    ("option", ["option", "optgroup"]), ("thead", ["tbody", "tfoot"]), ("tbody", ["tbody", "tfoot"]),
    ("tfoot", ["tbody"]), ("tr", ["tr"]), ("td", ["td", "th"]), ("th", ["td", "th"])]

/-- Whether the start tag `incoming` ends an open element `opened`. -/
def closesImplicitly (opened incoming : String) : Bool :=
  match closers.lookup opened with
  | some tags => tags.contains incoming
  | none => false

/-- The content model of a start tag. In XML only the form `<tag/>` has no content, and no element is
verbatim; in HTML that form has no content either, whatever the tag. -/
def contentModel (tag : String) (selfClosing xml : Bool) : ContentModel :=
  if xml then if selfClosing then .void else .normal
  else if selfClosing || isVoid tag then .void
  else if isRawText tag then .rawText
  else if rcdataTags.contains tag then .rcdata
  else .normal

end Rules

end HtmlQuery
