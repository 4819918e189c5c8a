import HtmlQuery.Element.Rules
import HtmlQuery.Element.Strainer
import HtmlQuery.Token.Scanner
import HtmlQuery.Tree.Edit

/-!
# Building a tree

One forward pass over the tokens with one insertion point. A start tag of an ordinary element moves the
point into the element, its end tag moves it out again, and some start tags end an open element whose end
tag was left out. Nothing fails: an end tag that closes nothing is passed over.
-/

namespace HtmlQuery

/-- How a document is read. -/
structure ParseOptions where
  /-- Which names are made lower case. -/
  folding : Folding
  /-- Which elements are kept; all of them where there is no strainer. -/
  strainer : Option Strainer
  /-- Whether nodes keep where they started. -/
  locations : Bool
  /-- Whether the input is XML: no tag ends another, and only `/>` makes an element empty. -/
  xml : Bool

/-- What a node that starts at a place notes of it. -/
def ParseOptions.note (o : ParseOptions) (place : Location) : Option Location :=
  if o.locations then some place else none

/-- HTML with names in lower case, everything kept, without locations. -/
def ParseOptions.default : ParseOptions := ⟨.all, none, false, false⟩

/-- A tree under construction, and the node that takes what comes next. -/
structure Builder where
  tree : Tree
  current : NodeId

namespace Builder

def empty : Builder := ⟨.empty, Tree.root⟩

/-- Adds a node under another and leaves the insertion point alone. -/
def addUnder (b : Builder) (parent : NodeId) (kind : NodeKind) (location : Option Location) :
    Builder :=
  { b with tree := (b.tree.alloc kind location).attach parent b.tree.size }

/-- Adds a node at the insertion point. -/
def add (b : Builder) (kind : NodeKind) (location : Option Location) : Builder :=
  b.addUnder b.current kind location

/-- Adds text at the insertion point; it joins a text that comes right before it. -/
def addText (b : Builder) (data : String) (location : Option Location) : Builder :=
  if data.isEmpty then b
  else
    match (b.tree.children b.current).getLast? with
    | none => b.add (.text data) location
    | some last =>
      match b.tree.text? last with
      | some before => { b with tree := b.tree.setKind last (.text (before ++ data)) }
      | none => b.add (.text data) location

/-- The insertion point and the nodes around it, innermost first, the document left out. -/
def openNodes (b : Builder) : List NodeId :=
  (b.tree.climb b.tree.size (some b.current)).takeWhile (· ≠ Tree.root)

/-- Moves the insertion point out of the innermost open element with a tag. -/
def close (b : Builder) (tag : String) : Builder :=
  match b.openNodes.find? (fun n => b.tree.tag? n == some tag) with
  | some n => { b with current := (b.tree.parent n).getD Tree.root }
  | none => b

/-- Moves the insertion point out of an element that the start tag `tag` ends. -/
def closeFor (b : Builder) (tag : String) : Builder :=
  match b.tree.tag? b.current with
  | some opened =>
    if Rules.closesImplicitly opened tag then
      { b with current := (b.tree.parent b.current).getD Tree.root }
    else b
  | none => b

/-- Adds an element with its verbatim content, if it has any, and moves the insertion point into it if it
takes ordinary content. -/
def addElement (b : Builder) (e : Element) (model : ContentModel) (content : Option String)
    (location : Option Location) : Builder :=
  let n := b.tree.size
  let b := b.add (.element e) location
  let b := match content with
    | some data => if data.isEmpty then b else b.addUnder n (.text data) none
    | none => b
  if model = .normal then { b with current := n } else b

/-- Whether the options keep an element with a text. -/
def keeps (o : ParseOptions) (e : Element) (text : String) : Bool :=
  match o.strainer with
  | some strainer => strainer.accepts e text
  | none => true

/-- Takes a token that starts at a place; the scanner behind the token gives the content of verbatim
elements. -/
def take (o : ParseOptions) (b : Builder) (token : Token) (place : Location) (s : Scanner) :
    Builder × Scanner :=
  match token with
  | .text data => (b.addText data (o.note place), s)
  | .comment data => (b.add (.comment data) (o.note place), s)
  | .doctype data => (b.add (.doctype data) (o.note place), s)
  | .endTag tag => (b.close tag, s)
  | .startTag tag attributes selfClosing =>
    let b := if o.xml then b else b.closeFor tag
    let model := Rules.contentModel tag selfClosing o.xml
    let (content, s) := s.content? model tag
    let e := Element.ofAttributes tag attributes
    if keeps o e (content.getD "") then (b.addElement e model content (o.note place), s)
    else (b, s)

theorem take_length (o : ParseOptions) (b : Builder) (token : Token) (place : Location)
    (s : Scanner) : (b.take o token place s).2.cursor.rest.length ≤ s.cursor.rest.length := by
  cases token with
  | startTag tag attributes selfClosing =>
    rw [take]
    simp only
    split <;> exact Scanner.content?_length ..
  | _ => exact Nat.le_refl _

/-- Takes all tokens from a scanner on. -/
def run (o : ParseOptions) (b : Builder) (s : Scanner) : Builder :=
  match _h : s.next with
  | (none, _) => b
  | (some (token, place), s') =>
    run o (b.take o token place s').1 (b.take o token place s').2
termination_by s.cursor.rest.length
decreasing_by exact Nat.lt_of_le_of_lt (take_length ..) (Scanner.next_shorter _h)

end Builder

/-- The tree of a text. -/
def Tree.parse (html : String) (o : ParseOptions) : Tree :=
  (Builder.run o .empty (.ofString html o.folding)).tree

end HtmlQuery
