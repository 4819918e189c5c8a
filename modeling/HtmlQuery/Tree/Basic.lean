import HtmlQuery.Element.Basic
import HtmlQuery.Source.Location

/-!
# Document trees

A tree is an array of nodes that name each other by index. Node 0 is the document. A node that was taken
out of the tree stays in the array without a parent. Looking a node up by a number that names none gives
`none`, and every view of such a node is empty.
-/

namespace HtmlQuery

abbrev NodeId := Nat

/-- What a node is, with its payload. -/
inductive NodeKind where
  /-- The document itself. -/
  | document
  /-- An element. -/
  | element (data : Element)
  /-- A run of text. -/
  | text (data : String)
  /-- A comment, without its delimiters. -/
  | comment (data : String)
  /-- A document type, without its delimiters. -/
  | doctype (data : String)
  deriving DecidableEq, Repr

/-- A node with its links. -/
structure Node where
  kind : NodeKind
  parent : Option NodeId
  children : List NodeId
  next : Option NodeId
  prev : Option NodeId
  location : Option Location
  deriving DecidableEq, Repr

/-- The nodes of a document, in the order in which they were made. -/
structure Tree where
  nodes : Array Node
  deriving DecidableEq, Repr

namespace NodeKind

/-- Whether nodes of this kind may have children. -/
def isContainer : NodeKind → Bool
  | document => true
  | element _ => true
  | text _ => false
  | comment _ => false
  | doctype _ => false

/-- The element of an element node. -/
def element? : NodeKind → Option Element
  | element data => some data
  | _ => none

/-- The text of a text node. -/
def text? : NodeKind → Option String
  | text data => some data
  | _ => none

/-- The body of a comment. -/
def comment? : NodeKind → Option String
  | comment data => some data
  | _ => none

end NodeKind

/-- A node without links. -/
def Node.detached (kind : NodeKind) (location : Option Location) : Node :=
  ⟨kind, none, [], none, none, location⟩

namespace Tree

def root : NodeId := 0

def empty : Tree := ⟨#[.detached .document none]⟩

/-- The number of nodes, those without a parent included. -/
def size (t : Tree) : Nat := t.nodes.size

def get? (t : Tree) (n : NodeId) : Option Node := t.nodes[n]?

def has (t : Tree) (n : NodeId) : Bool := n < t.size

/-- Changes one node; an index that names none changes nothing. -/
def modify (t : Tree) (n : NodeId) (f : Node → Node) : Tree := ⟨t.nodes.modify n f⟩

/-- Adds a node without links. Its index is the size of the tree before. -/
def alloc (t : Tree) (kind : NodeKind) (location : Option Location) : Tree :=
  ⟨t.nodes.push (.detached kind location)⟩

/-! ## Views of a node -/

def kind? (t : Tree) (n : NodeId) : Option NodeKind := (t.get? n).map (·.kind)

def parent (t : Tree) (n : NodeId) : Option NodeId := (t.get? n).bind (·.parent)

/-- The children of a node. -/
def children (t : Tree) (n : NodeId) : List NodeId :=
  match t.get? n with
  | some node => node.children
  | none => []

def next (t : Tree) (n : NodeId) : Option NodeId := (t.get? n).bind (·.next)

def prev (t : Tree) (n : NodeId) : Option NodeId := (t.get? n).bind (·.prev)

def location (t : Tree) (n : NodeId) : Option Location := (t.get? n).bind (·.location)

def element? (t : Tree) (n : NodeId) : Option Element := (t.kind? n).bind (·.element?)

def text? (t : Tree) (n : NodeId) : Option String := (t.kind? n).bind (·.text?)

def comment? (t : Tree) (n : NodeId) : Option String := (t.kind? n).bind (·.comment?)

def tag? (t : Tree) (n : NodeId) : Option String := (t.element? n).map (·.tag)

def isElement (t : Tree) (n : NodeId) : Bool := (t.element? n).isSome

def elementChildren (t : Tree) (n : NodeId) : List NodeId := (t.children n).filter t.isElement

def documentElement (t : Tree) : Option NodeId := (t.elementChildren root).head?

/-! ## Lemmas -/

@[simp] theorem size_alloc (t : Tree) (kind : NodeKind) (location : Option Location) :
    (t.alloc kind location).size = t.size + 1 := Array.size_push ..

@[simp] theorem size_modify (t : Tree) (n : NodeId) (f : Node → Node) :
    (t.modify n f).size = t.size := Array.size_modify

theorem get?_modify (t : Tree) (n m : NodeId) (f : Node → Node) :
    (t.modify n f).get? m = if n = m then (t.get? m).map f else t.get? m := by
  simp only [get?, modify, Array.getElem?_modify]

theorem get?_alloc (t : Tree) (kind : NodeKind) (location : Option Location) (n : NodeId) :
    (t.alloc kind location).get? n =
      if n = t.size then some (.detached kind location) else t.get? n :=
  Array.getElem?_push

theorem get?_eq_none_iff {t : Tree} {n : NodeId} : t.get? n = none ↔ t.size ≤ n := by
  simp [get?, size]

end Tree

end HtmlQuery
