import HtmlQuery.Tree.Basic

/-!
# Editing a tree

`attach` and `detach` change links without a question. The checked operations refuse what would leave the
tree broken, and say why. Node 0 is never moved, a node has one parent at most, and nothing may become its
own ancestor.
-/

namespace HtmlQuery

/-- Why an edit was refused. -/
inductive EditError where
  /-- The index names no node. -/
  | unknownNode (node : NodeId)
  /-- Only elements have attributes. -/
  | notAnElement (node : NodeId)
  /-- Only the document and elements have children. -/
  | notAContainer (node : NodeId)
  /-- The node would come under itself, or it is the document. -/
  | hierarchy (parent child : NodeId)
  /-- The node is not a child of that parent. -/
  | notAChild (parent child : NodeId)
  deriving DecidableEq, Repr

namespace EditError

/-- The text of a refusal. -/
def message : EditError → String
  | unknownNode n => "node " ++ toString n ++ " does not exist in this tree"
  | notAnElement n => "node " ++ toString n ++ " is not an element"
  | notAContainer n => "node " ++ toString n ++ " cannot have children"
  | hierarchy p c => "cannot insert node " ++ toString c ++ " under node " ++ toString p
  | notAChild p c => "node " ++ toString c ++ " is not a child of node " ++ toString p

end EditError

namespace Tree

/-! ## Ancestors -/

/-- The nodes met by following parents from `n?` on, at most `fuel` of them. -/
def climb (t : Tree) : Nat → Option NodeId → List NodeId
  | 0, _ => []
  | _, none => []
  | fuel + 1, some n => n :: t.climb fuel (t.parent n)

/-- The ancestors of a node, the nearest first. A chain of parents that ends is no longer than
the tree has nodes; one that does not end has passed all its nodes by then. -/
def ancestors (t : Tree) (n : NodeId) : List NodeId := t.climb t.size (t.parent n)

def isDescendantOf (t : Tree) (n ancestor : NodeId) : Bool := (t.ancestors n).contains ancestor

/-! ## Links -/

/-- Makes `next` follow `prev`, as far as the two are there. -/
def join (t : Tree) (prev next : Option NodeId) : Tree :=
  let t := match prev with
    | some p => t.modify p fun node => { node with next := next }
    | none => t
  match next with
  | some n => t.modify n fun node => { node with prev := prev }
  | none => t

/-- Takes a node out of its parent. A node without a parent stays as it is. -/
def detach (t : Tree) (n : NodeId) : Tree :=
  match t.get? n with
  | none => t
  | some node =>
    match node.parent with
    | none => t
    | some parent =>
      let t := t.modify n fun node => { node with parent := none, prev := none, next := none }
      let t := t.modify parent fun node => { node with children := node.children.filter (· ≠ n) }
      t.join node.prev node.next

/-- Makes a node the last child of a parent, and takes it out of its old parent first. -/
def attach (t : Tree) (parent child : NodeId) : Tree :=
  let t := t.detach child
  let last := (t.children parent).getLast?
  let t := t.modify parent fun node => { node with children := node.children ++ [child] }
  let t := t.modify child fun node => { node with parent := some parent }
  match last with
  | some prev =>
    let t := t.modify prev fun node => { node with next := some child }
    t.modify child fun node => { node with prev := some prev }
  | none => t

/-- Sets the sibling links of the nodes of a list that follows `prev`. -/
def relink (t : Tree) (prev : Option NodeId) : List NodeId → Tree
  | [] => t
  | n :: rest =>
    (t.modify n fun node => { node with prev := prev, next := rest.head? }).relink (some n) rest

/-- A list with `new` put before the first occurrence of `mark`. -/
def putBefore (mark new : NodeId) : List NodeId → List NodeId
  | [] => []
  | n :: rest => if n = mark then new :: n :: rest else n :: putBefore mark new rest

/-- Makes a node the child of a parent in front of another child. -/
def attachBefore (t : Tree) (parent child mark : NodeId) : Tree :=
  let t := t.modify parent fun node =>
    { node with children := putBefore mark child node.children }
  let t := t.modify child fun node => { node with parent := some parent }
  t.relink none (t.children parent)

/-! ## Unchecked edits by handle -/

/-- `attach` for handles that must name nodes. -/
def attach? (t : Tree) (parent child : NodeId) : Option Tree :=
  if t.has parent && t.has child then some (t.attach parent child) else none

/-- `detach` for a handle that must name a node. -/
def detach? (t : Tree) (n : NodeId) : Option Tree :=
  if t.has n then some (t.detach n) else none

/-! ## Checked edits -/

/-- Why `child` may not come under `parent`, if so. -/
def insertionFault? (t : Tree) (parent child : NodeId) : Option EditError :=
  match t.kind? parent with
  | none => some (.unknownNode parent)
  | some kind =>
    if !kind.isContainer then some (.notAContainer parent)
    else if !t.has child then some (.unknownNode child)
    else if child = root || child = parent || t.isDescendantOf parent child then
      some (.hierarchy parent child)
    else none

abbrev Edited (α : Type) := Except EditError α × Tree

/-- Makes a node the last child of a parent. -/
def append (t : Tree) (parent child : NodeId) : Edited Unit :=
  match t.insertionFault? parent child with
  | some fault => (.error fault, t)
  | none => (.ok (), t.attach parent child)

/-- Makes a node a child of a parent in front of `mark`, or the last one where there is no mark. A node in
front of itself stays where it is. -/
def insertBefore (t : Tree) (parent child : NodeId) (mark : Option NodeId) : Edited Unit :=
  match t.insertionFault? parent child, mark with
  | some fault, _ => (.error fault, t)
  | none, none => (.ok (), t.attach parent child)
  | none, some mark =>
    if mark = child then (.ok (), t)
    else if t.parent mark ≠ some parent then (.error (.notAChild parent mark), t)
    else
      let t := t.detach child
      if (t.children parent).contains mark then (.ok (), t.attachBefore parent child mark)
      else (.error (.notAChild parent mark), t)

/-- Takes a child out of a parent; answers the child. -/
def removeChild (t : Tree) (parent child : NodeId) : Edited NodeId :=
  if !t.has parent then (.error (.unknownNode parent), t)
  else if !t.has child then (.error (.unknownNode child), t)
  else if t.parent child ≠ some parent then (.error (.notAChild parent child), t)
  else (.ok child, t.detach child)

/-- Puts a payload in the place of another. -/
def setKind (t : Tree) (n : NodeId) (kind : NodeKind) : Tree :=
  t.modify n fun node => { node with kind := kind }

/-- Changes the element at a node; answers what `ask` finds in it before. -/
def editElement {α : Type} (t : Tree) (n : NodeId) (ask : Element → α)
    (change : Element → Element) : Edited α :=
  match t.kind? n with
  | none => (.error (.unknownNode n), t)
  | some (.element data) => (.ok (ask data), t.setKind n (.element (change data)))
  | some _ => (.error (.notAnElement n), t)

/-- Sets an attribute of an element; answers the value it had before. -/
def setAttribute (t : Tree) (n : NodeId) (name value : String) : Edited (Option String) :=
  t.editElement n (·.get? name) (·.set name value)

/-- Takes an attribute of an element away; answers the value it had. -/
def removeAttribute (t : Tree) (n : NodeId) (name : String) : Edited (Option String) :=
  t.editElement n (·.get? name) (·.erase name)

/-- Renames the element at a node; answers whether there is one. -/
def setTag (t : Tree) (n : NodeId) (tag : String) : Bool × Tree :=
  match t.kind? n with
  | some (.element data) => (true, t.setKind n (.element { data with tag := tag }))
  | _ => (false, t)

/-- Gives a text, comment or document type a new payload; answers whether the node is one. -/
def setData (t : Tree) (n : NodeId) (data : String) : Bool × Tree :=
  match t.kind? n with
  | some (.text _) => (true, t.setKind n (.text data))
  | some (.comment _) => (true, t.setKind n (.comment data))
  | some (.doctype _) => (true, t.setKind n (.doctype data))
  | _ => (false, t)

end Tree

end HtmlQuery
