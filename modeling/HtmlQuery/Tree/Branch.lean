import HtmlQuery.Tree.Basic

/-!
# Labelled trees

What a document says apart from how its nodes are numbered and linked: an ordered tree of payloads.
`Tree.branch` reads it off the array of nodes. Two documents with equal branches are written alike.
-/

namespace HtmlQuery

/-- A payload with the branches under it. -/
inductive Branch where
  | node (kind : NodeKind) (children : List Branch)

namespace Branch

/-- The payload on top. -/
def kind : Branch → NodeKind
  | node kind _ => kind

/-- The branches under the top. -/
def children : Branch → List Branch
  | node _ children => children

end Branch

namespace Tree

/-- The branch at a node, cut off at a depth. A number that names no node has none. -/
def branchTo (t : Tree) : Nat → NodeId → Option Branch
  | 0, n => (t.kind? n).map (.node · [])
  | depth + 1, n =>
    (t.kind? n).map fun kind => .node kind ((t.children n).filterMap (t.branchTo depth))

/-- The branch at a node. A branch that ends is no deeper than the tree has nodes. -/
def branch? (t : Tree) (n : NodeId) : Option Branch := t.branchTo t.size n

end Tree

end HtmlQuery
