import HtmlQuery.Reference.Escape
import HtmlQuery.Tree.Walk

/-!
# Outlines

The indented view of a tree for people: one line for each node, two spaces for each level. Text shows its
line feeds and spaces, so that blank nodes can be seen.
-/

namespace HtmlQuery

/-- An attribute inside a tag of an outline: its name alone, or its name and its value as it is. -/
def Attribute.describe (a : Attribute) : String :=
  if a.value.isEmpty then " " ++ a.name else " " ++ a.name ++ "=\"" ++ a.value ++ "\""

/-- The line of a node in an outline, without its indentation. -/
def NodeKind.describe : NodeKind → String
  | document => "Document"
  | element e => "<" ++ e.tag ++ String.join (e.attributes.toList.map Attribute.describe) ++ ">"
  | text data => "\"" ++ Reference.showBlanks data ++ "\""
  | comment data => "<!--" ++ data ++ "-->"
  | doctype data => "<!DOCTYPE " ++ data ++ ">"

def indent (depth : Nat) : String := String.ofList (List.replicate (2 * depth) ' ')

namespace Tree

def describe? (t : Tree) (n : NodeId) : Option String := (t.kind? n).map NodeKind.describe

/-- The line of a node at a depth, with its line feed. -/
def outlineLine (t : Tree) (n : NodeId) (depth : Nat) : String :=
  match t.describe? n with
  | some line => indent depth ++ line ++ "\n"
  | none => ""

/-- The outline of a node and all nodes under it. -/
def outline (t : Tree) (n : NodeId) : String :=
  String.join ((t.levels n).map fun (m, depth) => t.outlineLine m depth)

end Tree

end HtmlQuery
