import HtmlQuery.CommandLine.Json
import HtmlQuery.Tree.Strings

/-!
# Summaries

What the program says of a match in JSON: its index, tag, attributes by name, the start of its text and, where
it is known, its place.
-/

namespace HtmlQuery.CommandLine

def summaryTextLimit : Nat := 200

/-- The attributes in the order of their names, by code point. -/
def attributesByName (e : Element) : List Attribute :=
  e.attributes.toList.mergeSort fun a b => !decide (b.name < a.name)

/-- A place in JSON. -/
def placeJson (place : Location) : Json :=
  .object [("line", .number place.line), ("column", .number place.column),
    ("offset", .number place.offset)]

/-- The start of the text of a node, without blanks around it. -/
def summaryText (t : Tree) (n : NodeId) : String :=
  String.ofList ((Text.trim (t.textContent n).toList).take summaryTextLimit)

/-- The summary of an element; other nodes have none. -/
def summary? (t : Tree) (n : NodeId) : Option Json :=
  (t.element? n).map fun e =>
    .object ([("node", .number n), ("tag", .string e.tag),
      ("attributes", .object ((attributesByName e).map fun a => (a.name, .string a.value))),
      ("text", .string (summaryText t n))]
      ++ (t.location n).toList.map fun place => ("location", placeJson place))

/-- The summaries of a list of nodes. -/
def summaries (t : Tree) (ns : List NodeId) : String :=
  (Json.array (ns.filterMap (summary? t))).pretty

end HtmlQuery.CommandLine
