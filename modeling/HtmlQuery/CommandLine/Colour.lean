import HtmlQuery.Tree.Outline

/-!
# Coloured outlines

Outlines for a terminal. A style wraps a text in the control sequences that switch it on and off again. Main
statement: without its styles a coloured line is the line of the outline (`plain_linePieces`), so colour adds
nothing but colour.
-/

namespace HtmlQuery.CommandLine

/-- A way of showing text. -/
inductive Style where
  | bold
  | dim
  | green
  | yellow
  | magenta
  | cyan
  | grey
  deriving DecidableEq, Repr

namespace Style

/-- The number that switches a style on. -/
def onCode : Style → Nat
  | bold => 1
  | dim => 2
  | green => 32
  | yellow => 33
  | magenta => 35
  | cyan => 36
  | grey => 90

/-- The number that switches a style off: colours go back to the default colour, the others end all. -/
def offCode : Style → Nat
  | bold => 0
  | dim => 0
  | _ => 39

def control (code : Nat) : String := "\x1b[" ++ toString code ++ "m"

def wrap (s : Style) (text : String) : String := control s.onCode ++ text ++ control s.offCode

end Style

/-- A text with the styles around it, the outermost first. -/
structure Piece where
  styles : List Style
  text : String
  deriving DecidableEq, Repr

namespace Piece

def plainText (text : String) : Piece := ⟨[], text⟩

def render (p : Piece) : String := p.styles.foldr Style.wrap p.text

def plain (ps : List Piece) : String := String.join (ps.map Piece.text)

end Piece

/-- An attribute inside a tag of a coloured outline. -/
def attributePieces (a : Attribute) : List Piece :=
  if a.value.isEmpty then [.plainText " ", ⟨[.yellow], a.name⟩]
  else [.plainText " ", ⟨[.yellow], a.name⟩, .plainText "=\"", ⟨[.green], a.value⟩, .plainText "\""]

/-- The line of a node in a coloured outline, without its indentation. -/
def linePieces : NodeKind → List Piece
  | .document => [⟨[.bold], "Document"⟩]
  | .element e =>
    [⟨[.dim], "<"⟩, ⟨[.bold, .cyan], e.tag⟩] ++ e.attributes.toList.flatMap attributePieces
      ++ [⟨[.dim], ">"⟩]
  | .text data => [.plainText ("\"" ++ Reference.showBlanks data ++ "\"")]
  | .comment data => [⟨[.grey], "<!--" ++ data ++ "-->"⟩]
  | .doctype data => [⟨[.magenta], "<!DOCTYPE " ++ data ++ ">"⟩]

/-- Without its styles a coloured line is the line of the outline. -/
theorem plain_linePieces (kind : NodeKind) : Piece.plain (linePieces kind) = kind.describe := by
  have hattribute (a : Attribute) : Piece.plain (attributePieces a) = a.describe := by
    rw [attributePieces, Attribute.describe]
    split <;> simp [Piece.plain, Piece.plainText, String.append_assoc]
  have hattributes (as : List Attribute) :
      Piece.plain (as.flatMap attributePieces) = String.join (as.map Attribute.describe) := by
    induction as with
    | nil => rfl
    | cons a as ih =>
      rw [List.flatMap_cons, List.map_cons, String.join_cons, ← ih, ← hattribute]
      simp only [Piece.plain, List.map_append, String.join_append]
  cases kind with
  | element e =>
    rw [NodeKind.describe, ← hattributes]
    simp [linePieces, Piece.plain, String.append_assoc]
  | _ => simp [linePieces, Piece.plain, Piece.plainText, NodeKind.describe]

def placePieces (place : Location) : List Piece := [.plainText " ", ⟨[.dim], "@" ++ place.toString⟩]

/-- The pieces of a node's line: with its place where that is asked for and known. -/
def nodePieces (node : Node) (showPlaces : Bool) : List Piece :=
  linePieces node.kind ++
    match node.location with
    | some place => if showPlaces then placePieces place else []
    | none => []

/-- The coloured line of a node at a depth, with its line feed. -/
def colouredLine (t : Tree) (showPlaces : Bool) (n : NodeId) (depth : Nat) : String :=
  match t.get? n with
  | some node =>
    indent depth ++ String.join ((nodePieces node showPlaces).map Piece.render) ++ "\n"
  | none => ""

/-- The coloured outline of a node and all nodes under it. -/
def colouredOutline (t : Tree) (n : NodeId) (showPlaces : Bool) : String :=
  String.join ((t.levels n).map fun (m, depth) => colouredLine t showPlaces m depth)

end HtmlQuery.CommandLine
