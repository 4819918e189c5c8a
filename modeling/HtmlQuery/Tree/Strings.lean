import HtmlQuery.Tree.Walk

/-!
# Text of a subtree

The text nodes at and under a node, in document order, as a list of strings; all other texts of a node are
made from that list. Comments and document types hold no text.
-/

namespace HtmlQuery.Tree

def strings (t : Tree) (n : NodeId) : List String := (t.subtree n).filterMap t.text?

/-- The texts at and under a node without the blanks around them; blank ones are left out. -/
def strippedStrings (t : Tree) (n : NodeId) : List String :=
  ((t.strings n).map Text.trimmed).filter (fun s => !s.isEmpty)

def textContent (t : Tree) (n : NodeId) : String := String.join (t.strings n)

/-- The texts of a node, stripped or not, with a separator between them. -/
def joinedText (t : Tree) (n : NodeId) (separator : String) (strip : Bool) : String :=
  separator.intercalate (if strip then t.strippedStrings n else t.strings n)

/-- Follows only children from a node down to a text, through at most `fuel` nodes. -/
def soleText (t : Tree) : Nat → NodeId → Option String
  | 0, _ => none
  | fuel + 1, n =>
    match t.kind? n with
    | some (.text data) => some data
    | some (.element _) | some .document =>
      match t.children n with
      | [only] => t.soleText fuel only
      | _ => none
    | _ => none

/-- The text of a node that wraps one text and nothing else, however deep. -/
def soleString? (t : Tree) (n : NodeId) : Option String := t.soleText t.size n

end HtmlQuery.Tree
