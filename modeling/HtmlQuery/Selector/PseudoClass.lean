import HtmlQuery.Selector.Nth
import HtmlQuery.Selector.PseudoName
import HtmlQuery.Text.Lowercase

/-!
# Pseudo-classes

A pseudo-class as it is matched, made once from its name and the text of its argument. Arguments that are
selectors themselves stay text here; they are read when they are first matched.
-/

namespace HtmlQuery

/-- Among which siblings, and from which end, a position counts. -/
inductive NthKind where
  /-- All elements, from the start. -/
  | child
  /-- All elements, from the end. -/
  | lastChild
  /-- Elements of the same tag, from the start. -/
  | ofType
  /-- Elements of the same tag, from the end. -/
  | lastOfType
  deriving DecidableEq, Repr

/-- A condition on the place, content or state of an element. A missing argument and an empty one are the
same. -/
inductive PseudoClass where
  /-- The position is selected by the formula; without a formula, none is. -/
  | nth (kind : NthKind) (formula : Option NthFormula)
  | firstChild
  | lastChild
  | onlyChild
  | firstOfType
  | lastOfType
  | onlyOfType
  /-- Nothing inside but blank text. -/
  | empty
  /-- The parent is the document. -/
  | root
  /-- The selectors do not match; without an argument, always so. -/
  | not (selectors : Option String)
  /-- One of the selectors matches. -/
  | is (selectors : Option String)
  /-- A relative of the element matches. -/
  | has (relative : Option String)
  /-- The text contains a string. -/
  | contains (part : Option String)
  /-- The language is a code or a variety of it. -/
  | lang (code : Option String)
  /-- The direction of text. -/
  | dir (direction : Option String)
  /-- The attribute is there. -/
  | hasAttribute (name : String)
  /-- The attribute is not there. -/
  | lacksAttribute (name : String)
  /-- The element is chosen from the start: `checked` or `selected` is there. -/
  | default
  /-- A placeholder is there and no text hides it. -/
  | placeholderShown
  /-- A fixed answer, for states that a document at rest does not have. -/
  | constant (answer : Bool)
  /-- A name that no pseudo-class has. It never matches. -/
  | unknown (name : String)
  deriving DecidableEq, Repr

namespace PseudoClass

/-- The text between two quotes of a kind. -/
def unquoteBy (q : Char) (cs : List Char) : Option (List Char) :=
  match cs with
  | [] => none
  | c :: rest => if c = q && rest.getLast? == some q then some rest.dropLast else none

/-- The text without a matching pair of quotes around it. -/
def unquote (s : String) : String :=
  match unquoteBy '"' s.toList with
  | some inner => String.ofList inner
  | none =>
    match unquoteBy '\'' s.toList with
    | some inner => String.ofList inner
    | none => s

/-- A language code as it is compared: without blanks around it and quotes, in lower case. -/
def languageCode (s : String) : String :=
  Text.lowercase (String.ofList ((Text.trim s.toList).filter fun c => c ≠ '"' && c ≠ '\''))

def argument (arg : Option String) : Option String := arg.filter (!·.isEmpty)

/-- The pseudo-class of a known name with an argument that is not empty. -/
def ofName (name : PseudoName) (arg : Option String) : PseudoClass :=
  match name with
  | .firstChild => firstChild
  | .lastChild => lastChild
  | .onlyChild => onlyChild
  | .nthChild => nth .child (arg.bind NthFormula.parse?)
  | .nthLastChild => nth .lastChild (arg.bind NthFormula.parse?)
  | .firstOfType => firstOfType
  | .lastOfType => lastOfType
  | .onlyOfType => onlyOfType
  | .nthOfType => nth .ofType (arg.bind NthFormula.parse?)
  | .nthLastOfType => nth .lastOfType (arg.bind NthFormula.parse?)
  | .empty | .blank => empty
  | .root | .scope => root
  | .not => not arg
  | .is | .whereList => is arg
  | .has => has arg
  | .contains => contains (arg.map unquote)
  | .lang => lang ((arg.map languageCode).filter (!·.isEmpty))
  | .dir => dir (arg.map fun s => Text.lowerAscii (Text.trimmed s))
  | .enabled => lacksAttribute "disabled"
  | .disabled => hasAttribute "disabled"
  | .checked => hasAttribute "checked"
  | .required => hasAttribute "required"
  | .optional => lacksAttribute "required"
  | .readOnly => hasAttribute "readonly"
  | .readWrite => lacksAttribute "readonly"
  | .placeholderShown => placeholderShown
  | .default => default
  | .valid | .inRange => constant true
  | .indeterminate | .invalid | .outOfRange | .focus | .focusWithin | .focusVisible | .hover
  | .active | .visited | .link | .anyLink | .localLink | .target | .targetWithin | .current | .past
  | .future | .playing | .paused | .seeking | .buffering | .stalled | .muted | .volumeLocked
  | .fullscreen | .pictureInPicture | .autofill | .modal | .userInvalid | .userValid =>
    constant false

/-- The pseudo-class that a selector names, with the text of its argument. -/
def ofText (name : String) (arg : Option String) : PseudoClass :=
  match PseudoName.ofText? name with
  | some known => ofName known (argument arg)
  | none => unknown name

/-- The text of an argument that is a selector. -/
def nestedText? : PseudoClass → Option String
  | not arg => arg
  | is arg => arg
  | has arg => arg
  | _ => none

end PseudoClass

end HtmlQuery
