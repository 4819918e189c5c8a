import HtmlQuery.Selector.Read
import HtmlQuery.Tree.Strings

/-!
# Matching

Whether a node matches a selector. A group is read from right to left: its last compound must hold on the
node, and each combinator leads to the nearest related node on which the compound to its left holds.
`SelectorList.matches` is the meaning of selectors; how a selector text inside another one is answered is a
parameter of the functions below it (`nested`), and `Tree.matchesText` ties the knot over shorter and
shorter texts.
-/

namespace HtmlQuery

namespace Tree

/-! ## Positions -/

/-- The siblings among which a kind of position of a node under `parent` counts, the node included. -/
def counted (t : Tree) (parent : NodeId) (e : Element) : NthKind → List NodeId
  | .child | .lastChild => t.elementChildren parent
  | .ofType | .lastOfType =>
    (t.elementChildren parent).filter fun m => (t.tag? m).any (Text.eqIgnoringCase · e.tag)

/-- The position of an element, from one; none for an element without a parent. -/
def position? (t : Tree) (n : NodeId) (e : Element) (kind : NthKind) : Option Nat :=
  match t.parent n with
  | none => none
  | some parent =>
    match (t.counted parent e kind).idxOf? n with
    | none => none
    | some i =>
      match kind with
      | .child | .ofType => some (i + 1)
      | .lastChild | .lastOfType => some ((t.counted parent e kind).length - i)

/-! ## Inherited properties -/

def nonempty? (s : Option String) : Option String := s.filter (!·.isEmpty)

/-- The language that an element states for itself. -/
def ownLanguage? (e : Element) : Option String :=
  (nonempty? (e.get? "lang")).or (nonempty? (e.get? "xml:lang"))

/-- The direction that an element states for itself. -/
def ownDirection? (e : Element) : Option String :=
  match e.get? "dir" with
  | none => none
  | some dir =>
    if Text.eqIgnoringCase dir "rtl" then some "rtl"
    else if Text.eqIgnoringCase dir "ltr" then some "ltr"
    else none

/-- What the nearest of a node and its ancestors states. -/
def inherited? {α : Type} (t : Tree) (own : Element → Option α) (n : NodeId) : Option α :=
  (n :: t.ancestors n).findSome? fun m => (t.element? m).bind own

def language? (t : Tree) (n : NodeId) : Option String := t.inherited? ownLanguage? n

def direction (t : Tree) (n : NodeId) : String := (t.inherited? ownDirection? n).getD "ltr"

end Tree

/-- Whether a language is the one with a code or a variety of it. -/
def languageMatches (code language : String) : Bool :=
  let language := Text.lowercase language
  language == code || (code.toList ++ ['-']).isPrefixOf language.toList

/-! ## Combinators -/

/-- The nodes that a combinator relates to a node on its right, in the order in which they are tried. -/
def Combinator.candidates (t : Tree) (n : NodeId) : Combinator → List NodeId
  | descendant => t.properAncestors n
  | child => (t.parent n).toList
  | nextSibling => (t.prevElement n).toList
  | laterSibling => t.precedingSiblings n

/-- The nodes that a combinator relates to a node on its left, in the order in which they are tried. -/
def Combinator.relatives (t : Tree) (n : NodeId) : Combinator → List NodeId
  | descendant => t.descendants n
  | child => t.elementChildren n
  | nextSibling => (t.nextElement n).toList
  | laterSibling => t.followingSiblings n

/-- A selector relative to an element: which nodes it is about, and what they must match. -/
structure Relative where
  combinator : Combinator
  selectors : String

/-- Reads the argument of `:has`: a combinator, if there is one in front, and selectors, where none stand for
`*`. -/
def Relative.ofText (s : String) : Relative :=
  let (combinator, rest) := match Text.trim s.toList with
    | '>' :: rest => (.child, rest)
    | '+' :: rest => (.nextSibling, rest)
    | '~' :: rest => (.laterSibling, rest)
    | rest => (Combinator.descendant, rest)
  let rest := Text.trim rest
  ⟨combinator, if rest.isEmpty then "*" else String.ofList rest⟩

/-! ## Conditions -/

namespace PseudoClass

/-- Whether a pseudo-class without selectors in its argument holds on an element. -/
def plain (t : Tree) (n : NodeId) (e : Element) : PseudoClass → Bool
  | nth kind (some formula) => (t.position? n e kind).any fun i => formula.selects i
  | firstChild => t.position? n e .child == some 1
  | lastChild => t.position? n e .lastChild == some 1
  | onlyChild => t.position? n e .child == some 1 && t.position? n e .lastChild == some 1
  | firstOfType => t.position? n e .ofType == some 1
  | lastOfType => t.position? n e .lastOfType == some 1
  | onlyOfType => t.position? n e .ofType == some 1 && t.position? n e .lastOfType == some 1
  | empty => (t.children n).all fun m => (t.text? m).any Text.isBlank
  | root => t.parent n == some Tree.root
  | contains (some part) => Text.contains part.toList (t.textContent n).toList
  | lang (some code) => (t.language? n).any (languageMatches code)
  | dir (some direction) => direction == t.direction n
  | hasAttribute name => e.has name
  | lacksAttribute name => !e.has name
  | default => e.has "checked" || e.has "selected"
  | placeholderShown => e.has "placeholder" && Text.isBlank (t.textContent n)
  | constant answer => answer
  | _ => false

/-- Whether a pseudo-class holds on an element; `nested` answers for selector texts. -/
def holds (nested : String → NodeId → Bool) (t : Tree) (n : NodeId) (e : Element) :
    PseudoClass → Bool
  | not none => true
  | not (some selectors) => !nested selectors n
  | is (some selectors) => nested selectors n
  | has (some relative) =>
    let r := Relative.ofText relative
    (r.combinator.relatives t n).any (nested r.selectors)
  | p => p.plain t n e

end PseudoClass

namespace Compound

/-- Whether the conditions of a compound other than pseudo-classes hold on an element. -/
def plain (p : Compound) (e : Element) : Bool :=
  p.tag.all (fun tag => tag == "*" || Text.eqIgnoringCase e.tag tag)
    && p.id.all (e.id == some ·)
    && p.classes.all e.hasClass
    && p.attributes.all fun c => c.holds (e.get? c.name)

/-- Whether a compound holds on a node. It holds on elements only. -/
def holds (nested : String → NodeId → Bool) (t : Tree) (p : Compound) (n : NodeId) : Bool :=
  match t.element? n with
  | none => false
  | some e => p.plain e && p.pseudoClasses.all (·.holds nested t n e)

end Compound

namespace Group

/-- The compounds before the last one with the combinators behind them, from right to left. -/
def steps (g : Group) : List (Compound × Combinator) :=
  g.parts.dropLast.reverse.zip g.combinators.reverse

/-- Whether the steps lead from a node to others on which their compounds hold. -/
def follow (nested : String → NodeId → Bool) (t : Tree) :
    List (Compound × Combinator) → NodeId → Bool
  | [], _ => true
  | (p, c) :: rest, n =>
    match (c.candidates t n).find? (p.holds nested t) with
    | some m => follow nested t rest m
    | none => false

/-- Whether a group holds on a node. -/
def holds (nested : String → NodeId → Bool) (t : Tree) (g : Group) (n : NodeId) : Bool :=
  match g.parts.getLast? with
  | none => false
  | some last => last.holds nested t n && follow nested t g.steps n

end Group

namespace SelectorList

/-- Whether one of the groups holds on a node. -/
def holds (nested : String → NodeId → Bool) (t : Tree) (l : SelectorList) (n : NodeId) : Bool :=
  l.groups.any (·.holds nested t n)

end SelectorList

/-! ## The meaning of a selector text -/

/-- Whether a node matches a selector text. The texts inside it are shorter. -/
def Tree.matchesText (t : Tree) (s : String) (n : NodeId) : Bool :=
  (SelectorList.parse s).holds
    (fun inner m => if _h : inner.length < s.length then t.matchesText inner m else false) t n
termination_by s.length

def Compound.matches (p : Compound) (t : Tree) (n : NodeId) : Bool := p.holds t.matchesText t n

def Group.matches (g : Group) (t : Tree) (n : NodeId) : Bool := g.holds t.matchesText t n

/-- Whether a node matches a selector list. -/
def SelectorList.matches (l : SelectorList) (t : Tree) (n : NodeId) : Bool :=
  l.holds t.matchesText t n

end HtmlQuery
