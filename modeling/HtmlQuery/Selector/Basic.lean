import HtmlQuery.Selector.AttributeCondition
import HtmlQuery.Selector.PseudoClass

/-!
# Selectors

A selector list holds groups, a group compounds with combinators between them, and a compound the
conditions that one element must meet.
-/

namespace HtmlQuery

/-- How the nodes of two neighbouring compounds are related. -/
inductive Combinator where
  /-- A blank: the left one is an ancestor. -/
  | descendant
  /-- `>`: the left one is the parent. -/
  | child
  /-- `+`: the left one is the nearest element before. -/
  | nextSibling
  /-- `~`: the left one is an element before. -/
  | laterSibling
  deriving DecidableEq, Repr

/-- Conditions on one element; a compound without any matches every element. The tag is in lower case, and
`*` is any. -/
structure Compound where
  tag : Option String
  id : Option String
  classes : List String
  attributes : List AttributeCondition
  pseudoClasses : List PseudoClass
  deriving DecidableEq, Repr

/-- Compounds from left to right, and the combinators between them. A group without compounds matches
nothing. -/
structure Group where
  parts : List Compound
  combinators : List Combinator
  deriving DecidableEq, Repr

/-- Groups, any of which may match. -/
structure SelectorList where
  groups : List Group
  deriving DecidableEq, Repr

namespace Combinator

/-- The sign of a combinator. -/
def sign : Combinator → Char
  | descendant => ' '
  | child => '>'
  | nextSibling => '+'
  | laterSibling => '~'

end Combinator

namespace Compound

def any : Compound := ⟨none, none, [], [], []⟩

/-- The names in a compound that no pseudo-class has. -/
def unsupported (p : Compound) : List String :=
  p.pseudoClasses.filterMap fun
    | .unknown name => some name
    | _ => none

end Compound

namespace Group

def empty : Group := ⟨[], []⟩

def isEmpty (g : Group) : Bool := g.parts.isEmpty

/-- The group with one more compound at its end. -/
def push (g : Group) (c : Combinator) (p : Compound) : Group :=
  ⟨g.parts ++ [p], g.combinators ++ [c]⟩

end Group

namespace SelectorList

def size (l : SelectorList) : Nat := l.groups.length

/-- The names in a list that no pseudo-class has, in order. -/
def unsupported (l : SelectorList) : List String :=
  l.groups.flatMap fun g => g.parts.flatMap Compound.unsupported

end SelectorList

end HtmlQuery
