import HtmlQuery.Selector.Matching
import HtmlQuery.Selector.Session

/-!
# Matching with a cache

Matching as it is done in a session: selector texts inside selectors are resolved through the cache each
time they are reached, and nothing is resolved that the answer does not need. The order of the steps is
part of the result, since it shows in the cache. `Tester` is what a resolved text turns into: a test of
nodes.
-/

namespace HtmlQuery

abbrev Tester := NodeId → SessionM Bool

namespace PseudoClass

/-- Tests a pseudo-class on an element; `nested` resolves selector texts. -/
def test (nested : String → SessionM Tester) (t : Tree) (n : NodeId) (e : Element) :
    PseudoClass → SessionM Bool
  | not none => pure true
  | not (some selectors) => do
    let tester ← nested selectors
    let answer ← tester n
    pure !answer
  | is (some selectors) => do
    let tester ← nested selectors
    tester n
  | has (some relative) => do
    let r := Relative.ofText relative
    let tester ← nested r.selectors
    (r.combinator.relatives t n).anyM tester
  | p => pure (p.plain t n e)

end PseudoClass

/-- Tests a compound on a node. -/
def Compound.test (nested : String → SessionM Tester) (t : Tree) (p : Compound) : Tester :=
  fun n =>
    match t.element? n with
    | none => pure false
    | some e =>
      if p.plain e then p.pseudoClasses.allM (·.test nested t n e) else pure false

namespace Group

/-- Takes the steps of a group from a node on. -/
def walk (nested : String → SessionM Tester) (t : Tree) :
    List (Compound × Combinator) → Tester
  | [], _ => pure true
  | (p, c) :: rest, n => do
    match ← (c.candidates t n).findM? (p.test nested t) with
    | some m => walk nested t rest m
    | none => pure false

/-- Tests a group on a node. -/
def test (nested : String → SessionM Tester) (t : Tree) (g : Group) : Tester := fun n =>
  match g.parts.getLast? with
  | none => pure false
  | some last => do
    if ← last.test nested t n then walk nested t g.steps n else pure false

end Group

/-- Tests a selector list on a node. -/
def SelectorList.test (nested : String → SessionM Tester) (t : Tree) (l : SelectorList) :
    Tester :=
  fun n => l.groups.anyM fun g => g.test nested t n

namespace Session

/-- Resolves a selector text to a test of nodes. The texts inside it are shorter. -/
def testerOf (t : Tree) (s : String) : SessionM Tester := do
  let resolved ← resolve s
  pure (resolved.list.test (fun inner =>
    if _h : inner.length < s.length then testerOf t inner else pure fun _ => pure false) t)
termination_by s.length

/-- Whether a node matches a selector text. -/
def matchesText (t : Tree) (n : NodeId) (s : String) : SessionM Bool := do
  let tester ← testerOf t s
  tester n

/-- Whether a node matches a selector list that was read before. -/
def matchesList (t : Tree) (l : SelectorList) : Tester := l.test (testerOf t) t

def matchesGroup (t : Tree) (g : Group) : Tester := g.test (testerOf t) t

/-- Whether a node matches a compound that was read before. -/
def matchesCompound (t : Tree) (p : Compound) : Tester := p.test (testerOf t) t

end Session

end HtmlQuery
