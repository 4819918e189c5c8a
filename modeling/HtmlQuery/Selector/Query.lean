import HtmlQuery.Selector.CachedMatching

/-!
# Queries

Nodes that match a selector: among the nodes under a scope in document order, or among the ancestors of a
node, the nearest first. No node is tested after the answer is settled. A scope that lies under itself is
walked round after round until the limit is reached, so that a node can be found more than once.
-/

namespace HtmlQuery.Session

/-- The first members of a list that pass a test, at most `limit` of them where there is a limit. -/
def firstPassing (tester : Tester) : Option Nat → List NodeId → SessionM (List NodeId)
  | some 0, _ => pure []
  | _, [] => pure []
  | limit, n :: rest => do
    if ← tester n then
      let later ← firstPassing tester (limit.map (· - 1)) rest
      pure (n :: later)
    else firstPassing tester limit rest

/-- The nodes among which up to `limit` matches under a scope are sought. Where one round of the walk has a
match, every round has one. -/
def searched (t : Tree) (scope : NodeId) (limit : Option Nat) : List NodeId :=
  t.descendantRounds (limit.getD 1) scope

/-- The nodes under a scope that match a selector list, at most `limit` of them. -/
def selectList (t : Tree) (scope : NodeId) (l : SelectorList) (limit : Option Nat) :
    SessionM (List NodeId) :=
  firstPassing (matchesList t l) limit (searched t scope limit)

/-- The nodes under a scope that match a selector text, at most `limit` of them. -/
def select (t : Tree) (scope : NodeId) (s : String) (limit : Option Nat) :
    SessionM (List NodeId) := do
  let tester ← testerOf t s
  firstPassing tester limit (searched t scope limit)

/-- The first node under a scope that matches a selector text. -/
def selectOne (t : Tree) (scope : NodeId) (s : String) : SessionM (Option NodeId) := do
  let tester ← testerOf t s
  (t.descendants scope).findM? tester

/-- Whether a node of the document matches a selector text. -/
def anyMatch (t : Tree) (s : String) : SessionM Bool := do
  let found ← selectOne t Tree.root s
  pure found.isSome

/-- How many nodes of the document match a selector text. -/
def count (t : Tree) (s : String) : SessionM Nat := do
  let found ← select t Tree.root s none
  pure found.length

/-- The ancestors of a node that match a selector text, the nearest first. -/
def selectParents (t : Tree) (n : NodeId) (s : String) : SessionM (List NodeId) := do
  let tester ← testerOf t s
  firstPassing tester none (t.properAncestors n)

/-- The nearest ancestor of a node that matches a selector text. -/
def selectParent (t : Tree) (n : NodeId) (s : String) : SessionM (Option NodeId) := do
  let tester ← testerOf t s
  (t.properAncestors n).findM? tester

end HtmlQuery.Session
