import HtmlQuery.Tree.Edit

/-!
# Walks over a tree

Walks are lists. Each follows links for at most as many steps as the tree has nodes, which is enough for
every walk that ends. Unchecked edits can bring a node under itself; the walk under it then never ends and
passes the same nodes again in every round, and `descendantRounds` lists as many rounds of it as are asked
for. Main statements: the pre-order walk lists a child, then what lies under it, then the next child
(`preorder_succ_cons`), and where the walk ends, more rounds list the same (`descendantRounds_eq`).
-/

namespace HtmlQuery.Tree

/-- The nodes met by following `next` links from `n?` on, at most `fuel` of them. -/
def forward (t : Tree) : Nat → Option NodeId → List NodeId
  | 0, _ => []
  | _, none => []
  | fuel + 1, some n => n :: t.forward fuel (t.next n)

/-- The nodes met by following `prev` links from `n?` on, at most `fuel` of them. -/
def backward (t : Tree) : Nat → Option NodeId → List NodeId
  | 0, _ => []
  | _, none => []
  | fuel + 1, some n => n :: t.backward fuel (t.prev n)

def followingSiblings (t : Tree) (n : NodeId) : List NodeId := t.forward t.size (t.next n)

def precedingSiblings (t : Tree) (n : NodeId) : List NodeId := t.backward t.size (t.prev n)

/-- The nearest element behind a node. -/
def nextElement (t : Tree) (n : NodeId) : Option NodeId :=
  (t.followingSiblings n).find? t.isElement

/-- The nearest element before a node. -/
def prevElement (t : Tree) (n : NodeId) : Option NodeId :=
  (t.precedingSiblings n).find? t.isElement

/-- The first `fuel` nodes of the pre-order walk over the subtrees of a list of nodes. -/
def preorder (t : Tree) : Nat → List NodeId → List NodeId
  | 0, _ => []
  | _, [] => []
  | fuel + 1, n :: pending => n :: t.preorder fuel (t.children n ++ pending)

def descendants (t : Tree) (n : NodeId) : List NodeId := t.preorder t.size (t.children n)

/-- The nodes under a node, in document order, as a walk of so many rounds passes them. Each round has as
many steps as the tree has nodes, so that it passes every node that the walk ever passes. -/
def descendantRounds (t : Tree) (rounds : Nat) (n : NodeId) : List NodeId :=
  t.preorder (rounds * t.size) (t.children n)

def subtree (t : Tree) (n : NodeId) : List NodeId := t.preorder (t.size + 1) [n]

/-- The first `fuel` nodes of the pre-order walk, each with its depth. -/
def preorderLevels (t : Tree) : Nat → List (NodeId × Nat) → List (NodeId × Nat)
  | 0, _ => []
  | _, [] => []
  | fuel + 1, (n, depth) :: pending =>
    (n, depth) :: t.preorderLevels fuel ((t.children n).map (·, depth + 1) ++ pending)

/-- A node with the nodes under it, in document order, each with its depth below the node. A number that
names no node has none. -/
def levels (t : Tree) (n : NodeId) : List (NodeId × Nat) :=
  if t.has n then t.preorderLevels (t.size + 1) [(n, 0)] else []

/-- The ancestors of a node that lie under the document, the nearest first. -/
def properAncestors (t : Tree) (n : NodeId) : List NodeId :=
  (t.ancestors n).takeWhile (· ≠ root)

/-! ## Lemmas -/

@[simp] theorem preorder_nil (t : Tree) (fuel : Nat) : t.preorder fuel [] = [] := by
  cases fuel <;> rfl

theorem preorder_succ_cons (t : Tree) (fuel : Nat) (n : NodeId) (pending : List NodeId) :
    t.preorder (fuel + 1) (n :: pending) = n :: t.preorder fuel (t.children n ++ pending) := rfl

/-- A walk that ended before its bound is the same under a larger one. -/
theorem preorder_add (t : Tree) {fuel : Nat} {pending : List NodeId} (extra : Nat)
    (h : (t.preorder fuel pending).length < fuel) :
    t.preorder (fuel + extra) pending = t.preorder fuel pending := by
  induction fuel generalizing pending with
  | zero => exact absurd h (Nat.not_lt_zero _)
  | succ fuel ih =>
    cases pending with
    | nil => simp
    | cons n pending =>
      rw [preorder_succ_cons, List.length_cons] at h
      rw [Nat.add_right_comm, preorder_succ_cons, preorder_succ_cons,
        ih (Nat.lt_of_add_lt_add_right h)]

@[simp] theorem descendantRounds_one (t : Tree) (n : NodeId) :
    t.descendantRounds 1 n = t.descendants n := by
  rw [descendantRounds, Nat.one_mul, descendants]

theorem descendantRounds_eq (t : Tree) {n : NodeId} {rounds : Nat} (hr : 0 < rounds)
    (h : (t.descendants n).length < t.size) : t.descendantRounds rounds n = t.descendants n := by
  obtain ⟨k, rfl⟩ := Nat.exists_eq_succ_of_ne_zero (Nat.ne_of_gt hr)
  rw [descendantRounds, Nat.succ_mul, Nat.add_comm, preorder_add t _ h, descendants]

theorem subtree_eq_cons (t : Tree) (n : NodeId) : t.subtree n = n :: t.descendants n := by
  rw [subtree, preorder_succ_cons, List.append_nil, descendants]

end HtmlQuery.Tree
