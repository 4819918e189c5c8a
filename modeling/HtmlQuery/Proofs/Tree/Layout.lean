import HtmlQuery.Proofs.Tree.WellFormed
import HtmlQuery.Tree.Branch
import HtmlQuery.Tree.Walk

/-!
# Branches laid out in document order

`Branch.LaidOut t n b` says that the branch `b` stands in the tree `t` with its nodes numbered in document order
from `n` on. Walks and readings of such a tree are then those of the branch: the pre-order walk passes the numbers
from `n` on (`AllLaidOut.preorder`), the payloads met are those of the branch (`LaidOut.map_kind?`), and the branch
is read off whole (`LaidOut.branchTo`). In a well-formed tree, however it is numbered, no branch is cut off
(`Tree.branch?_eq`).
-/

namespace HtmlQuery.Branch

mutual

/-- The payloads of a branch in document order. -/
def payloads : Branch → List NodeKind
  | node kind children => kind :: payloadsAll children

/-- The payloads of branches in document order. -/
def payloadsAll : List Branch → List NodeKind
  | [] => []
  | b :: bs => payloads b ++ payloadsAll bs

end

/-- The number of nodes of a branch. -/
def size (b : Branch) : Nat := b.payloads.length

/-- The number of nodes of branches. -/
def sizeAll (bs : List Branch) : Nat := (payloadsAll bs).length

/-- The numbers of the tops of branches that are laid out one behind the other from a number on. -/
def tops : NodeId → List Branch → List NodeId
  | _, [] => []
  | n, b :: bs => n :: tops (n + b.size) bs

mutual

/-- The branch stands in the tree with its nodes numbered in document order from `n` on. -/
def LaidOut (t : Tree) (n : NodeId) : Branch → Prop
  | node kind children =>
    t.kind? n = some kind ∧ t.children n = tops (n + 1) children ∧ AllLaidOut t (n + 1) children

/-- The branches stand in the tree one behind the other. -/
def AllLaidOut (t : Tree) (n : NodeId) : List Branch → Prop
  | [] => True
  | b :: bs => LaidOut t n b ∧ AllLaidOut t (n + b.size) bs

end

variable {t t' : Tree} {n fuel : Nat} {pending : List NodeId} {b : Branch} {bs cs : List Branch}

/-! ## Payloads and sizes -/

theorem payloadsAll_append (bs cs : List Branch) :
    payloadsAll (bs ++ cs) = payloadsAll bs ++ payloadsAll cs := by
  induction bs with
  | nil => rfl
  | cons b bs ih => rw [List.cons_append, payloadsAll, payloadsAll, ih, List.append_assoc]

theorem payloadsAll_singleton (b : Branch) : payloadsAll [b] = b.payloads := by
  rw [payloadsAll, payloadsAll, List.append_nil]

@[simp] theorem size_node (kind : NodeKind) (children : List Branch) :
    (node kind children).size = sizeAll children + 1 := by
  rw [size, payloads, List.length_cons, sizeAll]

@[simp] theorem sizeAll_nil : sizeAll [] = 0 := rfl

@[simp] theorem sizeAll_cons (b : Branch) (bs : List Branch) :
    sizeAll (b :: bs) = b.size + sizeAll bs := by
  rw [sizeAll, payloadsAll, List.length_append, size, sizeAll]

@[simp] theorem sizeAll_append (bs cs : List Branch) :
    sizeAll (bs ++ cs) = sizeAll bs + sizeAll cs := by
  rw [sizeAll, payloadsAll_append, List.length_append, sizeAll, sizeAll]

theorem size_pos (b : Branch) : 0 < b.size := by
  cases b
  simp

theorem tops_append (n : NodeId) (bs cs : List Branch) :
    tops n (bs ++ cs) = tops n bs ++ tops (n + sizeAll bs) cs := by
  induction bs generalizing n with
  | nil => simp [tops]
  | cons b bs ih => simp [tops, ih, Nat.add_assoc]

theorem getLast?_tops (n : NodeId) (bs : List Branch) (b : Branch) :
    (tops n (bs ++ [b])).getLast? = some (n + sizeAll bs) := by
  rw [tops_append]
  exact List.getLast?_concat

theorem allLaidOut_append :
    AllLaidOut t n (bs ++ cs) ↔ AllLaidOut t n bs ∧ AllLaidOut t (n + sizeAll bs) cs := by
  induction bs generalizing n with
  | nil => simp [AllLaidOut]
  | cons b bs ih => simp [AllLaidOut, ih, and_assoc, Nat.add_assoc]

/-! ## Other nodes do not matter -/

mutual

/-- A branch is laid out in every tree with the same payloads and children at its numbers. -/
theorem LaidOut.frame : ∀ {b : Branch} {n : Nat}, b.LaidOut t n →
    (∀ m : Nat, n ≤ m → m < n + b.size → t'.kind? m = t.kind? m ∧ t'.children m = t.children m) →
    b.LaidOut t' n
  | node kind children, n, ⟨hkind, hchildren, hall⟩, h => by
    rw [size_node] at h
    obtain ⟨hk, hc⟩ := h n (Nat.le_refl n) (by omega)
    exact ⟨hk ▸ hkind, hc ▸ hchildren, hall.frame fun m hm hlt => h m (by omega) (by omega)⟩

theorem AllLaidOut.frame : ∀ {bs : List Branch} {n : Nat}, AllLaidOut t n bs →
    (∀ m : Nat, n ≤ m → m < n + sizeAll bs → t'.kind? m = t.kind? m ∧ t'.children m = t.children m) →
    AllLaidOut t' n bs
  | [], _, _, _ => trivial
  | b :: bs, n, ⟨hb, hbs⟩, h => by
    rw [sizeAll_cons] at h
    exact ⟨hb.frame fun m hm hlt => h m hm (by omega),
      hbs.frame fun m hm hlt => h m (by omega) (by omega)⟩

end

/-! ## Walks -/

mutual

/-- The walk over a branch passes its numbers in order. -/
theorem LaidOut.preorder : ∀ {b : Branch} {n fuel : Nat} {pending : List NodeId}, b.LaidOut t n →
    b.size ≤ fuel →
    t.preorder fuel (n :: pending) = List.range' n b.size ++ t.preorder (fuel - b.size) pending
  | node kind children, n, fuel, pending, ⟨_, hchildren, hall⟩, h => by
    rw [size_node] at h
    obtain ⟨f, rfl⟩ : ∃ f, fuel = f + 1 := ⟨fuel - 1, by omega⟩
    rw [Tree.preorder_succ_cons, hchildren, hall.preorder (by omega), size_node, List.range'_succ,
      List.cons_append, Nat.add_sub_add_right]

theorem AllLaidOut.preorder : ∀ {bs : List Branch} {n fuel : Nat} {pending : List NodeId},
    AllLaidOut t n bs → sizeAll bs ≤ fuel →
    t.preorder fuel (tops n bs ++ pending) =
      List.range' n (sizeAll bs) ++ t.preorder (fuel - sizeAll bs) pending
  | [], _, _, _, _, _ => by simp [tops]
  | b :: bs, n, fuel, pending, ⟨hb, hbs⟩, h => by
    rw [sizeAll_cons] at h
    rw [tops, List.cons_append, hb.preorder (by omega), hbs.preorder (by omega), sizeAll_cons,
      ← List.append_assoc, List.range'_append_1, Nat.sub_sub]

end

mutual

/-- The payloads met at the numbers of a branch are its own. -/
theorem LaidOut.map_kind? : ∀ {b : Branch} {n : Nat}, b.LaidOut t n →
    (List.range' n b.size).map t.kind? = b.payloads.map some
  | node kind children, n, ⟨hkind, _, hall⟩ => by
    rw [size_node, List.range'_succ, List.map_cons, hkind, hall.map_kind?, payloads, List.map_cons]

theorem AllLaidOut.map_kind? : ∀ {bs : List Branch} {n : Nat}, AllLaidOut t n bs →
    (List.range' n (sizeAll bs)).map t.kind? = (payloadsAll bs).map some
  | [], _, _ => rfl
  | b :: bs, n, ⟨hb, hbs⟩ => by
    rw [sizeAll_cons, ← List.range'_append_1, List.map_append, hb.map_kind?, hbs.map_kind?,
      payloadsAll, List.map_append]

end

mutual

/-- The branch at the number of a branch that is laid out is the branch. -/
theorem LaidOut.branchTo : ∀ {b : Branch} {n depth : Nat}, b.LaidOut t n → b.size ≤ depth + 1 →
    t.branchTo depth n = some b
  | node kind children, n, 0, ⟨hkind, _, _⟩, h => by
    have hnil : children = [] := by
      cases children with
      | nil => rfl
      | cons b bs =>
        have := b.size_pos
        rw [size_node, sizeAll_cons] at h
        omega
    rw [Tree.branchTo, hkind, hnil]
    rfl
  | node kind children, n, depth + 1, ⟨hkind, hchildren, hall⟩, h => by
    rw [size_node] at h
    rw [Tree.branchTo, hkind, hchildren, hall.branchTo (by omega)]
    rfl

theorem AllLaidOut.branchTo : ∀ {bs : List Branch} {n depth : Nat}, AllLaidOut t n bs →
    sizeAll bs ≤ depth + 1 → (tops n bs).filterMap (t.branchTo depth) = bs
  | [], _, _, _, _ => rfl
  | b :: bs, n, depth, ⟨hb, hbs⟩, h => by
    rw [sizeAll_cons] at h
    rw [tops, List.filterMap_cons, hb.branchTo (by omega), hbs.branchTo (by omega)]

end

end HtmlQuery.Branch

/-! ## Branches of well-formed trees -/

namespace HtmlQuery.Tree

variable {t : Tree} (h : t.WellFormed)
include h

/-- A branch is no deeper than what its node leaves of the number of nodes. -/
theorem branchTo_succ {n : NodeId} {fuel : Nat} (hfuel : t.size ≤ t.depth n + 1 + fuel) :
    t.branchTo (fuel + 1) n = t.branchTo fuel n := by
  induction fuel generalizing n with
  | zero =>
    have hnil : t.children n = [] := List.eq_nil_iff_forall_not_mem.2 fun c hc => by
      have hlt := h.depth_lt_size (h.child_has n c hc)
      rw [h.depth_of_mem_children hc] at hlt
      omega
    rw [branchTo, branchTo, hnil]
    rfl
  | succ fuel ih =>
    have hchildren : (t.children n).filterMap (t.branchTo (fuel + 1)) =
        (t.children n).filterMap (t.branchTo fuel) := List.filterMap_congr fun c hc => by
      have hdepth := h.depth_of_mem_children hc
      exact ih (by omega)
    rw [branchTo, hchildren, branchTo]

/-- The branch at a node is its payload over the branches at its children. -/
theorem branch?_eq (n : NodeId) :
    t.branch? n = (t.kind? n).map (.node · ((t.children n).filterMap t.branch?)) := by
  have hsucc : t.branchTo (t.size + 1) n = t.branchTo t.size n := branchTo_succ h (by omega)
  rw [branch?, ← hsucc]
  rfl

end HtmlQuery.Tree
