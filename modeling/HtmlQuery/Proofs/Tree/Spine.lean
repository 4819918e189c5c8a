import HtmlQuery.Proofs.Tree.Layout
import HtmlQuery.Proofs.Tree.WellFormed

/-!
# The path of open nodes

`Spine` is a branch under construction: the open nodes from the document to the insertion point, each with the
branches that are complete under it. `Spine.At t s` says that a tree holds a spine, numbered in document order.
What moves the insertion point does not change the numbering (`at_inside_iff`, `At.leave`), and a spine that is
left altogether is a branch laid out from the document on (`At.whole`).
-/

namespace HtmlQuery

open Branch

/-- The open nodes around the insertion point with the complete branches under each. -/
inductive Spine where
  /-- The insertion point is in the document. -/
  | document (done : List Branch)
  /-- The insertion point is in an element, which comes behind the complete branches of the node around it. -/
  | inside (outer : Spine) (e : Element) (done : List Branch)

namespace Spine

/-- The complete branches under the innermost open node. -/
def done : Spine → List Branch
  | document done => done
  | inside _ _ done => done

/-- Changes the complete branches under the innermost open node. -/
def mapDone (f : List Branch → List Branch) : Spine → Spine
  | document done => document (f done)
  | inside outer e done => inside outer e (f done)

/-- Adds a complete branch at the insertion point. -/
def push (b : Branch) : Spine → Spine := mapDone (· ++ [b])

/-- The payload of the innermost open node. -/
def kind : Spine → NodeKind
  | document _ => .document
  | inside _ e _ => .element e

/-- The payloads of all nodes in document order. -/
def payloads : Spine → List NodeKind
  | document done => .document :: payloadsAll done
  | inside outer e done => outer.payloads ++ .element e :: payloadsAll done

/-- The number of nodes. -/
def size (s : Spine) : Nat := s.payloads.length

/-- The number of the innermost open node. -/
def point : Spine → Nat
  | document _ => 0
  | inside outer _ _ => outer.size

/-- How many elements are open. -/
def depth : Spine → Nat
  | document _ => 0
  | inside outer _ _ => outer.depth + 1

/-- The numbers of the open elements, the innermost first. -/
def opens : Spine → List NodeId
  | document _ => []
  | inside outer _ _ => outer.size :: outer.opens

/-- Moves the insertion point out of the innermost open element. -/
def leave : Spine → Spine
  | document done => document done
  | inside outer e done => outer.push (.node (.element e) done)

section
variable (s : Spine) (f : List Branch → List Branch) (b : Branch)

@[simp] theorem done_mapDone : (s.mapDone f).done = f s.done := by cases s <;> rfl

@[simp] theorem kind_mapDone : (s.mapDone f).kind = s.kind := by cases s <;> rfl

@[simp] theorem point_mapDone : (s.mapDone f).point = s.point := by cases s <;> rfl

@[simp] theorem depth_mapDone : (s.mapDone f).depth = s.depth := by cases s <;> rfl

@[simp] theorem opens_mapDone : (s.mapDone f).opens = s.opens := by cases s <;> rfl

@[simp] theorem done_push : (s.push b).done = s.done ++ [b] := done_mapDone ..

@[simp] theorem kind_push : (s.push b).kind = s.kind := kind_mapDone ..

@[simp] theorem point_push : (s.push b).point = s.point := point_mapDone ..

@[simp] theorem depth_push : (s.push b).depth = s.depth := depth_mapDone ..

@[simp] theorem opens_push : (s.push b).opens = s.opens := opens_mapDone ..

theorem payloads_push : (s.push b).payloads = s.payloads ++ b.payloads := by
  cases s <;> simp [push, mapDone, payloads, payloadsAll_append, payloadsAll_singleton]

theorem size_eq : s.size = s.point + 1 + sizeAll s.done := by
  cases s <;> simp [size, payloads, point, done, sizeAll] <;> omega

theorem payloads_leave : s.leave.payloads = s.payloads := by
  cases s with
  | document => rfl
  | inside outer e done => rw [leave, payloads_push, Branch.payloads, payloads]

end

/-- A spine in which something is complete is one to which it was added. -/
theorem eq_push_of_done {s : Spine} {bs : List Branch} {b : Branch} (h : s.done = bs ++ [b]) :
    s = (s.mapDone fun _ => bs).push b := by
  cases s <;> simp_all [push, mapDone, done]

/-- The branch that is complete when all open nodes are left. -/
def whole (s : Spine) : Branch :=
  match s with
  | document done => .node .document done
  | inside outer e done => (outer.push (.node (.element e) done)).whole
termination_by s.depth
decreasing_by simp [depth]

theorem payloads_whole (s : Spine) : s.whole.payloads = s.payloads := by
  fun_induction whole s with
  | case1 done => rw [Branch.payloads, payloads]
  | case2 outer e done ih => rw [ih, payloads_push, Branch.payloads, payloads]

/-! ## Spines in a tree -/

/-- The tree holds the spine, its nodes numbered in document order; `extra` comes behind the complete branches
under the innermost open node. -/
def At (t : Tree) : Spine → List NodeId → Prop
  | document done, extra =>
    t.kind? 0 = some .document ∧ t.children 0 = tops 1 done ++ extra ∧ AllLaidOut t 1 done
  | inside outer e done, extra => outer.At t [outer.size] ∧ t.kind? outer.size = some (.element e) ∧
    t.children outer.size = tops (outer.size + 1) done ++ extra ∧ AllLaidOut t (outer.size + 1) done

variable {t t' : Tree} {s outer : Spine} {e : Element} {b : Branch} {inner : List Branch}
  {extra : List NodeId}

theorem At.kind? (h : s.At t extra) : t.kind? s.point = some s.kind := by
  cases s with
  | document => exact h.1
  | inside => exact h.2.1

theorem At.children (h : s.At t extra) :
    t.children s.point = tops (s.point + 1) s.done ++ extra := by
  cases s with
  | document => exact h.2.1
  | inside => exact h.2.2.1

theorem At.done (h : s.At t extra) : AllLaidOut t (s.point + 1) s.done := by
  cases s with
  | document => exact h.2.2
  | inside => exact h.2.2.2

theorem At.parent (h : (inside outer e inner).At t extra) (hwf : t.WellFormed) :
    t.parent outer.size = some outer.point := by
  rw [← hwf.mem_children_iff, h.1.children]
  simp

theorem depth_lt_size (s : Spine) : s.depth < s.size := by
  induction s with
  | document => simp [depth, size, payloads]
  | inside outer e inner ih => simp [depth, size, payloads] at ih ⊢; omega

theorem opens_ne_root (s : Spine) : ∀ n ∈ s.opens, n ≠ Tree.root := by
  induction s with
  | document => simp [opens]
  | inside outer e inner ih =>
    have := outer.size_eq
    exact List.forall_mem_cons.2 ⟨show outer.size ≠ 0 by omega, ih⟩

/-- The open nodes are met from the insertion point up. -/
theorem At.climb {fuel : Nat} (h : s.At t extra) (hwf : t.WellFormed) (hfuel : s.depth < fuel) :
    t.climb fuel (some s.point) = s.opens ++ [Tree.root] := by
  induction s generalizing fuel extra with
  | document done =>
    obtain ⟨f, rfl⟩ : ∃ f, fuel = f + 1 := ⟨fuel - 1, by omega⟩
    rw [point, Tree.climb, show t.parent 0 = none from hwf.root_loose, Tree.climb_none]
    rfl
  | inside outer e inner ih =>
    rw [depth] at hfuel
    obtain ⟨f, rfl⟩ : ∃ f, fuel = f + 1 := ⟨fuel - 1, by omega⟩
    rw [point, Tree.climb, h.parent hwf, ih h.1 (by omega), opens, List.cons_append]

/-- A branch at the insertion point is laid out behind all other nodes. -/
theorem at_push_iff : (s.push b).At t [] ↔ s.At t [s.size] ∧ b.LaidOut t s.size := by
  have hsize := s.size_eq
  cases s <;> simp only [point, Spine.done] at hsize <;>
    simp only [push, mapDone, At, allLaidOut_append, AllLaidOut, tops_append, tops, hsize, and_assoc,
      and_true, List.append_nil, Nat.zero_add]

/-- Going into an element changes nothing in the tree. -/
theorem at_inside_iff : (inside outer e inner).At t [] ↔
    (outer.push (.node (.element e) inner)).At t [] := by
  rw [at_push_iff, At, LaidOut, List.append_nil]

theorem At.leave (h : s.At t []) : s.leave.At t [] := by
  cases s with
  | document => exact h
  | inside => exact at_inside_iff.1 h

/-- Left altogether, a spine is laid out from the document on. -/
theorem At.whole (h : s.At t []) : s.whole.LaidOut t 0 := by
  fun_induction Spine.whole s with
  | case1 done => exact ⟨h.1, by simpa using h.2.1, h.2.2⟩
  | case2 outer e done ih => exact ih (at_inside_iff.1 h)

/-- A spine is held by every tree with the same payloads and children at its numbers; what comes behind the
complete branches at the insertion point is left out of account. -/
theorem At.frame {extra' : List NodeId} (h : s.At t extra)
    (hkind : ∀ m : Nat, m < s.size → t'.kind? m = t.kind? m)
    (hchildren : ∀ m : Nat, m < s.size → m ≠ s.point → t'.children m = t.children m)
    (hpoint : t'.children s.point = tops (s.point + 1) s.done ++ extra') : s.At t' extra' := by
  induction s generalizing extra extra' with
  | document done =>
    rw [size_eq] at hkind hchildren
    simp only [point, Spine.done] at hkind hchildren hpoint
    refine ⟨hkind 0 (by omega) ▸ h.1, hpoint, h.2.2.frame fun m hm hlt => ?_⟩
    exact ⟨hkind m (by omega), hchildren m (by omega) (by omega)⟩
  | inside outer e done ih =>
    rw [size_eq] at hkind hchildren
    simp only [point, Spine.done] at hkind hchildren hpoint
    obtain ⟨houter, he, _, hall⟩ := h
    have hlt : outer.point < outer.size := by rw [outer.size_eq]; omega
    refine ⟨ih houter (fun m hm => hkind m (by omega))
      (fun m hm hne => hchildren m (by omega) (by omega)) ?_, ?_, hpoint, hall.frame ?_⟩
    · rw [hchildren outer.point (by omega) (by omega), houter.children]
    · rw [hkind outer.size (by omega), he]
    · exact fun m hm hlt => ⟨hkind m (by omega), hchildren m (by omega) (by omega)⟩

end Spine

end HtmlQuery
