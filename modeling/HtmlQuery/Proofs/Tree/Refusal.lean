import HtmlQuery.Proofs.Tree.WellFormed

/-!
# Refused edits

A checked edit that is refused leaves the tree as it was. Most of them refuse before they change anything. Only
`insertBefore` takes the child out of its old place and then looks for the mark again; in a well-formed tree the mark
is still there (`WellFormed.mark_mem_detach`), so that it never refuses so late. Main statement: after any run of edits
every refusal is without effect (`atomic_of_edits`).
-/

namespace HtmlQuery.Tree

/-- An edit of the tree that either is done or leaves the tree as it was. -/
def Atomic {α : Type} (t : Tree) (r : Edited α) : Prop := ∀ fault, r.1 = .error fault → r.2 = t

section
variable {α : Type} (t t' : Tree)

theorem atomic_ok (a : α) : t.Atomic (.ok a, t') := fun _ h => nomatch h

theorem atomic_error (fault : EditError) : t.Atomic (α := α) (.error fault, t) := fun _ _ => rfl

theorem append_atomic (parent child : NodeId) : t.Atomic (t.append parent child) := by
  unfold append
  split
  · exact t.atomic_error _
  · exact t.atomic_ok _ _

theorem removeChild_atomic (parent child : NodeId) : t.Atomic (t.removeChild parent child) := by
  unfold removeChild
  split_ifs
  · exact t.atomic_error _
  · exact t.atomic_error _
  · exact t.atomic_error _
  · exact t.atomic_ok _ _

theorem editElement_atomic (n : NodeId) (ask : Element → α) (change : Element → Element) :
    t.Atomic (t.editElement n ask change) := by
  unfold editElement
  split
  · exact t.atomic_error _
  · exact t.atomic_ok _ _
  · exact t.atomic_error _

end

variable {t : Tree} (h : t.WellFormed)
include h

/-- A mark stays under its parent when another node is taken out. -/
theorem WellFormed.mark_mem_detach {parent child mark : NodeId} (hne : mark ≠ child)
    (hmark : t.parent mark = some parent) : mark ∈ (t.detach child).children parent := by
  rw [(h.detach child).mem_children_iff, parent_detach, if_neg hne]
  exact hmark

theorem WellFormed.insertBefore_atomic (parent child : NodeId) (mark : Option NodeId) :
    t.Atomic (t.insertBefore parent child mark) := by
  unfold Tree.insertBefore
  split
  · exact t.atomic_error _
  · exact t.atomic_ok _ _
  · rename_i mark _
    split
    · exact t.atomic_ok _ _
    split
    · exact t.atomic_error _
    -- the child is taken out here, but the mark is not taken out with it
    rename_i hchild hmark
    have hmem := h.mark_mem_detach hchild (not_not.1 hmark)
    dsimp only
    rw [if_pos (List.contains_iff_mem.2 hmem)]
    exact t.atomic_ok _ _

omit h

/-- **A refused edit leaves the tree as it was**, whatever edits made the tree and whatever the edit is given. An
insertion that has taken the child out of its old place is not refused any more. -/
theorem atomic_of_edits (es : List Edit) (t : Tree) (h : empty.run? es = some t) :
    (∀ parent child, t.Atomic (t.append parent child)) ∧
    (∀ parent child mark, t.Atomic (t.insertBefore parent child mark)) ∧
    (∀ parent child, t.Atomic (t.removeChild parent child)) ∧
    (∀ n name value, t.Atomic (t.setAttribute n name value)) ∧
    (∀ n name, t.Atomic (t.removeAttribute n name)) ∧
    ∀ parent child mark, t.insertionFault? parent child = none → mark ≠ child →
      t.parent mark = some parent → mark ∈ (t.detach child).children parent := by
  have hwf : t.WellFormed := wellFormed_empty.run? h
  exact ⟨t.append_atomic, hwf.insertBefore_atomic, t.removeChild_atomic,
    fun n _ _ => t.editElement_atomic n _ _, fun n _ => t.editElement_atomic n _ _,
    fun _ _ _ _ hne hmark => hwf.mark_mem_detach hne hmark⟩

/-- Two items of a list and a text that is in no list. -/
def items : List Edit :=
  [.alloc (.element (.bare "ul")) none, .alloc (.element (.bare "li")) none,
    .alloc (.element (.bare "li")) none, .alloc (.text "x") none, .append 0 1, .append 1 2, .append 1 3]

/-- An item may not come in front of a foreign node, and it may come in front of its neighbour. -/
theorem atomic_of_edits_items : ∃ t, empty.run? items = some t ∧
    (t.insertBefore 1 3 (some 4)).1 = .error (.notAChild 1 4) ∧ (t.insertBefore 1 3 (some 4)).2 = t ∧
    t.insertionFault? 1 3 = none ∧ t.parent 2 = some 1 ∧ 2 ∈ (t.detach 3).children 1 := by
  obtain ⟨-, hinsert, -, -, -, hmark⟩ := atomic_of_edits items _ rfl
  exact ⟨_, rfl, rfl, hinsert 1 3 (some 4) _ rfl, rfl, rfl, hmark 1 3 2 rfl (by decide) rfl⟩

end HtmlQuery.Tree
