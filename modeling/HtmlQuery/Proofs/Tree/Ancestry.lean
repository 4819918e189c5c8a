import HtmlQuery.Proofs.Tree.Links
import Mathlib.Data.List.Perm.Subperm

/-!
# Ancestors

`Above t a n` is the reflexive ancestor relation of the parent links. A tree is `Ranked` when some number
gets smaller with every step to a parent; then every chain of parents ends before it has met all nodes
(`exists_top`), and `ancestors` lists the whole chain (`ancestors_of_parent`, `mem_ancestors_iff`).
-/

namespace HtmlQuery.Tree

variable {t t' : Tree} {n m p a b c : NodeId} {rank : NodeId → Nat}

/-- Ancestor or self. -/
inductive Above (t : Tree) : NodeId → NodeId → Prop
  | refl (n : NodeId) : Above t n n
  | up {a n p : NodeId} : t.parent n = some p → Above t a p → Above t a n

/-- The node that is met after some number of steps from a node to its parent. -/
def up (t : Tree) : Nat → NodeId → Option NodeId
  | 0, n => some n
  | k + 1, n => (t.parent n).bind (t.up k)

/-- A number that gets smaller with every step to a parent. -/
def Ranked (t : Tree) (rank : NodeId → Nat) : Prop :=
  ∀ n p, t.parent n = some p → rank p < rank n

namespace Above

theorem trans (h₁ : Above t a b) (h₂ : Above t b c) : Above t a c := by
  induction h₂ with
  | refl => exact h₁
  | up hp _ ih => exact .up hp ih

theorem rank_le (hr : t.Ranked rank) (h : Above t a n) : rank a ≤ rank n := by
  induction h with
  | refl => exact Nat.le_refl _
  | up hp _ ih => exact Nat.le_trans ih (Nat.le_of_lt (hr _ _ hp))

/-- A node is not above its parent. -/
theorem not_parent (hr : t.Ranked rank) (hp : t.parent n = some p) : ¬ Above t n p := fun h => by
  have := h.rank_le hr
  have := hr _ _ hp
  omega

theorem eq_or (h : Above t a n) : a = n ∨ ∃ p, t.parent n = some p ∧ Above t a p := by
  cases h with
  | refl => exact .inl rfl
  | up hp h => exact .inr ⟨_, hp, h⟩

theorem has (h : Above t a n) (hin : ∀ n p, t.parent n = some p → t.has p = true)
    (hn : t.has n = true) : t.has a = true := by
  induction h with
  | refl => exact hn
  | up hp _ ih => exact ih (hin _ _ hp)

theorem of_detach (h : Above (t.detach c) a n) : Above t a n := by
  induction h with
  | refl => exact .refl _
  | up hp _ ih =>
    rw [parent_detach] at hp
    split at hp
    · simp at hp
    · exact .up hp ih

end Above

/-! ## Chains of parents -/

theorem climb_none (t : Tree) (fuel : Nat) : t.climb fuel none = [] := by cases fuel <;> rfl

theorem above_of_mem_climb {fuel : Nat} (h : a ∈ t.climb fuel (some n)) : Above t a n := by
  induction fuel generalizing n with
  | zero => simp [climb] at h
  | succ fuel ih =>
    rw [climb, List.mem_cons] at h
    rcases h with rfl | h
    · exact .refl a
    · cases hp : t.parent n with
      | none => simp [hp, climb_none] at h
      | some p => exact .up hp (ih (hp ▸ h))

theorem nodup_climb (hr : t.Ranked rank) (fuel : Nat) (n : NodeId) :
    (t.climb fuel (some n)).Nodup := by
  induction fuel generalizing n with
  | zero => simp [climb]
  | succ fuel ih =>
    rw [climb, List.nodup_cons]
    cases hp : t.parent n with
    | none => simp [climb_none]
    | some p => exact ⟨fun h => Above.not_parent hr hp (above_of_mem_climb h), ih p⟩

theorem length_climb_of_up {k : Nat} (h : t.up k n = some a) :
    (t.climb (k + 1) (some n)).length = k + 1 := by
  induction k generalizing n with
  | zero => rfl
  | succ k ih =>
    obtain ⟨p, hp, h⟩ := Option.bind_eq_some_iff.1 h
    rw [climb, List.length_cons, hp, ih h]

/-- A chain of parents that ends is climbed whole by any bound that is long enough. -/
theorem climb_eq_of_up {k fuel : Nat} (h : t.up k n = some a) (ha : t.parent a = none)
    (hk : k < fuel) : t.climb fuel (some n) = t.climb (k + 1) (some n) := by
  induction k generalizing n fuel with
  | zero =>
    simp only [up, Option.some.injEq] at h
    subst h
    obtain ⟨f, rfl⟩ : ∃ f, fuel = f + 1 := ⟨fuel - 1, by omega⟩
    simp [climb, ha, climb_none]
  | succ k ih =>
    obtain ⟨p, hp, h⟩ := Option.bind_eq_some_iff.1 h
    obtain ⟨f, rfl⟩ : ∃ f, fuel = f + 1 := ⟨fuel - 1, by omega⟩
    rw [climb, climb, hp, ih h (by omega)]

/-- In a ranked tree every node reaches one without a parent before it has met all nodes. -/
theorem exists_top (hr : t.Ranked rank) (hin : ∀ n p, t.parent n = some p → t.has p = true)
    (hn : t.has n = true) : ∃ k < t.size, ∃ top, t.up k n = some top ∧ t.parent top = none := by
  obtain ⟨k, top, hup, htop⟩ : ∃ k top, t.up k n = some top ∧ t.parent top = none := by
    induction hk : rank n using Nat.strongRecOn generalizing n with
    | _ r ih =>
      cases hp : t.parent n with
      | none => exact ⟨0, n, rfl, hp⟩
      | some p =>
        obtain ⟨k, top, hup, htop⟩ := ih (rank p) (hk ▸ hr _ _ hp) (hin _ _ hp) rfl
        exact ⟨k + 1, top, by rw [up, hp]; exact hup, htop⟩
  refine ⟨k, ?_, top, hup, htop⟩
  -- the chain has no node twice, so it is no longer than the list of all nodes
  have hsub : t.climb (k + 1) (some n) ⊆ List.range t.size := fun a ha =>
    List.mem_range.2 (has_iff.1 ((above_of_mem_climb ha).has hin hn))
  have := (List.subperm_of_subset (nodup_climb hr (k + 1) n) hsub).length_le
  rw [length_climb_of_up hup, List.length_range] at this
  exact this

/-! ## The list of ancestors -/

/-- How many ancestors a node has. -/
def depth (t : Tree) (n : NodeId) : Nat := (t.ancestors n).length

theorem ancestors_of_loose (h : t.parent n = none) : t.ancestors n = [] := by
  rw [ancestors, h, climb_none]

section
variable (hends : ∀ n, t.has n = true →
  ∃ k < t.size, ∃ top, t.up k n = some top ∧ t.parent top = none)
include hends

/-- The ancestors of a node are its parent and the ancestors of its parent. -/
theorem ancestors_of_parent (h : t.parent n = some p) : t.ancestors n = p :: t.ancestors p := by
  obtain ⟨k, hk, top, hup, htop⟩ := hends n (has_of_parent h)
  cases k with
  | zero =>
    simp only [up, Option.some.injEq] at hup
    rw [hup, htop] at h
    simp at h
  | succ k =>
    rw [up, h, Option.bind_some] at hup
    rw [ancestors, h, climb_eq_of_up hup htop (by omega), climb, ancestors]
    cases hp : t.parent p with
    | none => rw [climb_none, climb_none]
    | some q =>
      cases k with
      | zero =>
        simp only [up, Option.some.injEq] at hup
        rw [hup, htop] at hp
        simp at hp
      | succ k =>
        rw [up, hp, Option.bind_some] at hup
        rw [climb_eq_of_up hup htop (show k < t.size by omega)]

theorem ranked_depth : t.Ranked t.depth := fun n p h => by
  rw [depth, depth, ancestors_of_parent hends h, List.length_cons]
  exact Nat.lt_succ_self _

theorem mem_ancestors_iff : a ∈ t.ancestors n ↔ ∃ p, t.parent n = some p ∧ Above t a p := by
  induction hl : t.ancestors n generalizing n with
  | nil =>
    simp only [List.not_mem_nil, false_iff, not_exists, not_and]
    intro p hp
    rw [ancestors_of_parent hends hp] at hl
    simp at hl
  | cons q l ih =>
    cases hp : t.parent n with
    | none =>
      rw [ancestors_of_loose hp] at hl
      simp at hl
    | some p =>
      rw [ancestors_of_parent hends hp, List.cons.injEq] at hl
      obtain ⟨rfl, hl⟩ := hl
      rw [List.mem_cons, ih hl]
      simp only [Option.some.injEq, exists_eq_left']
      constructor
      · rintro (rfl | ⟨q, hq, h⟩)
        · exact .refl a
        · exact .up hq h
      · exact Above.eq_or

end

end HtmlQuery.Tree
