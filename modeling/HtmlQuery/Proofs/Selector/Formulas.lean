import HtmlQuery.Selector.Nth

/-!
# What position formulas select

A formula `an+b` is about the positions `a * k + b` with a natural number `k`, and it is decided by the quotient and
the remainder of the distance of a position from `b`. Both are numbers of 64 bits where the distance is one
(`holds_tdiv`). A position is positive, so the distance can leave the 64 bits upwards only, and there nothing is
selected (`selects_iff`).
-/

namespace HtmlQuery

namespace Int64Range

variable {m n d : Int} {cs : List Char}

theorem holds_iff : holds n = true ↔ least ≤ n ∧ n ≤ greatest := by
  rw [holds, Bool.and_eq_true, decide_eq_true_iff, decide_eq_true_iff]

theorem check_of_holds (h : holds n = true) : check n = some n := if_pos h

theorem holds_of_check (h : check n = some d) : holds d = true := by
  unfold check at h
  split at h
  · obtain rfl := Option.some.inj h
    assumption
  · exact absurd h.symm (Option.some_ne_none d)

theorem holds_ofDigits? (h : ofDigits? cs = some n) : holds n = true := by
  unfold ofDigits? at h
  dsimp only at h
  split at h
  · exact absurd h.symm (Option.some_ne_none n)
  · exact holds_of_check h

/-- Of the numbers of 64 bits only the least one has a quotient that is none. -/
theorem holds_tdiv (hleast : least < m) (hgreatest : m ≤ greatest) (n : Int) : holds (m.tdiv n) = true := by
  have habs : (m.tdiv n).natAbs ≤ m.natAbs := Int.natAbs_tdiv_le_natAbs m n
  rw [holds_iff]
  unfold least greatest at *
  omega

end Int64Range

namespace NthFormula

open Int64Range

variable {s : String} {f : NthFormula} {n d a : Int} {cs : List Char}

/-! ## Numbers of formulas -/

theorem holds_step? (h : step? cs = some a) : holds a = true := by
  unfold step? at h
  split at h
  · obtain rfl := Option.some.inj h
    decide
  · obtain rfl := Option.some.inj h
    decide
  · obtain rfl := Option.some.inj h
    decide
  · exact holds_ofDigits? h

theorem holds_offset? (h : offset? cs = some d) : holds d = true := by
  unfold offset? at h
  split at h
  · obtain rfl := Option.some.inj h
    decide
  · exact holds_ofDigits? h
  · exact holds_ofDigits? h
  · exact absurd h.symm (Option.some_ne_none d)

/-- The numbers of a formula that was read are numbers of 64 bits. -/
theorem holds_parse? (h : parse? s = some f) : holds f.a = true ∧ holds f.b = true := by
  unfold parse? ofNormal? at h
  split at h
  · obtain rfl := Option.some.inj h
    decide
  split at h
  · obtain rfl := Option.some.inj h
    decide
  split at h
  · obtain ⟨b, hb, rfl⟩ := Option.map_eq_some_iff.1 h
    exact ⟨rfl, holds_ofDigits? hb⟩
  · obtain ⟨a, ha, h⟩ := Option.bind_eq_some_iff.1 h
    obtain ⟨b, hb, rfl⟩ := Option.map_eq_some_iff.1 h
    exact ⟨holds_step? ha, holds_offset? hb⟩

/-! ## Selected positions -/

/-- A distance is so many steps if the step divides it and the quotient is not negative. -/
theorem exists_steps_iff (ha : a ≠ 0) : (∃ k : Nat, d = a * k) ↔ d.tmod a = 0 ∧ 0 ≤ d.tdiv a := by
  constructor
  · rintro ⟨k, rfl⟩
    rw [Int.mul_tmod_right, Int.mul_tdiv_cancel_left _ ha]
    exact ⟨rfl, Int.natCast_nonneg k⟩
  · rintro ⟨hmod, hdiv⟩
    obtain ⟨k, hk⟩ := Int.eq_ofNat_of_zero_le hdiv
    refine ⟨k, ?_⟩
    rw [← hk, Int.mul_tdiv_cancel_of_tmod_eq_zero hmod]

/-- Where the distance of a position from the offset is a number of 64 bits, the steps decide. -/
theorem selects_of_inRange (hleast : least < n - f.b) (hgreatest : n - f.b ≤ greatest) :
    f.selects n = true ↔ ∃ k : Nat, n = f.a * k + f.b := by
  have hsteps : (∃ k : Nat, n = f.a * k + f.b) ↔ ∃ k : Nat, n - f.b = f.a * k :=
    exists_congr fun k => Int.sub_eq_iff_eq_add.symm
  rw [hsteps]
  by_cases ha : f.a = 0
  · rw [selects, if_pos ha, decide_eq_true_iff, ha]
    simp only [Int.zero_mul, exists_const]
    omega
  · have hdiff : sub? n f.b = some (n - f.b) :=
      check_of_holds (holds_iff.2 ⟨Int.le_of_lt hleast, hgreatest⟩)
    have hdiv : div? (n - f.b) f.a = some ((n - f.b).tdiv f.a) := by
      rw [div?, if_neg ha]
      exact check_of_holds (holds_tdiv hleast hgreatest _)
    have hrem : rem? (n - f.b) f.a = some ((n - f.b).tmod f.a) := by rw [rem?, hdiv]; rfl
    rw [exists_steps_iff ha, selects, if_neg ha, hdiff]
    dsimp only
    rw [hrem, hdiv]
    split
    · rename_i k hmod hk
      rw [← Option.some.inj hmod, ← Option.some.inj hk, decide_eq_true_iff]
      exact (and_iff_right rfl).symm
    · rename_i hother
      refine iff_of_false Bool.false_ne_true ?_
      rintro ⟨hmod, -⟩
      exact hother _ (congrArg some hmod) rfl

/-- Behind the 64 bits nothing is selected. -/
theorem selects_of_greatest_lt (hgreatest : greatest < n - f.b) : f.selects n = false := by
  by_cases ha : f.a = 0
  · rw [selects, if_pos ha, decide_eq_false_iff_not]
    unfold greatest at hgreatest
    omega
  · have hdiff : sub? n f.b = none := by
      refine if_neg fun h => ?_
      exact absurd (holds_iff.1 h).2 (Int.not_le.2 hgreatest)
    rw [selects, if_neg ha, hdiff]

/-- **A formula selects the positions `a * k + b` whose distance from `b` is a number of 64 bits.** -/
theorem selects_iff (hparse : parse? s = some f) (hpos : 1 ≤ n) :
    f.selects n = true ↔ n - f.b ≤ greatest ∧ ∃ k : Nat, n = f.a * k + f.b := by
  have hoffset : f.b ≤ greatest := (holds_iff.1 (holds_parse? hparse).2).2
  by_cases hgreatest : n - f.b ≤ greatest
  · have hleast : least < n - f.b := by
      unfold least greatest at *
      omega
    rw [selects_of_inRange hleast hgreatest, and_iff_right hgreatest]
  · rw [selects_of_greatest_lt (Int.not_le.1 hgreatest)]
    exact iff_of_false Bool.false_ne_true fun h => hgreatest h.1

/-- Downwards from the greatest offset there is, the first position is selected. -/
theorem selects_iff_downwards : parse? "-N + 9223372036854775807" = some ⟨-1, greatest⟩ ∧ (1 : Int) ≤ 1 ∧
    (NthFormula.mk (-1) greatest).selects 1 = true := by
  have hparse : parse? "-N + 9223372036854775807" = some ⟨-1, greatest⟩ := by decide +kernel
  have hpos : (1 : Int) ≤ 1 := Int.le_refl 1
  exact ⟨hparse, hpos, (selects_iff hparse hpos).2 ⟨by decide, 9223372036854775806, by decide⟩⟩

/-- The first position is as many steps from the least offset as no number of 64 bits can say. -/
theorem not_selects_iff_upwards : ¬ ∀ (s : String) (f : NthFormula) (n : Int), parse? s = some f → 1 ≤ n →
    n ≤ greatest → (f.selects n = true ↔ ∃ k : Nat, n = f.a * k + f.b) := by
  intro h
  have hparse : parse? "n-9223372036854775808" = some ⟨1, least⟩ := by decide +kernel
  have hselects := (h _ _ 1 hparse (by decide) (by decide)).2 ⟨9223372036854775809, by decide⟩
  exact absurd hselects (by decide)

end NthFormula

end HtmlQuery
