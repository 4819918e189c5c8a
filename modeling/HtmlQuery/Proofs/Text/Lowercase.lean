import HtmlQuery.Text.AsciiCase
import HtmlQuery.Text.Lowercase
import HtmlQuery.Text.Whitespace
import Mathlib.Order.Basic

/-!
# Lower-cased text stays as it is

The small letters of a run of capitals are not capitals of any run (`CaseRun.not_holds`), so lower-casing a text a
second time changes nothing (`lowercase_lowercase`). A character of the lower-cased text either stands in the text
or is neither a blank nor a mark of ASCII (`lowers_of_mem_lowerFrom`).
-/

namespace HtmlQuery.Text

/-! ## Runs of capitals -/

namespace CaseRun

/-- The code point of the first small letter of a run. -/
def smallest (r : CaseRun) : Nat := (r.first + r.shift).toNat

/-- The code point of the last small letter of a run. -/
def largest (r : CaseRun) : Nat := (r.last + r.shift).toNat

/-- Whether the small letters of a run are seen not to be capitals of another one: they lie on one side of these, or
between them. -/
def misses (r other : CaseRun) : Bool :=
  Nat.blt r.largest other.first || Nat.blt other.last r.smallest ||
    (Nat.beq other.step 2 && (Nat.beq r.step 2 || Nat.beq r.first r.last) &&
      !Nat.beq (r.smallest % 2) (other.first % 2))

/-- Where the small letters of no run lie: below the ASCII letter `k`, from there to the first letters beyond ASCII,
at the dotted capital, at blanks, and among the code points of no character. -/
def gaps : List (Nat × Nat) :=
  [(0, 0x6A), (0x6C, 0xA0), (0x130, 0x130), (0x1680, 0x1680), (0x2000, 0x200A), (0x2028, 0x2029),
    (0x202F, 0x202F), (0x205F, 0x205F), (0x3000, 0x3000), (0xD800, 0xDFFF)]

theorem misses_capitalRuns :
    (capitalRuns.all fun r => capitalRuns.all fun other => r.misses other) = true := by
  decide +kernel

theorem gaps_capitalRuns : (capitalRuns.all fun r => gaps.all fun gap =>
    Nat.blt r.largest gap.1 || Nat.blt gap.2 r.smallest) = true := by
  decide +kernel

theorem largest_capitalRuns : (capitalRuns.all fun r => Nat.blt r.largest 0x110000) = true := by
  decide +kernel

theorem capitalRuns_sigma : (capitalRuns.any (·.holds 'Σ'.toNat)) = true := by decide +kernel

variable {r other : CaseRun} {n : Nat}

/-- The small letter of a capital lies between those of the ends of its run. -/
theorem between (hr : r ∈ capitalRuns) (h : r.holds n = true) :
    r.smallest ≤ (n + r.shift).toNat ∧ (n + r.shift).toNat ≤ r.largest ∧ 0 < r.first + r.shift := by
  have hgap := List.all_eq_true.1 (List.all_eq_true.1 gaps_capitalRuns r hr) (0, 0x6A) (by decide)
  simp only [holds, smallest, largest, Bool.and_eq_true, decide_eq_true_eq, Bool.or_eq_true,
    Nat.blt_eq] at h hgap ⊢
  omega

theorem outside_gap (hr : r ∈ capitalRuns) (h : r.holds n = true) {gap : Nat × Nat} (hgap : gap ∈ gaps) :
    (n + r.shift).toNat < gap.1 ∨ gap.2 < (n + r.shift).toNat := by
  obtain ⟨hle, hge, -⟩ := between hr h
  have := List.all_eq_true.1 (List.all_eq_true.1 gaps_capitalRuns r hr) gap hgap
  simp only [Bool.or_eq_true, Nat.blt_eq] at this
  omega

/-- A small letter is no capital. -/
theorem not_holds (hr : r ∈ capitalRuns) (h : r.holds n = true) (hother : other ∈ capitalRuns) :
    other.holds (n + r.shift).toNat = false := by
  obtain ⟨hle, hge, hpos⟩ := between hr h
  have hmiss := List.all_eq_true.1 (List.all_eq_true.1 misses_capitalRuns r hr) other hother
  rw [Bool.eq_false_iff]
  intro hheld
  simp only [misses, holds, smallest, largest, Bool.or_eq_true, Bool.and_eq_true, Bool.not_eq_true',
    ← Bool.not_eq_true, Nat.blt_eq, Nat.beq_eq, decide_eq_true_eq, beq_iff_eq] at hmiss h hheld hle hge
  rcases hmiss with (hbelow | habove) | ⟨⟨hother, hr⟩, hparity⟩
  · omega
  · omega
  · -- the small letters lie between the capitals of the other run
    rw [hother] at hheld
    rcases hr with hr | hr
    · rw [hr] at h
      omega
    · omega

end CaseRun

/-! ## Small forms -/

/-- Lower-casing leaves the character as it is. -/
def Settled (c : Char) : Prop := c ≠ 'Σ' ∧ smallForm c = [c]

instance (c : Char) : Decidable (Settled c) := inferInstanceAs (Decidable (_ ∧ _))

/-- A character beyond ASCII that is outside all ranges of blanks is no blank. -/
theorem not_isWhitespace_of_gaps {c : Char} (hlow : 0xA0 < c.toNat)
    (h : ∀ gap ∈ CaseRun.gaps, c.toNat < gap.1 ∨ gap.2 < c.toNat) : isWhitespace c = false := by
  have hval : c.val.toNat = c.toNat := rfl
  simp only [CaseRun.gaps, List.forall_mem_cons, List.not_mem_nil, false_imp_iff, implies_true, and_true]
    at h
  simp only [isWhitespace, Bool.or_eq_false_iff, Bool.and_eq_false_iff, decide_eq_false_iff_not,
    UInt32.le_iff_toNat_le, ← UInt32.toNat_inj, hval, UInt32.reduceToNat]
  omega

/-- A character that no run has among its capitals and that is outside all gaps. -/
theorem settled_ofNat {m : Nat} (hbound : m < 0x110000)
    (hgaps : ∀ gap ∈ CaseRun.gaps, m < gap.1 ∨ gap.2 < m) (hnot : ∀ r ∈ capitalRuns, r.holds m = false) :
    Settled (Char.ofNat m) ∧ isWhitespace (Char.ofNat m) = false ∧
      (Char.ofNat m = 'k' ∨ 0x80 ≤ (Char.ofNat m).toNat) := by
  have hm := hgaps
  simp only [CaseRun.gaps, List.forall_mem_cons, List.not_mem_nil, false_imp_iff, implies_true, and_true]
    at hm
  obtain rfl | hlow : m = 0x6B ∨ 0xA0 < m := by omega
  · -- the small letter of the Kelvin sign
    exact ⟨⟨by decide, rfl⟩, by decide, .inl rfl⟩
  · have hd : (Char.ofNat m).toNat = m := toNat_ofNat (by unfold Nat.isValidChar; omega)
    have hdot : Char.ofNat m ≠ 'İ' := fun he => by
      have : m = 0x130 := by rw [← hd, he]; rfl
      omega
    have hsigma : Char.ofNat m ≠ 'Σ' := fun he => by
      obtain ⟨r, hr, hheld⟩ := List.any_eq_true.1 CaseRun.capitalRuns_sigma
      rw [← he, hd, hnot r hr] at hheld
      exact Bool.false_ne_true hheld
    have hnone : capitalRuns.find? (·.holds (Char.ofNat m).toNat) = none := by
      rw [List.find?_eq_none, hd]
      exact fun r hr => by rw [hnot r hr]; decide
    refine ⟨⟨hsigma, ?_⟩, not_isWhitespace_of_gaps (by omega) (by rwa [hd]), .inr (by omega)⟩
    rw [smallForm, if_neg (by omega), if_neg hdot, hnone]

/-- What stands for a character in small letters stays as it is, and where it is not that character it is no blank
and no mark of ASCII. -/
def Lowers (c d : Char) : Prop :=
  Settled d ∧ (d = c ∨ isWhitespace d = false ∧ ('a' ≤ d ∧ d ≤ 'z' ∨ 0x80 ≤ d.toNat))

instance (c d : Char) : Decidable (Lowers c d) := inferInstanceAs (Decidable (_ ∧ _))

theorem lowers_toLower {c : Char} (hc : c.toNat < 0x80) : Lowers c c.toLower :=
  forall_ascii (p := fun c => Lowers c c.toLower) (by decide +kernel) hc

theorem lowers_of_holds {r : CaseRun} {c : Char} (hr : r ∈ capitalRuns) (h : r.holds c.toNat = true) :
    Lowers c (Char.ofNat (c.toNat + r.shift).toNat) := by
  obtain ⟨-, hlargest, -⟩ := CaseRun.between hr h
  have hbound := List.all_eq_true.1 CaseRun.largest_capitalRuns r hr
  rw [Nat.blt_eq] at hbound
  obtain ⟨hsettled, hblank, hletter⟩ := settled_ofNat (Nat.lt_of_le_of_lt hlargest hbound)
    (fun gap hgap => CaseRun.outside_gap hr h hgap) fun other hother => CaseRun.not_holds hr h hother
  refine ⟨hsettled, .inr ⟨hblank, hletter.imp_left fun hk => ?_⟩⟩
  rw [hk]
  decide

theorem lowers_smallForm {c d : Char} (hc : c ≠ 'Σ') (hd : d ∈ smallForm c) : Lowers c d := by
  unfold smallForm at hd
  split at hd
  · rename_i hascii
    rw [List.mem_singleton.1 hd]
    exact lowers_toLower hascii
  · split at hd
    · rcases List.mem_cons.1 hd with rfl | hd
      · exact ⟨⟨by decide, rfl⟩, .inr (by decide)⟩
      · rw [List.mem_singleton.1 hd]
        exact ⟨⟨by decide, by decide +kernel⟩, .inr (by decide)⟩
    · split at hd
      · rename_i hfind
        rw [List.mem_singleton.1 hd]
        exact lowers_of_holds (List.mem_of_find?_eq_some hfind) (by simpa using List.find?_some hfind)
      · rename_i hascii hdot _ hfind
        rw [List.mem_singleton.1 hd]
        refine ⟨⟨hc, ?_⟩, .inl rfl⟩
        rw [smallForm, if_neg hascii, if_neg hdot, hfind]

/-! ## Lower-cased text -/

theorem lowers_of_mem_lowerFrom {before cs : List Char} {d : Char} (hd : d ∈ lowerFrom before cs) :
    ∃ c ∈ cs, Lowers c d := by
  induction cs generalizing before with
  | nil => exact absurd hd List.not_mem_nil
  | cons c cs ih =>
    rw [lowerFrom, List.mem_append] at hd
    rcases hd with hd | hd
    · refine ⟨c, List.mem_cons_self, ?_⟩
      split at hd
      · -- the two small sigmas
        have hsigma : d = 'ς' ∨ d = 'σ' := by
          split at hd
          · exact .inl (List.mem_singleton.1 hd)
          · exact .inr (List.mem_singleton.1 hd)
        rcases hsigma with rfl | rfl
        · exact ⟨⟨by decide, by decide +kernel⟩, .inr (by decide)⟩
        · exact ⟨⟨by decide, by decide +kernel⟩, .inr (by decide)⟩
      · exact lowers_smallForm (by assumption) hd
    · obtain ⟨c, hc, hlowers⟩ := ih hd
      exact ⟨c, List.mem_cons_of_mem _ hc, hlowers⟩

theorem lowerFrom_settled {before cs : List Char} (h : ∀ c ∈ cs, Settled c) : lowerFrom before cs = cs := by
  induction cs generalizing before with
  | nil => rfl
  | cons c cs ih =>
    obtain ⟨hsigma, hsmall⟩ := h c List.mem_cons_self
    rw [lowerFrom, if_neg hsigma, hsmall, ih fun d hd => h d (List.mem_cons_of_mem _ hd)]
    rfl

/-- Lower-casing a text again changes nothing. -/
theorem lowercase_lowercase (s : String) : lowercase (lowercase s) = lowercase s := by
  have hsettled : ∀ c ∈ lowerFrom [] s.toList, Settled c := fun c hc =>
    have ⟨_, _, hlowers⟩ := lowers_of_mem_lowerFrom hc
    hlowers.1
  rw [lowercase, lowercase, String.toList_ofList, lowerFrom_settled hsettled]

theorem smallForm_ne_nil (c : Char) : smallForm c ≠ [] := by
  unfold smallForm
  split
  · simp
  · split
    · simp
    · split <;> simp

theorem lowerFrom_ne_nil {before cs : List Char} (h : cs ≠ []) : lowerFrom before cs ≠ [] := by
  obtain ⟨c, cs, rfl⟩ := List.exists_cons_of_ne_nil h
  rw [lowerFrom]
  refine List.append_ne_nil_of_left_ne_nil ?_ _
  split
  · split <;> simp
  · exact smallForm_ne_nil c

end HtmlQuery.Text
