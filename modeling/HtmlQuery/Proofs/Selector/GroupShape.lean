import HtmlQuery.Proofs.Selector.Placement
import HtmlQuery.Proofs.Selector.ReadBack
import HtmlQuery.Proofs.Selector.Union

/-!
# The shape of groups

A group has no compounds and no combinators when its text is blank, and otherwise one compound more than combinators
(`ShapedAs`). A round of the loop that reads a group may take a combinator that nothing follows and add nothing, but it
always takes something (`round?_shorter`), and what it adds is a combinator with a compound (`alternates_round`). So
the loop ends, on any text (`exists_rounds`), with as many combinators as there are places between compounds, and
reading the group from right to left passes over none of them (`shapedAs_parse`).
-/

namespace HtmlQuery

/-- There is a combinator between every two neighbouring compounds, and there are no others. -/
def Group.Alternates (g : Group) : Prop := g.parts.length = g.combinators.length + 1

namespace SelectorList

/-! ## The loop that reads a group -/

/-- One round of the loop that reads a group: it takes a combinator, and the compound behind it if one starts there.
Without a combinator there is no round. -/
def round? (g : Group) (cs : List Char) : Option (Group × List Char) :=
  (readCombinator (isSpaced cs) (skipBlanks cs)).map fun found =>
    if found.2.head?.any startsCondition then
      (g.push found.1 (readCompound .any found.2).1, (readCompound .any found.2).2)
    else (g, found.2)

/-- The loop goes round so many times over a text, and ends with a group. -/
inductive Rounds : Group → List Char → Nat → Group → Prop
  | ended {g : Group} {cs : List Char} : round? g cs = none → Rounds g cs 0 g
  | next {g g' last : Group} {cs cs' : List Char} {n : Nat} : round? g cs = some (g', cs') → Rounds g' cs' n last →
      Rounds g cs (n + 1) last

variable {g g' : Group} {cs cs' : List Char}

theorem round?_cases (h : round? g cs = some (g', cs')) :
    ∃ c rest, readCombinator (isSpaced cs) (skipBlanks cs) = some (c, rest) ∧
      ((rest.head?.any startsCondition = true ∧ g' = g.push c (readCompound .any rest).1 ∧
          cs' = (readCompound .any rest).2) ∨
        (rest.head?.any startsCondition = false ∧ g' = g ∧ cs' = rest)) := by
  obtain ⟨⟨c, rest⟩, hread, heq⟩ := Option.map_eq_some_iff.1 h
  refine ⟨c, rest, hread, ?_⟩
  split at heq
  · rename_i hstarts
    obtain ⟨rfl, rfl⟩ := Prod.mk.inj heq
    exact .inl ⟨hstarts, rfl, rfl⟩
  · rename_i hstarts
    obtain ⟨rfl, rfl⟩ := Prod.mk.inj heq
    exact .inr ⟨Bool.eq_false_iff.2 hstarts, rfl, rfl⟩

/-- A round takes something, also when it adds nothing. -/
theorem round?_shorter (h : round? g cs = some (g', cs')) : cs'.length < cs.length := by
  obtain ⟨c, rest, hread, hstep⟩ := round?_cases h
  have hrest := readCombinator_shorter hread
  rcases hstep with ⟨-, -, rfl⟩ | ⟨-, -, rfl⟩
  · exact Nat.lt_of_le_of_lt (readCompound_length ..) hrest
  · exact hrest

/-- What a round adds is a combinator with a compound. -/
theorem alternates_round (hg : g.Alternates) (h : round? g cs = some (g', cs')) : g'.Alternates := by
  obtain ⟨c, rest, -, ⟨-, rfl, -⟩ | ⟨-, rfl, -⟩⟩ := round?_cases h
  · have hlength : g.parts.length = g.combinators.length + 1 := hg
    show (g.parts ++ [_]).length = (g.combinators ++ [c]).length + 1
    rw [List.length_append, List.length_append, hlength]
    rfl
  · exact hg

theorem readMore_of_round? (h : round? g cs = some (g', cs')) : readMore g cs = readMore g' cs' := by
  obtain ⟨c, rest, hread, ⟨hstarts, rfl, rfl⟩ | ⟨hstarts, rfl, rfl⟩⟩ := round?_cases h
  · rw [readMore_of_joint hread, if_pos hstarts]
  · rw [readMore_of_joint hread, hstarts, if_neg Bool.false_ne_true]

/-- The loop ends, after no more rounds than the text has characters. -/
theorem exists_rounds (g : Group) (cs : List Char) : ∃ n ≤ cs.length, Rounds g cs n (readMore g cs) := by
  induction hlength : cs.length using Nat.strongRecOn generalizing g cs with
  | ind length ih =>
    subst hlength
    cases hround : round? g cs with
    | none =>
      refine ⟨0, Nat.zero_le _, ?_⟩
      rw [readMore_of_none (Option.map_eq_none_iff.1 hround)]
      exact .ended hround
    | some found =>
      obtain ⟨g', cs'⟩ := found
      have hshorter := round?_shorter hround
      obtain ⟨n, hn, hrounds⟩ := ih _ hshorter g' cs' rfl
      rw [readMore_of_round? hround]
      exact ⟨n + 1, Nat.lt_of_le_of_lt hn hshorter, .next hround hrounds⟩

/-- However often the loop goes round, compounds and combinators go on taking turns. -/
theorem alternates_of_rounds {n : Nat} {last : Group} (h : Rounds g cs n last) (hg : g.Alternates) :
    last.Alternates := by
  induction h with
  | ended => exact hg
  | next hround _ ih => exact ih (alternates_round hg hround)

/-! ## Groups and their texts -/

/-- The group of a piece of selector text has the shape that reading it from right to left relies on. -/
structure ShapedAs (piece : List Char) (g : Group) : Prop where
  /-- There are neither compounds nor combinators just where the piece is blank. -/
  empty_iff : g.parts = [] ∧ g.combinators = [] ↔ ∀ c ∈ piece, Text.isWhitespace c = true
  /-- Otherwise there is one compound more than combinators. -/
  alternates : ¬ (g.parts = [] ∧ g.combinators = []) → g.parts.length = g.combinators.length + 1
  /-- The loop behind the first compound ends, and with this group. -/
  rounds : ¬ (g.parts = [] ∧ g.combinators = []) →
    ∃ first rest, readCompound .any (Text.trim piece) = (first, rest) ∧
      ∃ n ≤ rest.length, Rounds ⟨[first], []⟩ rest n g
  /-- The steps from right to left take every compound but the last one, and every combinator. -/
  steps_eq : g.steps.map Prod.fst = g.parts.dropLast.reverse ∧ g.steps.map Prod.snd = g.combinators.reverse

theorem readGroup_trim (piece : List Char) : readGroup (Text.trim piece) =
    if Text.trim piece = [] then .empty
    else readMore ⟨[(readCompound .any (Text.trim piece)).1], []⟩ (readCompound .any (Text.trim piece)).2 := by
  have hskip : skipBlanks (Text.trim piece) = Text.trim piece :=
    @Text.dropWhile_append_of_head? [] _ (by simp) fun c hc => Text.not_isWhitespace_of_head?_trim hc
  rw [readGroup, hskip]
  cases Text.trim piece <;> rfl

theorem shapedAs_readGroup (piece : List Char) : ShapedAs piece (readGroup (Text.trim piece)) := by
  rw [readGroup_trim]
  split
  · rename_i hblank
    have hempty : Group.empty.parts = [] ∧ Group.empty.combinators = [] := ⟨rfl, rfl⟩
    exact ⟨iff_of_true hempty (Text.trim_eq_nil_iff.1 hblank), fun h => absurd hempty h, fun h => absurd hempty h, rfl, rfl⟩
  · rename_i hsolid
    obtain ⟨n, hn, hrounds⟩ := exists_rounds ⟨[(readCompound .any (Text.trim piece)).1], []⟩
      (readCompound .any (Text.trim piece)).2
    have halternates := alternates_of_rounds hrounds rfl
    generalize readMore _ _ = g at hrounds halternates
    have hlength : g.parts.length = g.combinators.length + 1 := halternates
    have hne : ¬ (g.parts = [] ∧ g.combinators = []) := by
      rintro ⟨hparts, -⟩
      rw [hparts] at hlength
      exact absurd hlength (by simp)
    exact ⟨iff_of_false hne (hsolid ∘ Text.trim_eq_nil_iff.2), fun _ => hlength, fun _ => ⟨_, _, rfl, n, hn, hrounds⟩,
      Group.map_fst_steps hlength, Group.map_steps hlength⟩

/-- **Every group is well shaped.** A selector text has as many groups as there are pieces between its dividing commas,
and one at least. The group of a blank piece has no compounds and no combinators; that of any other piece has one
compound more than combinators, so that no step from right to left leaves one out. -/
theorem shapedAs_parse (s : String) :
    [','].intercalate (split s.toList) = s.toList ∧ 0 < (parse s).groups.length ∧
    List.Forall₂ ShapedAs (split s.toList) (parse s).groups := by
  refine ⟨intercalate_split _, ?_, ?_⟩
  · rw [parse, List.length_map]
    exact Nat.zero_lt_succ _
  · rw [parse, List.forall₂_map_right_iff, List.forall₂_same]
    exact fun piece _ => shapedAs_readGroup piece

end SelectorList

end HtmlQuery
