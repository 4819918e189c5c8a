import HtmlQuery.Selector.Matching
import Mathlib.Logic.Basic

/-!
# Selector texts inside selector texts

Some pseudo-classes hold the text of a selector. Such a text is shorter than the text it was read from
(`SelectorList.nestedBelow_parse`), and so is what a match has to answer about it (`SelectorList.asked_parse`). The
bound under which `Tree.matchesText` answers for a text inside another one is therefore always met: it is the one
function that answers every text by reading it, whatever texts are inside (`Tree.answersAfresh_iff`).
-/

namespace HtmlQuery

/-! ## Texts of pseudo-classes -/

namespace PseudoClass

/-- The selector text that a match of a pseudo-class has to answer. -/
def asked? : PseudoClass → Option String
  | not selectors => selectors
  | is selectors => selectors
  | has relative => relative.map fun text => (Relative.ofText text).selectors
  | _ => none

/-- A selector text inside a pseudo-class is its argument. -/
theorem eq_some_of_nestedText? {name : String} {arg : Option String} {text : String}
    (h : (ofText name arg).nestedText? = some text) : arg = some text := by
  unfold ofText at h
  split at h
  · rename_i known _
    have harg : argument arg = some text := by
      cases known <;> first | exact h | exact absurd h (by simp [ofName, nestedText?])
    exact (Option.filter_eq_some_iff.1 harg).1
  · simp [nestedText?] at h

end PseudoClass

theorem Text.length_trim_le (cs : List Char) : (trim cs).length ≤ cs.length := by
  obtain ⟨pre, post, h, -⟩ := exists_trim cs
  have hlen := congrArg List.length h
  rw [List.length_append, List.length_append] at hlen
  omega

namespace Relative

/-- Behind the combinator of a relative selector stands a part of its text. -/
theorem exists_rest (s : String) : ∃ rest, rest.length ≤ s.length ∧
    (ofText s).selectors = if (Text.trim rest).isEmpty then "*" else String.ofList (Text.trim rest) := by
  have htrim := Text.length_trim_le s.toList
  rw [String.length_toList] at htrim
  have hbehind : ∀ c rest, Text.trim s.toList = c :: rest → rest.length ≤ s.length := by
    intro c rest h
    rw [h, List.length_cons] at htrim
    omega
  unfold ofText
  dsimp only
  split
  · rename_i rest h
    exact ⟨rest, hbehind _ _ h, rfl⟩
  · rename_i rest h
    exact ⟨rest, hbehind _ _ h, rfl⟩
  · rename_i rest h
    exact ⟨rest, hbehind _ _ h, rfl⟩
  · exact ⟨_, htrim, rfl⟩

/-- What a relative selector asks about is `*`, or it is no longer than its text. -/
theorem selectors_ofText (s : String) :
    (ofText s).selectors = "*" ∨ (ofText s).selectors.length ≤ s.length := by
  obtain ⟨rest, hrest, h⟩ := exists_rest s
  rw [h]
  split
  · exact .inl rfl
  · rw [String.length_ofList]
    exact .inr (Nat.le_trans (Text.length_trim_le rest) hrest)

end Relative

/-! ## Reading -/

/-- The selector texts inside a compound leave room for a colon and a parenthesis. -/
def Compound.NestedBelow (size : Nat) (p : Compound) : Prop :=
  ∀ c ∈ p.pseudoClasses, ∀ text, c.nestedText? = some text → text.length + 2 ≤ size

/-- The selector texts inside a group leave room for a colon and a parenthesis. -/
def Group.NestedBelow (size : Nat) (g : Group) : Prop := ∀ p ∈ g.parts, p.NestedBelow size

namespace SelectorList

theorem readArgument_fst_length (depth : Nat) (cs : List Char) :
    (readArgument depth cs).1.length ≤ cs.length := by
  induction cs generalizing depth with
  | nil => simp [readArgument]
  | cons c cs ih =>
    unfold readArgument
    split
    · split
      · simp
      · exact Nat.succ_le_succ (ih _)
    · exact Nat.succ_le_succ (ih _)

theorem readPseudoClass_nested {cs : List Char} {text : String}
    (h : (readPseudoClass cs).1.nestedText? = some text) : text.length + 1 ≤ cs.length := by
  have hname : (afterName cs).length ≤ cs.length := Text.length_dropWhile_le ..
  unfold readPseudoClass at h
  split at h
  · rename_i rest heq
    have harg := Option.some.inj (PseudoClass.eq_some_of_nestedText? h)
    have hlen := readArgument_fst_length 0 rest
    rw [← harg, String.length_ofList]
    rw [heq, List.length_cons] at hname
    omega
  · exact absurd (PseudoClass.eq_some_of_nestedText? h) (by simp)

theorem readCompound_nestedBelow {size : Nat} {p : Compound} {cs : List Char} (hp : p.NestedBelow size)
    (hcs : cs.length ≤ size) : (readCompound p cs).1.NestedBelow size := by
  have hname : ∀ {c : Char} {rest : List Char}, (c :: rest).length ≤ size →
      (afterName rest).length ≤ size := fun {_ rest} h =>
    Nat.le_trans (Text.length_dropWhile_le isNameChar rest) (Nat.le_trans (Nat.le_succ _) h)
  fun_induction readCompound p cs with
  | case1 p => exact hp
  | case2 p rest ih =>
    refine ih ?_ (hname hcs)
    split
    · exact hp
    · exact hp
  | case3 p rest _ ih => exact ih hp (hname hcs)
  | case4 p rest _ _ ih =>
    exact ih hp (Nat.le_trans (readBracket_length rest) (Nat.le_trans (Nat.le_succ _) hcs))
  | case5 p rest _ _ _ ih =>
    rw [List.length_cons] at hcs
    refine ih (fun c hc text htext => ?_) (Nat.le_trans (readPseudoClass_length rest) (by omega))
    rcases List.mem_append.1 hc with hc | hc
    · exact hp c hc text htext
    · rw [List.mem_singleton.1 hc] at htext
      have := readPseudoClass_nested htext
      omega
  | case6 p rest _ _ _ _ ih => exact ih hp (Nat.le_trans (Nat.le_succ _) hcs)
  | case7 p c rest _ _ _ _ _ _ ih => exact ih hp (hname hcs)
  | case8 p c rest => exact hp

theorem nestedBelow_any (size : Nat) : Compound.any.NestedBelow size := by
  simp [Compound.NestedBelow, Compound.any]

theorem readMore_nestedBelow {size : Nat} {g : Group} {cs : List Char} (hg : g.NestedBelow size)
    (hcs : cs.length ≤ size) : (readMore g cs).NestedBelow size := by
  fun_induction readMore g cs with
  | case1 => exact hg
  | case2 g cs c rest h _ ih =>
    have hrest : rest.length ≤ size := Nat.le_trans (Nat.le_of_lt (readCombinator_shorter h)) hcs
    refine ih (fun p hp => ?_) (Nat.le_trans (readCompound_length ..) hrest)
    rcases List.mem_append.1 hp with hp | hp
    · exact hg p hp
    · rw [List.mem_singleton.1 hp]
      exact readCompound_nestedBelow (nestedBelow_any size) hrest
  | case3 g cs c rest h _ ih =>
    exact ih hg (Nat.le_trans (Nat.le_of_lt (readCombinator_shorter h)) hcs)

theorem readGroup_nestedBelow (cs : List Char) : (readGroup cs).NestedBelow cs.length := by
  have hblank : (skipBlanks cs).length ≤ cs.length := Text.length_dropWhile_le ..
  unfold readGroup
  split
  · simp [Group.NestedBelow, Group.empty]
  · refine readMore_nestedBelow (fun p hp => ?_) (Nat.le_trans (readCompound_length ..) hblank)
    rw [List.mem_singleton.1 hp]
    exact readCompound_nestedBelow (nestedBelow_any _) hblank

/-- A piece is no longer than the text that is divided. -/
theorem splitFrom_length (n : Nesting) (cs : List Char) :
    (splitFrom n cs).1.length ≤ cs.length ∧ ∀ piece ∈ (splitFrom n cs).2, piece.length ≤ cs.length := by
  induction cs generalizing n with
  | nil => simp [splitFrom]
  | cons c cs ih =>
    unfold splitFrom
    split
    · obtain ⟨hfirst, hrest⟩ := ih n
      refine ⟨Nat.zero_le _, List.forall_mem_cons.2 ⟨Nat.le_succ_of_le hfirst, fun piece hpiece => ?_⟩⟩
      exact Nat.le_succ_of_le (hrest piece hpiece)
    · obtain ⟨hfirst, hrest⟩ := ih (n.after c)
      exact ⟨Nat.succ_le_succ hfirst, fun piece hpiece => Nat.le_succ_of_le (hrest piece hpiece)⟩

/-- The selector texts inside a text are shorter than it. -/
theorem nestedBelow_parse (s : String) : ∀ g ∈ (parse s).groups, g.NestedBelow s.length := by
  intro g hg p hp c hc text htext
  obtain ⟨piece, hpiece, rfl⟩ := List.mem_map.1 hg
  have hlen : piece.length ≤ s.length := by
    obtain ⟨hfirst, hrest⟩ := splitFrom_length .outermost s.toList
    rw [String.length_toList] at hfirst hrest
    rcases List.mem_cons.1 hpiece with rfl | hpiece
    · exact hfirst
    · exact hrest piece hpiece
  have := readGroup_nestedBelow (Text.trim piece) p hp c hc text htext
  have := Text.length_trim_le piece
  omega

/-- What a match has to answer about a text inside another one is shorter than the text around it. -/
theorem asked_parse {s : String} {g : Group} (hg : g ∈ (parse s).groups) {p : Compound} (hp : p ∈ g.parts)
    {c : PseudoClass} (hc : c ∈ p.pseudoClasses) {text : String} (htext : c.asked? = some text) :
    text.length < s.length := by
  have hnested := nestedBelow_parse s g hg p hp c hc
  cases c with
  | not selectors =>
    have := hnested text htext
    omega
  | is selectors =>
    have := hnested text htext
    omega
  | has relative =>
    obtain ⟨inner, rfl, rfl⟩ := Option.map_eq_some_iff.1 htext
    have := hnested inner rfl
    rcases Relative.selectors_ofText inner with hany | hle
    · rw [hany, show "*".length = 1 from rfl]
      omega
    · omega
  | _ => simp [PseudoClass.asked?] at htext

end SelectorList

/-! ## Answers that agree on what is asked -/

section
variable {nested nested' : String → NodeId → Bool} (t : Tree)

theorem PseudoClass.holds_congr {c : PseudoClass} (n : NodeId) (e : Element)
    (h : ∀ text, c.asked? = some text → nested text = nested' text) :
    c.holds nested t n e = c.holds nested' t n e := by
  unfold PseudoClass.holds
  split
  · rfl
  · rw [h _ rfl]
  · rw [h _ rfl]
  · rename_i relative
    dsimp only
    rw [h (Relative.ofText relative).selectors rfl]
  · rfl

theorem Compound.holds_congr {p : Compound}
    (h : ∀ c ∈ p.pseudoClasses, ∀ text, c.asked? = some text → nested text = nested' text) :
    p.holds nested t = p.holds nested' t := by
  funext n
  unfold Compound.holds
  cases t.element? n with
  | none => rfl
  | some e =>
    have hall : p.pseudoClasses.all (·.holds nested t n e) = p.pseudoClasses.all (·.holds nested' t n e) := by
      rw [Bool.eq_iff_iff, List.all_eq_true, List.all_eq_true]
      exact forall₂_congr fun c hc => by rw [c.holds_congr t n e (h c hc)]
    dsimp only
    rw [hall]

theorem Group.follow_congr {steps : List (Compound × Combinator)}
    (h : ∀ step ∈ steps, step.1.holds nested t = step.1.holds nested' t) (n : NodeId) :
    Group.follow nested t steps n = Group.follow nested' t steps n := by
  induction steps generalizing n with
  | nil => rfl
  | cons step steps ih =>
    obtain ⟨p, c⟩ := step
    obtain ⟨hp, hsteps⟩ := List.forall_mem_cons.1 h
    rw [Group.follow, Group.follow, hp]
    cases (c.candidates t n).find? (p.holds nested' t) with
    | none => rfl
    | some m => exact ih hsteps m

theorem Group.holds_congr {g : Group} (h : ∀ p ∈ g.parts, p.holds nested t = p.holds nested' t)
    (n : NodeId) : g.holds nested t n = g.holds nested' t n := by
  have hsteps : ∀ step ∈ g.steps, step.1.holds nested t = step.1.holds nested' t := fun step hstep =>
    h _ (List.dropLast_subset _ (List.mem_reverse.1 (List.of_mem_zip hstep).1))
  unfold Group.holds
  cases hlast : g.parts.getLast? with
  | none => rfl
  | some last =>
    dsimp only
    rw [h last (List.mem_of_getLast? hlast), Group.follow_congr t hsteps]

/-- A selector list asks about the texts inside it and no others. -/
theorem SelectorList.holds_congr {l : SelectorList}
    (h : ∀ g ∈ l.groups, ∀ p ∈ g.parts, ∀ c ∈ p.pseudoClasses, ∀ text, c.asked? = some text →
      nested text = nested' text) (n : NodeId) : l.holds nested t n = l.holds nested' t n := by
  rw [SelectorList.holds, SelectorList.holds, Bool.eq_iff_iff, List.any_eq_true, List.any_eq_true]
  refine exists_congr fun g => and_congr_right fun hg => ?_
  rw [g.holds_congr t (fun p hp => p.holds_congr t (h g hg p hp)) n]

end

/-! ## The meaning of a selector text -/

namespace Tree

/-- Every selector text is answered by reading it, with the texts inside it answered in the same way. -/
def AnswersAfresh (t : Tree) (answer : String → NodeId → Bool) : Prop :=
  ∀ s n, answer s n = (SelectorList.parse s).holds answer t n

theorem answersAfresh_matchesText (t : Tree) : t.AnswersAfresh t.matchesText := by
  intro s n
  rw [matchesText]
  refine SelectorList.holds_congr t (fun g hg p hp c hc text htext => ?_) n
  funext m
  rw [dif_pos (SelectorList.asked_parse hg hp hc htext)]

/-- There is one function that answers every text by reading it. -/
theorem answersAfresh_iff {t : Tree} {answer : String → NodeId → Bool} :
    t.AnswersAfresh answer ↔ answer = t.matchesText := by
  constructor
  · intro h
    funext s
    induction hl : s.length using Nat.strongRecOn generalizing s with
    | _ _ ih =>
      subst hl
      funext n
      rw [h s n, t.answersAfresh_matchesText s n]
      exact SelectorList.holds_congr t (fun g hg p hp c hc text htext =>
        ih text.length (SelectorList.asked_parse hg hp hc htext) text rfl) n
  · rintro rfl
    exact t.answersAfresh_matchesText

end Tree

end HtmlQuery
