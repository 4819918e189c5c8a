import HtmlQuery.Proofs.Selector.Answers
import HtmlQuery.Proofs.Tree.Siblings
import Mathlib.Data.List.Chain

/-!
# Groups and their placements

What a group means, without an order of search: nodes for its compounds, each of which matches, with the relation
of the combinator between neighbours (`Group.Placed`). Matching commits to the first node that a step finds.
What it finds is part of a placement (`reaches_of_follow`), and where `Combinator.Keeps` holds between
neighbouring combinators it loses none: the first node leaves every later step at least the choices that any
other would (`candidates_subset_of_first`, `follow_of_reaches`).
-/

namespace HtmlQuery

/-- How the node on the left of a combinator is related to the one on its right. -/
def Combinator.Relates (t : Tree) (u v : NodeId) : Combinator → Prop
  | descendant => u ≠ Tree.root ∧ ∃ p, t.parent v = some p ∧ t.Above u p
  | child => t.parent v = some u
  | nextSibling => ∃ p before between after,
      t.children p = before ++ u :: (between ++ v :: after) ∧
        t.isElement u = true ∧ ∀ m ∈ between, t.isElement m = false
  | laterSibling => ∃ p before between after, t.children p = before ++ u :: (between ++ v :: after)

/-- The first node that a combinator finds leaves a combinator on its left all the choices that the other nodes
would. -/
def Combinator.Keeps (left right : Combinator) : Prop :=
  (right = descendant → left = descendant) ∧ (right = laterSibling → left ≠ nextSibling)

namespace Group

/-- Nodes at the compounds of a group that match them and are related as its combinators say. -/
structure Placed (t : Tree) (g : Group) (place : Nat → NodeId) : Prop where
  holds : ∀ (i : Nat) (p : Compound), g.parts[i]? = some p → p.matches t (place i) = true
  related : ∀ (i : Nat) (c : Combinator), g.combinators[i]? = some c →
    c.Relates t (place i) (place (i + 1))

/-- No combinator of a group loses choices of the one on its left. -/
def Keeping (g : Group) : Prop := g.combinators.IsChain Combinator.Keeps

/-- Steps that lead from a node to others on which their compounds hold, whichever nodes one takes. -/
def Reaches (nested : String → NodeId → Bool) (t : Tree) :
    List (Compound × Combinator) → NodeId → Prop
  | [], _ => True
  | (p, c) :: rest, n => ∃ m, c.Relates t m n ∧ p.holds nested t m = true ∧ Reaches nested t rest m

variable {t : Tree} {g : Group} {nested : String → NodeId → Bool} {n u v : NodeId}
  {steps : List (Compound × Combinator)}

/-! ## Candidates -/

theorem mem_candidates_iff (h : t.WellFormed) (c : Combinator) :
    u ∈ c.candidates t v ↔ c.Relates t u v := by
  cases c with
  | descendant => exact h.mem_properAncestors_iff
  | child => exact Option.mem_toList
  | nextSibling =>
    exact Option.mem_toList.trans h.prevElement_eq_some_iff
  | laterSibling =>
    rw [Combinator.candidates, Combinator.Relates, List.mem_iff_append]
    constructor
    · rintro ⟨pre, post, hpre⟩
      obtain ⟨p, after, hsplit⟩ := h.precedingSiblings_eq_append_iff.1 hpre
      exact ⟨p, post.reverse, pre.reverse, after, hsplit⟩
    · rintro ⟨p, before, between, after, hsplit⟩
      refine ⟨between.reverse, before.reverse, h.precedingSiblings_eq_append_iff.2 ⟨p, after, ?_⟩⟩
      simpa using hsplit

/-- A candidate behind the first one has no candidates of its own that the first one has not. -/
theorem candidates_subset_of_first (h : t.WellFormed) {left right : Combinator} {w : NodeId}
    {pre post : List NodeId} (hkeeps : left.Keeps right)
    (hfirst : right.candidates t v = pre ++ u :: post) (hw : w ∈ post) :
    left.candidates t w ⊆ left.candidates t u := by
  cases right with
  | descendant =>
    -- both are ancestors of one node, and the left combinator asks for ancestors again
    obtain rfl : left = .descendant := hkeeps.1 rfl
    have hu : t.properAncestors u = post := h.properAncestors_behind hfirst
    obtain ⟨pre', post', hpost⟩ := List.append_of_mem (hu ▸ hw)
    intro m hm
    rw [Combinator.candidates, h.properAncestors_behind hpost] at hm
    rw [Combinator.candidates, hpost]
    simp [hm]
  | child =>
    -- there is one candidate only
    have hlen := congrArg List.length hfirst
    have := List.length_pos_of_mem hw
    cases hp : t.parent v <;> simp [Combinator.candidates, hp] at hlen
    omega
  | nextSibling =>
    have hlen := congrArg List.length hfirst
    have := List.length_pos_of_mem hw
    cases hp : t.prevElement v <;> simp [Combinator.candidates, hp] at hlen
    omega
  | laterSibling =>
    have hu : t.precedingSiblings u = post := h.precedingSiblings_behind hfirst
    have hparent : t.parent w = t.parent u := h.parent_of_mem_precedingSiblings (hu ▸ hw)
    cases left with
    | descendant =>
      rw [Combinator.candidates, Combinator.candidates, Tree.properAncestors_congr hparent]
      exact fun _ hm => hm
    | child =>
      rw [Combinator.candidates, Combinator.candidates, hparent]
      exact fun _ hm => hm
    | nextSibling => exact absurd rfl (hkeeps.2 rfl)
    | laterSibling =>
      obtain ⟨pre', post', hpost⟩ := List.append_of_mem (hu ▸ hw)
      intro m hm
      rw [Combinator.candidates, h.precedingSiblings_behind hpost] at hm
      rw [Combinator.candidates, hpost]
      simp [hm]

/-! ## Steps -/

/-- What the steps find is related as they say. -/
theorem reaches_of_follow (h : t.WellFormed) (hfollow : follow nested t steps n = true) :
    Reaches nested t steps n := by
  induction steps generalizing n with
  | nil => trivial
  | cons step steps ih =>
    obtain ⟨p, c⟩ := step
    rw [follow] at hfollow
    split at hfollow
    · rename_i m hfind
      exact ⟨m, (mem_candidates_iff h c).1 (List.mem_of_find?_eq_some hfind),
        List.find?_some hfind, ih hfollow⟩
    · simp at hfollow

/-- From a node with all the choices of another one, the steps find what can be reached from the other. -/
theorem follow_of_reaches (h : t.WellFormed)
    (hkeeps : (steps.map (·.2)).IsChain fun right left => Combinator.Keeps left right)
    (hreach : Reaches nested t steps v)
    (hsub : ∀ step ∈ steps.head?, step.2.candidates t v ⊆ step.2.candidates t u) :
    follow nested t steps u = true := by
  induction steps generalizing u v with
  | nil => rfl
  | cons step steps ih =>
    obtain ⟨p, c⟩ := step
    obtain ⟨w, hrel, hw, hreach⟩ := hreach
    have hmem : w ∈ c.candidates t u := hsub (p, c) rfl ((mem_candidates_iff h c).2 hrel)
    rw [List.map_cons, List.isChain_cons] at hkeeps
    rw [follow]
    cases hfind : (c.candidates t u).find? (p.holds nested t) with
    | none =>
      exact absurd hw (List.find?_eq_none.1 hfind w hmem)
    | some m =>
      obtain ⟨hm, pre, post, hfirst, hpre⟩ := List.find?_eq_some_iff_append.1 hfind
      refine ih hkeeps.2 hreach fun step hstep => ?_
      -- the node taken is the other one, or stands before it among the candidates
      rw [hfirst, List.mem_append, List.mem_cons] at hmem
      rcases hmem with hmem | rfl | hmem
      · exact absurd hw (by simpa using hpre w hmem)
      · exact fun _ hx => hx
      · refine candidates_subset_of_first h (hkeeps.1 step.2 ?_) hfirst hmem
        rw [List.head?_map]
        exact Option.mem_map_of_mem _ hstep

/-! ## Placements -/

/-- The compounds before the last one with the combinators behind them. -/
def legs (g : Group) : List (Compound × Combinator) := g.parts.dropLast.zip g.combinators

section
variable (hlen : g.parts.length = g.combinators.length + 1)
include hlen

theorem steps_eq : g.steps = g.legs.reverse := by
  rw [Group.steps, legs]
  exact (List.reverse_zipWith (by simp [hlen])).symm

theorem legs_length : g.legs.length = g.combinators.length := by simp [legs, hlen]

theorem map_fst_steps : g.steps.map (·.1) = g.parts.dropLast.reverse := by
  rw [Group.steps, List.map_fst_zip (by simp [hlen])]

theorem map_steps : g.steps.map (·.2) = g.combinators.reverse := by
  rw [steps_eq hlen, List.map_reverse, legs, List.map_snd_zip (by simp [hlen])]

theorem legs_getElem? {i : Nat} {p : Compound} {c : Combinator} :
    g.legs[i]? = some (p, c) ↔ g.parts[i]? = some p ∧ g.combinators[i]? = some c := by
  rw [legs, List.getElem?_zip_eq_some, List.getElem?_dropLast]
  refine ⟨fun ⟨hp, hc⟩ => ⟨?_, hc⟩, fun ⟨hp, hc⟩ => ⟨?_, hc⟩⟩
  · split at hp
    · exact hp
    · simp at hp
  · rw [if_pos]
    · exact hp
    · have := (List.getElem?_eq_some_iff.1 hc).1
      omega

end

/-- The legs up to one of them, read from right to left. -/
theorem take_reverse {i : Nat} {leg : Compound × Combinator} (h : g.legs[i]? = some leg) :
    (g.legs.take (i + 1)).reverse = leg :: (g.legs.take i).reverse := by
  rw [List.take_add_one, h]
  simp

/-- A placement is a way along the steps. -/
theorem Placed.reaches (hlen : g.parts.length = g.combinators.length + 1) {place : Nat → NodeId}
    (hplaced : g.Placed t place) {i : Nat} (hi : i ≤ g.legs.length) :
    Reaches t.matchesText t (g.legs.take i).reverse (place i) := by
  induction i with
  | zero => trivial
  | succ i ih =>
    obtain ⟨⟨p, c⟩, hleg⟩ : ∃ leg, g.legs[i]? = some leg := ⟨_, List.getElem?_eq_getElem hi⟩
    obtain ⟨hp, hc⟩ := (legs_getElem? hlen).1 hleg
    rw [take_reverse hleg]
    exact ⟨place i, hplaced.related i c hc, hplaced.holds i p hp, ih (Nat.le_of_lt hi)⟩

/-- A way along the steps places the legs that it takes. -/
theorem exists_place_of_reaches {i : Nat} (hi : i ≤ g.legs.length)
    (hreach : Reaches t.matchesText t (g.legs.take i).reverse n) :
    ∃ place : Nat → NodeId, place i = n ∧ ∀ j < i, ∀ p c, g.legs[j]? = some (p, c) →
      p.matches t (place j) = true ∧ c.Relates t (place j) (place (j + 1)) := by
  induction i generalizing n with
  | zero => exact ⟨fun _ => n, rfl, fun j hj => absurd hj (Nat.not_lt_zero j)⟩
  | succ i ih =>
    obtain ⟨⟨p, c⟩, hleg⟩ : ∃ leg, g.legs[i]? = some leg := ⟨_, List.getElem?_eq_getElem hi⟩
    rw [take_reverse hleg] at hreach
    obtain ⟨m, hrel, hm, hreach⟩ := hreach
    obtain ⟨place, hplace, hlegs⟩ := ih (Nat.le_of_lt hi) hreach
    refine ⟨Function.update place (i + 1) n, Function.update_self .., fun j hj p' c' hleg' => ?_⟩
    rw [Function.update_of_ne (by omega)]
    by_cases hji : j = i
    · subst hji
      rw [hleg, Option.some.injEq, Prod.mk.injEq] at hleg'
      obtain ⟨rfl, rfl⟩ := hleg'
      rw [Function.update_self, hplace]
      exact ⟨hm, hrel⟩
    · rw [Function.update_of_ne (by omega)]
      exact hlegs j (by omega) p' c' hleg'

/-- The ways from a node on which the last compound holds are the placements that end in it. -/
theorem exists_placed_iff (hlen : g.parts.length = g.combinators.length + 1) {last : Compound}
    (hlast : g.parts.getLast? = some last) :
    (∃ place, g.Placed t place ∧ place g.combinators.length = n) ↔
      last.matches t n = true ∧ Reaches t.matchesText t g.steps n := by
  have hk : g.parts[g.combinators.length]? = some last := by
    rw [← hlast, List.getLast?_eq_getElem?, hlen]
    rfl
  have hall : g.steps = (g.legs.take g.combinators.length).reverse := by
    rw [steps_eq hlen, List.take_of_length_le (Nat.le_of_eq (legs_length hlen))]
  rw [hall]
  constructor
  · rintro ⟨place, hplaced, rfl⟩
    exact ⟨hplaced.holds _ last hk, hplaced.reaches hlen (Nat.le_of_eq (legs_length hlen).symm)⟩
  · rintro ⟨hn, hreach⟩
    obtain ⟨place, hplace, hlegs⟩ :=
      exists_place_of_reaches (Nat.le_of_eq (legs_length hlen).symm) hreach
    -- every index of a combinator is that of a leg
    have hleg : ∀ (i : Nat) (c : Combinator), g.combinators[i]? = some c → ∃ p : Compound,
        g.parts[i]? = some p ∧ p.matches t (place i) = true ∧ c.Relates t (place i) (place (i + 1)) := by
      intro i c hc
      have hi := (List.getElem?_eq_some_iff.1 hc).1
      obtain ⟨p, hp⟩ : ∃ p, g.parts[i]? = some p := ⟨_, List.getElem?_eq_getElem (by omega)⟩
      exact ⟨p, hp, hlegs i hi p c ((legs_getElem? hlen).2 ⟨hp, hc⟩)⟩
    refine ⟨place, ⟨fun i p hp => ?_, fun i c hc => ?_⟩, hplace⟩
    · have hi := (List.getElem?_eq_some_iff.1 hp).1
      by_cases hik : i = g.combinators.length
      · subst hik
        rw [hk, Option.some.injEq] at hp
        rw [hplace, ← hp]
        exact hn
      · obtain ⟨p', hp', hmatch, -⟩ := hleg i _ (List.getElem?_eq_getElem (by omega))
        rw [hp, Option.some.injEq] at hp'
        exact hp' ▸ hmatch
    · obtain ⟨-, -, -, hrel⟩ := hleg i c hc
      exact hrel

end Group

/-! ## Matching in a session -/

/-- **Matching finds placements only, and finds one if there is any and no combinator loses choices.** -/
theorem Session.matchesGroup_placed {t : Tree} {g : Group} {session : Session} (n : NodeId)
    (h : t.WellFormed) (hsound : session.Sound)
    (hlen : g.parts.length = g.combinators.length + 1) :
    (((matchesGroup t g n).run session).1 = true →
      ∃ place, g.Placed t place ∧ place g.combinators.length = n) ∧
    (g.Keeping → (∃ place, g.Placed t place ∧ place g.combinators.length = n) →
      ((matchesGroup t g n).run session).1 = true) := by
  obtain ⟨last, hlast⟩ : ∃ last, g.parts.getLast? = some last :=
    ⟨_, List.getLast?_eq_some_getLast (List.ne_nil_of_length_eq_add_one hlen)⟩
  have hmatches : g.matches t n = true ↔
      last.matches t n = true ∧ Group.follow t.matchesText t g.steps n = true := by
    rw [Group.matches, Group.holds, hlast, Compound.matches, Bool.and_eq_true]
  rw [(ensures_matchesGroup t g n).result hsound, Group.exists_placed_iff hlen hlast, hmatches]
  refine ⟨fun ⟨hn, hfollow⟩ => ⟨hn, Group.reaches_of_follow h hfollow⟩,
    fun hkeeping ⟨hn, hreach⟩ => ⟨hn, Group.follow_of_reaches h ?_ hreach fun _ _ _ hm => hm⟩⟩
  rw [Group.map_steps hlen, List.isChain_reverse]
  exact hkeeping

/-- A division with two paragraphs and a list behind them. -/
def Tree.division : List Tree.Edit :=
  [.alloc (.element (.bare "div")) none, .alloc (.element (.bare "p")) none, .alloc (.text "x") none,
    .alloc (.element (.bare "p")) none, .alloc (.element (.bare "ul")) none, .append 0 1, .append 1 2,
    .append 1 3, .append 1 4, .append 1 5]

/-- The group `div > p ~ p + ul`. -/
def Group.listBehindParagraphs : Group :=
  ⟨[{ Compound.any with tag := some "div" }, { Compound.any with tag := some "p" },
    { Compound.any with tag := some "p" }, { Compound.any with tag := some "ul" }],
    [.child, .laterSibling, .nextSibling]⟩

theorem Session.matchesGroup_placed_division : ∃ t, Tree.empty.run? Tree.division = some t ∧
    t.WellFormed ∧ start.Sound ∧ Group.listBehindParagraphs.Keeping ∧
    ((matchesGroup t Group.listBehindParagraphs 5).run start).1 = true ∧
    ∃ place, Group.listBehindParagraphs.Placed t place ∧ place 3 = 5 := by
  obtain ⟨t, ht, htrue⟩ : ∃ t, Tree.empty.run? Tree.division = some t ∧
      ((matchesGroup t Group.listBehindParagraphs 5).run start).1 = true := ⟨_, rfl, by decide +kernel⟩
  have hwf : t.WellFormed := Tree.wellFormed_empty.run? ht
  have hkeeping : Group.listBehindParagraphs.Keeping := by
    simp [Group.Keeping, Group.listBehindParagraphs, Combinator.Keeps]
  exact ⟨t, ht, hwf, sound_start, hkeeping, htrue,
    (matchesGroup_placed 5 hwf sound_start rfl).1 htrue⟩

end HtmlQuery
