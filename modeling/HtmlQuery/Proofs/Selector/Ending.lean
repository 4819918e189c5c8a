import HtmlQuery.Proofs.Selector.Calls
import HtmlQuery.Proofs.Tree.Walks

/-!
# Matching ends

A selector text inside another one is read when a match comes to it, and reading may bring up further texts.
`Session.testerWithin` is this recursion as it stands, with nothing that makes it end but a depth at which it is cut
off; what lies deeper is left to any stand-in. From a text shorter than the depth the stand-in is never reached: the
answer and the session that is left are those of `Session.testerOf`, whatever stands in (`alike_testerWithin`). Two
runs are compared step by step for this (`Alike`). The walks over the tree that a match takes between its questions
come to their ends in a well-formed tree (`walksEnd_of_wellFormed`).
-/

namespace HtmlQuery

namespace Session

/-- Resolves a selector text to a test of nodes, with the texts inside it resolved in the same way, so many deep. The
texts that are inside deeper are left to `beyond`. -/
def testerWithin (beyond : String → SessionM Tester) (t : Tree) : Nat → String → SessionM Tester
  | 0, s => beyond s
  | depth + 1, s => do
    let resolved ← resolve s
    pure (resolved.list.test (testerWithin beyond t depth) t)

/-- Whether a node matches a selector text, with the texts inside it resolved so many deep. -/
def matchesWithin (beyond : String → SessionM Tester) (t : Tree) (depth : Nat) (n : NodeId) (s : String) :
    SessionM Bool := do
  let tester ← testerWithin beyond t depth s
  tester n

/-! ## Runs that cannot be told apart -/

/-- From a sound session two computations come to the same session, which is sound, with related results. -/
def Alike {α β : Type} (related : α → β → Prop) (m : SessionM α) (m' : SessionM β) : Prop :=
  ∀ session, session.Sound → related (m.run session).1 (m'.run session).1 ∧
    (m.run session).2 = (m'.run session).2 ∧ (m.run session).2.Sound

/-- Two tests of nodes with the same answers. -/
def SameTest (tester tester' : Tester) : Prop := ∀ n, Alike Eq (tester n) (tester' n)

section
variable {α β α' β' : Type} {related : α → β → Prop} {related' : α' → β' → Prop}

theorem Alike.pure {a : α} {b : β} (h : related a b) : Alike related (Pure.pure a) (Pure.pure b) :=
  fun _ hs => ⟨h, rfl, hs⟩

theorem Alike.bind {m : SessionM α} {m' : SessionM β} {f : α → SessionM α'} {f' : β → SessionM β'}
    (hm : Alike related m m') (hf : ∀ a b, related a b → Alike related' (f a) (f' b)) :
    Alike related' (m >>= f) (m' >>= f') := by
  intro session hs
  obtain ⟨hresult, hsession, hsound⟩ := hm session hs
  have hthen := hf _ _ hresult _ hsound
  show related' ((f _).run (m.run session).2).1 ((f' _).run (m'.run session).2).1 ∧
    ((f _).run (m.run session).2).2 = ((f' _).run (m'.run session).2).2 ∧ ((f _).run (m.run session).2).2.Sound
  -- the second computation goes on from the session that the first one left
  rw [← hsession]
  exact hthen

theorem Alike.bind_eq {m m' : SessionM α} {f : α → SessionM α'} {f' : α → SessionM β'} (hm : Alike Eq m m')
    (hf : ∀ a, Alike related' (f a) (f' a)) : Alike related' (m >>= f) (m' >>= f') :=
  hm.bind fun a b hab => by
    subst hab
    exact hf a

section
variable {test test' : α → SessionM Bool} {l : List α} (h : ∀ a ∈ l, Alike Eq (test a) (test' a))
include h

theorem alike_anyM : Alike Eq (l.anyM test) (l.anyM test') := by
  induction l with
  | nil => exact .pure rfl
  | cons a l ih =>
    obtain ⟨ha, hl⟩ := List.forall_mem_cons.1 h
    rw [List.anyM, List.anyM]
    refine ha.bind_eq fun answer => ?_
    cases answer with
    | false => exact ih hl
    | true => exact .pure rfl

theorem alike_allM : Alike Eq (l.allM test) (l.allM test') := by
  induction l with
  | nil => exact .pure rfl
  | cons a l ih =>
    obtain ⟨ha, hl⟩ := List.forall_mem_cons.1 h
    rw [List.allM, List.allM]
    refine ha.bind_eq fun answer => ?_
    cases answer with
    | false => exact .pure rfl
    | true => exact ih hl

theorem alike_findM? : Alike Eq (l.findM? test) (l.findM? test') := by
  induction l with
  | nil => exact .pure rfl
  | cons a l ih =>
    obtain ⟨ha, hl⟩ := List.forall_mem_cons.1 h
    rw [List.findM?, List.findM?]
    refine ha.bind_eq fun answer => ?_
    cases answer with
    | false => exact ih hl
    | true => exact .pure rfl

end

end

/-- What is resolved in a sound session is what the text reads as. -/
theorem alike_resolve (s : String) :
    Alike (fun r r' => r = r' ∧ r.list = SelectorList.parse s) (resolve s) (resolve s) := by
  intro session hs
  obtain ⟨hlist, hsound⟩ := ensures_resolve s session hs
  exact ⟨⟨rfl, hlist⟩, rfl, hsound⟩

/-! ## A match asks for the texts inside and no others -/

section
variable {nested nested' : String → SessionM Tester} (t : Tree)

theorem alike_pseudoClass {c : PseudoClass} (n : NodeId) (e : Element)
    (h : ∀ text, c.asked? = some text → Alike SameTest (nested text) (nested' text)) :
    Alike Eq (c.test nested t n e) (c.test nested' t n e) := by
  unfold PseudoClass.test
  split
  · exact .pure rfl
  · refine (h _ rfl).bind fun tester tester' htester => ?_
    exact (htester n).bind_eq fun answer => .pure rfl
  · exact (h _ rfl).bind fun tester tester' htester => htester n
  · refine (h _ rfl).bind fun tester tester' htester => ?_
    exact alike_anyM fun m _ => htester m
  · exact .pure rfl

theorem alike_compound {p : Compound}
    (h : ∀ c ∈ p.pseudoClasses, ∀ text, c.asked? = some text → Alike SameTest (nested text) (nested' text)) :
    SameTest (p.test nested t) (p.test nested' t) := by
  intro n
  unfold Compound.test
  cases t.element? n with
  | none => exact .pure rfl
  | some e =>
    dsimp only
    split
    · exact alike_allM fun c hc => alike_pseudoClass t n e (h c hc)
    · exact .pure rfl

theorem alike_walk {steps : List (Compound × Combinator)}
    (h : ∀ step ∈ steps, SameTest (step.1.test nested t) (step.1.test nested' t)) :
    SameTest (Group.walk nested t steps) (Group.walk nested' t steps) := by
  intro n
  induction steps generalizing n with
  | nil => exact .pure rfl
  | cons step steps ih =>
    obtain ⟨p, c⟩ := step
    obtain ⟨hp, hsteps⟩ := List.forall_mem_cons.1 h
    rw [Group.walk, Group.walk]
    refine (alike_findM? fun m _ => hp m).bind_eq fun found => ?_
    cases found with
    | none => exact .pure rfl
    | some m => exact ih hsteps m

theorem alike_group {g : Group} (h : ∀ p ∈ g.parts, SameTest (p.test nested t) (p.test nested' t)) :
    SameTest (g.test nested t) (g.test nested' t) := by
  have hsteps : ∀ step ∈ g.steps, SameTest (step.1.test nested t) (step.1.test nested' t) := fun step hstep =>
    h _ (List.dropLast_subset _ (List.mem_reverse.1 (List.of_mem_zip hstep).1))
  intro n
  unfold Group.test
  cases hlast : g.parts.getLast? with
  | none => exact .pure rfl
  | some last =>
    refine (h last (List.mem_of_getLast? hlast) n).bind_eq fun answer => ?_
    cases answer with
    | false => exact .pure rfl
    | true => exact alike_walk t hsteps n

theorem alike_selectorList {l : SelectorList}
    (h : ∀ g ∈ l.groups, ∀ p ∈ g.parts, ∀ c ∈ p.pseudoClasses, ∀ text, c.asked? = some text →
      Alike SameTest (nested text) (nested' text)) : SameTest (l.test nested t) (l.test nested' t) :=
  fun n => alike_anyM fun g hg => alike_group t (fun p hp => alike_compound t (h g hg p hp)) n

end

/-! ## The depth that is enough -/

/-- From a text shorter than the depth nothing beyond is reached. -/
theorem alike_testerWithin (beyond : String → SessionM Tester) (t : Tree) {depth : Nat} {s : String}
    (h : s.length < depth) : Alike SameTest (testerWithin beyond t depth s) (testerOf t s) := by
  induction depth generalizing s with
  | zero => exact absurd h (Nat.not_lt_zero _)
  | succ depth ih =>
    rw [testerWithin, testerOf]
    refine (alike_resolve s).bind fun resolved resolved' hresolved => ?_
    obtain ⟨rfl, hlist⟩ := hresolved
    -- what a sound cache gives is what the text reads as, so the texts inside are shorter
    refine .pure (alike_selectorList t fun g hg p hp c hc text htext => ?_)
    rw [hlist] at hg
    have hshorter := SelectorList.asked_parse hg hp hc htext
    rw [dif_pos hshorter]
    exact ih (by omega)

theorem alike_matchesWithin (beyond : String → SessionM Tester) (t : Tree) {depth : Nat} {s : String} (n : NodeId)
    (h : s.length < depth) : Alike Eq (matchesWithin beyond t depth n s) (matchesText t n s) :=
  (alike_testerWithin beyond t h).bind fun _ _ htester => htester n

end Session

/-! ## The walks of a match -/

/-- Taking the nodes that a combinator relates to a node on its right comes to an end and meets `l`. -/
inductive Combinator.Leads (t : Tree) (n : NodeId) : Combinator → List NodeId → Prop
  | descendant {l : List NodeId} : Tree.Trail t.parent (t.parent n) l →
      Leads t n .descendant (l.takeWhile (· ≠ Tree.root))
  | child : Leads t n .child (t.parent n).toList
  | nextSibling {l : List NodeId} : Tree.Trail t.prev (t.prev n) l →
      Leads t n .nextSibling (l.find? t.isElement).toList
  | laterSibling {l : List NodeId} : Tree.Trail t.prev (t.prev n) l → Leads t n .laterSibling l

/-- Taking the nodes that a combinator relates to a node on its left comes to an end and meets `l`. -/
inductive Combinator.Spreads (t : Tree) (n : NodeId) : Combinator → List NodeId → Prop
  | descendant {l : List NodeId} : Tree.Drains t (t.children n) l → Spreads t n .descendant l
  | child : Spreads t n .child (t.elementChildren n)
  | nextSibling {l : List NodeId} : Tree.Trail t.next (t.next n) l →
      Spreads t n .nextSibling (l.find? t.isElement).toList
  | laterSibling {l : List NodeId} : Tree.Trail t.next (t.next n) l → Spreads t n .laterSibling l

namespace Tree

variable {t : Tree}

/-- The walks that a match at a node may take: those of combinators, the one to the ancestors for languages and
directions, and the one through what is under the node for its text. -/
structure WalksEnd (t : Tree) (n : NodeId) : Prop where
  leads : ∀ c : Combinator, c.Leads t n (c.candidates t n)
  spreads : ∀ c : Combinator, c.Spreads t n (c.relatives t n)
  ancestors : Trail t.parent (t.parent n) (t.ancestors n)
  subtree : Drains t [n] (t.subtree n)

theorem walksEnd_of_wellFormed (h : t.WellFormed) (n : NodeId) : t.WalksEnd n := by
  obtain ⟨hpreceding, hfollowing⟩ := h.trail_siblings n
  have hancestors := h.trail_ancestors n
  have hdescendants : Drains t (t.children n) (t.descendants n) := drains_of_length_lt (h.length_descendants_lt n)
  refine ⟨fun c => ?_, fun c => ?_, hancestors, ?_⟩
  · cases c with
    | descendant => exact .descendant hancestors
    | child => exact .child
    | nextSibling => exact .nextSibling hpreceding
    | laterSibling => exact .laterSibling hpreceding
  · cases c with
    | descendant => exact .descendant hdescendants
    | child => exact .child
    | nextSibling => exact .nextSibling hfollowing
    | laterSibling => exact .laterSibling hfollowing
  · rw [subtree_eq_cons]
    refine .step ?_
    rw [List.append_nil]
    exact hdescendants

end Tree

/-! ## The end of every match -/

namespace Session

/-- **Matching ends.** The selector texts inside a text are shorter than it, and what a relative one asks about is `*`
or no longer than itself. Matching a text therefore never goes deeper than the text is long, at any node and in any
session that calls can lead to, and every walk on the way through a well-formed tree comes to its end. -/
theorem matching_ends {t : Tree} (ht : t.WellFormed) (s : String) :
    (∀ g ∈ (SelectorList.parse s).groups, ∀ p ∈ g.parts, ∀ c ∈ p.pseudoClasses, ∀ text,
      c.nestedText? = some text → text.length < s.length ∧
        ((Relative.ofText text).selectors = "*" ∨ (Relative.ofText text).selectors.length ≤ text.length)) ∧
    (∀ capacity warnings calls n beyond depth, s.length < depth →
      (matchesWithin beyond t depth n s).run ((Call.runAll calls).run ⟨.ofCapacity capacity, warnings⟩).2 =
        (matchesText t n s).run ((Call.runAll calls).run ⟨.ofCapacity capacity, warnings⟩).2) ∧
    ∀ n, t.WalksEnd n := by
  refine ⟨?_, ?_, Tree.walksEnd_of_wellFormed ht⟩
  · intro g hg p hp c hc text htext
    have := SelectorList.nestedBelow_parse s g hg p hp c hc text htext
    exact ⟨by omega, Relative.selectors_ofText text⟩
  · intro capacity warnings calls n beyond depth hdepth
    obtain ⟨hanswer, hsession, -⟩ :=
      alike_matchesWithin beyond t n hdepth _ (Call.sound_runAll capacity warnings calls)
    exact Prod.ext hanswer hsession

/-- Three texts, one inside the other, on an item without bold text and on one with it. -/
theorem matching_ends_items : ∃ t, t = Tree.parse "<ul><li>a<li><b>b</b></ul>" .default ∧ t.WellFormed ∧
    (∀ n beyond, (matchesWithin beyond t 18 n "li:not(:has(> b))").run start =
      (matchesText t n "li:not(:has(> b))").run start) ∧
    ((matchesText t 2 "li:not(:has(> b))").run start).1 = true ∧
    ((matchesText t 4 "li:not(:has(> b))").run start).1 = false := by
  have ht := Tree.wellFormed_parse "<ul><li>a<li><b>b</b></ul>" .default
  obtain ⟨-, hdepth, -⟩ := matching_ends ht "li:not(:has(> b))"
  have hends : ∀ n beyond, (matchesWithin beyond _ 18 n "li:not(:has(> b))").run start =
      (matchesText _ n "li:not(:has(> b))").run start := fun n beyond =>
    hdepth SelectorCache.defaultCapacity .empty [] n beyond 18 (by decide)
  refine ⟨_, rfl, ht, hends, ?_, ?_⟩
  · rw [← hends 2 fun _ => pure fun _ => pure true]
    decide +kernel
  · rw [← hends 4 fun _ => pure fun _ => pure true]
    decide +kernel

end Session

end HtmlQuery
