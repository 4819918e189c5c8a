import HtmlQuery.Proofs.Selector.Queries
import Mathlib.Data.List.Basic

/-!
# The comma as a union

The pieces of a selector text are the text without its dividing commas (`SelectorList.intercalate_split`). A comma
behind a text that closes all it opens divides, and what comes behind is divided as if it stood alone
(`SelectorList.split_append`): outside quotes no backslash is pending (`Nesting.Settled`), so such a text leaves the
reader where it started. The groups of two texts with a comma between them are therefore those of the one followed by
those of the other, and what is true of the groups passes to matches and to what queries find
(`SelectorList.comma_union`).
-/

namespace HtmlQuery

namespace SelectorList

/-! ## Dividing -/

namespace Nesting

/-- Only in a quote can a backslash take the next character out of the count. -/
def Settled (n : Nesting) : Prop := n.quote = none → n.escaped = false

variable {n : Nesting} {cs : List Char}

theorem settled_outermost : outermost.Settled := fun _ => rfl

theorem Settled.after (h : n.Settled) (c : Char) : (n.after c).Settled := by
  unfold Nesting.after
  cases hquote : n.quote with
  | none =>
    have hescaped := h hquote
    dsimp only
    repeat' split
    all_goals exact fun _ => hescaped
  | some q =>
    dsimp only
    split
    · exact fun _ => rfl
    split
    · intro hnone
      exact absurd hnone (Option.some_ne_none q)
    split
    · rename_i hescaped _ _
      exact fun _ => by simpa using hescaped
    · exact h

theorem divides_iff : n.divides = true ↔ n.quote = none ∧ n.parens = 0 ∧ n.brackets = 0 := by
  simp [divides, and_assoc]

theorem eq_outermost_of_divides (hsettled : n.Settled) (h : n.divides = true) : n = outermost := by
  obtain ⟨hquote, hparens, hbrackets⟩ := divides_iff.1 h
  have hescaped := hsettled hquote
  cases n
  simp_all [outermost]

/-- A dividing comma changes nothing. -/
theorem after_comma (h : n.divides = true) : n.after ',' = n := by
  obtain ⟨hquote, -⟩ := divides_iff.1 h
  simp [Nesting.after, hquote]

end Nesting

open Nesting

variable {n : Nesting} {cs rest : List Char}

theorem splitFrom_divide (h : n.divides = true) (cs : List Char) :
    splitFrom n (',' :: cs) = ([], (splitFrom n cs).1 :: (splitFrom n cs).2) := by
  rw [splitFrom, if_pos (by simpa using h)]

theorem splitFrom_go {c : Char} (h : ¬ (c = ',' ∧ n.divides = true)) (cs : List Char) :
    splitFrom n (c :: cs) = (c :: (splitFrom (n.after c) cs).1, (splitFrom (n.after c) cs).2) := by
  rw [splitFrom, if_neg (by simpa using h)]

/-- The pieces with commas between them are the text. -/
theorem intercalate_splitFrom (n : Nesting) (cs : List Char) :
    [','].intercalate ((splitFrom n cs).1 :: (splitFrom n cs).2) = cs := by
  induction cs generalizing n with
  | nil => rfl
  | cons c cs ih =>
    by_cases hc : c = ',' ∧ n.divides = true
    · obtain ⟨rfl, hdivides⟩ := hc
      rw [splitFrom_divide hdivides, List.intercalate_cons_cons, ih n]
      rfl
    · have hfirst := ih (n.after c)
      rw [splitFrom_go hc]
      generalize splitFrom (n.after c) cs = parts at hfirst
      obtain ⟨first, more⟩ := parts
      cases more with
      | nil => simpa using hfirst
      | cons second more =>
        rw [List.intercalate_cons_cons] at hfirst ⊢
        rw [List.cons_append, List.cons_append, hfirst]

theorem intercalate_split (cs : List Char) : [','].intercalate (split cs) = cs := intercalate_splitFrom outermost cs

/-- Behind a text that closes all it opens, a comma divides. -/
theorem splitFrom_comma (hsettled : n.Settled) (h : (n.afterAll cs).divides = true) (rest : List Char) :
    splitFrom n (cs ++ ',' :: rest) = ((splitFrom n cs).1, (splitFrom n cs).2 ++ split rest) := by
  induction cs generalizing n with
  | nil =>
    obtain rfl : n = outermost := eq_outermost_of_divides hsettled h
    rw [List.nil_append, splitFrom_divide (by decide)]
    rfl
  | cons c cs ih =>
    rw [List.cons_append]
    by_cases hc : c = ',' ∧ n.divides = true
    · obtain ⟨rfl, hdivides⟩ := hc
      rw [afterAll, List.foldl_cons, after_comma hdivides] at h
      rw [splitFrom_divide hdivides, splitFrom_divide hdivides, ih hsettled h, List.cons_append]
    · rw [splitFrom_go hc, splitFrom_go hc, ih (hsettled.after c) h]

theorem split_append (h : (outermost.afterAll cs).divides = true) (rest : List Char) :
    split (cs ++ ',' :: rest) = split cs ++ split rest := by
  rw [split, splitFrom_comma settled_outermost h]
  rfl

theorem parse_comma {a : String} (h : (outermost.afterAll a.toList).divides = true) (b : String) :
    parse (a ++ "," ++ b) = ⟨(parse a).groups ++ (parse b).groups⟩ := by
  have htext : (a ++ "," ++ b).toList = a.toList ++ ',' :: b.toList := by simp
  rw [parse, htext, split_append h, List.map_append]
  rfl

/-- A list matches where one of two halves of its groups does. -/
theorem matches_append (t : Tree) (gs hs : List Group) (m : NodeId) :
    (SelectorList.mk (gs ++ hs)).matches t m = ((SelectorList.mk gs).matches t m || (SelectorList.mk hs).matches t m) :=
  List.any_append

end SelectorList

theorem Tree.matchesText_comma (t : Tree) {a : String}
    (h : (SelectorList.Nesting.outermost.afterAll a.toList).divides = true) (b : String) (m : NodeId) :
    t.matchesText (a ++ "," ++ b) m = (t.matchesText a m || t.matchesText b m) := by
  rw [← SelectorList.matches_parse, SelectorList.parse_comma h, SelectorList.matches_append,
    SelectorList.matches_parse, SelectorList.matches_parse]

/-! ## Answers -/

/-- `found` are the nodes of two lists together, each once, in document order. -/
structure Tree.UnionOf (t : Tree) (left right found : List NodeId) : Prop where
  mem_iff : ∀ m, m ∈ found ↔ m ∈ left ∨ m ∈ right
  nodup : found.Nodup
  ordered : found.Pairwise t.Precedes

theorem Tree.WellFormed.unionOf_filter {t : Tree} (h : t.WellFormed) (scope : NodeId) {left right both : NodeId → Bool}
    (hboth : ∀ m, both m = (left m || right m)) : t.UnionOf ((t.descendants scope).filter left)
      ((t.descendants scope).filter right) ((t.descendants scope).filter both) where
  mem_iff m := by
    simp only [List.mem_filter, hboth, Bool.or_eq_true]
    exact and_or_left
  nodup := (h.nodup_descendants scope).filter _
  ordered := (h.pairwise_descendants scope).filter _

namespace Session

/-- Without a limit the walk under the scope is tested once, also in a tree that is not well-formed. -/
theorem ensures_select_all (t : Tree) (scope : NodeId) (s : String) :
    Ensures (select t scope s none) (· = (t.descendants scope).filter (t.matchesText s)) := by
  refine (ensures_testerOf t s).bind fun tester htester => ?_
  rw [searched, Option.getD_none, t.descendantRounds_one]
  exact ensures_firstPassing htester none _

/-- In a session, `joined` is answered as `a` and `b` together are. -/
structure Joins (session : Session) (t : Tree) (a b joined : String) : Prop where
  matchesText_eq : ∀ m, ((matchesText t m joined).run session).1 =
    (((matchesText t m a).run session).1 || ((matchesText t m b).run session).1)
  matchesList_eq : ∀ m, ((matchesList t (.parse joined) m).run session).1 =
    (((matchesList t (.parse a) m).run session).1 || ((matchesList t (.parse b) m).run session).1)
  /-- What is found is found in the order of the walk. -/
  select_eq : ∀ scope, ((select t scope joined none).run session).1 = (t.descendants scope).filter fun m =>
    ((select t scope a none).run session).1.contains m || ((select t scope b none).run session).1.contains m
  select_union : t.WellFormed → ∀ scope, t.UnionOf ((select t scope a none).run session).1
    ((select t scope b none).run session).1 ((select t scope joined none).run session).1

theorem joins_comma {session : Session} (hsound : session.Sound) (t : Tree) {a : String}
    (h : (SelectorList.Nesting.outermost.afterAll a.toList).divides = true) (b : String) :
    session.Joins t a b (a ++ "," ++ b) := by
  have hmatch := fun s m => (ensures_matchesText t m s).result hsound
  have hlist := fun s m => (ensures_matchesList t (.parse s) m).result hsound
  have hselect := fun scope s => (ensures_select_all t scope s).result hsound
  refine ⟨fun m => ?_, fun m => ?_, fun scope => ?_, fun hwf scope => ?_⟩
  · rw [hmatch, hmatch, hmatch, t.matchesText_comma h]
  · rw [hlist, hlist, hlist, SelectorList.matches_parse, SelectorList.matches_parse, SelectorList.matches_parse,
      t.matchesText_comma h]
  · rw [hselect, hselect, hselect]
    refine List.filter_congr fun m hm => ?_
    simp [List.contains_eq_mem, List.mem_filter, hm, t.matchesText_comma h]
  · rw [hselect, hselect, hselect]
    exact hwf.unionOf_filter scope (t.matchesText_comma h b)

end Session

namespace SelectorList

/-- **The comma is union.** The pieces of a text are divided by its commas and nothing else, and two texts with a comma
between them, the first of which closes all it opens, have the groups of both, match what one of them matches and find
what they find together. -/
theorem comma_union : (∀ cs, [','].intercalate (split cs) = cs) ∧
    ∀ a b : String, (Nesting.outermost.afterAll a.toList).divides = true →
      parse (a ++ "," ++ b) = ⟨(parse a).groups ++ (parse b).groups⟩ ∧
      ∀ (t : Tree) (session : Session), session.Sound → session.Joins t a b (a ++ "," ++ b) :=
  ⟨intercalate_split, fun _ b h => ⟨parse_comma h b, fun t _ hsound => Session.joins_comma hsound t h b⟩⟩

open Session

/-- Two texts that find a paragraph each and one together. The first has commas in parentheses and in a quote, where a
parenthesis does not count. -/
theorem comma_union_page : (Nesting.outermost.afterAll ":is(p, i),[title='(,']".toList).divides = true ∧
    Session.start.Sound ∧ page.WellFormed ∧ page.UnionOf [2, 4] [4, 5] [2, 4, 5] := by
  have hdivides : (Nesting.outermost.afterAll ":is(p, i),[title='(,']".toList).divides = true := by decide +kernel
  have hwf : page.WellFormed := Tree.wellFormed_parse _ _
  have hleft : ((select page 0 ":is(p, i),[title='(,']" none).run Session.start).1 = [2, 4] := by decide +kernel
  have hright : ((select page 0 "p + *" none).run Session.start).1 = [4, 5] := by decide +kernel
  have hjoined : ((select page 0 (":is(p, i),[title='(,']" ++ "," ++ "p + *") none).run Session.start).1 =
      [2, 4, 5] := by decide +kernel
  have hunion := ((comma_union.2 _ "p + *" hdivides).2 page Session.start sound_start).select_union hwf 0
  rw [hleft, hright, hjoined] at hunion
  exact ⟨hdivides, sound_start, hwf, hunion⟩

end SelectorList

end HtmlQuery
