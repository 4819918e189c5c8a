import HtmlQuery.Proofs.Selector.Calls
import HtmlQuery.Proofs.Tree.Building
import HtmlQuery.Proofs.Tree.DocumentOrder
import HtmlQuery.Selector.Query

/-!
# What queries find

A query downwards is about the nodes under a scope that match (`Tree.Matching`), one upwards about the ancestors that do
(`Tree.MatchingParents`). Each entry point gives all of them, the first few, the first one, whether there is one or how
many there are, whatever the session holds (`queries_agree`). A tester that answers as a predicate makes `firstPassing`
a filter (`ensures_firstPassing`), and a well-formed tree is walked whole in one round
(`descendantRounds_eq_descendants`), so each entry point is a function of one filtered list (`ensures_select`,
`ensures_selectOne`, `ensures_selectParents`).
-/

namespace HtmlQuery

/-- `found` are the nodes under a scope that match a text, each once, in document order. -/
structure Tree.Matching (t : Tree) (scope : NodeId) (s : String) (found : List NodeId) : Prop where
  mem_iff : ∀ m, m ∈ found ↔ (t.Above scope m ∧ scope ≠ m) ∧ t.matchesText s m = true
  nodup : found.Nodup
  ordered : found.Pairwise t.Precedes

/-- `found` are the ancestors of a node other than the document that match a text, the nearest first. -/
structure Tree.MatchingParents (t : Tree) (n : NodeId) (s : String) (found : List NodeId) : Prop where
  mem_iff : ∀ p, p ∈ found ↔ p ≠ Tree.root ∧ n ∈ t.descendants p ∧ t.matchesText s p = true
  ordered : found.Pairwise fun near far => far ∈ t.ancestors near

namespace Tree.WellFormed

variable {t : Tree} (h : t.WellFormed)
include h

theorem descendantRounds_eq_descendants {rounds : Nat} (hr : 0 < rounds) (n : NodeId) :
    t.descendantRounds rounds n = t.descendants n :=
  descendantRounds_eq t hr (h.length_descendants_lt n)

theorem matching (scope : NodeId) (s : String) :
    t.Matching scope s ((t.descendants scope).filter (t.matchesText s)) where
  mem_iff m := by rw [List.mem_filter, h.mem_descendants_iff, h.mem_ancestors_iff_above]
  nodup := (h.nodup_descendants scope).filter _
  ordered := (h.pairwise_descendants scope).filter _

theorem matchingParents (n : NodeId) (s : String) :
    t.MatchingParents n s ((t.properAncestors n).filter (t.matchesText s)) where
  mem_iff p := by
    rw [List.mem_filter, h.mem_properAncestors_iff, ← h.mem_ancestors_iff, h.mem_descendants_iff, and_assoc]
  ordered := (h.pairwise_properAncestors n).filter _

end Tree.WellFormed

/-- A list that was read before matches what its text matches. -/
theorem SelectorList.matches_parse (t : Tree) (s : String) : (parse s).matches t = t.matchesText s := by
  funext n
  exact (t.answersAfresh_matchesText s n).symm

namespace Session

/-! ## The first members that pass -/

/-- The first members of a list, as many as a limit allows. -/
def upTo (limit : Option Nat) (l : List NodeId) : List NodeId :=
  match limit with
  | none => l
  | some k => l.take k

theorem upTo_cons {limit : Option Nat} (hlimit : limit ≠ some 0) (n : NodeId) (l : List NodeId) :
    upTo limit (n :: l) = n :: upTo (limit.map (· - 1)) l := by
  cases limit with
  | none => rfl
  | some k =>
    obtain ⟨k, rfl⟩ := Nat.exists_eq_succ_of_ne_zero fun hk => hlimit (congrArg some hk)
    rfl

section
variable {tester : Tester} {holds : NodeId → Bool} (htester : ∀ n, Ensures (tester n) (· = holds n))
include htester

/-- Looking for the first members that pass is taking the first of all that pass. -/
theorem ensures_firstPassing (limit : Option Nat) (l : List NodeId) :
    Ensures (firstPassing tester limit l) (· = upTo limit (l.filter holds)) := by
  fun_induction firstPassing tester limit l with
  | case1 => exact .pure rfl
  | case2 limit => exact .pure (by cases limit <;> simp [upTo])
  | case3 limit n rest hlimit ihlater ihrest =>
    refine (htester n).ite (fun hn => ?_) fun hn => ?_
    · refine ihlater.bind fun later hlater => .pure ?_
      rw [List.filter_cons_of_pos hn, upTo_cons hlimit, hlater]
    · rwa [List.filter_cons_of_neg (by simp [hn])]

end

/-! ## Entry points -/

section
variable {t : Tree} (h : t.WellFormed)
include h

theorem upTo_searched (holds : NodeId → Bool) (scope : NodeId) (limit : Option Nat) :
    upTo limit ((searched t scope limit).filter holds) =
      upTo limit ((t.descendants scope).filter holds) := by
  rcases limit with - | k
  · rw [searched, Option.getD_none, t.descendantRounds_one]
  · rcases Nat.eq_zero_or_pos k with rfl | hk
    · rfl
    · rw [searched, Option.getD_some, h.descendantRounds_eq_descendants hk]

theorem ensures_select (scope : NodeId) (s : String) (limit : Option Nat) :
    Ensures (select t scope s limit)
      (· = upTo limit ((t.descendants scope).filter (t.matchesText s))) := by
  refine (ensures_testerOf t s).bind fun _ htester => ?_
  rw [← upTo_searched h]
  exact ensures_firstPassing htester limit _

theorem ensures_selectList (scope : NodeId) (l : SelectorList) (limit : Option Nat) :
    Ensures (selectList t scope l limit) (· = upTo limit ((t.descendants scope).filter (l.matches t))) := by
  rw [← upTo_searched h]
  exact ensures_firstPassing (ensures_matchesList t l) limit _

end

theorem ensures_selectOne (t : Tree) (scope : NodeId) (s : String) :
    Ensures (selectOne t scope s) (· = ((t.descendants scope).filter (t.matchesText s)).head?) := by
  rw [List.head?_filter]
  exact (ensures_testerOf t s).bind fun _ htester => ensures_findM? htester _

theorem ensures_selectParents (t : Tree) (n : NodeId) (s : String) :
    Ensures (selectParents t n s) (· = (t.properAncestors n).filter (t.matchesText s)) :=
  (ensures_testerOf t s).bind fun _ htester => ensures_firstPassing htester none _

theorem ensures_selectParent (t : Tree) (n : NodeId) (s : String) :
    Ensures (selectParent t n s) (· = ((t.properAncestors n).filter (t.matchesText s)).head?) := by
  rw [List.head?_filter]
  exact (ensures_testerOf t s).bind fun _ htester => ensures_findM? htester _

/-! ## The document -/

theorem ensures_anyMatch (t : Tree) (s : String) :
    Ensures (anyMatch t s) (· = !((t.descendants Tree.root).filter (t.matchesText s)).isEmpty) := by
  refine (ensures_selectOne t Tree.root s).bind fun found hfound => .pure ?_
  rw [hfound]
  cases (t.descendants Tree.root).filter (t.matchesText s) <;> rfl

section
variable {t : Tree} (h : t.WellFormed)
include h

theorem ensures_count (s : String) :
    Ensures (count t s) (· = ((t.descendants Tree.root).filter (t.matchesText s)).length) := by
  refine (ensures_select h Tree.root s none).bind fun found hfound => .pure ?_
  rw [hfound]
  rfl

/-- Upwards from a node of the document one finds what one finds downwards from the document and above the node. -/
theorem mem_parents_iff {n p : NodeId} (hn : t.Above Tree.root n) (s : String) :
    p ∈ (t.properAncestors n).filter (t.matchesText s) ↔
      p ∈ (t.descendants Tree.root).filter (t.matchesText s) ∧ n ∈ t.descendants p := by
  rw [(h.matchingParents n s).mem_iff, (h.matching Tree.root s).mem_iff]
  constructor
  · rintro ⟨hroot, hp, hs⟩
    have hpn := (h.mem_ancestors_iff_above.1 (h.mem_descendants_iff.1 hp)).1
    exact ⟨⟨⟨h.above_root_of_above hn hpn, Ne.symm hroot⟩, hs⟩, hp⟩
  · rintro ⟨⟨⟨-, hroot⟩, hs⟩, hp⟩
    exact ⟨Ne.symm hroot, hp, hs⟩

end

/-- **All queries agree with one list for each direction**, whatever is in the cache. -/
theorem queries_agree {t : Tree} {session : Session} (h : t.WellFormed) (hsound : session.Sound)
    (s : String) :
    (∀ scope, ∃ found, t.Matching scope s found ∧
      ((select t scope s none).run session).1 = found ∧
      (∀ k, ((select t scope s (some k)).run session).1 = found.take k) ∧
      ((selectList t scope (.parse s) none).run session).1 = found ∧
      (∀ k, ((selectList t scope (.parse s) (some k)).run session).1 = found.take k) ∧
      ((selectOne t scope s).run session).1 = found.head?) ∧
    (∃ found, t.Matching Tree.root s found ∧
      ((anyMatch t s).run session).1 = !found.isEmpty ∧
      ((count t s).run session).1 = found.length) ∧
    ∀ n, ∃ found, t.MatchingParents n s found ∧
      ((selectParents t n s).run session).1 = found ∧
      ((selectParent t n s).run session).1 = found.head? ∧
      (t.Above Tree.root n → ∀ p, p ∈ found ↔
        p ∈ ((select t Tree.root s none).run session).1 ∧ n ∈ t.descendants p) := by
  have hselect := fun scope limit => (ensures_select h scope s limit).result hsound
  have hlist := fun scope limit => (ensures_selectList h scope (.parse s) limit).result hsound
  simp only [SelectorList.matches_parse] at hlist
  refine ⟨fun scope => ?_, ?_, fun n => ?_⟩
  · exact ⟨_, h.matching scope s, hselect scope none, fun k => hselect scope (some k),
      hlist scope none, fun k => hlist scope (some k), (ensures_selectOne t scope s).result hsound⟩
  · exact ⟨_, h.matching Tree.root s, (ensures_anyMatch t s).result hsound,
      (ensures_count h s).result hsound⟩
  · refine ⟨_, h.matchingParents n s, (ensures_selectParents t n s).result hsound,
      (ensures_selectParent t n s).result hsound, fun hn p => ?_⟩
    rw [hselect Tree.root none]
    exact mem_parents_iff h hn s

/-- A cache with room for one entry that has held another one before. -/
def crowded : Session :=
  ((Call.runAll [.resolve "p", .resolve "ul"]).run ⟨.ofCapacity 1, .empty⟩).2

/-- A division with two paragraphs, a text in the first, and a list. -/
def page : Tree := Tree.parse "<div><p>x<p><ul>" .default

theorem queries_agree_page : page.WellFormed ∧ crowded.Sound ∧
    page.Matching 0 "div > :is(p, ul)" [2, 4, 5] ∧
    ((select page 0 "div > :is(p, ul)" (some 2)).run crowded).1 = [2, 4] ∧
    page.MatchingParents 3 "div > :is(p, ul)" [2] := by
  have hwf : page.WellFormed := Tree.wellFormed_parse _ _
  have hsound : crowded.Sound := Call.sound_runAll 1 .empty _
  have hdown : ((select page 0 "div > :is(p, ul)" none).run crowded).1 = [2, 4, 5] := by decide +kernel
  have hup : ((selectParents page 3 "div > :is(p, ul)").run crowded).1 = [2] := by decide +kernel
  obtain ⟨hunder, -, habove⟩ := queries_agree hwf hsound "div > :is(p, ul)"
  obtain ⟨found, hfound, hselect, hlimit, -⟩ := hunder 0
  obtain ⟨parents, hparents, hselectParents, -⟩ := habove 3
  obtain rfl : [2, 4, 5] = found := hdown.symm.trans hselect
  obtain rfl : [2] = parents := hup.symm.trans hselectParents
  exact ⟨hwf, hsound, hfound, hlimit 2, hparents⟩

end Session

end HtmlQuery
