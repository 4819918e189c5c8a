import HtmlQuery.Selector.CachedMatching

/-!
# Answers of a session

A session is `Sound` when each of its cache entries is what its text reads as. Every resolution keeps it so,
and in a sound session the cached matching gives the answers of the matching without a cache: `ensures_testerOf`
for selector texts, `ensures_matchesGroup` for groups and `ensures_matchesCompound` for compounds.
-/

namespace HtmlQuery

/-! ## Sound caches -/

namespace RecencyCache

variable {α β : Type} [BEq α] {c : RecencyCache α β} {key : α} {entry : α × β}

/-- A use of a key adds no entry. -/
theorem mem_get [LawfulBEq α] (h : entry ∈ (c.get key).2.entries) : entry ∈ c.entries := by
  unfold get at h
  split at h
  · rename_i hfind
    rcases List.mem_cons.1 h with rfl | h
    · exact mem_entries_of_find? hfind
    · exact without_subset _ _ h
  · exact h

/-- An insertion adds one entry. -/
theorem mem_insert {value : β} (h : entry ∈ (c.insert key value).2.entries) :
    entry = (key, value) ∨ entry ∈ c.entries := by
  unfold insert at h
  split at h
  · exact (List.mem_cons.1 h).imp_right (without_subset _ _ ·)
  · split at h
    · exact List.mem_cons.1 h
    · exact (List.mem_cons.1 h).imp_right fun h => List.dropLast_subset _ h

end RecencyCache

/-- Every entry is what its text reads as. -/
def SelectorCache.Sound (c : SelectorCache) : Prop :=
  ∀ s r, (s, r) ∈ c.entries.entries → r.list = SelectorList.parse s

namespace SelectorCache

variable {c : SelectorCache} {s : String}

theorem sound_ofCapacity (capacity : Nat) : (ofCapacity capacity).Sound := fun _ _ h => by
  simp [ofCapacity, RecencyCache.ofCapacity] at h

theorem Sound.clear (_h : c.Sound) : c.clear.Sound := fun _ _ h => by
  simp [SelectorCache.clear, RecencyCache.clear] at h

theorem Sound.lookup? (h : c.Sound) : (c.lookup? s).2.Sound ∧
    ∀ r, (c.lookup? s).1 = some r → r.list = SelectorList.parse s := by
  have hmem : ∀ entry ∈ (c.entries.get s).2.entries, entry ∈ c.entries.entries := fun _ =>
    RecencyCache.mem_get
  unfold SelectorCache.lookup?
  split
  · rename_i found entries hget
    rw [hget] at hmem
    have hfind : c.entries.find? s = some found := by
      unfold RecencyCache.get at hget
      split at hget
      · rename_i hfind
        simp only [Prod.mk.injEq, Option.some.injEq] at hget
        rw [hfind, hget.1]
      · simp at hget
    refine ⟨fun s' r hr => h s' r (hmem _ hr), fun r hr => ?_⟩
    rw [Option.some.injEq] at hr
    exact hr ▸ h s found (RecencyCache.mem_entries_of_find? hfind)
  · rename_i entries hget
    rw [hget] at hmem
    exact ⟨fun s' r hr => h s' r (hmem _ hr), fun r hr => by simp at hr⟩

theorem Sound.read (h : c.Sound) :
    (c.read s).2.Sound ∧ (c.read s).1.list = SelectorList.parse s := by
  refine ⟨fun s' r hr => ?_, rfl⟩
  rcases RecencyCache.mem_insert hr with heq | hr
  · rw [Prod.mk.injEq] at heq
    rw [heq.1, heq.2]
  · exact h s' r hr

end SelectorCache

namespace Session

/-- Every entry of the cache is what its text reads as. -/
def Sound (session : Session) : Prop := session.cache.Sound

theorem sound_ofCapacity (capacity : Nat) : (ofCapacity capacity).Sound :=
  SelectorCache.sound_ofCapacity capacity

theorem sound_start : start.Sound := sound_ofCapacity _

/-! ## Computations in sound sessions -/

/-- In a sound session the result of a computation is as stated, and the session stays sound. -/
def Ensures {α : Type} (m : SessionM α) (post : α → Prop) : Prop :=
  ∀ session, session.Sound → post (m.run session).1 ∧ (m.run session).2.Sound

section
variable {α β : Type} {m : SessionM α} {post : α → Prop} {session : Session}

theorem Ensures.pure {a : α} (h : post a) : Ensures (Pure.pure a) post := fun _ hs => ⟨h, hs⟩

theorem Ensures.bind {f : α → SessionM β} {post' : β → Prop} (hm : Ensures m post)
    (hf : ∀ a, post a → Ensures (f a) post') : Ensures (m >>= f) post' := fun session hs =>
  hf _ (hm session hs).1 _ (hm session hs).2

theorem Ensures.mono {post' : α → Prop} (hm : Ensures m post) (h : ∀ a, post a → post' a) :
    Ensures m post' := fun session hs => ⟨h _ (hm session hs).1, (hm session hs).2⟩

theorem Ensures.result {a : α} (hm : Ensures m (· = a)) (hs : session.Sound) :
    (m.run session).1 = a := (hm session hs).1

/-- A conditional on an answer. -/
theorem Ensures.ite {test : SessionM Bool} {b : Bool} {yes no : SessionM α}
    (htest : Ensures test (· = b)) (hyes : b = true → Ensures yes post)
    (hno : b = false → Ensures no post) :
    Ensures (test >>= fun answer => if answer then yes else no) post :=
  htest.bind fun answer h => by
    subst h
    cases answer with
    | false => exact hno rfl
    | true => exact hyes rfl

section
variable {test : α → SessionM Bool} {holds : α → Bool} (h : ∀ a, Ensures (test a) (· = holds a))
include h

theorem ensures_anyM (l : List α) : Ensures (l.anyM test) (· = l.any holds) := by
  induction l with
  | nil => exact .pure rfl
  | cons a l ih =>
    rw [List.anyM, List.any_cons]
    refine (h a).bind fun answer ha => ?_
    subst ha
    cases hb : holds a with
    | false => simpa [hb] using ih
    | true => exact .pure rfl

theorem ensures_allM (l : List α) : Ensures (l.allM test) (· = l.all holds) := by
  induction l with
  | nil => exact .pure rfl
  | cons a l ih =>
    rw [List.allM, List.all_cons]
    refine (h a).bind fun answer ha => ?_
    subst ha
    cases hb : holds a with
    | false => exact .pure rfl
    | true => simpa [hb] using ih

theorem ensures_findM? (l : List α) : Ensures (l.findM? test) (· = l.find? holds) := by
  induction l with
  | nil => exact .pure rfl
  | cons a l ih =>
    rw [List.findM?]
    refine (h a).bind fun answer ha => ?_
    subst ha
    cases hb : holds a with
    | false => rwa [List.find?_cons_of_neg (by simp [hb])]
    | true =>
      rw [List.find?_cons_of_pos hb]
      exact .pure rfl

end

end

theorem ensures_resolve (s : String) :
    Ensures (resolve s) fun r => r.list = SelectorList.parse s := fun session hs => by
  obtain ⟨hsound, hfound⟩ := SelectorCache.Sound.lookup? (s := s) hs
  unfold resolve StateT.run
  dsimp only
  split
  · rename_i found cache hlookup
    rw [hlookup] at hsound hfound
    exact ⟨hfound found rfl, hsound⟩
  · rename_i cache hlookup
    rw [hlookup] at hsound
    obtain ⟨hread, hlist⟩ := SelectorCache.Sound.read (s := s) hsound
    exact ⟨hlist, hread⟩

/-! ## Cached matching -/

/-- A resolution of selector texts that gives the answers of a function. -/
def Answers (resolve : String → SessionM Tester) (nested : String → NodeId → Bool) : Prop :=
  ∀ s, Ensures (resolve s) fun tester => ∀ n, Ensures (tester n) (· = nested s n)

section
variable {resolve : String → SessionM Tester} {nested : String → NodeId → Bool}
  (h : Answers resolve nested) (t : Tree)
include h

theorem ensures_pseudoClass (n : NodeId) (e : Element) (p : PseudoClass) :
    Ensures (p.test resolve t n e) (· = p.holds nested t n e) := by
  fun_cases p.test resolve t n e with
  | case1 => exact .pure rfl
  | case2 selectors =>
    exact (h selectors).bind fun tester htester => (htester n).bind fun answer ha => .pure (by
      rw [ha, PseudoClass.holds])
  | case3 selectors => exact (h selectors).bind fun tester htester => htester n
  | case4 relative =>
    exact (h _).bind fun tester htester => ensures_anyM htester _
  | case5 => exact .pure (by unfold PseudoClass.holds; split <;> simp_all)

theorem ensures_compound (p : Compound) (n : NodeId) :
    Ensures (p.test resolve t n) (· = p.holds nested t n) := by
  unfold Compound.test Compound.holds
  cases t.element? n with
  | none => exact .pure rfl
  | some e =>
    dsimp only
    split
    · rename_i hplain
      simpa [hplain] using ensures_allM (ensures_pseudoClass h t n e) p.pseudoClasses
    · rename_i hplain
      exact .pure (by simp [hplain])

theorem ensures_walk (steps : List (Compound × Combinator)) (n : NodeId) :
    Ensures (Group.walk resolve t steps n) (· = Group.follow nested t steps n) := by
  induction steps generalizing n with
  | nil => exact .pure rfl
  | cons step steps ih =>
    obtain ⟨p, c⟩ := step
    rw [Group.walk, Group.follow]
    refine (ensures_findM? (ensures_compound h t p) _).bind fun found hfound => ?_
    subst hfound
    cases (c.candidates t n).find? (p.holds nested t) with
    | none => exact .pure rfl
    | some m => exact ih m

theorem ensures_group (g : Group) (n : NodeId) :
    Ensures (g.test resolve t n) (· = g.holds nested t n) := by
  unfold Group.test Group.holds
  cases g.parts.getLast? with
  | none => exact .pure rfl
  | some last =>
    refine (ensures_compound h t last n).ite (fun hlast => ?_) fun hlast => ?_
    · simpa [hlast] using ensures_walk h t g.steps n
    · exact .pure (by simp [hlast])

theorem ensures_selectorList (l : SelectorList) (n : NodeId) :
    Ensures (l.test resolve t n) (· = l.holds nested t n) :=
  ensures_anyM (fun g => ensures_group h t g n) l.groups

end

/-- A resolved text answers what the text means. -/
theorem ensures_testerOf (t : Tree) : Answers (testerOf t) t.matchesText := by
  intro s
  induction hl : s.length using Nat.strongRecOn generalizing s with
  | _ _ ih =>
    subst hl
    rw [testerOf]
    refine (ensures_resolve s).bind fun r hr => .pure fun n => ?_
    rw [hr, Tree.matchesText]
    refine ensures_selectorList (fun inner => ?_) t _ n
    split
    · rename_i hlt
      exact (ih inner.length hlt inner rfl).mono fun tester htester m => by simpa [hlt] using htester m
    · rename_i hlt
      exact .pure fun m => .pure (by simp)

theorem ensures_matchesText (t : Tree) (n : NodeId) (s : String) :
    Ensures (matchesText t n s) (· = t.matchesText s n) := (ensures_testerOf t s).bind fun _ htester => htester n

theorem ensures_matchesList (t : Tree) (l : SelectorList) (n : NodeId) :
    Ensures (matchesList t l n) (· = l.matches t n) := ensures_selectorList (ensures_testerOf t) t l n

theorem ensures_matchesGroup (t : Tree) (g : Group) (n : NodeId) :
    Ensures (matchesGroup t g n) (· = g.matches t n) := ensures_group (ensures_testerOf t) t g n

theorem ensures_matchesCompound (t : Tree) (p : Compound) (n : NodeId) :
    Ensures (matchesCompound t p n) (· = p.matches t n) :=
  ensures_compound (ensures_testerOf t) t p n

end Session

end HtmlQuery
