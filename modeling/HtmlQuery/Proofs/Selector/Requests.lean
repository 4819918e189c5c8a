import HtmlQuery.Proofs.Selector.Calls

/-!
# What a match asks a cache for

A match asks the cache for the list of its text and of every text inside it that it reaches, each time it reaches one,
and for no others. `Tree.requests` lists these texts in order; it is told apart by what it says of the texts inside
others (`Tree.requestsAfresh_iff`). `Asks` says that a computation does to the cache what the requests for some texts
do, one after the other: so does a match (`Session.asks_matchesText`), and so does a run of calls since the cache was
last cleared (`Call.cache_runAll`).
-/

namespace HtmlQuery

/-! ## The requests of a match -/

/-- What is logged for the members of a list, up to the first at which one may stop. -/
def loggedUntil {α β : Type} (stops : α → Bool) (log : α → List β) : List α → List β
  | [] => []
  | a :: l => log a ++ if stops a then [] else loggedUntil stops log l

section
variable (nested : String → NodeId → Bool) (below : String → NodeId → List String) (t : Tree)

/-- The texts that a test of a pseudo-class requests. `nested` answers for selector texts, and `below` are the requests
of a text once its list is there. -/
def PseudoClass.requests (n : NodeId) : PseudoClass → List String
  | not (some selectors) => selectors :: below selectors n
  | is (some selectors) => selectors :: below selectors n
  | has (some relative) =>
    let r := Relative.ofText relative
    r.selectors :: loggedUntil (nested r.selectors) (below r.selectors) (r.combinator.relatives t n)
  | _ => []

/-- The texts that a test of a compound requests. -/
def Compound.requests (p : Compound) (n : NodeId) : List String :=
  match t.element? n with
  | none => []
  | some e =>
    if p.plain e then loggedUntil (!PseudoClass.holds nested t n e ·) (·.requests nested below t n) p.pseudoClasses
    else []

/-- The texts that taking the steps of a group requests. -/
def Group.followRequests : List (Compound × Combinator) → NodeId → List String
  | [], _ => []
  | (p, c) :: rest, n =>
    loggedUntil (p.holds nested t) (p.requests nested below t) (c.candidates t n) ++
      match (c.candidates t n).find? (p.holds nested t) with
      | some m => followRequests rest m
      | none => []

/-- The texts that a test of a group requests. -/
def Group.requests (g : Group) (n : NodeId) : List String :=
  match g.parts.getLast? with
  | none => []
  | some last =>
    last.requests nested below t n ++
      if last.holds nested t n then followRequests nested below t g.steps n else []

/-- The texts that a test of a selector list requests. -/
def SelectorList.requests (l : SelectorList) (n : NodeId) : List String :=
  loggedUntil (·.holds nested t n) (·.requests nested below t n) l.groups

end

/-- The texts that a match requests behind its own. The texts inside a text are shorter. -/
def Tree.requests (t : Tree) (s : String) (n : NodeId) : List String :=
  (SelectorList.parse s).requests t.matchesText
    (fun inner m => if _h : inner.length < s.length then t.requests inner m else []) t n
termination_by s.length

/-! ## Requests that agree on what is asked -/

theorem loggedUntil_congr {α β : Type} {stops stops' : α → Bool} {log log' : α → List β} {l : List α}
    (h : ∀ a ∈ l, stops a = stops' a ∧ log a = log' a) : loggedUntil stops log l = loggedUntil stops' log' l := by
  induction l with
  | nil => rfl
  | cons a l ih =>
    obtain ⟨ha, hl⟩ := List.forall_mem_cons.1 h
    rw [loggedUntil, loggedUntil, ha.1, ha.2, ih hl]

section
variable {nested nested' : String → NodeId → Bool} {below below' : String → NodeId → List String} (t : Tree)

theorem PseudoClass.requests_congr {c : PseudoClass} (n : NodeId)
    (h : ∀ text, c.asked? = some text → nested text = nested' text ∧ below text = below' text) :
    c.requests nested below t n = c.requests nested' below' t n := by
  unfold PseudoClass.requests
  split
  · rw [(h _ rfl).2]
  · rw [(h _ rfl).2]
  · rename_i relative
    have hasked := h (Relative.ofText relative).selectors rfl
    dsimp only
    rw [hasked.1, hasked.2]
  · rfl

theorem Compound.requests_congr {p : Compound}
    (h : ∀ c ∈ p.pseudoClasses, ∀ text, c.asked? = some text →
      nested text = nested' text ∧ below text = below' text) :
    p.requests nested below t = p.requests nested' below' t := by
  funext n
  unfold Compound.requests
  cases t.element? n with
  | none => rfl
  | some e =>
    have hlogged : loggedUntil (!PseudoClass.holds nested t n e ·) (·.requests nested below t n) p.pseudoClasses =
        loggedUntil (!PseudoClass.holds nested' t n e ·) (·.requests nested' below' t n) p.pseudoClasses :=
      loggedUntil_congr fun c hc =>
        ⟨by rw [c.holds_congr t n e fun text htext => (h c hc text htext).1], c.requests_congr t n (h c hc)⟩
    dsimp only
    rw [hlogged]

theorem Group.followRequests_congr {steps : List (Compound × Combinator)}
    (h : ∀ step ∈ steps, step.1.holds nested t = step.1.holds nested' t ∧
      step.1.requests nested below t = step.1.requests nested' below' t) (n : NodeId) :
    Group.followRequests nested below t steps n = Group.followRequests nested' below' t steps n := by
  induction steps generalizing n with
  | nil => rfl
  | cons step steps ih =>
    obtain ⟨p, c⟩ := step
    obtain ⟨hp, hsteps⟩ := List.forall_mem_cons.1 h
    rw [Group.followRequests, Group.followRequests, hp.1, hp.2]
    cases (c.candidates t n).find? (p.holds nested' t) with
    | none => rfl
    | some m =>
      dsimp only
      rw [ih hsteps m]

theorem Group.requests_congr {g : Group}
    (h : ∀ p ∈ g.parts, p.holds nested t = p.holds nested' t ∧
      p.requests nested below t = p.requests nested' below' t) (n : NodeId) :
    g.requests nested below t n = g.requests nested' below' t n := by
  have hsteps : ∀ step ∈ g.steps, step.1.holds nested t = step.1.holds nested' t ∧
      step.1.requests nested below t = step.1.requests nested' below' t := fun step hstep =>
    h _ (List.dropLast_subset _ (List.mem_reverse.1 (List.of_mem_zip hstep).1))
  unfold Group.requests
  cases hlast : g.parts.getLast? with
  | none => rfl
  | some last =>
    have hpart := h last (List.mem_of_getLast? hlast)
    dsimp only
    rw [hpart.1, hpart.2, Group.followRequests_congr t hsteps]

/-- A selector list requests the texts inside it and no others. -/
theorem SelectorList.requests_congr {l : SelectorList}
    (h : ∀ g ∈ l.groups, ∀ p ∈ g.parts, ∀ c ∈ p.pseudoClasses, ∀ text, c.asked? = some text →
      nested text = nested' text ∧ below text = below' text) (n : NodeId) :
    l.requests nested below t n = l.requests nested' below' t n := by
  refine loggedUntil_congr fun g hg => ?_
  have hparts : ∀ p ∈ g.parts, p.holds nested t = p.holds nested' t ∧
      p.requests nested below t = p.requests nested' below' t := fun p hp =>
    ⟨p.holds_congr t fun c hc text htext => (h g hg p hp c hc text htext).1, p.requests_congr t (h g hg p hp)⟩
  exact ⟨g.holds_congr t (fun p hp => (hparts p hp).1) n, g.requests_congr t hparts n⟩

end

namespace Tree

/-- The requests of a match are those of reading its text, with those of the texts inside it found in the same way. -/
def RequestsAfresh (t : Tree) (requests : String → NodeId → List String) : Prop :=
  ∀ s n, requests s n = (SelectorList.parse s).requests t.matchesText requests t n

theorem requestsAfresh_requests (t : Tree) : t.RequestsAfresh t.requests := by
  intro s n
  rw [requests]
  refine SelectorList.requests_congr t (fun g hg p hp c hc text htext => ⟨rfl, ?_⟩) n
  funext m
  rw [dif_pos (SelectorList.asked_parse hg hp hc htext)]

/-- There is one function that gives the requests of every text so. -/
theorem requestsAfresh_iff {t : Tree} {requests : String → NodeId → List String} :
    t.RequestsAfresh requests ↔ requests = t.requests := by
  constructor
  · intro h
    funext s
    induction hl : s.length using Nat.strongRecOn generalizing s with
    | _ _ ih =>
      subst hl
      funext n
      rw [h s n, t.requestsAfresh_requests s n]
      exact SelectorList.requests_congr t (fun g hg p hp c hc text htext =>
        ⟨rfl, ih text.length (SelectorList.asked_parse hg hp hc htext) text rfl⟩) n
  · rintro rfl
    exact t.requestsAfresh_requests

end Tree

/-! ## Computations and their requests -/

/-- Requests for texts, one after the other. -/
def SelectorCache.resolveAll (c : SelectorCache) (texts : List String) : SelectorCache :=
  texts.foldl (fun c s => (c.resolve s).2) c

theorem SelectorCache.resolveAll_append (c : SelectorCache) (texts texts' : List String) :
    c.resolveAll (texts ++ texts') = (c.resolveAll texts).resolveAll texts' := List.foldl_append

namespace Session

/-- In a sound session a computation does to the cache what the requests for these texts do. -/
def Asks {α : Type} (m : SessionM α) (texts : List String) : Prop :=
  ∀ session, session.Sound → (m.run session).2.cache = session.cache.resolveAll texts

section
variable {α β : Type} {m : SessionM α} {post : α → Prop} {texts texts' : List String}

theorem Asks.pure {a : α} : Asks (Pure.pure a) [] := fun _ _ => rfl

theorem Asks.map {f : α → β} (hm : Asks m texts) : Asks (m >>= fun a => Pure.pure (f a)) texts := hm

theorem Asks.bind {f : α → SessionM β} (hm : Asks m texts) (hpost : Ensures m post)
    (hf : ∀ a, post a → Asks (f a) texts') : Asks (m >>= f) (texts ++ texts') := by
  intro session hsound
  obtain ⟨ha, hsound'⟩ := hpost session hsound
  rw [SelectorCache.resolveAll_append, ← hm session hsound]
  exact hf _ ha _ hsound'

section
variable {test : α → SessionM Bool} {holds : α → Bool} {log : α → List String} {l : List α}
  (h : ∀ a, Ensures (test a) (· = holds a)) (hlog : ∀ a ∈ l, Asks (test a) (log a))
include h hlog

theorem asks_anyM : Asks (l.anyM test) (loggedUntil holds log l) := by
  induction l with
  | nil => exact .pure
  | cons a l ih =>
    obtain ⟨hlogged, hlog⟩ := List.forall_mem_cons.1 hlog
    rw [List.anyM, loggedUntil]
    refine hlogged.bind (h a) fun answer ha => ?_
    subst ha
    cases holds a with
    | false => exact ih hlog
    | true => exact .pure

theorem asks_allM : Asks (l.allM test) (loggedUntil (!holds ·) log l) := by
  induction l with
  | nil => exact .pure
  | cons a l ih =>
    obtain ⟨hlogged, hlog⟩ := List.forall_mem_cons.1 hlog
    rw [List.allM, loggedUntil]
    refine hlogged.bind (h a) fun answer ha => ?_
    subst ha
    show Asks _ (if !holds a then [] else loggedUntil (!holds ·) log l)
    cases holds a with
    | false => exact .pure
    | true => exact ih hlog

theorem asks_findM? : Asks (l.findM? test) (loggedUntil holds log l) := by
  induction l with
  | nil => exact .pure
  | cons a l ih =>
    obtain ⟨hlogged, hlog⟩ := List.forall_mem_cons.1 hlog
    rw [List.findM?, loggedUntil]
    refine hlogged.bind (h a) fun answer ha => ?_
    subst ha
    cases holds a with
    | false => exact ih hlog
    | true => exact .pure

end

end

theorem asks_resolve (s : String) : Asks (resolve s) [s] := by
  intro session _
  show (resolve s session).2.cache = (session.cache.resolve s).2
  unfold resolve SelectorCache.resolve
  rcases session.cache.lookup? s with ⟨_ | found, cache⟩ <;> rfl

/-! ## Cached matching -/

/-- A resolution requests the text itself, and a test of what it gives requests `below`. -/
def RequestsOf (resolve : String → SessionM Tester) (nested : String → NodeId → Bool)
    (below : String → NodeId → List String) (s : String) : Prop :=
  ∃ post : Tester → Prop, Ensures (resolve s) post ∧ Asks (resolve s) [s] ∧
    ∀ tester, post tester → ∀ n, Ensures (tester n) (· = nested s n) ∧ Asks (tester n) (below s n)

section
variable {resolve : String → SessionM Tester} {nested : String → NodeId → Bool} {below : String → NodeId → List String}
  (t : Tree)

theorem asks_pseudoClass {c : PseudoClass} (n : NodeId) (e : Element)
    (h : ∀ text, c.asked? = some text → RequestsOf resolve nested below text) :
    Asks (c.test resolve t n e) (c.requests nested below t n) := by
  cases c with
  | not selectors =>
    cases selectors with
    | none => exact .pure
    | some selectors =>
      obtain ⟨post, hpost, hasks, htester⟩ := h selectors rfl
      refine hasks.bind hpost fun tester ht => ?_
      exact (htester tester ht n).2.map
  | is selectors =>
    cases selectors with
    | none => exact .pure
    | some selectors =>
      obtain ⟨post, hpost, hasks, htester⟩ := h selectors rfl
      exact hasks.bind hpost fun tester ht => (htester tester ht n).2
  | has relative =>
    cases relative with
    | none => exact .pure
    | some relative =>
      obtain ⟨post, hpost, hasks, htester⟩ := h (Relative.ofText relative).selectors rfl
      exact hasks.bind hpost fun tester ht =>
        asks_anyM (fun m => (htester tester ht m).1) fun m _ => (htester tester ht m).2
  | _ => exact .pure

variable (hanswers : Answers resolve nested)
include hanswers

theorem asks_compound {p : Compound}
    (h : ∀ c ∈ p.pseudoClasses, ∀ text, c.asked? = some text → RequestsOf resolve nested below text) (n : NodeId) :
    Asks (p.test resolve t n) (p.requests nested below t n) := by
  unfold Compound.test Compound.requests
  cases t.element? n with
  | none => exact .pure
  | some e =>
    dsimp only
    split
    · exact asks_allM (ensures_pseudoClass hanswers t n e) fun c hc => asks_pseudoClass t n e (h c hc)
    · exact .pure

theorem asks_walk {steps : List (Compound × Combinator)}
    (h : ∀ step ∈ steps, ∀ n, Asks (step.1.test resolve t n) (step.1.requests nested below t n)) (n : NodeId) :
    Asks (Group.walk resolve t steps n) (Group.followRequests nested below t steps n) := by
  induction steps generalizing n with
  | nil => exact .pure
  | cons step steps ih =>
    obtain ⟨p, c⟩ := step
    obtain ⟨hp, hsteps⟩ := List.forall_mem_cons.1 h
    rw [Group.walk, Group.followRequests]
    have hensures := ensures_compound hanswers t p
    refine (asks_findM? hensures fun m _ => hp m).bind (ensures_findM? hensures _) fun found hfound => ?_
    subst hfound
    cases (c.candidates t n).find? (p.holds nested t) with
    | none => exact .pure
    | some m => exact ih hsteps m

theorem asks_group {g : Group}
    (h : ∀ p ∈ g.parts, ∀ n, Asks (p.test resolve t n) (p.requests nested below t n)) (n : NodeId) :
    Asks (g.test resolve t n) (g.requests nested below t n) := by
  have hsteps : ∀ step ∈ g.steps, ∀ n, Asks (step.1.test resolve t n) (step.1.requests nested below t n) :=
    fun step hstep => h _ (List.dropLast_subset _ (List.mem_reverse.1 (List.of_mem_zip hstep).1))
  unfold Group.test Group.requests
  cases hlast : g.parts.getLast? with
  | none => exact .pure
  | some last =>
    dsimp only
    refine (h last (List.mem_of_getLast? hlast) n).bind (ensures_compound hanswers t last n) fun answer ha => ?_
    subst ha
    cases last.holds nested t n with
    | false => exact .pure
    | true => exact asks_walk t hanswers hsteps n

theorem asks_selectorList {l : SelectorList}
    (h : ∀ g ∈ l.groups, ∀ p ∈ g.parts, ∀ c ∈ p.pseudoClasses, ∀ text, c.asked? = some text →
      RequestsOf resolve nested below text) (n : NodeId) :
    Asks (l.test resolve t n) (l.requests nested below t n) :=
  asks_anyM (fun g => ensures_group hanswers t g n) fun g hg =>
    asks_group t hanswers (fun p hp => asks_compound t hanswers (h g hg p hp)) n

end

/-- The resolution of selector texts that are shorter than a bound. -/
def testerBelow (t : Tree) (bound : Nat) (s : String) : SessionM Tester :=
  if _h : s.length < bound then testerOf t s else Pure.pure fun _ => Pure.pure false

theorem testerOf_eq (t : Tree) (s : String) : testerOf t s =
    resolve s >>= fun resolved => Pure.pure (resolved.list.test (testerBelow t s.length) t) := by
  rw [testerOf]
  rfl

/-- The answers of the texts that are shorter than a bound. -/
def answersBelow (t : Tree) (bound : Nat) (s : String) (n : NodeId) : Bool :=
  if s.length < bound then t.matchesText s n else false

theorem answersBelow_of_lt {t : Tree} {bound : Nat} {s : String} (h : s.length < bound) :
    answersBelow t bound s = t.matchesText s := by
  funext n
  exact if_pos h

theorem ensures_testerBelow (t : Tree) (bound : Nat) : Answers (testerBelow t bound) (answersBelow t bound) := by
  intro s
  rw [testerBelow]
  split
  · rename_i hlt
    rw [answersBelow_of_lt hlt]
    exact ensures_testerOf t s
  · rename_i hle
    exact .pure fun n => .pure (if_neg hle).symm

/-- A resolved text requests what it is said to. -/
theorem requestsOf_testerOf (t : Tree) (s : String) : RequestsOf (testerOf t) t.matchesText t.requests s := by
  induction hl : s.length using Nat.strongRecOn generalizing s with
  | _ _ ih =>
    subst hl
    have hlist : Ensures (testerOf t s) (· = (SelectorList.parse s).test (testerBelow t s.length) t) := by
      rw [testerOf_eq]
      exact (ensures_resolve s).bind fun r hr => .pure (by rw [hr])
    have hasks : Asks (testerOf t s) [s] := by
      rw [testerOf_eq]
      exact (asks_resolve s).map
    refine ⟨_, hlist, hasks, ?_⟩
    rintro _ rfl n
    -- what the list asks about is shorter than `s`, so the bound does not show
    have hasked : ∀ g ∈ (SelectorList.parse s).groups, ∀ p ∈ g.parts, ∀ c ∈ p.pseudoClasses, ∀ text,
        c.asked? = some text → text.length < s.length := fun g hg p hp c hc text =>
      SelectorList.asked_parse hg hp hc
    have hbelow : ∀ g ∈ (SelectorList.parse s).groups, ∀ p ∈ g.parts, ∀ c ∈ p.pseudoClasses, ∀ text,
        c.asked? = some text → RequestsOf (testerBelow t s.length) (answersBelow t s.length) t.requests text := by
      intro g hg p hp c hc text htext
      have hlt := hasked g hg p hp c hc text htext
      have htester := ih text.length hlt text rfl
      rw [RequestsOf, ← answersBelow_of_lt hlt] at htester
      rw [RequestsOf, testerBelow, dif_pos hlt]
      exact htester
    have hholds : (SelectorList.parse s).holds (answersBelow t s.length) t n = t.matchesText s n := by
      rw [t.answersAfresh_matchesText s n]
      exact SelectorList.holds_congr t (fun g hg p hp c hc text htext =>
        answersBelow_of_lt (hasked g hg p hp c hc text htext)) n
    have hrequests : (SelectorList.parse s).requests (answersBelow t s.length) t.requests t n = t.requests s n := by
      rw [t.requestsAfresh_requests s n]
      exact SelectorList.requests_congr t (fun g hg p hp c hc text htext =>
        ⟨answersBelow_of_lt (hasked g hg p hp c hc text htext), rfl⟩) n
    have hanswers := ensures_testerBelow t s.length
    rw [← hholds, ← hrequests]
    exact ⟨ensures_selectorList hanswers t _ n, asks_selectorList t hanswers hbelow n⟩

/-- A match requests its text, and then the texts inside it. -/
theorem asks_matchesText (t : Tree) (n : NodeId) (s : String) : Asks (matchesText t n s) (s :: t.requests s n) := by
  obtain ⟨post, hpost, hasks, htester⟩ := requestsOf_testerOf t s
  exact hasks.bind hpost fun tester ht => (htester tester ht n).2

end Session

/-! ## Calls and their requests -/

/-- The texts that a call requests. -/
def Call.requests : Call → List String
  | resolve s => [s]
  | test t n s => s :: t.requests s n
  | holds _ => []
  | clear => []

/-- What a call does to a cache: its requests one after the other, or the clearing. -/
def SelectorCache.run (c : SelectorCache) : Call → SelectorCache
  | .clear => c.clear
  | call => c.resolveAll call.requests

/-- What calls do to a cache, one after the other. -/
def SelectorCache.runAll (c : SelectorCache) (calls : List Call) : SelectorCache := calls.foldl run c

namespace Call

open Session

theorem cache_run {session : Session} (hsound : session.Sound) (call : Call) :
    (call.run.run session).2.cache = session.cache.run call := by
  cases call with
  | resolve s => exact (asks_resolve s).map session hsound
  | test t n s => exact (asks_matchesText t n s).map session hsound
  | holds s => rfl
  | clear => rfl

/-- A run of calls does to the cache what their requests and clearings do. -/
theorem cache_runAll {session : Session} (hsound : session.Sound) (calls : List Call) :
    ((runAll calls).run session).2.cache = session.cache.runAll calls := by
  induction calls generalizing session with
  | nil => rfl
  | cons call calls ih =>
    show ((runAll calls).run (call.run.run session).2).2.cache = (session.cache.run call).runAll calls
    rw [ih (ensures_run call session hsound).2, cache_run hsound]

end Call

end HtmlQuery
