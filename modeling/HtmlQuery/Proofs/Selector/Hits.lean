import HtmlQuery.Proofs.Selector.Recency
import HtmlQuery.Proofs.Selector.Requests
import Mathlib.Data.Finset.Card

/-!
# When a cache of selectors can answer

Which requests a cache of selectors can answer is settled by the requests before them: a text is found when it was
requested before, and since then fewer other texts than the cache may hold (`Recalled`). `CacheOn` is the cache of
selectors on any table in order of use; it is seen to be the one on a list of entries (`CacheOn.view_runAll`). Its
requests are those of its callers together with those of the matches inside (`requested`), and its counters, its size
and what it holds follow from them (`CacheOn.foretold_runAll`).
-/

namespace HtmlQuery

/-! ## How far back a key was used -/

namespace CacheEvent

variable {α : Type} [BEq α] [LawfulBEq α] {key : α} {keys : List α} {n : Nat}

@[simp] theorem mem_distinct : key ∈ distinct keys ↔ key ∈ keys := by
  induction keys with
  | nil => simp [distinct]
  | cons other keys ih =>
    rw [distinct, List.mem_cons, List.mem_cons, mem_others, ih]
    by_cases hkey : key = other <;> simp [hkey]

theorem takeWhile_others {other : α} (h : other ≠ key) (keys : List α) :
    (others other keys).takeWhile (· != key) = others other (keys.takeWhile (· != key)) := by
  have hstop : ∀ a : α, (!!(a == other) || a != key) = (a != key) := by
    intro a
    by_cases ha : a = other
    · simp [ha, h]
    · simp [ha]
  rw [others, List.takeWhile_filter, others]
  simp only [hstop]

theorem takeWhile_distinct (key : α) (keys : List α) :
    (distinct keys).takeWhile (· != key) = distinct (keys.takeWhile (· != key)) := by
  induction keys with
  | nil => rfl
  | cons other keys ih =>
    by_cases hkey : other = key
    · subst hkey
      rw [distinct, List.takeWhile_cons_of_neg (by simp), List.takeWhile_cons_of_neg (by simp), distinct]
    · rw [distinct, List.takeWhile_cons_of_pos (by simpa using hkey), List.takeWhile_cons_of_pos (by simpa using hkey),
        distinct, takeWhile_others hkey, ih]

theorem length_distinct [DecidableEq α] (keys : List α) : (distinct keys).length = keys.toFinset.card := by
  rw [← List.toFinset_card_of_nodup (nodup_distinct keys)]
  congr 1
  ext key
  simp

theorem mem_take_iff : key ∈ keys.take n ↔ key ∈ keys ∧ (keys.takeWhile (· != key)).length < n := by
  induction keys generalizing n with
  | nil => simp
  | cons other keys ih =>
    cases n with
    | zero => simp
    | succ n =>
      by_cases hkey : other = key
      · simp [hkey]
      · simp [hkey, Ne.symm hkey, ih]

/-- A key is among those used last when there are not too many others that were used since its last use. -/
theorem mem_take_distinct_iff [DecidableEq α] :
    key ∈ (distinct keys).take n ↔ key ∈ keys ∧ (keys.takeWhile (· != key)).toFinset.card < n := by
  rw [mem_take_iff, mem_distinct, takeWhile_distinct, length_distinct]

end CacheEvent

/-! ## What requests say -/

/-- A text was requested before, and fewer other texts than a cache may hold were requested since its last request. The
requests come with the earliest first. -/
def Recalled (capacity : Nat) (before : List String) (s : String) : Prop :=
  s ∈ before ∧ (before.reverse.takeWhile (· != s)).toFinset.card < capacity

instance (capacity : Nat) (before : List String) (s : String) : Decidable (Recalled capacity before s) :=
  inferInstanceAs (Decidable (_ ∧ _))

/-- How many of the requests that come behind others are recalled. -/
def recalls (capacity : Nat) (before : List String) : List String → Nat
  | [] => 0
  | s :: later => (if Recalled capacity before s then 1 else 0) + recalls capacity (before ++ [s]) later

theorem Recalled.mono {capacity larger : Nat} {before : List String} {s : String} (h : Recalled capacity before s)
    (hle : capacity ≤ larger) : Recalled larger before s := ⟨h.1, Nat.lt_of_lt_of_le h.2 hle⟩

theorem recalls_le {capacity larger : Nat} (hle : capacity ≤ larger) (before texts : List String) :
    recalls capacity before texts ≤ recalls larger before texts := by
  induction texts generalizing before with
  | nil => exact Nat.le_refl 0
  | cons s later ih =>
    have hfirst : (if Recalled capacity before s then 1 else 0) ≤ if Recalled larger before s then 1 else 0 := by
      by_cases hs : Recalled capacity before s
      · rw [if_pos hs, if_pos (hs.mono hle)]
      · rw [if_neg hs]
        exact Nat.zero_le _
    exact Nat.add_le_add hfirst (ih _)

theorem recalls_append (capacity : Nat) (before texts later : List String) : recalls capacity before (texts ++ later) =
    recalls capacity before texts + recalls capacity (before ++ texts) later := by
  induction texts generalizing before with
  | nil => simp [recalls]
  | cons s texts ih => simp [recalls, ih, Nat.add_assoc]

theorem recalls_concat (capacity : Nat) (texts : List String) (s : String) :
    recalls capacity [] (texts ++ [s]) = recalls capacity [] texts + if Recalled capacity texts s then 1 else 0 := by
  rw [recalls_append]
  simp [recalls]

/-! ## A cache after requests -/

namespace SelectorCache

variable {c : SelectorCache} {s : String}

theorem resolve_of_find? {found : Resolved} (h : c.entries.find? s = some found) :
    c.resolve s = (found, ⟨(c.entries.get s).2, c.hits + 1, c.misses, c.readings⟩) := by
  rw [resolve, lookup?, RecencyCache.get_of_find? h]

theorem resolve_of_find?_eq_none (h : c.entries.find? s = none) :
    c.resolve s = read ⟨c.entries, c.hits, c.misses + 1, c.readings⟩ s := by
  rw [resolve, lookup?, RecencyCache.get_of_find?_eq_none h]

end SelectorCache

/-- A cache after these requests since it was last cleared, the earliest first. -/
structure SelectorCache.After (c : SelectorCache) (capacity : Nat) (texts : List String) : Prop where
  holds : ∃ events, c.entries.Holds capacity events ∧ CacheEvent.uses events = texts.reverse
  hits_eq : c.hits = recalls capacity [] texts
  hits_add_misses : c.hits + c.misses = texts.length

namespace SelectorCache.After

variable {c : SelectorCache} {capacity : Nat} {texts : List String} {s : String}

theorem ofCapacity (requested : Nat) : (SelectorCache.ofCapacity requested).After (max requested 1) [] :=
  ⟨⟨[], ⟨rfl, List.take_nil.symm, nofun⟩, rfl⟩, rfl, rfl⟩

theorem contains_iff (h : c.After capacity texts) : c.contains s = true ↔ Recalled capacity texts s := by
  obtain ⟨events, hholds, huses⟩ := h.holds
  rw [SelectorCache.contains, hholds.contains_iff, CacheEvent.recent, huses, CacheEvent.mem_take_distinct_iff, Recalled,
    List.mem_reverse]

theorem size_eq (h : c.After capacity texts) : c.size = min capacity texts.toFinset.card := by
  obtain ⟨events, hholds, huses⟩ := h.holds
  rw [SelectorCache.size, hholds.size_eq, List.length_take, CacheEvent.recent, huses, CacheEvent.length_distinct,
    List.toFinset_reverse]

theorem clear (h : c.After capacity texts) : c.clear.After capacity [] := by
  obtain ⟨events, hholds, -⟩ := h.holds
  refine ⟨⟨_, hholds.clear, ?_⟩, rfl, rfl⟩
  rw [CacheEvent.uses_concat]
  rfl

/-- One request more. -/
theorem resolve (h : c.After capacity texts) (hpos : 0 < capacity) (s : String) :
    (c.resolve s).2.After capacity (texts ++ [s]) := by
  obtain ⟨events, hholds, huses⟩ := h.holds
  have hcontains := h.contains_iff (s := s)
  have htotal := h.hits_add_misses
  have hlength : (texts ++ [s]).length = texts.length + 1 := List.length_append
  have hreverse : (texts ++ [s]).reverse = s :: texts.reverse := List.reverse_append
  rw [SelectorCache.contains, RecencyCache.contains] at hcontains
  cases hfind : c.entries.find? s with
  | some found =>
    have hrecalled := hcontains.1 (by rw [hfind]; rfl)
    have hget := hholds.get hpos s
    have hanswer : (c.entries.get s).1 = some found := by rw [RecencyCache.get_of_find? hfind]
    rw [hanswer] at hget
    rw [SelectorCache.resolve_of_find? hfind]
    refine ⟨⟨_, hget, ?_⟩, ?_, ?_⟩
    · rw [CacheEvent.uses_concat, huses, hreverse]
      rfl
    · rw [recalls_concat, if_pos hrecalled, ← h.hits_eq]
    · show c.hits + 1 + c.misses = _
      omega
  | none =>
    have hforgotten := mt hcontains.2 (by rw [hfind]; exact Bool.false_ne_true)
    rw [SelectorCache.resolve_of_find?_eq_none hfind]
    refine ⟨⟨_, hholds.insert hpos s ⟨c.readings, SelectorList.parse s⟩, ?_⟩, ?_, ?_⟩
    · rw [CacheEvent.uses_concat, huses, hreverse]
      rfl
    · rw [recalls_concat, if_neg hforgotten, ← h.hits_eq]
      rfl
    · show c.hits + (c.misses + 1) = _
      omega

theorem resolveAll (h : c.After capacity texts) (hpos : 0 < capacity) (later : List String) :
    (c.resolveAll later).After capacity (texts ++ later) := by
  induction later generalizing c texts with
  | nil => rwa [List.append_nil]
  | cons s later ih =>
    have hlater := ih (h.resolve hpos s)
    rwa [List.append_assoc] at hlater

end SelectorCache.After

/-! ## Calls -/

namespace Call

/-- The texts requested since the cache was last cleared, after one call more. -/
def requestedAfter (texts : List String) : Call → List String
  | clear => []
  | call => texts ++ call.requests

/-- The texts that calls request since the last time that they clear the cache, the earliest first. -/
def requested (calls : List Call) : List String := calls.foldl requestedAfter []

end Call

namespace SelectorCache.After

variable {c : SelectorCache} {capacity : Nat} {texts : List String}

theorem run (h : c.After capacity texts) (hpos : 0 < capacity) (call : Call) :
    (c.run call).After capacity (Call.requestedAfter texts call) := by
  cases call with
  | clear => exact h.clear
  | resolve s => exact h.resolveAll hpos _
  | test t n s => exact h.resolveAll hpos _
  | holds s => exact h.resolveAll hpos _

theorem foldl (h : c.After capacity texts) (hpos : 0 < capacity) (calls : List Call) :
    (c.runAll calls).After capacity (calls.foldl Call.requestedAfter texts) := by
  induction calls generalizing c texts with
  | nil => exact h
  | cons call calls ih => exact ih (h.run hpos call)

/-- A cache after calls, from the start. -/
theorem runAll (requested : Nat) (calls : List Call) :
    ((SelectorCache.ofCapacity requested).runAll calls).After (max requested 1) (Call.requested calls) :=
  (ofCapacity requested).foldl (by omega) calls

end SelectorCache.After

/-! ## Caches on a table -/

/-- A cache of selectors on a table: the table, the requests that it could and could not answer since it was last
cleared, and all readings there ever were. -/
structure CacheOn (T : RecencyTable String Resolved) where
  table : T.State
  hits : Nat
  misses : Nat
  readings : Nat

namespace CacheOn

variable {T : RecencyTable String Resolved}

/-- The empty cache of a capacity, which is one at least. -/
def create (T : RecencyTable String Resolved) (requested : Nat) : CacheOn T := ⟨T.create requested, 0, 0, 0⟩

/-- The selector list of a text, from the table if it is there. -/
def resolve (k : CacheOn T) (s : String) : Resolved × CacheOn T :=
  match T.get k.table s with
  | (some found, table) => (found, ⟨table, k.hits + 1, k.misses, k.readings⟩)
  | (none, table) =>
    let resolved : Resolved := ⟨k.readings, SelectorList.parse s⟩
    (resolved, ⟨(T.insert table s resolved).2, k.hits, k.misses + 1, k.readings + 1⟩)

def resolveAll (k : CacheOn T) (texts : List String) : CacheOn T := texts.foldl (fun k s => (k.resolve s).2) k

def clear (k : CacheOn T) : CacheOn T := ⟨T.clear k.table, 0, 0, k.readings⟩

/-- What a call does: its requests one after the other, or the clearing. -/
def run (k : CacheOn T) : Call → CacheOn T
  | .clear => k.clear
  | call => k.resolveAll call.requests

def runAll (k : CacheOn T) (calls : List Call) : CacheOn T := calls.foldl run k

/-- What can be seen of a cache. -/
def view (k : CacheOn T) : SelectorCache := ⟨T.view k.table, k.hits, k.misses, k.readings⟩

section
variable (hT : T.Documented) (k : CacheOn T)
include hT

theorem view_create (requested : Nat) : (create T requested).view = .ofCapacity requested := by
  rw [view, create, RecencyTable.view_create hT]
  rfl

theorem resolve_eq (s : String) :
    (k.resolve s).1 = (k.view.resolve s).1 ∧ (k.resolve s).2.view = (k.view.resolve s).2 := by
  obtain ⟨hanswer, hview⟩ := RecencyTable.get_eq hT k.table s
  rw [resolve]
  cases hfind : (T.view k.table).find? s with
  | some found =>
    have hresolve : k.view.resolve s = _ := SelectorCache.resolve_of_find? hfind
    rw [hresolve]
    rw [RecencyCache.get_of_find? hfind] at hanswer
    split
    · rename_i value table hget
      rw [hget] at hanswer hview
      obtain rfl := Option.some.inj hanswer
      exact ⟨rfl, by rw [view, hview]; rfl⟩
    · rename_i table hget
      rw [hget] at hanswer
      cases hanswer
  | none =>
    have hresolve : k.view.resolve s = _ := SelectorCache.resolve_of_find?_eq_none hfind
    rw [hresolve]
    rw [RecencyCache.get_of_find?_eq_none hfind] at hanswer hview
    split
    · rename_i value table hget
      rw [hget] at hanswer
      cases hanswer
    · rename_i table hget
      rw [hget] at hview
      refine ⟨rfl, ?_⟩
      have hinsert := (RecencyTable.insert_eq hT table s ⟨k.readings, SelectorList.parse s⟩).2
      rw [hview] at hinsert
      rw [view, hinsert]
      rfl

theorem view_resolveAll (texts : List String) : (k.resolveAll texts).view = k.view.resolveAll texts := by
  induction texts generalizing k with
  | nil => rfl
  | cons s texts ih =>
    show ((k.resolve s).2.resolveAll texts).view = (k.view.resolve s).2.resolveAll texts
    rw [ih, (resolve_eq hT k s).2]

theorem view_run (call : Call) : (k.run call).view = k.view.run call := by
  cases call with
  | clear =>
    show CacheOn.view ⟨T.clear k.table, 0, 0, k.readings⟩ = k.view.clear
    rw [view, RecencyTable.view_eq (hT.capacity_kept k.table).1 (hT.clear k.table)]
    rfl
  | resolve s => exact view_resolveAll hT k _
  | test t n s => exact view_resolveAll hT k _
  | holds s => exact view_resolveAll hT k _

/-- Calls do to a cache on a table what they do to the one on a list of entries. -/
theorem view_runAll (calls : List Call) : (k.runAll calls).view = k.view.runAll calls := by
  induction calls generalizing k with
  | nil => rfl
  | cons call calls ih =>
    show ((k.run call).runAll calls).view = (k.view.run call).runAll calls
    rw [ih, view_run hT]

end

/-! ## What can be foretold -/

/-- How a cache on a table stands after calls, by their requests since it was last cleared. -/
structure Foretold (k : CacheOn T) (capacity : Nat) (texts : List String) : Prop where
  /-- The next request for a text is answered from the table just where the text is recalled; -/
  hit_iff : ∀ s, (k.resolve s).2.hits = k.hits + 1 ↔ Recalled capacity texts s
  /-- otherwise it is read, which is counted as well. -/
  miss_iff : ∀ s, (k.resolve s).2.misses = k.misses + 1 ↔ ¬ Recalled capacity texts s
  holds_iff : ∀ s, T.contains k.table s = true ↔ Recalled capacity texts s
  hits_eq : k.hits = recalls capacity [] texts
  hits_add_misses : k.hits + k.misses = texts.length
  entries_eq : (T.entries k.table).length = min capacity texts.toFinset.card

/-- A request counts as a hit where the table has the text, and else as a miss. -/
theorem resolve_counts (k : CacheOn T) (s : String) :
    ((T.get k.table s).1.isSome = true → (k.resolve s).2.hits = k.hits + 1 ∧ (k.resolve s).2.misses = k.misses) ∧
    (¬ (T.get k.table s).1.isSome = true → (k.resolve s).2.hits = k.hits ∧ (k.resolve s).2.misses = k.misses + 1) := by
  rw [resolve]
  split
  · rename_i found table hget
    rw [hget]
    exact ⟨fun _ => ⟨rfl, rfl⟩, fun hnone => absurd rfl hnone⟩
  · rename_i table hget
    rw [hget]
    exact ⟨nofun, fun _ => ⟨rfl, rfl⟩⟩

theorem foretold_of_after (hT : T.Documented) {k : CacheOn T} {capacity : Nat} {texts : List String}
    (h : k.view.After capacity texts) : k.Foretold capacity texts := by
  have hcontains : ∀ s, T.contains k.table s = k.view.contains s := hT.contains k.table
  have hget : ∀ s, (T.get k.table s).1.isSome = true ↔ Recalled capacity texts s := by
    intro s
    have hfind : ((T.view k.table).get s).1 = (T.view k.table).find? s := by
      unfold RecencyCache.get
      split <;> simp_all
    rw [(RecencyTable.get_eq hT k.table s).1, hfind, ← h.contains_iff]
    rfl
  have hhit : ∀ s, Recalled capacity texts s →
      (k.resolve s).2.hits = k.hits + 1 ∧ (k.resolve s).2.misses = k.misses := fun s hs =>
    (k.resolve_counts s).1 ((hget s).2 hs)
  have hmiss : ∀ s, ¬ Recalled capacity texts s →
      (k.resolve s).2.hits = k.hits ∧ (k.resolve s).2.misses = k.misses + 1 := fun s hs =>
    (k.resolve_counts s).2 (mt (hget s).1 hs)
  constructor
  · intro s
    by_cases hs : Recalled capacity texts s
    · exact iff_of_true (hhit s hs).1 hs
    · have := (hmiss s hs).1
      exact iff_of_false (by omega) hs
  · intro s
    by_cases hs : Recalled capacity texts s
    · have := (hhit s hs).2
      exact iff_of_false (by omega) (not_not_intro hs)
    · exact iff_of_true (hmiss s hs).2 hs
  · intro s
    rw [hcontains, h.contains_iff]
  · exact h.hits_eq
  · exact h.hits_add_misses
  · exact h.size_eq

/-- **The hits of a cache of selectors are settled by the requests.** A request is a hit just where the text was
requested before, and since then fewer other texts than the cache may hold; and the cache that matches run in is that
cache. With the same calls a larger cache holds what a smaller one holds, and hits no less often. -/
theorem foretold_runAll (hT : T.Documented) (requested : Nat) (warnings : Warnings) (calls : List Call) :
    ((create T requested).runAll calls).Foretold (max requested 1) (Call.requested calls) ∧
    ((Call.runAll calls).run ⟨.ofCapacity requested, warnings⟩).2.cache = ((create T requested).runAll calls).view ∧
    (∀ larger, max requested 1 ≤ max larger 1 →
      (∀ s, T.contains ((create T requested).runAll calls).table s = true →
        T.contains ((create T larger).runAll calls).table s = true) ∧
      ((create T requested).runAll calls).hits ≤ ((create T larger).runAll calls).hits) ∧
    ∀ (t : Tree) (requests : String → NodeId → List String), t.RequestsAfresh requests ↔ requests = t.requests := by
  have hview : ∀ capacity, ((create T capacity).runAll calls).view = (SelectorCache.ofCapacity capacity).runAll calls :=
    fun capacity => by rw [view_runAll hT, view_create hT]
  have hforetold : ∀ capacity, ((create T capacity).runAll calls).Foretold (max capacity 1) (Call.requested calls) :=
    fun capacity => foretold_of_after hT (by rw [hview]; exact .runAll capacity calls)
  refine ⟨hforetold requested, ?_, fun larger hle => ⟨fun s hs => ?_, ?_⟩, fun _ _ => Tree.requestsAfresh_iff⟩
  · rw [hview]
    have hsound : Session.Sound ⟨.ofCapacity requested, warnings⟩ := SelectorCache.sound_ofCapacity requested
    exact Call.cache_runAll hsound calls
  · rw [(hforetold larger).holds_iff]
    exact (((hforetold requested).holds_iff s).1 hs).mono hle
  · rw [(hforetold requested).hits_eq, (hforetold larger).hits_eq]
    exact recalls_le hle [] _

/-- A match of a text with another one inside, between requests, with room for two. -/
theorem foretold_runAll_pair : ∃ (T : RecencyTable String Resolved) (calls : List Call), T.Documented ∧
    calls = [.resolve "b", .test (Tree.empty.alloc (.element (.bare "p")) none) 1 ":not(b)", .resolve "a",
      .resolve "b"] ∧
    Call.requested calls = ["b", ":not(b)", "b", "a", "b"] ∧
      ((create T 2).runAll calls).hits = 2 ∧ ((create T 2).runAll calls).misses = 3 := by
  obtain ⟨calls, hcalls, hrequested⟩ : ∃ calls, calls = [.resolve "b",
      .test (Tree.empty.alloc (.element (.bare "p")) none) 1 ":not(b)", .resolve "a", .resolve "b"] ∧
      Call.requested calls = ["b", ":not(b)", "b", "a", "b"] := ⟨_, rfl, by decide +kernel⟩
  have hforetold := (foretold_runAll RecencyCache.documented_table 2 .empty calls).1
  have hhits : ((create (RecencyCache.table String Resolved) 2).runAll calls).hits = 2 := by
    rw [hforetold.hits_eq, hrequested]
    decide
  have htotal := hforetold.hits_add_misses
  rw [hrequested, hhits] at htotal
  exact ⟨_, calls, RecencyCache.documented_table, hcalls, hrequested, hhits, Nat.add_left_cancel htotal⟩

end CacheOn

end HtmlQuery
