import HtmlQuery.Proofs.Selector.RecencyTable

/-!
# Which keys a cache holds

What a cache holds after any run can be said of the events of the run alone (`RecencyCache.Holds`): the keys are those
used last (`CacheEvent.recent`), as many as there may be, and each has the value inserted last for it. Every use of a
key brings it to the front (`RecencyCache.Holds.use`), and every call is such a use, or leaves all as it is, or clears
the cache (`RecencyCache.Holds.step`).
-/

namespace HtmlQuery

/-! ## What events say -/

namespace CacheEvent

variable {α β : Type}

/-- The uses of keys after one event more, the latest first. A look-up that finds nothing is no use, nor is asking
whether a key is held. -/
def useAfter (used : List α) : CacheEvent α β → List α
  | got key (some _) => key :: used
  | got _ none => used
  | inserted key _ _ => key :: used
  | asked _ _ => used
  | cleared => []

/-- The uses of keys since the last clearing, the latest first. -/
def uses (events : List (CacheEvent α β)) : List α := events.foldl useAfter []

variable [BEq α]

/-- The keys of a list without one of them. -/
def others (key : α) (keys : List α) : List α := keys.filter fun other => !(other == key)

/-- Each key once, where it comes first. -/
def distinct : List α → List α
  | [] => []
  | key :: keys => key :: others key (distinct keys)

/-- The keys that were used since the last clearing, in the order of their latest uses. -/
def recent (events : List (CacheEvent α β)) : List α := distinct (uses events)

def valueAfter (key : α) (value : Option β) : CacheEvent α β → Option β
  | inserted other v _ => if other == key then some v else value
  | _ => value

/-- The value that was inserted last for a key. -/
def lastInserted (events : List (CacheEvent α β)) (key : α) : Option β := events.foldl (valueAfter key) none

/-- A look-up that found nothing, or the question whether a key is held. -/
def isIdle : CacheEvent α β → Bool
  | got _ none => true
  | asked _ _ => true
  | _ => false

end CacheEvent

/-! ## Keys in the order of their latest uses -/

namespace CacheEvent

variable {α β : Type} {key : α} {keys : List α} {n m : Nat}

theorem uses_concat (events : List (CacheEvent α β)) (event : CacheEvent α β) :
    uses (events ++ [event]) = useAfter (uses events) event := by
  rw [uses, List.foldl_append]
  rfl

/-- The part of a list before the last of its first so many. -/
theorem dropLast_take_of_le (h : n ≤ keys.length) : (keys.take n).dropLast = keys.take (n - 1) := by
  rw [List.dropLast_eq_take, List.take_take, List.length_take]
  congr 1
  omega

variable [BEq α]

theorem lastInserted_concat (events : List (CacheEvent α β)) (event : CacheEvent α β) (key : α) :
    lastInserted (events ++ [event]) key = valueAfter key (lastInserted events key) event := by
  rw [lastInserted, List.foldl_append]
  rfl

/-- A use of a key moves it to the front. -/
theorem recent_concat_of_use {event : CacheEvent α β} (huse : ∀ used, useAfter used event = key :: used)
    (events : List (CacheEvent α β)) :
    recent (events ++ [event]) = key :: others key (recent events) := by
  rw [recent, uses_concat, huse]
  rfl

variable [LawfulBEq α]

@[simp] theorem mem_others {other : α} : other ∈ others key keys ↔ other ∈ keys ∧ other ≠ key := by
  simp [others]

theorem others_cons_self (key : α) (keys : List α) : others key (key :: keys) = others key keys :=
  List.filter_cons_of_neg (by simp)

theorem others_cons_of_ne {other : α} (h : other ≠ key) : others key (other :: keys) = other :: others key keys :=
  List.filter_cons_of_pos (by simpa using h)

theorem others_of_not_mem (h : key ∉ keys) : others key keys = keys :=
  List.filter_eq_self.2 fun _ hother => by simpa using ne_of_mem_of_not_mem hother h

theorem nodup_distinct (keys : List α) : (distinct keys).Nodup := by
  induction keys with
  | nil => exact .nil
  | cons key keys ih =>
    rw [distinct, List.nodup_cons]
    exact ⟨by simp, ih.filter _⟩

/-- Taking a key away from behind the part that is looked at does not show. -/
theorem take_others_of_not_mem (h : key ∉ keys.take n) (hm : m ≤ n) :
    (others key keys).take m = keys.take m := by
  induction keys generalizing n m with
  | nil => rfl
  | cons other keys ih =>
    cases m with
    | zero => rfl
    | succ m =>
      cases n with
      | zero => omega
      | succ n =>
        rw [List.take_succ_cons, List.mem_cons, not_or] at h
        rw [others_cons_of_ne (Ne.symm h.1), List.take_succ_cons, List.take_succ_cons, ih h.2 (by omega)]

/-- Taking a key away from the part that is looked at makes room for one more. -/
theorem take_others_of_mem (hnodup : keys.Nodup) (h : key ∈ keys.take n) :
    (others key keys).take (n - 1) = others key (keys.take n) := by
  induction keys generalizing n with
  | nil => simp at h
  | cons other keys ih =>
    cases n with
    | zero => simp at h
    | succ n =>
      obtain ⟨hother, hkeys⟩ := List.nodup_cons.1 hnodup
      rw [List.take_succ_cons] at h ⊢
      by_cases hkey : other = key
      · subst hkey
        have hnot : other ∉ keys.take n := fun hmem => hother (List.mem_of_mem_take hmem)
        rw [others_cons_self, others_cons_self, Nat.add_sub_cancel, take_others_of_not_mem hnot (Nat.le_refl n),
          others_of_not_mem hnot]
      · have hmem : key ∈ keys.take n := (List.mem_cons.1 h).resolve_left (Ne.symm hkey)
        obtain ⟨n, rfl⟩ : ∃ k, n = k + 1 := by
          cases n with
          | zero => simp at hmem
          | succ n => exact ⟨n, rfl⟩
        have htake := ih hkeys hmem
        rw [Nat.add_sub_cancel] at htake ⊢
        rw [others_cons_of_ne hkey, others_cons_of_ne hkey, List.take_succ_cons, htake]

end CacheEvent

/-! ## What is held after a run -/

namespace RecencyCache

open CacheEvent

variable {α β : Type} [BEq α] {c : RecencyCache α β} {capacity : Nat} {events : List (CacheEvent α β)} {key : α}
  {value : β}

/-- A cache after these events holds the keys used last, as many as it may hold, in the order of use, and for each of
them the value inserted last. -/
structure Holds (c : RecencyCache α β) (capacity : Nat) (events : List (CacheEvent α β)) : Prop where
  capacity_eq : c.capacity = capacity
  keys : c.entries.map Prod.fst = (recent events).take capacity
  values : ∀ entry ∈ c.entries, lastInserted events entry.1 = some entry.2

theorem map_fst_without (entries : List (α × β)) :
    (without key entries).map Prod.fst = others key (entries.map Prod.fst) := by
  rw [without, others, List.filter_map]
  rfl

theorem step_of_isIdle {call : CacheCall α β} (h : ((table α β).step c call).1.isIdle = true) :
    ((table α β).step c call).2 = c := by
  cases call with
  | get key =>
    show (c.get key).2 = c
    have hmissing : (CacheEvent.got key (c.get key).1).isIdle = true := h
    cases hfind : c.find? key with
    | none => rw [get_of_find?_eq_none hfind]
    | some value =>
      rw [get_of_find? hfind] at hmissing
      cases hmissing
  | contains key => rfl
  | insert key value => cases h
  | clear => cases h

namespace Holds

theorem size_eq (h : c.Holds capacity events) : c.size = ((recent events).take capacity).length := by
  rw [← h.keys, List.length_map, size]

/-- An event that is no use of a key and inserts nothing changes nothing. -/
theorem of_idle (h : c.Holds capacity events) {event : CacheEvent α β} (hevent : event.isIdle = true) :
    c.Holds capacity (events ++ [event]) := by
  have huses : uses (events ++ [event]) = uses events := by
    rw [uses_concat]
    cases event with
    | got key answer => cases answer with
      | none => rfl
      | some value => cases hevent
    | asked key held => rfl
    | inserted key value evicted => cases hevent
    | cleared => cases hevent
  have hvalues : ∀ key, lastInserted (events ++ [event]) key = lastInserted events key := by
    intro key
    rw [lastInserted_concat]
    cases event with
    | inserted key value evicted => cases hevent
    | _ => rfl
  refine ⟨h.capacity_eq, ?_, ?_⟩
  · rw [recent, huses]
    exact h.keys
  · intro entry hentry
    rw [hvalues]
    exact h.values entry hentry

theorem clear (h : c.Holds capacity events) : c.clear.Holds capacity (events ++ [.cleared]) := by
  refine ⟨h.capacity_eq, ?_, by simp [RecencyCache.clear]⟩
  rw [recent, uses_concat]
  simp [RecencyCache.clear, useAfter, distinct]

theorem insert_isSome_iff (h : c.Holds capacity events) (hpos : 0 < capacity) :
    (c.insert key value).1.isSome = true ↔ c.contains key = false ∧ c.entries.length = capacity := by
  have hle : c.entries.length ≤ capacity := by
    have := h.size_eq
    rw [size, List.length_take] at this
    omega
  unfold RecencyCache.insert
  split
  · rename_i hheld
    simp [hheld]
  · rename_i hmissing
    rw [Bool.not_eq_true] at hmissing
    split
    · rename_i hroom
      rw [h.capacity_eq, size] at hroom
      simp [Nat.ne_of_lt hroom]
    · rename_i hfull
      rw [h.capacity_eq, size] at hfull
      have hlength : c.entries.length = capacity := by omega
      have hne : c.entries ≠ [] := by
        intro hnil
        rw [hnil, List.length_nil] at hlength
        omega
      simp [hmissing, hlength, List.getLast?_eq_some_getLast hne]

theorem insert_eq_some {entry : α × β} (h : c.Holds capacity events) (hinsert : (c.insert key value).1 = some entry) :
    ((recent events).take capacity).getLast? = some entry.1 ∧ lastInserted events entry.1 = some entry.2 := by
  have hlast : c.entries.getLast? = some entry := by
    unfold RecencyCache.insert at hinsert
    split at hinsert
    · cases hinsert
    · split at hinsert
      · cases hinsert
      · exact hinsert
  rw [← h.keys, List.getLast?_map, hlast]
  exact ⟨rfl, h.values entry (List.mem_of_getLast? hlast)⟩

end Holds

variable [LawfulBEq α]

theorem contains_iff_mem_keys : c.contains key = true ↔ key ∈ c.entries.map Prod.fst := by
  constructor
  · intro hheld
    obtain ⟨value, hfind⟩ := Option.isSome_iff_exists.1 hheld
    exact List.mem_map_of_mem (mem_entries_of_find? hfind)
  · intro hkey
    obtain ⟨entry, hentry, rfl⟩ := List.mem_map.1 hkey
    rw [contains, Option.isSome_iff_ne_none, find?]
    intro hnone
    simpa using List.lookup_eq_none_iff.1 hnone entry hentry

namespace Holds

theorem contains_iff (h : c.Holds capacity events) :
    c.contains key = true ↔ key ∈ (recent events).take capacity := by
  rw [contains_iff_mem_keys, h.keys]

/-- What is found is the value inserted last. -/
theorem find?_eq (h : c.Holds capacity events) (hkey : key ∈ (recent events).take capacity) :
    ∃ value, c.find? key = some value ∧ lastInserted events key = some value := by
  obtain ⟨value, hvalue⟩ := Option.isSome_iff_exists.1 (h.contains_iff.2 hkey)
  exact ⟨value, hvalue, h.values _ (mem_entries_of_find? hvalue)⟩

theorem find?_eq_none (h : c.Holds capacity events) (hkey : key ∉ (recent events).take capacity) :
    c.find? key = none := by
  cases hfind : c.find? key with
  | none => rfl
  | some value => exact absurd (h.contains_iff.1 (Option.isSome_iff_exists.2 ⟨value, hfind⟩)) hkey

/-- The use of a key: its entry is put before what stays of the others. -/
theorem use (h : c.Holds capacity events) (hpos : 0 < capacity) {event : CacheEvent α β}
    (huse : ∀ used, useAfter used event = key :: used) (hvalue : lastInserted (events ++ [event]) key = some value)
    (hothers : ∀ other, other ≠ key → lastInserted (events ++ [event]) other = lastInserted events other)
    {rest : List (α × β)} (hrest : rest ⊆ c.entries)
    (hkeys : rest.map Prod.fst = (others key (recent events)).take (capacity - 1)) :
    Holds ⟨c.capacity, (key, value) :: rest⟩ capacity (events ++ [event]) := by
  refine ⟨h.capacity_eq, ?_, ?_⟩
  · rw [recent_concat_of_use huse, List.take_cons hpos, List.map_cons, hkeys]
  · intro entry hentry
    obtain rfl | hentry := List.mem_cons.1 hentry
    · exact hvalue
    · -- the key itself is not among the others, so their values stand
      have hne : entry.1 ≠ key := by
        have hmem : entry.1 ∈ rest.map Prod.fst := List.mem_map_of_mem hentry
        rw [hkeys] at hmem
        exact (mem_others.1 (List.mem_of_mem_take hmem)).2
      rw [hothers _ hne]
      exact h.values entry (hrest hentry)

theorem keys_without (h : c.Holds capacity events) (hkey : key ∈ (recent events).take capacity) :
    (without key c.entries).map Prod.fst =
      (others key (recent events)).take (capacity - 1) := by
  rw [map_fst_without, h.keys]
  exact (take_others_of_mem (nodup_distinct _) hkey).symm

theorem keys_room (h : c.Holds capacity events) (hkey : key ∉ (recent events).take capacity)
    (hroom : c.size < capacity) :
    c.entries.map Prod.fst = (others key (recent events)).take (capacity - 1) := by
  -- with room left, every key that was ever used is held
  have hlength : (recent events).length < capacity := by
    rw [h.size_eq, List.length_take] at hroom
    omega
  rw [h.keys, take_others_of_not_mem hkey (by omega), List.take_of_length_le (by omega),
    List.take_of_length_le (by omega)]

theorem keys_full (h : c.Holds capacity events) (hkey : key ∉ (recent events).take capacity)
    (hfull : capacity ≤ c.size) :
    c.entries.dropLast.map Prod.fst = (others key (recent events)).take (capacity - 1) := by
  have hlength : capacity ≤ (recent events).length := by
    rw [h.size_eq, List.length_take] at hfull
    omega
  rw [List.map_dropLast, h.keys, take_others_of_not_mem hkey (by omega), dropLast_take_of_le hlength]

theorem get (h : c.Holds capacity events) (hpos : 0 < capacity) (key : α) :
    (c.get key).2.Holds capacity (events ++ [.got key (c.get key).1]) := by
  by_cases hkey : key ∈ (recent events).take capacity
  · obtain ⟨value, hfind, hlast⟩ := h.find?_eq hkey
    rw [get_of_find? hfind]
    have hvalue : ∀ other, lastInserted (events ++ [.got key (some value)]) other = lastInserted events other :=
      fun other => lastInserted_concat events _ other
    exact h.use hpos (fun _ => rfl) ((hvalue key).trans hlast) (fun other _ => hvalue other)
      (without_subset _ _) (h.keys_without hkey)
  · rw [get_of_find?_eq_none (h.find?_eq_none hkey)]
    exact h.of_idle rfl

theorem insert (h : c.Holds capacity events) (hpos : 0 < capacity) (key : α) (value : β) :
    (c.insert key value).2.Holds capacity (events ++ [.inserted key value (c.insert key value).1]) := by
  have huse : ∀ evicted used, useAfter used (.inserted key value evicted) = key :: used := fun _ _ => rfl
  have hvalue : ∀ evicted, lastInserted (events ++ [.inserted key value evicted]) key = some value := by
    intro evicted
    rw [lastInserted_concat]
    simp [valueAfter]
  have hothers : ∀ evicted other, other ≠ key →
      lastInserted (events ++ [.inserted key value evicted]) other = lastInserted events other := by
    intro evicted other hother
    rw [lastInserted_concat]
    simp [valueAfter, Ne.symm hother]
  unfold RecencyCache.insert
  split
  · rename_i hheld
    exact h.use hpos (huse _) (hvalue _) (hothers _) (without_subset _ _)
      (h.keys_without (h.contains_iff.1 hheld))
  · rename_i hmissing
    have hkey : key ∉ (recent events).take capacity := fun hmem => hmissing (h.contains_iff.2 hmem)
    split
    · rename_i hroom
      rw [h.capacity_eq] at hroom
      exact h.use hpos (huse _) (hvalue _) (hothers _) (List.Subset.refl _) (h.keys_room hkey hroom)
    · rename_i hfull
      rw [h.capacity_eq, Nat.not_lt] at hfull
      exact h.use hpos (huse _) (hvalue _) (hothers _) (List.dropLast_subset _) (h.keys_full hkey hfull)

/-- Every call keeps to it. -/
theorem step (h : c.Holds capacity events) (hpos : 0 < capacity) (call : CacheCall α β) :
    Holds ((table α β).step c call).2 capacity (events ++ [((table α β).step c call).1]) := by
  cases call with
  | get key => exact h.get hpos key
  | insert key value => exact h.insert hpos key value
  | contains key => exact h.of_idle rfl
  | clear => exact h.clear

/-- So does a run of calls. -/
theorem runAll (h : c.Holds capacity events) (hpos : 0 < capacity) (calls : List (CacheCall α β)) :
    Holds ((table α β).runAll c calls).2 capacity (events ++ ((table α β).runAll c calls).1) := by
  induction calls generalizing c events with
  | nil =>
    show c.Holds capacity (events ++ [])
    rw [List.append_nil]
    exact h
  | cons call calls ih =>
    have := ih (h.step hpos call)
    rw [List.append_assoc] at this
    exact this

end Holds

/-- A run from the start. -/
theorem holds_ofCapacity (requested : Nat) (calls : List (CacheCall α β)) :
    Holds ((table α β).runAll (ofCapacity requested) calls).2 (max requested 1)
      ((table α β).runAll (ofCapacity requested) calls).1 := by
  have hnew : Holds (ofCapacity requested : RecencyCache α β) (max requested 1) [] :=
    ⟨rfl, by simp [ofCapacity, recent, uses, distinct], by simp [ofCapacity]⟩
  exact hnew.runAll (by omega) calls

end RecencyCache

/-! ## Every table follows the use of its keys -/

namespace RecencyTable

open CacheEvent

variable {α β : Type} [BEq α]

/-- How a table that may hold so many keys stands after these events. -/
structure FollowsUse (T : RecencyTable α β) (capacity : Nat) (events : List (CacheEvent α β)) (s : T.State) :
    Prop where
  /-- The keys that are held are those used last, and there are no others. -/
  keys_eq : (T.entries s).map Prod.fst = (recent events).take capacity
  contains_iff : ∀ key, T.contains s key = true ↔ key ∈ (recent events).take capacity
  keys_nodup : ((recent events).take capacity).Nodup
  length_le : (T.entries s).length ≤ capacity
  /-- Each of them has the value inserted last for it. -/
  get_held : ∀ key, T.contains s key = true →
    ∃ value, (T.get s key).1 = some value ∧ lastInserted events key = some value
  get_missing : ∀ key, T.contains s key = false → (T.get s key).1 = none
  /-- An entry has to go when another key comes and there is no room, and only then; -/
  insert_isSome_iff : ∀ key value, (T.insert s key value).1.isSome = true ↔
    T.contains s key = false ∧ (T.entries s).length = capacity
  /-- it is that of the key used longest ago. -/
  insert_eq_some : ∀ key value entry, (T.insert s key value).1 = some entry →
    ((recent events).take capacity).getLast? = some entry.1 ∧ lastInserted events entry.1 = some entry.2
  /-- To ask whether a key is held and to look for one that is not changes nothing: nothing that can be seen, and no
  answer given later. -/
  idle : ∀ call, (T.step s call).1.isIdle = true →
    T.capacity (T.step s call).2 = T.capacity s ∧ T.entries (T.step s call).2 = T.entries s ∧
      ∀ calls, (T.runAll (T.step s call).2 calls).1 = (T.runAll s calls).1

variable [LawfulBEq α] {T : RecencyTable α β}

theorem followsUse_of_holds (hT : T.Documented) {s : T.State} {capacity : Nat} {events : List (CacheEvent α β)}
    (hpos : 0 < capacity) (h : (T.view s).Holds capacity events) : FollowsUse T capacity events s := by
  have hcontains : ∀ key, T.contains s key = (T.view s).contains key := hT.contains s
  have hlength : (T.entries s).length = ((recent events).take capacity).length := h.size_eq
  refine ⟨h.keys, ?_, (nodup_distinct _).sublist (List.take_sublist _ _), ?_, ?_, ?_, ?_, ?_, ?_⟩
  · intro key
    rw [hcontains]
    exact h.contains_iff
  · rw [hlength, List.length_take]
    omega
  · intro key hheld
    rw [hcontains] at hheld
    obtain ⟨value, hfind, hlast⟩ := h.find?_eq (h.contains_iff.1 hheld)
    refine ⟨value, ?_, hlast⟩
    rw [(get_eq hT s key).1, RecencyCache.get_of_find? hfind]
  · intro key hmissing
    rw [hcontains, RecencyCache.contains, Option.isSome_eq_false_iff, Option.isNone_iff_eq_none] at hmissing
    rw [(get_eq hT s key).1, RecencyCache.get_of_find?_eq_none hmissing]
  · intro key value
    rw [(insert_eq hT s key value).1, hcontains]
    exact h.insert_isSome_iff hpos
  · intro key value entry hinsert
    rw [(insert_eq hT s key value).1] at hinsert
    exact h.insert_eq_some hinsert
  · intro call hidle
    obtain ⟨hevent, hview⟩ := step_eq hT s call
    rw [hevent] at hidle
    rw [RecencyCache.step_of_isIdle hidle] at hview
    refine ⟨congrArg RecencyCache.capacity hview, congrArg RecencyCache.entries hview, fun calls => ?_⟩
    rw [(runAll_eq hT _ calls).1, (runAll_eq hT s calls).1, hview]

/-- Every run of calls over a table is answered as `RecencyCache` answers it. After it the keys that are held are
those used last, with the values inserted last, and an entry that has to go is the one used longest ago. -/
theorem followsUse_runAll (hT : T.Documented) (requested : Nat) (calls : List (CacheCall α β)) :
    (T.runAll (T.create requested) calls).1 =
        ((RecencyCache.table α β).runAll (RecencyCache.ofCapacity requested) calls).1 ∧
      FollowsUse T (max requested 1) (T.runAll (T.create requested) calls).1
        (T.runAll (T.create requested) calls).2 := by
  obtain ⟨hevents, hview⟩ := runAll_eq hT (T.create requested) calls
  rw [view_create hT] at hevents hview
  refine ⟨hevents, followsUse_of_holds hT (by omega) ?_⟩
  rw [hevents, hview]
  exact RecencyCache.holds_ofCapacity requested calls

/-- A key that was looked up stays when another one has to go. -/
theorem followsUse_runAll_evicting : (RecencyCache.table Char Nat).Documented ∧
    ∃ run, run = (RecencyCache.table Char Nat).runAll ((RecencyCache.table Char Nat).create 2)
        [.insert 'a' 1, .insert 'b' 2, .get 'a', .insert 'c' 3] ∧
      run.1 = [.inserted 'a' 1 none, .inserted 'b' 2 none, .got 'a' (some 1), .inserted 'c' 3 (some ('b', 2))] ∧
      FollowsUse (RecencyCache.table Char Nat) (max 2 1) run.1 run.2 :=
  ⟨RecencyCache.documented_table, _, rfl, by decide, (followsUse_runAll RecencyCache.documented_table 2 _).2⟩

end RecencyTable

end HtmlQuery
