import HtmlQuery.Selector.RecencyCache

/-!
# Tables in order of use

A cache of bounded size stands on a table that keeps its entries in the order of use. The table is a parameter here:
`RecencyTable` has its operations, and `RecencyTable.Documented` says what each of them promises. Whatever the table
is, the cache answers as `RecencyCache` does with the entries that can be seen (`RecencyTable.step_eq`,
`RecencyTable.runAll_eq`).
-/

namespace HtmlQuery

/-! ## Calls and what comes of them -/

/-- What is asked of a cache. -/
inductive CacheCall (α β : Type) where
  | get (key : α)
  | insert (key : α) (value : β)
  | contains (key : α)
  | clear

/-- A call together with its answer. -/
inductive CacheEvent (α β : Type) where
  | got (key : α) (answer : Option β)
  | inserted (key : α) (value : β) (evicted : Option (α × β))
  | asked (key : α) (held : Bool)
  | cleared
  deriving DecidableEq

/-! ## Tables in order of use -/

/-- The operations of a table of bounded size that keeps its entries in order of use, the one used last in front. -/
structure RecencyTable (α β : Type) where
  State : Type
  ofCapacity : Nat → State
  capacity : State → Nat
  entries : State → List (α × β)
  contains : State → α → Bool
  get : State → α → Option β × State
  put : State → α → β → Option β × State
  push : State → α → β → Option (α × β) × State
  clear : State → State

namespace RecencyTable

open RecencyCache (without)

variable {α β : Type} (T : RecencyTable α β)

/-- The cache of a capacity, which is one at least. -/
def create (capacity : Nat) : T.State := T.ofCapacity (max capacity 1)

/-- Gives a key a value; answers the entry that had to go for it, if one had to. A key that is held is put there anew,
and any other one is pushed. -/
def insert (s : T.State) (key : α) (value : β) : Option (α × β) × T.State :=
  if T.contains s key then (none, (T.put s key value).2) else T.push s key value

/-- Makes a call. -/
def step (s : T.State) : CacheCall α β → CacheEvent α β × T.State
  | .get key => (.got key (T.get s key).1, (T.get s key).2)
  | .insert key value => (.inserted key value (T.insert s key value).1, (T.insert s key value).2)
  | .contains key => (.asked key (T.contains s key), s)
  | .clear => (.cleared, T.clear s)

/-- Makes calls one after the other. -/
def runAll (s : T.State) : List (CacheCall α β) → List (CacheEvent α β) × T.State
  | [] => ([], s)
  | call :: calls =>
    let later := runAll (T.step s call).2 calls
    ((T.step s call).1 :: later.1, later.2)

/-- What the operations of a table promise. -/
structure Documented [BEq α] : Prop where
  /-- A new table holds so many entries at most, and none yet. -/
  ofCapacity : ∀ capacity, 0 < capacity →
    T.capacity (T.ofCapacity capacity) = capacity ∧ T.entries (T.ofCapacity capacity) = []
  /-- Whether an entry has the key. Nothing is moved. -/
  contains : ∀ s key, T.contains s key = ((T.entries s).lookup key).isSome
  /-- The value of a key that is there; its entry is moved to the front. -/
  get_held : ∀ s key value, (T.entries s).lookup key = some value →
    (T.get s key).1 = some value ∧ T.entries (T.get s key).2 = (key, value) :: without key (T.entries s)
  get_missing : ∀ s key, (T.entries s).lookup key = none →
    (T.get s key).1 = none ∧ T.entries (T.get s key).2 = T.entries s
  /-- A key that is there gets a new value, in front. -/
  put_held : ∀ s key value, ((T.entries s).lookup key).isSome = true →
    T.entries (T.put s key value).2 = (key, value) :: without key (T.entries s)
  /-- A key that is not there gets an entry in front, -/
  push_room : ∀ s key value, (T.entries s).lookup key = none → (T.entries s).length < T.capacity s →
    (T.push s key value).1 = none ∧ T.entries (T.push s key value).2 = (key, value) :: T.entries s
  /-- and the last entry goes for it if there is no room. -/
  push_full : ∀ s key value, (T.entries s).lookup key = none → T.capacity s ≤ (T.entries s).length →
    (T.push s key value).1 = (T.entries s).getLast? ∧
      T.entries (T.push s key value).2 = (key, value) :: (T.entries s).dropLast
  clear : ∀ s, T.entries (T.clear s) = []
  /-- No operation changes the capacity. -/
  capacity_kept : ∀ s, T.capacity (T.clear s) = T.capacity s ∧ ∀ key, T.capacity (T.get s key).2 = T.capacity s ∧
    ∀ value, T.capacity (T.put s key value).2 = T.capacity s ∧ T.capacity (T.push s key value).2 = T.capacity s

end RecencyTable

/-! ## The table of a cache -/

namespace RecencyCache

variable {α β : Type} {c : RecencyCache α β} {key : α} {value : β}

/-- Adds an entry in front; the last one goes for it if there is no room. -/
def push (c : RecencyCache α β) (key : α) (value : β) : Option (α × β) × RecencyCache α β :=
  if c.size < c.capacity then (none, { c with entries := (key, value) :: c.entries })
  else (c.entries.getLast?, { c with entries := (key, value) :: c.entries.dropLast })

theorem push_of_lt (h : c.size < c.capacity) (key : α) (value : β) :
    c.push key value = (none, ⟨c.capacity, (key, value) :: c.entries⟩) := if_pos h

theorem push_of_le (h : c.capacity ≤ c.size) (key : α) (value : β) :
    c.push key value = (c.entries.getLast?, ⟨c.capacity, (key, value) :: c.entries.dropLast⟩) :=
  if_neg (Nat.not_lt.2 h)

theorem capacity_push (c : RecencyCache α β) (key : α) (value : β) :
    (c.push key value).2.capacity = c.capacity := by
  unfold push
  split <;> rfl

variable [BEq α]

/-- Gives a key that is held a new value, and answers the old one. -/
def put (c : RecencyCache α β) (key : α) (value : β) : Option β × RecencyCache α β :=
  (c.find? key, { c with entries := (key, value) :: without key c.entries })

/-- The entries of a cache as a table. -/
def table (α β : Type) [BEq α] : RecencyTable α β where
  State := RecencyCache α β
  ofCapacity capacity := ⟨capacity, []⟩
  capacity := RecencyCache.capacity
  entries := RecencyCache.entries
  contains := RecencyCache.contains
  get := RecencyCache.get
  put := put
  push := push
  clear := RecencyCache.clear

/-! ### Its operations are those of a documented table -/

theorem get_of_find? (h : c.find? key = some value) :
    c.get key = (some value, ⟨c.capacity, (key, value) :: without key c.entries⟩) := by
  rw [get, h]

theorem get_of_find?_eq_none (h : c.find? key = none) : c.get key = (none, c) := by
  rw [get, h]

theorem capacity_get (c : RecencyCache α β) (key : α) : (c.get key).2.capacity = c.capacity := by
  unfold get
  split <;> rfl

theorem documented_table : (table α β).Documented where
  ofCapacity _ _ := ⟨rfl, rfl⟩
  contains _ _ := rfl
  get_held _ _ _ h := by
    have hget := get_of_find? h
    exact ⟨congrArg Prod.fst hget, congrArg (·.2.entries) hget⟩
  get_missing _ _ h := by
    have hget := get_of_find?_eq_none h
    exact ⟨congrArg Prod.fst hget, congrArg (·.2.entries) hget⟩
  put_held _ _ _ _ := rfl
  push_room _ key value _ h := by
    have hpush := push_of_lt h key value
    exact ⟨congrArg Prod.fst hpush, congrArg (·.2.entries) hpush⟩
  push_full _ key value _ h := by
    have hpush := push_of_le h key value
    exact ⟨congrArg Prod.fst hpush, congrArg (·.2.entries) hpush⟩
  clear _ := rfl
  capacity_kept c := ⟨rfl, fun key => ⟨capacity_get c key, fun value => ⟨rfl, capacity_push c key value⟩⟩⟩

end RecencyCache

/-! ## Every table gives the same cache -/

namespace RecencyTable

variable {α β : Type} {T : RecencyTable α β}

/-- What can be seen of a table. -/
def view (T : RecencyTable α β) (s : T.State) : RecencyCache α β := ⟨T.capacity s, T.entries s⟩

theorem view_eq {s : T.State} {capacity : Nat} {entries : List (α × β)} (hcapacity : T.capacity s = capacity)
    (hentries : T.entries s = entries) : T.view s = ⟨capacity, entries⟩ := by
  rw [view, hcapacity, hentries]

section
variable [BEq α] (hT : T.Documented) (s : T.State)
include hT

theorem view_create (capacity : Nat) : T.view (T.create capacity) = RecencyCache.ofCapacity capacity := by
  obtain ⟨hcapacity, hentries⟩ := hT.ofCapacity (max capacity 1) (by omega)
  exact view_eq hcapacity hentries

theorem get_eq (key : α) : (T.get s key).1 = ((T.view s).get key).1 ∧
    T.view (T.get s key).2 = ((T.view s).get key).2 := by
  have hcapacity := ((hT.capacity_kept s).2 key).1
  unfold RecencyCache.get
  split
  · rename_i value hfind
    obtain ⟨hanswer, hentries⟩ := hT.get_held s key value hfind
    exact ⟨hanswer, view_eq hcapacity hentries⟩
  · rename_i hfind
    obtain ⟨hanswer, hentries⟩ := hT.get_missing s key hfind
    exact ⟨hanswer, view_eq hcapacity hentries⟩

theorem insert_eq (key : α) (value : β) : (T.insert s key value).1 = ((T.view s).insert key value).1 ∧
    T.view (T.insert s key value).2 = ((T.view s).insert key value).2 := by
  obtain ⟨hput, hpush⟩ := ((hT.capacity_kept s).2 key).2 value
  have hcontains : T.contains s key = (T.view s).contains key := hT.contains s key
  unfold RecencyTable.insert RecencyCache.insert
  rw [hcontains]
  split
  · rename_i hheld
    exact ⟨rfl, view_eq hput (hT.put_held s key value hheld)⟩
  · rename_i hmissing
    rw [RecencyCache.contains, Bool.not_eq_true, Option.isSome_eq_false_iff, Option.isNone_iff_eq_none] at hmissing
    split
    · rename_i hroom
      obtain ⟨hanswer, hentries⟩ := hT.push_room s key value hmissing hroom
      exact ⟨hanswer, view_eq hpush hentries⟩
    · rename_i hfull
      obtain ⟨hanswer, hentries⟩ := hT.push_full s key value hmissing (Nat.not_lt.1 hfull)
      exact ⟨hanswer, view_eq hpush hentries⟩

/-- A call is answered as the cache answers that has the same entries, and leaves the same entries. -/
theorem step_eq (call : CacheCall α β) :
    (T.step s call).1 = ((RecencyCache.table α β).step (T.view s) call).1 ∧
    T.view (T.step s call).2 = ((RecencyCache.table α β).step (T.view s) call).2 := by
  cases call with
  | get key =>
    obtain ⟨hanswer, hview⟩ := get_eq hT s key
    exact ⟨congrArg (CacheEvent.got key) hanswer, hview⟩
  | insert key value =>
    obtain ⟨hanswer, hview⟩ := insert_eq hT s key value
    exact ⟨congrArg (CacheEvent.inserted key value) hanswer, hview⟩
  | contains key => exact ⟨congrArg (CacheEvent.asked key) (hT.contains s key), rfl⟩
  | clear => exact ⟨rfl, view_eq (hT.capacity_kept s).1 (hT.clear s)⟩

theorem runAll_eq (calls : List (CacheCall α β)) :
    (T.runAll s calls).1 = ((RecencyCache.table α β).runAll (T.view s) calls).1 ∧
    T.view (T.runAll s calls).2 = ((RecencyCache.table α β).runAll (T.view s) calls).2 := by
  induction calls generalizing s with
  | nil => exact ⟨rfl, rfl⟩
  | cons call calls ih =>
    obtain ⟨hanswer, hview⟩ := step_eq hT s call
    obtain ⟨hanswers, hend⟩ := ih (T.step s call).2
    rw [hview] at hanswers hend
    simp only [runAll]
    exact ⟨by rw [hanswer, hanswers], hend⟩

end

end RecencyTable

end HtmlQuery
