/-!
# Recency caches

A table of bounded size that forgets the entry used longest ago. The entries are a list, the one used last in
front; using a key moves its entry there.
-/

namespace HtmlQuery

/-- At most `capacity` keys with their values, the one used last in front. -/
structure RecencyCache (α β : Type) where
  capacity : Nat
  entries : List (α × β)

namespace RecencyCache

variable {α β : Type} [BEq α]

/-- The empty cache of a capacity, which is one at least. -/
def ofCapacity (capacity : Nat) : RecencyCache α β := ⟨max capacity 1, []⟩

def size (c : RecencyCache α β) : Nat := c.entries.length

def isEmpty (c : RecencyCache α β) : Bool := c.entries.isEmpty

def find? (c : RecencyCache α β) (key : α) : Option β := c.entries.lookup key

/-- Whether a key is held. Asking so is no use of the key. -/
def contains (c : RecencyCache α β) (key : α) : Bool := (c.find? key).isSome

/-- The entries of a list without that of a key. -/
def without (key : α) (entries : List (α × β)) : List (α × β) :=
  entries.filter fun entry => !(entry.1 == key)

/-- The value of a key, and the cache after this use of it. -/
def get (c : RecencyCache α β) (key : α) : Option β × RecencyCache α β :=
  match c.find? key with
  | some value => (some value, { c with entries := (key, value) :: without key c.entries })
  | none => (none, c)

/-- Gives a key a value; answers the entry that had to go for it, if one had to. -/
def insert (c : RecencyCache α β) (key : α) (value : β) : Option (α × β) × RecencyCache α β :=
  if c.contains key then
    (none, { c with entries := (key, value) :: without key c.entries })
  else if c.size < c.capacity then (none, { c with entries := (key, value) :: c.entries })
  else (c.entries.getLast?, { c with entries := (key, value) :: c.entries.dropLast })

def clear (c : RecencyCache α β) : RecencyCache α β := { c with entries := [] }

/-- The diagnostic form of a cache. -/
def describe (c : RecencyCache α β) : String :=
  "LruCache \x7b len: " ++ toString c.size ++ ", capacity: " ++ toString c.capacity ++ " \x7d"

/-! ## Lemmas -/

theorem without_subset (key : α) (entries : List (α × β)) : without key entries ⊆ entries :=
  fun _ h => (List.mem_filter.1 h).1

theorem mem_entries_of_find? [LawfulBEq α] {c : RecencyCache α β} {key : α} {value : β}
    (h : c.find? key = some value) : (key, value) ∈ c.entries := by
  obtain ⟨l, r, hentries, -⟩ := List.lookup_eq_some_iff.1 h
  rw [hentries]
  simp

end RecencyCache

end HtmlQuery
