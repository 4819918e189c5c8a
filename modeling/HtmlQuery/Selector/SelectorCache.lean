import HtmlQuery.Selector.Read
import HtmlQuery.Selector.RecencyCache

/-!
# Selector caches

Selector texts that were read lately, with what was read, and counts of how often the cache could answer.
The text is the key as it stands: two spellings of one selector are two entries.
-/

namespace HtmlQuery

/-- A selector list as one reading of its text gave it. `serial` numbers the readings of a cache, so two
results are one stored object when their serial numbers are equal. -/
structure Resolved where
  serial : Nat
  list : SelectorList

/-- The entries of a cache, the look-ups that it could and could not answer since it was last cleared, and
all readings there ever were. -/
structure SelectorCache where
  entries : RecencyCache String Resolved
  hits : Nat
  misses : Nat
  readings : Nat

namespace SelectorCache

def defaultCapacity : Nat := 100

/-- The empty cache of a capacity, which is one at least. -/
def ofCapacity (capacity : Nat) : SelectorCache := ⟨.ofCapacity capacity, 0, 0, 0⟩

/-- The entry of a selector text as a look-up finds it, with the look-up counted. -/
def lookup? (c : SelectorCache) (s : String) : Option Resolved × SelectorCache :=
  match c.entries.get s with
  | (some found, entries) => (some found, { c with entries := entries, hits := c.hits + 1 })
  | (none, entries) => (none, { c with entries := entries, misses := c.misses + 1 })

/-- Reads a selector text and keeps what was read. -/
def read (c : SelectorCache) (s : String) : Resolved × SelectorCache :=
  let resolved : Resolved := ⟨c.readings, SelectorList.parse s⟩
  (resolved, { c with
    entries := (c.entries.insert s resolved).2
    readings := c.readings + 1 })

/-- The selector list of a text, from the cache if it is there. -/
def resolve (c : SelectorCache) (s : String) : Resolved × SelectorCache :=
  match c.lookup? s with
  | (some found, c) => (found, c)
  | (none, c) => c.read s

/-- Whether a text is in the cache. Asking so counts nowhere. -/
def contains (c : SelectorCache) (s : String) : Bool := c.entries.contains s

def capacity (c : SelectorCache) : Nat := c.entries.capacity

def size (c : SelectorCache) : Nat := c.entries.size

/-- The cache without entries and with its counts at zero. -/
def clear (c : SelectorCache) : SelectorCache :=
  { c with entries := c.entries.clear, hits := 0, misses := 0 }

end SelectorCache

end HtmlQuery
