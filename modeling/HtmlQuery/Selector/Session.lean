import HtmlQuery.Selector.SelectorCache
import HtmlQuery.Warnings

/-!
# Sessions

What outlives a single query: the cache of selectors, and the warnings given so far. A warning is due when a
text that names an unknown pseudo-class is read; an answer from the cache warns of nothing.
-/

namespace HtmlQuery

/-- The state that queries share. -/
structure Session where
  cache : SelectorCache
  warnings : Warnings

abbrev SessionM := StateM Session

def selectorComponent : String := "Selector"

def unsupportedMessage (name : String) : String := "unsupported pseudo-class ':" ++ name ++ "'"

/-- Gives the warnings that names call for. -/
def Warnings.warnUnsupported (w : Warnings) (names : List String) : Warnings :=
  names.foldl (fun w name => (w.warn selectorComponent (unsupportedMessage name)).2) w

namespace Session

def ofCapacity (capacity : Nat) : Session := ⟨.ofCapacity capacity, .empty⟩

def start : Session := ofCapacity SelectorCache.defaultCapacity

/-- Reads a selector list without the cache. -/
def read (s : String) : SessionM SelectorList := fun session =>
  let list := SelectorList.parse s
  (list, { session with warnings := session.warnings.warnUnsupported list.unsupported })

/-- Makes a pseudo-class from a name and an argument. -/
def readPseudoClass (name : String) (arg : Option String) : SessionM PseudoClass :=
  fun session =>
    let p := PseudoClass.ofText name arg
    (p, { session with
      warnings := session.warnings.warnUnsupported
        (Compound.unsupported { Compound.any with pseudoClasses := [p] }) })

/-- The selector list of a text, from the cache if it is there. -/
def resolve (s : String) : SessionM Resolved := fun session =>
  match session.cache.lookup? s with
  | (some found, cache) => (found, { session with cache := cache })
  | (none, cache) =>
    let (resolved, cache) := cache.read s
    (resolved, ⟨cache, session.warnings.warnUnsupported resolved.list.unsupported⟩)

/-- Empties the cache. -/
def clearCache : SessionM Unit := modify fun session =>
  { session with cache := session.cache.clear }

/-- Forgets the warnings. -/
def clearWarnings : SessionM Unit := modify fun session =>
  { session with warnings := .empty }

end Session

end HtmlQuery
