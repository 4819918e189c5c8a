/-!
# Attribute lists

The attributes of an element in the order in which their names first came in, each name once. Setting a
name that is there replaces its value where it stands; removing closes the gap. Main statements: what each
operation does to `get?` (`get?_set_self`, `get?_set_of_ne`, `get?_erase_self`, `get?_erase_of_ne`) and to the names
(`names_set`, `names_erase`).
-/

namespace HtmlQuery

/-- A name with its value. A bare attribute has the empty value. -/
structure Attribute where
  name : String
  value : String
  deriving DecidableEq, Repr

/-- Attributes in order. -/
structure Attributes where
  toList : List Attribute
  deriving DecidableEq, Repr

namespace Attributes

def empty : Attributes := ⟨[]⟩

instance : EmptyCollection Attributes := ⟨empty⟩

/-- The value of the first attribute with a name. -/
def get? (as : Attributes) (name : String) : Option String :=
  (as.toList.find? (·.name == name)).map (·.value)

def contains (as : Attributes) (name : String) : Bool := as.toList.any (·.name == name)

def size (as : Attributes) : Nat := as.toList.length

def isEmpty (as : Attributes) : Bool := as.toList.isEmpty

/-- Gives the first attribute with a name a new value, or adds the attribute at the end. -/
def setIn (name value : String) : List Attribute → List Attribute
  | [] => [⟨name, value⟩]
  | a :: as => if a.name == name then ⟨a.name, value⟩ :: as else a :: setIn name value as

/-- Sets the value of a name. The value it had before is `get?`. -/
def set (as : Attributes) (name value : String) : Attributes := ⟨setIn name value as.toList⟩

/-- Takes the first attribute with a name away. -/
def erase (as : Attributes) (name : String) : Attributes :=
  ⟨as.toList.eraseP (·.name == name)⟩

/-- Sets the pairs of a list one after the other. -/
def ofList (pairs : List (String × String)) : Attributes :=
  pairs.foldl (fun as p => as.set p.1 p.2) empty

def names (as : Attributes) : List String := as.toList.map (·.name)

/-! ## Lemmas -/

@[simp] theorem get?_empty (name : String) : empty.get? name = none := rfl

@[simp] theorem get?_set_self (as : Attributes) (name value : String) :
    (as.set name value).get? name = some value := by
  obtain ⟨l⟩ := as
  simp only [get?, set]
  induction l with
  | nil => simp [setIn]
  | cons a as ih =>
    rw [setIn]
    split
    · rename_i h
      simp [h]
    · rename_i h
      simpa [h] using ih

theorem get?_set_of_ne (as : Attributes) {name other : String} (value : String) (h : name ≠ other) :
    (as.set name value).get? other = as.get? other := by
  obtain ⟨l⟩ := as
  simp only [get?, set]
  induction l with
  | nil => simp [setIn, h]
  | cons a as ih =>
    rw [setIn]
    split
    · rename_i ha
      have hne : (a.name == other) = false := by
        rw [beq_eq_false_iff_ne, beq_iff_eq.1 ha]
        exact h
      simp [hne]
    · simp only [List.find?_cons]
      split
      · rfl
      · exact ih

/-- Setting a name that is there keeps the names; a new one comes last. -/
theorem names_set (as : Attributes) (name value : String) :
    (as.set name value).names = if name ∈ as.names then as.names else as.names ++ [name] := by
  obtain ⟨l⟩ := as
  change (setIn name value l).map (·.name) =
    if name ∈ l.map (·.name) then l.map (·.name) else l.map (·.name) ++ [name]
  induction l with
  | nil => simp [setIn]
  | cons a as ih =>
    rw [setIn]
    by_cases h : a.name = name
    · simp [h]
    · rw [if_neg (by simpa using h), List.map_cons, ih, List.map_cons]
      by_cases hmem : name ∈ as.map (·.name)
      · rw [if_pos hmem, if_pos (List.mem_cons_of_mem _ hmem)]
      · rw [if_neg hmem, if_neg fun hc => (List.mem_cons.1 hc).elim (Ne.symm h) hmem,
          List.cons_append]

/-- Removing takes the first occurrence of a name away. -/
theorem names_erase (as : Attributes) (name : String) : (as.erase name).names = as.names.erase name := by
  obtain ⟨l⟩ := as
  simp only [names, erase]
  induction l with
  | nil => rfl
  | cons a as ih =>
    by_cases ha : a.name = name
    · rw [List.eraseP_cons_of_pos (by simpa using ha), List.map_cons, ha, List.erase_cons_head]
    · rw [List.eraseP_cons_of_neg (by simpa using ha), List.map_cons, List.map_cons,
        List.erase_cons_tail (by simpa using ha), ih]

theorem get?_erase_of_ne (as : Attributes) {name other : String} (h : name ≠ other) :
    (as.erase name).get? other = as.get? other := by
  obtain ⟨l⟩ := as
  simp only [get?, erase]
  induction l with
  | nil => rfl
  | cons a as ih =>
    by_cases ha : a.name = name
    · rw [List.eraseP_cons_of_pos (by simpa using ha), List.find?_cons_of_neg (by simpa [ha] using h)]
    · rw [List.eraseP_cons_of_neg (by simpa using ha), List.find?_cons, List.find?_cons]
      split
      · rfl
      · exact ih

theorem mem_names_iff (as : Attributes) (name : String) : name ∈ as.names ↔ ∃ value, as.get? name = some value := by
  rw [← Option.isSome_iff_exists, get?, Option.isSome_map, List.find?_isSome]
  simp [names]

/-- A name that comes once is gone when it is removed. -/
theorem get?_erase_self {as : Attributes} (h : as.names.Nodup) (name : String) :
    (as.erase name).get? name = none := by
  rw [Option.eq_none_iff_forall_ne_some]
  intro value hvalue
  have hmem := (mem_names_iff (as.erase name) name).2 ⟨value, hvalue⟩
  rw [names_erase] at hmem
  exact h.not_mem_erase hmem

end Attributes

end HtmlQuery
