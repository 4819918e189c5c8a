import HtmlQuery.Element.Attributes
import HtmlQuery.Text.Whitespace

/-!
# Elements

An element is a tag with attributes. Selectors ask for its `id` and its classes all the time, so both are
kept beside the attribute list; every change of an attribute goes through `set` or `erase`, which keep
them in step.
-/

namespace HtmlQuery

/-- A tag with its attributes, its `id` and its classes, each class once. -/
structure Element where
  tag : String
  attributes : Attributes
  id : Option String
  classes : List String
  deriving DecidableEq, Repr

namespace Element

def classesOf (value : String) : List String := (Text.words value).eraseDups

/-- An element with the given attributes. -/
def ofAttributes (tag : String) (as : Attributes) : Element where
  tag := tag
  attributes := as
  id := as.get? "id"
  classes := ((as.get? "class").map classesOf).getD []

def bare (tag : String) : Element := ofAttributes tag ∅

def get? (e : Element) (name : String) : Option String := e.attributes.get? name

def has (e : Element) (name : String) : Bool := e.attributes.contains name

def hasClass (e : Element) (name : String) : Bool := e.classes.contains name

/-- Sets an attribute. -/
def set (e : Element) (name value : String) : Element where
  tag := e.tag
  attributes := e.attributes.set name value
  id := if name == "id" then some value else e.id
  classes := if name == "class" then classesOf value else e.classes

/-- Takes an attribute away. -/
def erase (e : Element) (name : String) : Element where
  tag := e.tag
  attributes := e.attributes.erase name
  id := if name == "id" then none else e.id
  classes := if name == "class" then [] else e.classes

/-- An element keeps the `id` and the classes of its attributes. -/
def InStep (e : Element) : Prop := .ofAttributes e.tag e.attributes = e

theorem inStep_ofAttributes (tag : String) (as : Attributes) : (ofAttributes tag as).InStep := rfl

theorem inStep_iff {e : Element} :
    e.InStep ↔ e.id = e.get? "id" ∧ e.classes = ((e.get? "class").map classesOf).getD [] := by
  constructor
  · intro h
    exact ⟨congrArg id h.symm, congrArg classes h.symm⟩
  · intro h
    obtain ⟨hid, hclasses⟩ := h
    rw [InStep, ofAttributes, ← get?, ← get?, ← hid, ← hclasses]

end Element

end HtmlQuery
