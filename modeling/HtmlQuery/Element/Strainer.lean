import HtmlQuery.Element.Basic
import HtmlQuery.Text.AsciiCase
import HtmlQuery.Text.Quoted
import HtmlQuery.Text.Search

/-!
# Strainers

A strainer keeps some elements of a document while it is read and leaves the others out. It tests the
tag, attributes and the text that an element has when it is read, and all its tests must hold.
-/

namespace HtmlQuery

/-- A test of a tag. -/
inductive TagTest where
  /-- One name, up to ASCII case. -/
  | name (tag : String)
  /-- Any of several names, up to ASCII case. -/
  | anyOf (tags : List String)
  /-- Any test. -/
  | predicate (holds : String → Bool)

/-- A test of one attribute, which may be absent. -/
inductive AttributeTest where
  /-- The attribute has exactly this value. -/
  | equals (value : String)
  /-- The attribute is there. -/
  | present
  /-- The attribute is not there. -/
  | absent
  /-- The attribute is there and its value passes a test. -/
  | predicate (holds : String → Bool)

/-- A test of a text. -/
inductive TextTest where
  /-- The text contains a string. -/
  | contains (part : String)
  /-- Any test. -/
  | predicate (holds : String → Bool)

/-- The tests that an element must pass. -/
structure Strainer where
  tag : Option TagTest
  attributes : List (String × AttributeTest)
  text : Option TextTest

namespace TagTest

/-- Whether a tag passes. -/
def accepts (test : TagTest) (tag : String) : Bool :=
  match test with
  | name expected => Text.eqIgnoringCase tag expected
  | anyOf expected => expected.any (Text.eqIgnoringCase tag ·)
  | predicate holds => holds tag

end TagTest

namespace AttributeTest

/-- Whether a value, or its absence, passes. -/
def accepts (test : AttributeTest) (value : Option String) : Bool :=
  match test, value with
  | absent, value => value.isNone
  | _, none => false
  | present, some _ => true
  | equals expected, some value => value == expected
  | predicate holds, some value => holds value

end AttributeTest

namespace TextTest

/-- Whether a text passes. -/
def accepts (test : TextTest) (text : String) : Bool :=
  match test with
  | contains part => Text.contains part.toList text.toList
  | predicate holds => holds text

end TextTest

namespace Strainer

def all : Strainer := ⟨none, [], none⟩

def ofTag (tag : String) : Strainer := ⟨some (.name tag), [], none⟩

/-- Whether an element with a text passes every test. -/
def accepts (s : Strainer) (e : Element) (text : String) : Bool :=
  (match s.tag with
    | none => true
    | some test => test.accepts e.tag)
  && s.attributes.all (fun (name, test) => test.accepts (e.get? name))
  && match s.text with
    | none => true
    | some test => test.accepts text

end Strainer

/-! ## Diagnostic form -/

/-- A list between brackets, its items separated by commas. -/
def showItems (items : List String) : String := "[" ++ ", ".intercalate items ++ "]"

/-- The diagnostic form of a tag test. -/
def TagTest.describe : TagTest → String
  | name tag => "Name(" ++ Text.quoted tag ++ ")"
  | anyOf tags => "AnyOf(" ++ showItems (tags.map Text.quoted) ++ ")"
  | predicate _ => "Predicate(..)"

/-- The diagnostic form of an attribute test. -/
def AttributeTest.describe : AttributeTest → String
  | equals value => "Equals(" ++ Text.quoted value ++ ")"
  | present => "Present"
  | absent => "Absent"
  | predicate _ => "Predicate(..)"

/-- The diagnostic form of a text test. -/
def TextTest.describe : TextTest → String
  | contains part => "Contains(" ++ Text.quoted part ++ ")"
  | predicate _ => "Predicate(..)"

/-- The diagnostic form of something that may be missing. -/
def showOption {α : Type} (render : α → String) : Option α → String
  | none => "None"
  | some a => "Some(" ++ render a ++ ")"

/-- The diagnostic form of a strainer. -/
def Strainer.describe (s : Strainer) : String :=
  "Strainer \x7b name: " ++ showOption TagTest.describe s.tag
    ++ ", attrs: " ++ showItems (s.attributes.map fun (name, test) =>
        "(" ++ Text.quoted name ++ ", " ++ test.describe ++ ")")
    ++ ", text: " ++ showOption TextTest.describe s.text ++ " \x7d"

end HtmlQuery
