import HtmlQuery.Text.Search
import HtmlQuery.Text.Whitespace

/-!
# Attribute conditions

What a selector asks of one attribute between brackets. Names and values are compared exactly.
-/

namespace HtmlQuery

/-- How the value of an attribute is compared with the value of a condition. -/
inductive Comparison where
  /-- `=`: the two are equal. -/
  | equals
  /-- `~=`: it is one of the words of the attribute. -/
  | includes
  /-- `|=`: the attribute is it, or goes on behind it with a hyphen. -/
  | dash
  /-- `^=`: the attribute starts with it. -/
  | starts
  /-- `$=`: the attribute ends with it. -/
  | ends
  /-- `*=`: the attribute contains it. -/
  | occurs
  deriving DecidableEq, Repr

/-- What is asked of an attribute: that it is there, or how its value compares with another. -/
inductive AttributeCondition where
  | present (name : String)
  | compares (comparison : Comparison) (name value : String)
  deriving DecidableEq, Repr

namespace Comparison

/-- The operator of a comparison. -/
def operator : Comparison → String
  | equals => "="
  | includes => "~="
  | dash => "|="
  | starts => "^="
  | ends => "$="
  | occurs => "*="

def all : List Comparison := [equals, includes, dash, starts, ends, occurs]

def ofOperator? (op : String) : Option Comparison := all.find? (·.operator == op)

/-- Whether the value of an attribute compares so with the value of a condition. -/
def holds (c : Comparison) (expected value : String) : Bool :=
  match c with
  | equals => value == expected
  | includes => (Text.words value).contains expected
  | dash => value == expected || (expected.toList ++ ['-']).isPrefixOf value.toList
  | starts => expected.toList.isPrefixOf value.toList
  | ends => expected.toList.isSuffixOf value.toList
  | occurs => Text.contains expected.toList value.toList

end Comparison

namespace AttributeCondition

/-- The condition with an operator, a name and a value; none for an operator that does not exist. -/
def ofOperator? (op name value : String) : Option AttributeCondition :=
  (Comparison.ofOperator? op).map (compares · name value)

/-- The attribute that a condition asks about. -/
def name : AttributeCondition → String
  | present name => name
  | compares _ name _ => name

/-- Whether a value, or its absence, meets a condition. -/
def holds (c : AttributeCondition) (value : Option String) : Bool :=
  match c, value with
  | _, none => false
  | present _, some _ => true
  | compares comparison _ expected, some value => comparison.holds expected value

end AttributeCondition

end HtmlQuery
