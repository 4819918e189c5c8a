import HtmlQuery.Text.AsciiCase

/-!
# Names of pseudo-classes

Every pseudo-class that selectors know, by name. Names are read without regard to ASCII case.
-/

namespace HtmlQuery

/-- The name of a pseudo-class. -/
inductive PseudoName where
  | firstChild
  | lastChild
  | onlyChild
  | nthChild
  | nthLastChild
  | firstOfType
  | lastOfType
  | onlyOfType
  | nthOfType
  | nthLastOfType
  | empty
  | blank
  | root
  | scope
  | not
  | is
  | whereList
  | has
  | contains
  | lang
  | dir
  | enabled
  | disabled
  | checked
  | indeterminate
  | required
  | optional
  | readOnly
  | readWrite
  | placeholderShown
  | default
  | valid
  | invalid
  | inRange
  | outOfRange
  | focus
  | focusWithin
  | focusVisible
  | hover
  | active
  | visited
  | link
  | anyLink
  | localLink
  | target
  | targetWithin
  | current
  | past
  | future
  | playing
  | paused
  | seeking
  | buffering
  | stalled
  | muted
  | volumeLocked
  | fullscreen
  | pictureInPicture
  | autofill
  | modal
  | userInvalid
  | userValid
  deriving DecidableEq, Repr

namespace PseudoName

/-- The name as selectors write it. -/
def text : PseudoName → String
  | firstChild => "first-child"
  | lastChild => "last-child"
  | onlyChild => "only-child"
  | nthChild => "nth-child"
  | nthLastChild => "nth-last-child"
  | firstOfType => "first-of-type"
  | lastOfType => "last-of-type"
  | onlyOfType => "only-of-type"
  | nthOfType => "nth-of-type"
  | nthLastOfType => "nth-last-of-type"
  | empty => "empty"
  | blank => "blank"
  | root => "root"
  | scope => "scope"
  | not => "not"
  | is => "is"
  | whereList => "where"
  | has => "has"
  | contains => "contains"
  | lang => "lang"
  | dir => "dir"
  | enabled => "enabled"
  | disabled => "disabled"
  | checked => "checked"
  | indeterminate => "indeterminate"
  | required => "required"
  | optional => "optional"
  | readOnly => "read-only"
  | readWrite => "read-write"
  | placeholderShown => "placeholder-shown"
  | default => "default"
  | valid => "valid"
  | invalid => "invalid"
  | inRange => "in-range"
  | outOfRange => "out-of-range"
  | focus => "focus"
  | focusWithin => "focus-within"
  | focusVisible => "focus-visible"
  | hover => "hover"
  | active => "active"
  | visited => "visited"
  | link => "link"
  | anyLink => "any-link"
  | localLink => "local-link"
  | target => "target"
  | targetWithin => "target-within"
  | current => "current"
  | past => "past"
  | future => "future"
  | playing => "playing"
  | paused => "paused"
  | seeking => "seeking"
  | buffering => "buffering"
  | stalled => "stalled"
  | muted => "muted"
  | volumeLocked => "volume-locked"
  | fullscreen => "fullscreen"
  | pictureInPicture => "picture-in-picture"
  | autofill => "autofill"
  | modal => "modal"
  | userInvalid => "user-invalid"
  | userValid => "user-valid"

/-- All names. -/
def all : List PseudoName :=
  [firstChild, lastChild, onlyChild, nthChild, nthLastChild, firstOfType, lastOfType,
    onlyOfType, nthOfType, nthLastOfType, empty, blank, root, scope, not, is, whereList,
    has, contains, lang, dir, enabled, disabled, checked, indeterminate, required, optional,
    readOnly, readWrite, placeholderShown, default, valid, invalid, inRange, outOfRange,
    focus, focusWithin, focusVisible, hover, active, visited, link, anyLink, localLink,
    target, targetWithin, current, past, future, playing, paused, seeking, buffering,
    stalled, muted, volumeLocked, fullscreen, pictureInPicture, autofill, modal,
    userInvalid, userValid]

def ofText? (s : String) : Option PseudoName := all.find? (Text.eqIgnoringCase ·.text s)

end PseudoName

end HtmlQuery
