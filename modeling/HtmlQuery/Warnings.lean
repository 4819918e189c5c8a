/-!
# Warnings

What has been warned about, so that nothing is warned about twice. A warning has a component and a message
and is remembered by the line that shows the two.
-/

namespace HtmlQuery

/-- The lines warned about so far, each once. -/
structure Warnings where
  lines : List String

namespace Warnings

def empty : Warnings := ⟨[]⟩

def line (component message : String) : String := "[" ++ component ++ "] " ++ message

/-- Whether a warning has been given. -/
def given (w : Warnings) (component message : String) : Bool :=
  w.lines.contains (line component message)

/-- Gives a warning; answers whether it is new. -/
def warn (w : Warnings) (component message : String) : Bool × Warnings :=
  if w.given component message then (false, w) else (true, ⟨line component message :: w.lines⟩)

end Warnings

end HtmlQuery
