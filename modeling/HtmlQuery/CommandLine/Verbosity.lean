/-!
# Verbosity

How much the program reports of what it does, and how that is asked for.
-/

namespace HtmlQuery

/-- How much a program reports of what it does. -/
inductive Verbosity where
  | warn
  | debug
  | trace
  deriving DecidableEq, Repr

namespace Verbosity

/-- What a number of requests for more asks for. -/
def ofCount : Nat → Verbosity
  | 0 => warn
  | 1 => debug
  | _ => trace

/-- The name of a level. -/
def name : Verbosity → String
  | warn => "warn"
  | debug => "debug"
  | trace => "trace"

end Verbosity

end HtmlQuery
