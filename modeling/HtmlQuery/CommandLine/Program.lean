import HtmlQuery.CommandLine.Arguments
import HtmlQuery.CommandLine.Colour
import HtmlQuery.CommandLine.Summary
import HtmlQuery.Selector.Query
import HtmlQuery.Tree.Build

/-!
# The program

A run of the program as a function of its arguments and of what its input holds. Reading a file or standard
input is left to the caller, who hands in `fetch`.
-/

namespace HtmlQuery.CommandLine

/-- Where a document comes from. -/
inductive Source where
  | file (path : String)
  | standardInput
  deriving DecidableEq, Repr

/-- Why a document could not be read. -/
inductive ReadFailure where
  | missing
  | notUtf8
  | other (cause : String)
  deriving DecidableEq, Repr

/-- What a run leaves: its exit code and what it printed. -/
structure Outcome where
  exit : Nat
  stdout : String
  stderr : String
  deriving DecidableEq, Repr

namespace ReadFailure

/-- The text of a cause. -/
def cause : ReadFailure → String
  | missing => "No such file or directory (os error 2)"
  | notUtf8 => "stream did not contain valid UTF-8"
  | other cause => cause

end ReadFailure

namespace Source

/-- What failed when a source could not be read. -/
def failure : Source → String
  | file path => "failed to read '" ++ path ++ "'"
  | standardInput => "failed to read stdin"

end Source

/-- The text of a run that could not read its document. -/
def readError (source : Source) (failure : ReadFailure) : String :=
  "Error: " ++ source.failure ++ "\n\nCaused by:\n    " ++ failure.cause ++ "\n"

/-- The text of a document in bytes. -/
def decodeUtf8 (bytes : ByteArray) : Except ReadFailure String :=
  match String.fromUTF8? bytes with
  | some s => .ok s
  | none => .error .notUtf8

namespace Arguments

/-- How the document is read. -/
def parseOptions (a : Arguments) : ParseOptions where
  folding := ⟨!a.keepCase, !a.keepCase⟩
  strainer := .none
  locations := a.locations
  xml := a.xml

def lines (texts : List String) : String := String.join (texts.map (· ++ "\n"))

/-- What is printed of a document that is not queried. -/
def outline (a : Arguments) (t : Tree) : String :=
  if a.noColor then t.outline Tree.root else colouredOutline t Tree.root a.locations

/-- What is printed of matches. -/
def report (a : Arguments) (t : Tree) (found : List NodeId) : String :=
  if a.json then summaries t found ++ "\n"
  else if a.text then lines (found.map t.textContent)
  else lines (found.map fun n => t.write n (.ofDialect a.dialect))

/-- What is printed of a document. -/
def output (a : Arguments) (html : String) : String :=
  let t := Tree.parse html a.parseOptions
  match a.selector with
  | .none => a.outline t
  | some selector => a.report t ((Session.select t Tree.root selector a.limit).run .start).1

end Arguments

def usage : String := "Usage: html-query [OPTIONS] [FILE]\n"

def versionText : String := "html-query 0.1.0\n"

/-- A run of the program. The document is the argument of `--html`, else the file, else what stands in
standard input. -/
def execute {m : Type → Type} [Monad m] (fetch : Source → m (Except ReadFailure String))
    (args : List String) : m Outcome := do
  match Request.ofArguments args with
  | .error fault => pure ⟨2, "", "error: " ++ fault.message ++ "\n\n" ++ usage⟩
  | .ok .help => pure ⟨0, usage, ""⟩
  | .ok .version => pure ⟨0, versionText, ""⟩
  | .ok (.run a) =>
    match a.html with
    | some html => pure ⟨0, a.output html, ""⟩
    | .none =>
      let source := match a.path with
        | some path => Source.file path
        | .none => Source.standardInput
      match ← fetch source with
      | .ok html => pure ⟨0, a.output html, ""⟩
      | .error failure => pure ⟨1, "", readError source failure⟩

end HtmlQuery.CommandLine
