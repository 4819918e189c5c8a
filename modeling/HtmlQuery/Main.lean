import HtmlQuery.CommandLine.Program

/-!
# Command line

The outer layer of the program: it reads files and standard input, and prints.
-/

open HtmlQuery.CommandLine

/-- Reads all bytes of a stream. -/
partial def readAll (stream : IO.FS.Stream) (bytes : ByteArray) : IO ByteArray := do
  let chunk ← stream.read 65536
  if chunk.isEmpty then pure bytes else readAll stream (bytes ++ chunk)

/-- What an error of the system says about reading. -/
def failureOf : IO.Error → ReadFailure
  | .noFileOrDirectory .. => .missing
  | e => .other (toString e)

/-- Reads the document from where it comes from. -/
def fetch (source : Source) : IO (Except ReadFailure String) := do
  try
    match source with
    | .file path => pure (decodeUtf8 (← IO.FS.readBinFile path))
    | .standardInput => pure (decodeUtf8 (← readAll (← IO.getStdin) .empty))
  catch e => pure (.error (failureOf e))

/-- Runs the program. -/
def main (args : List String) : IO UInt32 := do
  let outcome ← execute fetch args
  IO.print outcome.stdout
  IO.eprint outcome.stderr
  pure outcome.exit.toUInt32
