import HtmlQuery.Tree.Dialect

/-!
# Arguments

What the program is asked to do. Options are read one after the other: a long one is `--name` or
`--name=value`, a short one `-n`, and short ones without values share a hyphen; a value may stand behind its
option or in the next argument, as long as that does not start like an option. `--` ends the options. Every
option but `-v` may be given once. What is asked for must fit together: `Arguments.fault?` says when it
does not.
-/

namespace HtmlQuery.CommandLine

/-- The options without a value. -/
inductive Switch where
  | text
  | json
  | xml
  | keepCase
  | locations
  | noColor
  | verbose
  | help
  | version
  deriving DecidableEq, Repr

/-- The options with a value. -/
inductive Setting where
  | html
  | selector
  | limit
  | format
  deriving DecidableEq, Repr

/-- An option of either kind. -/
inductive OptionKind where
  | switch (s : Switch)
  | setting (s : Setting)
  deriving DecidableEq, Repr

/-- What is asked for. -/
structure Arguments where
  path : Option String
  html : Option String
  selector : Option String
  limit : Option Nat
  text : Bool
  json : Bool
  format : Option Dialect
  xml : Bool
  keepCase : Bool
  locations : Bool
  noColor : Bool
  verbosity : Nat
  deriving DecidableEq, Repr

/-- Why arguments are refused. -/
inductive UsageError where
  /-- No option has the name. -/
  | unknownOption (name : String)
  /-- There is one file at most. -/
  | extraArgument (arg : String)
  /-- The option has no value. -/
  | missingValue (s : Setting)
  /-- The value is not one that the option takes. -/
  | invalidValue (s : Setting) (value : String)
  /-- The option takes no value. -/
  | unneededValue (s : Switch)
  /-- The option was given before. -/
  | repeated
  /-- The name of the file is empty. -/
  | emptyPath
  /-- The option means something only with a selector. -/
  | needsSelector
  /-- The two options exclude each other. -/
  | conflict
  deriving DecidableEq, Repr

/-- What a run of the program is for. -/
inductive Request where
  | run (a : Arguments)
  | help
  | version
  deriving DecidableEq, Repr

namespace Arguments

/-- Nothing is asked for. -/
def none : Arguments :=
  ⟨.none, .none, .none, .none, false, false, .none, false, false, false, false, 0⟩

def dialect (a : Arguments) : Dialect := a.format.getD .default

end Arguments

/-! ## Names -/

/-- The option with a long name. -/
def ofLong? (name : String) : Option OptionKind :=
  [("html", .setting .html), ("selector", .setting .selector), ("limit", .setting .limit),
    ("format", .setting .format), ("text", .switch .text), ("json", .switch .json),
    ("xml", .switch .xml), ("keep-case", .switch .keepCase), ("locations", .switch .locations),
    ("no-color", .switch .noColor), ("verbose", .switch .verbose), ("help", .switch .help),
    ("version", .switch .version)].lookup name

/-- The option with a short name. -/
def ofShort? (name : Char) : Option OptionKind :=
  [('s', .setting .selector), ('l', .setting .limit), ('v', .switch .verbose),
    ('h', .switch .help), ('V', .switch .version)].lookup name

/-! ## Values -/

def limitBound : Nat := 0x10000000000000000

/-- The number that an optional plus sign and decimal digits write, if it is below the bound. -/
def readLimit? (value : String) : Option Nat :=
  let digits := match value.toList with
    | '+' :: digits => digits
    | digits => digits
  if digits.isEmpty || !digits.all Text.isAsciiDigit then .none
  else
    let n := digits.foldl (fun n c => n * 10 + (c.toNat - '0'.toNat)) 0
    if n < limitBound then some n else .none

/-- Takes note of an option with its value. -/
def Setting.apply (s : Setting) (value : String) (a : Arguments) : Except UsageError Arguments :=
  match s with
  | .html => if a.html.isSome then .error .repeated else .ok { a with html := some value }
  | .selector =>
    if a.selector.isSome then .error .repeated else .ok { a with selector := some value }
  | .limit =>
    match readLimit? value with
    | .none => .error (.invalidValue s value)
    | some n => if a.limit.isSome then .error .repeated else .ok { a with limit := some n }
  | .format =>
    match Dialect.ofName? value with
    | .none => .error (.invalidValue s value)
    | some d => if a.format.isSome then .error .repeated else .ok { a with format := some d }

/-- Sets a mark that may be set once. -/
def mark (before : Bool) (a : Arguments) : Except UsageError Arguments :=
  if before then .error .repeated else .ok a

/-- Takes note of an option without a value; `help` and `version` are settled before. -/
def Switch.apply (s : Switch) (a : Arguments) : Except UsageError Arguments :=
  match s with
  | .text => mark a.text { a with text := true }
  | .json => mark a.json { a with json := true }
  | .xml => mark a.xml { a with xml := true }
  | .keepCase => mark a.keepCase { a with keepCase := true }
  | .locations => mark a.locations { a with locations := true }
  | .noColor => mark a.noColor { a with noColor := true }
  | .verbose => .ok { a with verbosity := min (a.verbosity + 1) 255 }
  | .help => .ok a
  | .version => .ok a

/-- Takes note of a file. -/
def addPath (value : String) (a : Arguments) : Except UsageError Arguments :=
  if a.path.isSome then .error (.extraArgument value)
  else if value.isEmpty then .error .emptyPath
  else .ok { a with path := some value }

/-! ## Reading -/

/-- What one argument is. -/
inductive Shape where
  /-- `--`. -/
  | escape
  /-- `--name` or `--name=value`. -/
  | long (name : String) (value : Option String)
  /-- A hyphen with short names behind it. -/
  | short (names : List Char)
  /-- Anything else, a single hyphen included. -/
  | plain
  deriving DecidableEq, Repr

/-- What one argument is, by how it starts. -/
def shapeOf (arg : String) : Shape :=
  match arg.toList with
  | ['-', '-'] => .escape
  | '-' :: '-' :: rest =>
    .long (String.ofList (rest.takeWhile (· ≠ '=')))
      (match rest.dropWhile (· ≠ '=') with
        | [] => .none
        | _ :: value => some (String.ofList value))
  | ['-'] => .plain
  | '-' :: names => .short names
  | _ => .plain

/-- How far reading has come: what is asked for, the option that waits for its value, and whether the program
is only asked about itself. -/
structure Progress where
  found : Arguments
  waiting : Option Setting
  answer : Option Request

/-- An option is no value, so none may be waiting for one. -/
def Progress.settle (p : Progress) : Except UsageError Arguments :=
  match p.waiting with
  | some s => .error (.missingValue s)
  | .none => .ok p.found

/-- Takes note of an option without a value. -/
def takeSwitch (s : Switch) (p : Progress) : Except UsageError Progress := do
  let a ← p.settle
  match s with
  | .help => pure ⟨a, .none, some .help⟩
  | .version => pure ⟨a, .none, some .version⟩
  | s =>
    let a ← s.apply a
    pure ⟨a, .none, .none⟩

/-- Takes note of an option with a value, or of one that waits for it. -/
def takeSetting (s : Setting) (value : Option String) (p : Progress) :
    Except UsageError Progress := do
  let a ← p.settle
  match value with
  | some value =>
    let a ← s.apply value a
    pure ⟨a, .none, .none⟩
  | .none => pure ⟨a, some s, .none⟩

/-- Takes note of short options behind one hyphen. What follows the name of an option with a value is its
value, an equals sign in front of it aside. -/
def takeShort : List Char → Progress → Except UsageError Progress
  | [], p => pure p
  | c :: rest, p =>
    match ofShort? c with
    | .none => .error (.unknownOption (String.ofList ['-', c]))
    | some (.switch s) => do
      let p ← takeSwitch s p
      if p.answer.isSome then pure p else takeShort rest p
    | some (.setting s) =>
      match rest with
      | [] => takeSetting s .none p
      | '=' :: value => takeSetting s (some (String.ofList value)) p
      | value => takeSetting s (some (String.ofList value)) p

/-- Takes note of a long option. -/
def takeLong (name : String) (value : Option String) (p : Progress) :
    Except UsageError Progress :=
  match ofLong? name, value with
  | .none, _ => .error (.unknownOption ("--" ++ name))
  | some (.switch s), some _ => .error (.unneededValue s)
  | some (.switch s), .none => takeSwitch s p
  | some (.setting s), value => takeSetting s value p

/-- Takes note of an argument that is no option. -/
def takePlain (arg : String) (p : Progress) : Except UsageError Progress :=
  match p.waiting with
  | some s => do
    let a ← s.apply arg p.found
    pure ⟨a, .none, .none⟩
  | .none => do
    let a ← addPath arg p.found
    pure ⟨a, .none, .none⟩

/-- Reads arguments one after the other; `ended` says that options have ended. -/
def readFrom (ended : Bool) : List String → Progress → Except UsageError Progress
  | [], p => pure p
  | arg :: rest, p =>
    if p.answer.isSome then pure p
    else if ended then do
      let a ← p.settle
      let p ← takePlain arg { p with found := a }
      readFrom ended rest p
    else
      match shapeOf arg with
      | .escape => readFrom true rest p
      | .long name value => do
        let p ← takeLong name value p
        readFrom ended rest p
      | .short names => do
        let p ← takeShort names p
        readFrom ended rest p
      | .plain => do
        let p ← takePlain arg p
        readFrom ended rest p

/-- Why what is asked for does not fit together, if so. -/
def Arguments.fault? (a : Arguments) : Option UsageError :=
  if a.html.isSome && a.path.isSome then some .conflict
  else if a.text && a.json then some .conflict
  else if a.selector.isNone && (a.limit.isSome || a.text || a.json) then some .needsSelector
  else .none

/-- Reads the arguments of a run. -/
def Request.ofArguments (args : List String) : Except UsageError Request := do
  let p ← readFrom false args ⟨.none, .none, .none⟩
  match p.answer with
  | some answer => pure answer
  | .none =>
    let a ← p.settle
    match a.fault? with
    | some fault => .error fault
    | .none => pure (.run a)

/-! ## Complaints -/

/-- The long name of an option with a value. -/
def Setting.name : Setting → String
  | .html => "--html"
  | .selector => "--selector"
  | .limit => "--limit"
  | .format => "--format"

/-- The text of a complaint about arguments. -/
def UsageError.message : UsageError → String
  | unknownOption name => "unexpected argument '" ++ name ++ "' found"
  | extraArgument arg => "unexpected argument '" ++ arg ++ "' found"
  | missingValue s => "a value is required for '" ++ s.name ++ "' but none was supplied"
  | invalidValue s value => "invalid value '" ++ value ++ "' for '" ++ s.name ++ "'"
  | unneededValue _ => "an option without a value was given one"
  | repeated => "an option cannot be used multiple times"
  | emptyPath => "a value is required for '[FILE]' but none was supplied"
  | needsSelector => "an option needs '--selector'"
  | conflict => "two options cannot be used together"

end HtmlQuery.CommandLine
