import SchemaGraph.CommandLine.Job

/-!
# Reading command lines

How a job is written on the command line (`SchemaGraph.Job.ofWords`). After the word `graph`
stand switches such as `--json` and settings such as `--top-level NAME`; the inputs may have
several values and may be given several times, everything else at most once. What is wrong
with a command line is a `SchemaGraph.UsageError`.

A setting that waits for its values is settled only when the next option begins or the line
ends. This decides which of two mistakes is reported.
-/

namespace SchemaGraph

namespace Usage

/-- What is on or off. -/
inductive Switch
  | ndjson
  | provenance
  | alphabetize
  | plainStrings
  | announce
  | json
  | dryRun
deriving DecidableEq

/-- What takes values. -/
inductive Setting
  | input
  | pointer
  | root
  | out
deriving DecidableEq

/-- What can be asked for with a hyphen. -/
inductive Flag
  | help
  | switch (s : Switch)
  | setting (s : Setting)
deriving DecidableEq

/-- The switches by their long names. -/
def switchNames : List (String × Switch) :=
  [("ndjson", .ndjson), ("provenance", .provenance), ("alphabetize", .alphabetize),
    ("plain-strings", .plainStrings), ("print-on-rewrite", .announce), ("json", .json),
    ("no-op", .dryRun)]

/-- The settings by their long names. -/
def settingNames : List (String × Setting) :=
  [("input", .input), ("json-pointer", .pointer), ("top-level", .root), ("out", .out)]

/-- The flag with a long name. -/
def Flag.ofName? (name : String) : Option Flag :=
  if name = "help" then some .help
  else
    match switchNames.lookup name with
    | some s => some (.switch s)
    | none => (settingNames.lookup name).map .setting

/-- The flag with a letter. -/
def Flag.ofLetter? (letter : Char) : Option Flag :=
  match letter with
  | 'h' => some .help
  | 'i' => some (.setting .input)
  | 'o' => some (.setting .out)
  | _ => none

/-- What a word of a command line is. -/
inductive Word
  /-- Two hyphens: no flags follow. -/
  | separator
  | long (name : String) (value : Option String)
  | short (letter : Char) (value : Option String)
  | plain
deriving DecidableEq

/-- The text up to the first equals sign, and the text after it. -/
def splitValue : List Char → List Char × Option (List Char)
  | [] => ([], none)
  | '=' :: rest => ([], some rest)
  | c :: rest =>
    match splitValue rest with
    | (name, value) => (c :: name, value)

/-- The value that follows a letter in the same word. -/
def attachedValue : List Char → Option String
  | [] => none
  | '=' :: rest => some (String.ofList rest)
  | rest => some (String.ofList rest)

/-- What a word is. A single hyphen is a plain word. -/
def Word.ofText (text : String) : Word :=
  match text.toList with
  | ['-', '-'] => separator
  | '-' :: '-' :: rest =>
    match splitValue rest with
    | (name, value) => long (String.ofList name) (value.map String.ofList)
  | '-' :: letter :: rest => short letter (attachedValue rest)
  | _ => plain

end Usage

open Usage in
/-- Why a command line is refused, or not run. -/
inductive UsageError
  /-- Help was asked for. -/
  | help
  /-- There is nothing on the command line. -/
  | empty
  | unknownCommand (word : String)
  /-- A flag that does not exist, or a word that no setting waits for. -/
  | unexpected (word : String)
  | inputMissing
  | valueMissing (setting : Setting)
  | switchRepeated (switch : Switch)
  | settingRepeated (setting : Setting)
  /-- A value is attached to a flag that takes none. -/
  | valueUnwanted (word : String)
deriving DecidableEq

namespace Usage

/-! ### Reading flags -/

/-- What was read so far. -/
structure Reading where
  switches : List Switch
  /-- The settled settings with their values. -/
  settings : List (Setting × List String)
  /-- The setting that may take further values. -/
  waiting : Option (Setting × List String)

namespace Reading

/-- Nothing was read. -/
def start : Reading := ⟨[], [], none⟩

/-- Settle a setting. Only inputs may be given again, and the path of the result is not
empty. -/
def add (s : Reading) (setting : Setting) (values : List String) : Except UsageError Reading :=
  if values.isEmpty then .error (.valueMissing setting)
  else if setting ≠ .input && s.settings.any (·.1 = setting) then
    .error (.settingRepeated setting)
  else if setting = .out && "" ∈ values then .error (.valueMissing setting)
  else .ok { s with settings := s.settings ++ [(setting, values)], waiting := none }

/-- Settle the setting that waits. -/
def settle (s : Reading) : Except UsageError Reading :=
  match s.waiting with
  | none => .ok s
  | some (setting, values) => s.add setting values

/-- Turn a switch on. -/
def turnOn (s : Reading) (switch : Switch) : Except UsageError Reading := do
  let s ← s.settle
  if switch ∈ s.switches then throw (.switchRepeated switch)
  return { s with switches := s.switches ++ [switch] }

/-- Begin a setting, which is settled at once if its value is attached. -/
def begin (s : Reading) (setting : Setting) (value : Option String) :
    Except UsageError Reading := do
  let s ← s.settle
  match value with
  | some value => s.add setting [value]
  | none => return { s with waiting := some (setting, []) }

/-- Take in a flag. A long flag of a switch takes no value; after the letter for help the
rest of the word is ignored. -/
def flag (s : Reading) (word : String) (flag : Flag) (value : Option String) :
    Except UsageError Reading := do
  match flag with
  | .setting setting => s.begin setting value
  | .switch switch => if value.isSome then throw (.valueUnwanted word) else s.turnOn switch
  | .help =>
    if value.isSome then throw (.valueUnwanted word)
    let _ ← s.settle
    throw .help

/-- Take in a plain word as a value of the setting that waits. Only inputs take more than
one. -/
def value (s : Reading) (word : String) : Except UsageError Reading :=
  match s.waiting with
  | some (setting, values) =>
    if setting = .input || values.isEmpty then
      .ok { s with waiting := some (setting, values ++ [word]) }
    else .error (.unexpected word)
  | none => .error (.unexpected word)

/-- Read the words after the command. -/
def words (s : Reading) : List String → Except UsageError Reading
  | [] => s.settle
  | word :: rest => do
    match Word.ofText word with
    | .separator =>
      match rest with
      | [] => s.settle
      | stray :: _ => throw (.unexpected stray)
    | .long name value =>
      match Flag.ofName? name with
      | some f => (← s.flag word f value).words rest
      | none => throw (.unexpected word)
    | .short letter value =>
      match Flag.ofLetter? letter with
      | some .help => (← s.flag word .help none).words rest
      | some f => (← s.flag word f value).words rest
      | none => throw (.unexpected word)
    | .plain => (← s.value word).words rest

/-- All values of a setting. -/
def valuesOf (s : Reading) (setting : Setting) : List String :=
  (s.settings.filter (·.1 = setting)).flatMap Prod.snd

/-- The job that was read. -/
def job (s : Reading) : Except UsageError Job :=
  let inputs := s.valuesOf .input
  if inputs.isEmpty then .error .inputMissing
  else .ok {
    inputs
    ndjson := .ndjson ∈ s.switches
    pointer := (s.valuesOf .pointer).head?
    root := (s.valuesOf .root).head?.getD "Root"
    provenance := .provenance ∈ s.switches
    alphabetize := .alphabetize ∈ s.switches
    plainStrings := .plainStrings ∈ s.switches
    announce := .announce ∈ s.switches
    json := .json ∈ s.switches
    out := (s.valuesOf .out).head?
    dryRun := .dryRun ∈ s.switches }

end Reading

/-! ### Reading commands -/

/-- What asking for help on a topic gives. -/
def helpOn : List String → UsageError
  | [] => .help
  | topic :: rest =>
    if topic = "graph" || topic = "help" then
      match rest with
      | [] => .help
      | word :: _ => .unknownCommand word
    else .unknownCommand topic

/-- What a word after the separator means where a command is expected. -/
def strayCommand (word : String) : UsageError :=
  if word = "graph" || word = "help" then .unexpected word else .unknownCommand word

end Usage

open Usage in
/-- The job that a command line writes. -/
def Job.ofWords : List String → Except UsageError Job
  | [] => .error .empty
  | word :: rest =>
    match Word.ofText word with
    | .separator =>
      match rest with
      | [] => .error .empty
      | stray :: _ => .error (strayCommand stray)
    | .long name value =>
      if name = "help" then .error (if value.isSome then .valueUnwanted word else .help)
      else .error (.unexpected word)
    | .short letter _ => .error (if letter = 'h' then .help else .unexpected word)
    | .plain =>
      if word = "graph" then (Reading.start.words rest).bind Reading.job
      else if word = "help" then .error (helpOn rest)
      else .error (.unknownCommand word)

namespace UsageError

/-- The name of a setting as it is written. -/
def settingText (setting : Usage.Setting) : String :=
  "--" ++ ((Usage.settingNames.find? (·.2 = setting)).map Prod.fst).getD ""

/-- The name of a switch as it is written. -/
def switchText (switch : Usage.Switch) : String :=
  "--" ++ ((Usage.switchNames.find? (·.2 = switch)).map Prod.fst).getD ""

/-- How the program is called. -/
def usage : String := "usage: graph --input PATH... [--ndjson] [--json-pointer POINTER]
  [--top-level NAME] [--provenance] [--alphabetize] [--plain-strings] [--print-on-rewrite]
  [--json] [--out FILE] [--no-op]"

/-- The text of a usage error. -/
def message : UsageError → String
  | help => usage
  | empty => usage
  | unknownCommand word => "unknown command: " ++ word
  | unexpected word => "unexpected argument: " ++ word
  | inputMissing => "missing argument: --input"
  | valueMissing setting => "missing value: " ++ settingText setting
  | switchRepeated switch => "given twice: " ++ switchText switch
  | settingRepeated setting => "given twice: " ++ settingText setting
  | valueUnwanted word => "takes no value: " ++ word

end UsageError

end SchemaGraph
