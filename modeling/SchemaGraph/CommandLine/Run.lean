import SchemaGraph.CommandLine.FileAccess
import SchemaGraph.CommandLine.FilePath
import SchemaGraph.CommandLine.Job
import SchemaGraph.CommandLine.PathPattern
import SchemaGraph.Generation.Listing
import SchemaGraph.Generation.Snapshot
import SchemaGraph.Json.Parser
import SchemaGraph.Json.Pointer
import SchemaGraph.Json.Printer
import SchemaGraph.Sample.Inference
import SchemaGraph.Text.Blank

/-!
# Running jobs

What a job does (`SchemaGraph.Job.run`), in any world that has files: it resolves its inputs,
reads the samples, infers their schema graph, and prints or writes the result. Whatever is
announced on the way is printed apart from the result, and also if the job fails.
-/

namespace SchemaGraph

/-- Why a job fails. -/
inductive JobFailure
  /-- A directory could not be listed. -/
  | unlistable
  | badPattern (pattern : String)
  | nothingSelected (pattern : String)
  | unreadable (path : String)
  | badDocument (path : String)
  /-- A line is no document; lines count from one. -/
  | badLine (number : Nat) (path : String)
  | nothingAt (pointer path : String)
  | noDocuments
  | lost (loss : Inference.Loss)
  | fault (f : Fault)
  | notCreated (path : String)
  | notWritten (path : String)
deriving DecidableEq

/-- The text of a failure. -/
def JobFailure.message : JobFailure → String
  | unlistable => "failed to resolve input file paths"
  | badPattern pattern =>
    "failed to resolve input file paths: invalid glob pattern: " ++ pattern
  | nothingSelected pattern =>
    "failed to resolve input file paths: glob pattern matched no files: " ++ pattern
  | unreadable path => "failed to read source file " ++ path
  | badDocument path => "failed to parse JSON source file " ++ path
  | badLine number path => s!"failed to parse NDJSON line {number} of {path}"
  | nothingAt pointer path => s!"JSON pointer {pointer} matched nothing in {path}"
  | noDocuments => "no JSON documents found in the given inputs"
  | lost loss => loss.message
  | fault f => f.message
  | notCreated path => "failed to create " ++ path
  | notWritten path => "failed to write " ++ path

/-- Jobs at work: they may fail, and print text apart from their result. -/
abbrev Session (m : Type → Type) := ExceptT JobFailure (StateT String m)

namespace Session

variable {m : Type → Type} [Monad m]

/-- Print text apart from the result. -/
def print (text : String) : Session m Unit :=
  ExceptT.lift (modify fun printed => printed ++ text)

/-- A value, or a failure. -/
def ofExcept {ε α : Type} (failure : ε → JobFailure) (result : Except ε α) : Session m α :=
  ExceptT.mk (pure (result.mapError failure))

/-- Pass on what is there, and fail otherwise. -/
def need {α : Type} (failure : JobFailure) : Option α → Session m α
  | some a => return a
  | none => throw failure

/-- An inference; what it printed is kept even if it fails. -/
def ofInference {α : Type} (r : Inference.Run α) : Session m α := do
  let (result, log) ← ofExcept .fault r.start
  print log.printed
  ofExcept .lost result

/-- The result, or the failure, and the text printed apart from it. -/
def start {α : Type} (s : Session m α) : m (Except JobFailure α × String) := (ExceptT.run s).run ""

end Session

/-! ### Documents -/

/-- The lines of a text, without their line breaks. A text that ends in a line break has no
line after it. -/
def splitLines : List Char → List (List Char)
  | [] => []
  | '\n' :: rest => [] :: splitLines rest
  | '\r' :: '\n' :: rest => [] :: splitLines rest
  | c :: rest =>
    match splitLines rest with
    | [] => [[c]]
    | line :: lines => (c :: line) :: lines

example : splitLines ['a', '\r', '\n', '\n', 'b', '\r'] = [['a'], [], ['b', '\r']] := rfl

/-- The lines that are not blank, with their numbers. -/
def numberedLines (text : String) : List (Nat × String) :=
  ((splitLines text.toList).zipIdx 1).filterMap fun (line, number) =>
    if line.all Text.isBlank then none else some (number, String.ofList line)

namespace Job

/-- The documents in the text of an input, each of which may be bad in its own way. -/
def documents (j : Job) (path text : String) : List (JobFailure × Option Json) :=
  if j.ndjson then
    (numberedLines text).map fun (number, line) => (.badLine number path, Json.parse line)
  else [(.badDocument path, Json.parse text)]

/-- The sample in a document. -/
def sample? (j : Job) (document : Json) : Option Json :=
  match j.pointer with
  | none => some document
  | some pointer => document.pointer? pointer

/-- How the job wants its graph inferred. -/
def settings (j : Job) : Inference.Settings where
  options := ⟨j.provenance⟩
  alphabetize := j.alphabetize
  plainStrings := j.plainStrings
  announce := j.announce

/-- The text of the result. -/
def resultText (j : Job) (g : Generation) : Except Fault String :=
  if j.json then g.snapshot.map Json.pretty else g.report

/-! ### Stages -/

section Stages

variable {m : Type → Type} [Monad m] [FileAccess m]

/-- The paths that an input stands for. A pattern has to select something. -/
def resolve (input : String) : Session m (List String) := do
  if !PathPattern.isPattern input then return [input]
  let pattern ← Session.need (.badPattern input) (PathPattern.ofText? input)
  let paths ← Session.need .unlistable (← pattern.select.run)
  if paths.isEmpty then throw (.nothingSelected input)
  return paths

/-- The samples in the file at a path. -/
def readSamples (j : Job) (path : String) : Session m (List Json) := do
  let text ← Session.need (.unreadable path) (← FileAccess.readText? path)
  (j.documents path text).mapM fun (failure, document) => do
    let document ← Session.need failure document
    Session.need (.nothingAt (j.pointer.getD "") path) (j.sample? document)

/-- The samples in all inputs. -/
def samples (j : Job) : Session m (List Json) := do
  let paths ← j.inputs.mapM resolve
  return (← paths.flatten.mapM j.readSamples).flatten

/-- The schema graph of samples. There has to be one. -/
def infer (j : Job) (samples : List Json) : Session m Generation := do
  if samples.isEmpty then throw .noDocuments
  let seen := samples.foldl (fun seen sample => seen.observe j.root sample) Samples.empty
  Session.ofInference (seen.infer j.settings)

/-- Write a result to a file, in directories that are made as needed. -/
def write (path result : String) : Session m Unit := do
  if let some parent := FilePath.parent? path then
    if !(← FileAccess.createDirectories parent) then throw (.notCreated parent)
  if !(← FileAccess.writeText path result) then throw (.notWritten path)

/-- Run a job; its value is what goes to the standard output. -/
def run (j : Job) : Session m String := do
  if j.dryRun then
    Session.print j.recordText
    return ""
  let g ← j.infer (← j.samples)
  let result ← Session.ofExcept .fault (j.resultText g)
  match j.out with
  | none => return result ++ "\n"
  | some path =>
    write path result
    return ""

end Stages

end Job

end SchemaGraph
