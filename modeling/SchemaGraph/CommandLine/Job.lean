import SchemaGraph.Text.Quoted

/-!
# Jobs

What a command line asks for (`SchemaGraph.Job`): which samples to read, how to infer their
schema graph, and where to put the result. `SchemaGraph.Job.recordText` shows a job without
running it.
-/

namespace SchemaGraph

/-- A request to infer a schema graph. -/
structure Job where
  /-- Paths of the samples, and patterns of such paths. -/
  inputs : List String
  /-- Whether every line of an input is a sample of its own. -/
  ndjson : Bool
  /-- Where in a document the sample is. -/
  pointer : Option String
  /-- The name of the root. -/
  root : String
  /-- Whether to track provenance. -/
  provenance : Bool
  /-- Whether the properties of classes are sorted by name. -/
  alphabetize : Bool
  /-- Whether the special kinds of strings become plain strings. -/
  plainStrings : Bool
  /-- Whether to print the graph before and after every transformation. -/
  announce : Bool
  /-- Whether the result is the snapshot and not the report. -/
  json : Bool
  /-- The file that gets the result. -/
  out : Option String
  /-- Whether only to show the job. -/
  dryRun : Bool
deriving DecidableEq

/-! ### Showing a job -/

namespace Job

/-- Lines between an opening and a closing line: every item is indented and ends with a
comma. -/
def block (opening : String) (items : List (List String)) (closing : String) : List String :=
  let item (lines : List String) : List String :=
    (lines.dropLast ++ (lines.getLast?.map (· ++ ",")).toList).map ("    " ++ ·)
  opening :: items.flatMap item ++ [closing]

/-- A field of a record: its name stands in front of the first line. -/
def fieldLines (name : String) (value : List String) : List String :=
  match value with
  | [] => []
  | first :: rest => (name ++ ": " ++ first) :: rest

/-- A record over several lines. -/
def recordLines (name : String) (fields : List (String × List String)) : List String :=
  block (name ++ " \x7b") (fields.map fun (field, value) => fieldLines field value) "\x7d"

/-- A switch. -/
def switchLines (value : Bool) : List String := [if value then "true" else "false"]

/-- A text that may be missing. -/
def optionLines : Option String → List String
  | none => ["None"]
  | some text => block "Some(" [[Text.quoted text]] ")"

/-- The lines of the record form of a job. -/
def lines (j : Job) : List String :=
  let inputs := recordLines "InputSettings"
    [("ndjson", switchLines j.ndjson),
      ("json_pointer", optionLines j.pointer),
      ("input", block "[" (j.inputs.map fun path => [Text.quoted path]) "]")]
  let graph := recordLines "GraphOut"
    [("input_settings", inputs),
      ("top_level", [Text.quoted j.root]),
      ("provenance", switchLines j.provenance),
      ("alphabetize", switchLines j.alphabetize),
      ("plain_strings", switchLines j.plainStrings),
      ("print_on_rewrite", switchLines j.announce),
      ("json", switchLines j.json),
      ("out", optionLines j.out),
      ("no_op", switchLines j.dryRun)]
  recordLines "CommandLineInterface" [("cmd", block "Graph(" [graph] ")")]

/-- The record form of a job. -/
def recordText (j : Job) : String := String.join (j.lines.map (· ++ "\n"))

end Job

end SchemaGraph
