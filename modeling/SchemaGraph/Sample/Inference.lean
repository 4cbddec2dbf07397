import SchemaGraph.Sample.Lowering
import SchemaGraph.Transform

/-!
# Inference

The schema graph of samples, ready to be shown (`SchemaGraph.Samples.infer`): the first
generation is built from the samples, its strings are made plain if that is wanted, it is
rebuilt until it stops shrinking, and unreachable nodes are left behind.
-/

namespace SchemaGraph

namespace Inference

/-- How a schema graph is inferred. -/
structure Settings where
  options : Options
  /-- Whether the properties of classes are sorted by name. -/
  alphabetize : Bool
  /-- Whether the special kinds of strings become plain strings. -/
  plainStrings : Bool
  /-- Whether to print the graph before and after every transformation. -/
  announce : Bool
deriving DecidableEq

/-- The transformations of an inference. -/
inductive Stage
  | plainStrings
  | settling
  | collecting
deriving DecidableEq

/-- Markers that got lost at a stage. -/
structure Loss where
  stage : Stage
  lost : LostMarkers
deriving DecidableEq

/-- The text of the failure. -/
def Loss.message (e : Loss) : String :=
  match e.stage with
  | .plainStrings => e.lost.message
  | .settling => "fixed-point rewrite failed: " ++ e.lost.message
  | .collecting => "garbage collection failed: " ++ e.lost.message

/-- What an inference keeps and how it can end early. -/
abbrev Run := ExceptT Loss (StateT Log (Except Fault))

/-- A transformation as a stage of an inference. -/
def Stage.run {α : Type} (stage : Stage) (t : Transform α) : Run α :=
  ExceptT.adapt (Loss.mk stage) t

/-- The result of an inference and the log it leaves. -/
def Run.start {α : Type} (r : Run α) : Except Fault (Except Loss α × Log) :=
  (ExceptT.run r).run ⟨"", []⟩

end Inference

/-- The generation with its strings made plain. -/
def Generation.plainStrings (g : Generation) (alphabetize : Bool) : Transform Generation := do
  return (← g.replace ⟨"plain strings", .plain, alphabetize, false⟩ [] true).after g

/-- The schema graph of samples. -/
def Samples.infer (s : Samples) (settings : Inference.Settings) : Inference.Run Generation := do
  let built ← ExceptT.lift (StateT.lift (s.build settings.options))
  let g := if settings.announce then built.announce else built
  let g ← if settings.plainStrings then
      Inference.Stage.plainStrings.run (g.plainStrings settings.alphabetize)
    else pure g
  let g ← Inference.Stage.settling.run (g.settle settings.alphabetize false)
  let outcome ← Inference.Stage.collecting.run (g.collect settings.alphabetize false)
  return outcome.after g

end SchemaGraph
