import SchemaGraph.Json.Basic
import SchemaGraph.Sample.StringShape

/-!
# Shapes

What is remembered of the JSON values seen at one place of the samples
(`SchemaGraph.Shape`): which sorts of value there were, and for arrays and objects the shape
of what they contain, place by place. For objects it also counts in how many of them each
key occurred, which decides whether the key is optional.
-/

namespace SchemaGraph

mutual

/-- The values seen at one place. -/
structure Shape where
  null : Bool
  bool : Bool
  integer : Bool
  /-- Whether there was a number that is no integer. -/
  real : Bool
  strings : Option StringShape
  array : Option ArrayShape
  object : Option ObjectShape

/-- The arrays seen at one place. -/
structure ArrayShape where
  /-- Number of arrays. -/
  samples : Nat
  /-- The items of all of them. -/
  items : Shape

/-- The objects seen at one place. -/
structure ObjectShape where
  /-- Number of objects. -/
  seen : Nat
  /-- Their keys, in the order in which they were first seen. -/
  fields : List FieldShape

/-- The values seen under one key. -/
structure FieldShape where
  key : String
  /-- Number of objects with the key. -/
  presentIn : Nat
  shape : Shape

end

/-- No values. -/
def Shape.empty : Shape := ⟨false, false, false, false, none, none, none⟩

instance : EmptyCollection Shape := ⟨.empty⟩

instance : Inhabited Shape := ⟨.empty⟩

namespace Shape

/-- Whether no value was seen. -/
def isEmpty (s : Shape) : Bool :=
  !s.null && !s.bool && !s.integer && !s.real && s.strings.isNone && s.array.isNone
    && s.object.isNone

end Shape

/-- The fields with one more value under `key`: `observe` is what the value does to the shape
there. -/
def updateField (key : String) (observe : Shape → Shape) : List FieldShape → List FieldShape
  | [] => [⟨key, 1, observe ∅⟩]
  | field :: rest =>
    if field.key = key then
      { field with presentIn := field.presentIn + 1, shape := observe field.shape } :: rest
    else field :: updateField key observe rest

mutual

/-- The shape after one more value. -/
def Shape.observe (s : Shape) : Json → Shape
  | .null => { s with null := true }
  | .bool _ => { s with bool := true }
  | .integer _ => { s with integer := true }
  | .real _ => { s with real := true }
  | .string text => { s with strings := some ((s.strings.getD ∅).observe text) }
  | .array items =>
    let seen := s.array.getD ⟨0, ∅⟩
    { s with array := some ⟨seen.samples + 1, observeItems seen.items items⟩ }
  | .object members =>
    let seen := s.object.getD ⟨0, []⟩
    { s with object := some ⟨seen.seen + 1, observeMembers seen.fields members⟩ }

/-- The shape after the items of one more array. -/
def observeItems (s : Shape) : List Json → Shape
  | [] => s
  | item :: rest => observeItems (s.observe item) rest

/-- The fields after the members of one more object. -/
def observeMembers (fields : List FieldShape) : List (String × Json) → List FieldShape
  | [] => fields
  | (key, value) :: rest =>
    observeMembers (updateField key (fun shape => shape.observe value) fields) rest

end

end SchemaGraph
