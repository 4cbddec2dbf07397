import SchemaGraph.Attribute.Kind
import SchemaGraph.Fault
import SchemaGraph.Text.Quoted

/-!
# Attribute sets

The attributes of one node (`SchemaGraph.Attributes`): at most one per name, in the order
in which the names came in. Merging an attribute whose name is there combines the two values
by the rule of the kind that was there first. Values of different types under one name are a
fault.

Main statement: `SchemaGraph.Attributes.combine` lists the names of its left operand first
and then the new names of the right one (`SchemaGraph.Attributes.names_merge`).
-/

namespace SchemaGraph

/-- A value together with its kind. -/
structure Attribute where
  type : ValueType
  kind : AttributeKind type
  value : type.Carrier

namespace Attribute

/-- The name of the attribute. -/
def name (a : Attribute) : String := a.kind.name

/-- The value, read as a value of `kind`. -/
def read (a : Attribute) {t : ValueType} (kind : AttributeKind t) : Except Fault t.Carrier :=
  if h : a.type = t then .ok (h ▸ a.value) else .error (.attributeType kind.name)

/-- The earlier attribute `a` with the later `b` combined into it. -/
def combine (a b : Attribute) : Except Fault Attribute :=
  (b.read a.kind).map fun later => { a with value := a.kind.combine a.value later }

/-- How the attribute is shown. -/
def shown (a : Attribute) : Option String := a.kind.stringify a.value

/-- What the attribute adds to the identity of its node. -/
def identityText (a : Attribute) : Option String := a.kind.identity.map (· a.value)

theorem name_combine {a b c : Attribute} (h : a.combine b = .ok c) : c.name = a.name := by
  rw [combine] at h
  obtain ⟨later, -, rfl⟩ := exists_of_map_eq_ok h
  rfl

/-- The list with `a` combined into the attribute of its name, or at its end. -/
def mergeInto (a : Attribute) : List Attribute → Except Fault (List Attribute)
  | [] => .ok [a]
  | b :: rest =>
    if b.name = a.name then (b.combine a).map (· :: rest) else (mergeInto a rest).map (b :: ·)

theorem names_mergeInto {a : Attribute} {as bs : List Attribute} (h : mergeInto a as = .ok bs) :
    bs.map name =
      if a.name ∈ as.map name then as.map name else as.map name ++ [a.name] := by
  induction as generalizing bs with
  | nil =>
    simp only [mergeInto, Except.ok.injEq] at h
    simp [← h]
  | cons b rest ih =>
    simp only [mergeInto] at h
    split at h
    · rename_i hb
      obtain ⟨c, hc, rfl⟩ := exists_of_map_eq_ok h
      simp [hb, name_combine hc]
    · rename_i hb
      obtain ⟨cs, hm, rfl⟩ := exists_of_map_eq_ok h
      simp only [List.map_cons, ih hm, List.mem_cons]
      split <;> grind

end Attribute

/-- The attributes of one node, one for each name, oldest first. -/
structure Attributes where
  toList : List Attribute
  nodup : (toList.map Attribute.name).Nodup

namespace Attributes

/-- No attributes. -/
def empty : Attributes where
  toList := []
  nodup := by simp

instance : EmptyCollection Attributes := ⟨empty⟩

instance : Inhabited Attributes := ⟨empty⟩

/-- Whether there are no attributes. -/
def isEmpty (s : Attributes) : Bool := s.toList.isEmpty

/-- Number of attributes. -/
def size (s : Attributes) : Nat := s.toList.length

/-- The names, oldest first. -/
def names (s : Attributes) : List String := s.toList.map Attribute.name

/-- Whether there is an attribute of the name. -/
def contains (s : Attributes) (name : String) : Bool := s.toList.any (·.name = name)

/-- The set with one more attribute, combined with the one of its name if there is one. -/
def merge (s : Attributes) (a : Attribute) : Except Fault Attributes :=
  match h : a.mergeInto s.toList with
  | .error f => .error f
  | .ok list =>
    .ok {
      toList := list
      nodup := by
        have hs := s.nodup
        rw [Attribute.names_mergeInto h]
        grind }

/-- The value of `kind`. -/
def find? (s : Attributes) {t : ValueType} (kind : AttributeKind t) :
    Except Fault (Option t.Carrier) :=
  match s.toList.find? (·.name = kind.name) with
  | none => .ok none
  | some a => (a.read kind).map some

/-- The set with `value` under `kind`, combined with the value there. -/
def add (s : Attributes) {t : ValueType} (kind : AttributeKind t) (value : t.Carrier) :
    Except Fault Attributes :=
  s.merge ⟨t, kind, value⟩

/-- The set of one attribute. -/
def singleton {t : ValueType} (kind : AttributeKind t) (value : t.Carrier) : Attributes where
  toList := [⟨t, kind, value⟩]
  nodup := by simp

/-- The set without the attribute of a name. -/
def erase (s : Attributes) (name : String) : Attributes where
  toList := s.toList.filter (·.name ≠ name)
  nodup := s.nodup.sublist (List.filter_sublist.map Attribute.name)

/-- The attributes of both sets; those of the second are merged into the first in order. -/
def combine (s t : Attributes) : Except Fault Attributes :=
  if s.isEmpty then .ok t else t.toList.foldlM merge s

/-- The attributes of all sets, from left to right. -/
def combineAll (sets : List Attributes) : Except Fault Attributes := sets.foldlM combine empty

/-- Name and picture of every attribute that can be shown. -/
def shown (s : Attributes) : List (String × String) :=
  s.toList.filterMap fun a => a.shown.map (a.name, ·)

/-- What the attributes add to the identity of their node: name and text of every attribute
that takes part in it, by name. -/
def identityTexts (s : Attributes) : List (String × String) :=
  (s.toList.filterMap fun a => a.identityText.map (a.name, ·)).mergeSort fun p q => p.1 ≤ q.1

/-- The written form of the set; an attribute that is not shown stands as `<opaque>`. -/
def text (s : Attributes) : String :=
  let entry (a : Attribute) : String :=
    Text.quoted a.name ++ ": " ++ Text.quoted (a.shown.getD "<opaque>")
  "\x7b" ++ ", ".intercalate (s.toList.map entry) ++ "\x7d"

/-- A merge keeps the names and adds the new one at the end. -/
theorem names_merge {s t : Attributes} {a : Attribute} (h : s.merge a = .ok t) :
    t.names = if a.name ∈ s.names then s.names else s.names ++ [a.name] := by
  unfold merge at h
  split at h
  · simp at h
  · rename_i list hl
    simp only [Except.ok.injEq] at h
    subst h
    exact Attribute.names_mergeInto hl

end Attributes

end SchemaGraph
