import Mathlib.Data.List.Induction
import SchemaGraph.Proofs.Observation

/-!
# What a shape is made of

Values are folded into a shape one after the other, and each fold has folds for the places below
inside. What comes out can be said without a fold (`SchemaGraph.Shape.ofValues_eq`): the strings of
the values, the number of arrays and the shape of all their items, the number of objects and, for
every key that one of them has, how often it occurs and the shape of what is under it. Keys are in
the order in which they are first seen (`SchemaGraph.fieldsOf`), and so are the roots of samples
(`SchemaGraph.Samples.entries_ofList`).

Of the strings only some are kept. The cases of an enum are read off all of them all the same
(`SchemaGraph.StringShape.closedLabels?_ofTexts`), since what is dropped is dropped where there are
too many for an enum.
-/

namespace SchemaGraph

/-! ### Parts of values -/

namespace Json

/-- The text of a string. -/
def text? : Json → Option String
  | string text => some text
  | _ => none

/-- The items of an array. -/
def items? : Json → Option (List Json)
  | array items => some items
  | _ => none

/-- The members of an object. -/
def members? : Json → Option (List (String × Json))
  | object members => some members
  | _ => none

end Json

/-- The texts of the strings among values. -/
def textsIn (values : List Json) : List String := values.filterMap Json.text?

/-- The arrays among values, each as the list of its items. -/
def arraysIn (values : List Json) : List (List Json) := values.filterMap Json.items?

/-- The objects among values, each as the list of its members. -/
def objectsIn (values : List Json) : List (List (String × Json)) := values.filterMap Json.members?

/-- What the members have under a key. -/
def valuesUnder (key : String) (members : List (String × Json)) : List Json :=
  (members.filter (·.1 = key)).map Prod.snd

/-- The names of entries, in the order in which they are first seen. -/
def firstSeen {α : Type} (entries : List (String × α)) : List String :=
  (entries.map Prod.fst).eraseDups

section Entries

variable {α : Type} {key k : String} {value : Json} {members : List (String × Json)}
  {entries : List (String × α)} {e : String × α}

theorem nodup_firstSeen : (firstSeen entries).Nodup := Digraph.nodup_eraseDups _

theorem mem_firstSeen : key ∈ firstSeen entries ↔ key ∈ entries.map Prod.fst := List.mem_eraseDups

theorem firstSeen_concat : firstSeen (entries ++ [e]) =
    if e.1 ∈ firstSeen entries then firstSeen entries else firstSeen entries ++ [e.1] := by
  simp only [firstSeen, List.map_append, List.map_singleton, eraseDups_concat, List.mem_eraseDups]

theorem valuesUnder_concat : valuesUnder key (members ++ [(k, value)]) =
    if k = key then valuesUnder key members ++ [value] else valuesUnder key members := by
  simp only [valuesUnder, List.filter_append, List.map_append]
  split <;> simp_all

theorem valuesUnder_eq_nil_iff : valuesUnder key members = [] ↔ key ∉ firstSeen members := by
  rw [mem_firstSeen, valuesUnder, List.map_eq_nil_iff, List.filter_eq_nil_iff]
  simp only [decide_eq_true_eq, List.mem_map, not_exists, not_and]

theorem mem_valuesUnder : value ∈ valuesUnder key members ↔ (key, value) ∈ members := by
  simp [valuesUnder]

end Entries

/-! ### Strings -/

namespace StringShape

/-- The shape of a list of texts. -/
def ofTexts (texts : List String) : StringShape := texts.foldl observe ∅

variable {texts : List String} {text : String} {kind : PrimitiveKind}

theorem ofTexts_concat : ofTexts (texts ++ [text]) = (ofTexts texts).observe text := by
  rw [ofTexts, List.foldl_append]
  rfl

theorem observations_ofTexts : (ofTexts texts).observations = texts.length := by
  induction texts using List.reverseRecOn with
  | nil => rfl
  | append_singleton texts text ih =>
    rw [ofTexts_concat, List.length_append, List.length_singleton, ← ih]
    rfl

theorem mem_kinds_ofTexts :
    kind ∈ (ofTexts texts).kinds ↔ ∃ text ∈ texts, Literal.classify text = kind := by
  induction texts using List.reverseRecOn with
  | nil => simp [ofTexts, SortedSet.mem_def, EmptyCollection.emptyCollection, empty, SortedSet.empty]
  | append_singleton texts text ih =>
    rw [ofTexts_concat]
    refine SortedSet.mem_insert.trans ?_
    rw [ih]
    simp only [List.mem_append, List.mem_singleton]
    grind

/-- What is kept of the texts: all of them if there is room, and else as many as there is room for,
and not all. -/
structure Keeps (s : StringShape) (texts : List String) : Prop where
  seen : ∀ text ∈ s.literals, text ∈ texts
  room : s.literals.size ≤ maxLiterals
  all : s.overflowed = false → ∀ text ∈ texts, text ∈ s.literals
  full : s.overflowed = true → s.literals.size = maxLiterals ∧ ∃ text ∈ texts, text ∉ s.literals

theorem keeps_ofTexts : (ofTexts texts).Keeps texts := by
  induction texts using List.reverseRecOn with
  | nil => exact ⟨nofun, Nat.zero_le _, fun _ => nofun, nofun⟩
  | append_singleton texts text ih =>
    rw [ofTexts_concat]
    generalize ofTexts texts = s at ih
    by_cases hroom : s.literals.size < maxLiterals
    · -- there is room, so nothing was dropped so far
      have hwhole : s.overflowed = false := Bool.eq_false_iff.2 fun h => by
        have := (ih.full h).1
        omega
      have hliterals : (s.observe text).literals = s.literals.insert text := if_pos hroom
      have hoverflowed : (s.observe text).overflowed = false := by
        simp [observe, hwhole, Nat.not_le.2 hroom]
      refine ⟨fun t ht => ?_, ?_, fun _ t ht => ?_, fun h => by simp [hoverflowed] at h⟩
      · rw [hliterals, SortedSet.mem_insert] at ht
        rcases ht with rfl | ht
        · simp
        · exact List.mem_append_left _ (ih.seen t ht)
      · rw [hliterals]
        exact Nat.le_trans SortedSet.size_insert_le hroom
      · rw [hliterals, SortedSet.mem_insert]
        rcases List.mem_append.1 ht with ht | ht
        · exact .inr (ih.all hwhole t ht)
        · exact .inl (List.mem_singleton.1 ht)
    · have hfull : s.literals.size = maxLiterals := Nat.le_antisymm ih.room (Nat.not_lt.1 hroom)
      have hliterals : (s.observe text).literals = s.literals := if_neg hroom
      have hoverflowed : (s.observe text).overflowed = (s.overflowed || (text ∉ s.literals)) := by
        simp [observe, hfull]
      refine ⟨fun t ht => ?_, hliterals ▸ ih.room, fun h t ht => ?_, fun h => ?_⟩
      · exact List.mem_append_left _ (ih.seen t (hliterals ▸ ht))
      · rw [hoverflowed, Bool.or_eq_false_iff, decide_eq_false_iff_not, not_not] at h
        rw [hliterals]
        rcases List.mem_append.1 ht with ht | ht
        · exact ih.all h.1 t ht
        · exact List.mem_singleton.1 ht ▸ h.2
      · rw [hoverflowed, Bool.or_eq_true, decide_eq_true_eq] at h
        rw [hliterals]
        refine ⟨hfull, ?_⟩
        rcases h with h | h
        · obtain ⟨-, t, ht, hnot⟩ := ih.full h
          exact ⟨t, List.mem_append_left _ ht, hnot⟩
        · exact ⟨text, by simp, h⟩

/-- What is kept is everything, unless there was too much. -/
theorem Keeps.literals_eq {s : StringShape} (h : s.Keeps texts) (hs : s.overflowed = false) :
    s.literals = .ofList texts :=
  SortedSet.ext String.lt_irrefl fun t => by
    rw [SortedSet.mem_ofList]
    exact ⟨h.seen t, h.all hs t⟩

/-- Something was dropped exactly if there were more different texts than are kept. -/
theorem Keeps.overflowed_iff {s : StringShape} (h : s.Keeps texts) :
    s.overflowed = true ↔ maxLiterals < (SortedSet.ofList texts).size := by
  constructor
  · intro hs
    obtain ⟨hfull, t, ht, hnot⟩ := h.full hs
    rw [← hfull]
    refine SortedSet.size_lt_of_subset String.lt_irrefl (fun t ht => ?_)
      (SortedSet.mem_ofList.2 ht) hnot
    exact SortedSet.mem_ofList.2 (h.seen t ht)
  · intro hlt
    by_contra hnot
    rw [← h.literals_eq (Bool.eq_false_iff.2 hnot)] at hlt
    exact Nat.not_lt.2 h.room hlt

/-- **The cases of an enum are read off all texts**, kept or not. -/
theorem closedLabels?_ofTexts : (ofTexts texts).closedLabels? =
    let cases := (SortedSet.ofList texts).toList
    if (ofTexts texts).kind = .string && !cases.isEmpty && cases.length ≤ maxCases &&
        cases.length < texts.length && cases.all Literal.isLabel
    then some cases
    else none := by
  have hkeeps : (ofTexts texts).Keeps texts := keeps_ofTexts
  rw [closedLabels?, observations_ofTexts]
  cases hs : (ofTexts texts).overflowed with
  | false => rw [hkeeps.literals_eq hs, Bool.not_false, Bool.and_true]
  | true =>
    -- too many to be kept are too many for an enum
    have hmany : ¬(SortedSet.ofList texts).toList.length ≤ maxCases := fun hle => by
      have hlt : maxLiterals < (SortedSet.ofList texts).toList.length := hkeeps.overflowed_iff.1 hs
      have hcases : maxCases < maxLiterals := by decide
      omega
    simp [hmany]

end StringShape

/-! ### Places -/

namespace Shape

/-- The shape of a list of values. -/
def ofValues (values : List Json) : Shape := observeItems ∅ values

variable {values : List Json} {value : Json}

theorem observeItems_append {s : Shape} {others : List Json} :
    observeItems s (values ++ others) = observeItems (observeItems s values) others := by
  induction values generalizing s with
  | nil => rfl
  | cons v rest ih => exact ih

theorem ofValues_concat : ofValues (values ++ [value]) = (ofValues values).observe value :=
  observeItems_append

end Shape

/-- The fields of objects with these members. -/
def fieldsOf (members : List (String × Json)) : List FieldShape :=
  (firstSeen members).map fun key =>
    ⟨key, (valuesUnder key members).length, .ofValues (valuesUnder key members)⟩

section Fields

variable {key : String} {keys : List String} {observe : Shape → Shape}
  {fields : List FieldShape} {members others : List (String × Json)}

/-- An update of fields that are listed by key. -/
theorem updateField_map {F F' : String → FieldShape} (hkeys : ∀ k, (F k).key = k)
    (hother : ∀ k ≠ key, F' k = F k)
    (hold : key ∈ keys → F' key = ⟨key, (F key).presentIn + 1, observe (F key).shape⟩)
    (hnew : key ∉ keys → F' key = ⟨key, 1, observe ∅⟩) (hnd : keys.Nodup) :
    updateField key observe (keys.map F) =
      (if key ∈ keys then keys else keys ++ [key]).map F' := by
  induction keys with
  | nil => simp [updateField, hnew]
  | cons k rest ih =>
    obtain ⟨hk, hrest⟩ := List.nodup_cons.1 hnd
    rw [List.map_cons, updateField, hkeys]
    by_cases heq : k = key
    · subst heq
      rw [if_pos rfl, if_pos List.mem_cons_self, List.map_cons, hold List.mem_cons_self]
      refine congrArg _ (List.map_congr_left fun j hj => (hother j fun h => hk (h ▸ hj)).symm)
    · have hmem : key ∈ k :: rest ↔ key ∈ rest := by simp [Ne.symm heq]
      rw [if_neg heq, ih (fun h => hold (hmem.2 h)) (fun h => hnew (mt hmem.1 h)) hrest]
      simp only [hmem]
      split <;> simp [hother k heq]

theorem observeMembers_append :
    observeMembers fields (members ++ others) =
      observeMembers (observeMembers fields members) others := by
  induction members generalizing fields with
  | nil => rfl
  | cons m rest ih => exact ih

/-- **The fields of objects, without a fold.** -/
theorem observeMembers_nil : observeMembers [] members = fieldsOf members := by
  induction members using List.reverseRecOn with
  | nil => rfl
  | append_singleton members m ih =>
    obtain ⟨key, value⟩ := m
    rw [observeMembers_append, ih]
    change updateField key (fun shape => shape.observe value) (fieldsOf members) = _
    rw [fieldsOf, fieldsOf, firstSeen_concat]
    refine updateField_map (fun _ => rfl) (fun k hk => ?_) (fun _ => ?_) (fun hnew => ?_)
      nodup_firstSeen
    · rw [valuesUnder_concat, if_neg (Ne.symm hk)]
    · rw [valuesUnder_concat, if_pos rfl, Shape.ofValues_concat, List.length_append]
      rfl
    · rw [valuesUnder_concat, if_pos rfl, valuesUnder_eq_nil_iff.2 hnew]
      rfl

end Fields

namespace Shape

variable {values : List Json}

/-- A flag that each value of some sort sets. -/
theorem flag_ofValues {flag : Shape → Bool} {p : Json → Bool} (hempty : flag ∅ = false)
    (hstep : ∀ s v, flag (s.observe v) = (flag s || p v)) :
    flag (ofValues values) = values.any p := by
  induction values using List.reverseRecOn with
  | nil => exact hempty
  | append_singleton values v ih => simp [ofValues_concat, hstep, ih]

/-- A part that is there as soon as some value has something for it, and folds what values have. -/
theorem part_ofValues {α β : Type} {part : Shape → Option β} {project : Json → Option α}
    (first : β) (step : β → α → β) (hempty : part ∅ = none)
    (hstep : ∀ s v, part (s.observe v) = match project v with
      | none => part s
      | some a => some (step ((part s).getD first) a)) :
    part (ofValues values) =
      if (values.filterMap project).isEmpty then none
      else some ((values.filterMap project).foldl step first) := by
  induction values using List.reverseRecOn with
  | nil => exact hempty
  | append_singleton values v ih =>
    rw [ofValues_concat, hstep, List.filterMap_append, ih]
    cases hv : project v with
    | none => simp [hv]
    | some a =>
      cases values.filterMap project <;> simp [hv]

theorem array_ofValues : (ofValues values).array =
    if (arraysIn values).isEmpty then none
    else some ⟨(arraysIn values).length, ofValues (arraysIn values).flatten⟩ := by
  have hfold : ∀ (arrays : List (List Json)) (n : Nat) (s : Shape), arrays.foldl
      (fun a items => ⟨a.samples + 1, observeItems a.items items⟩) (ArrayShape.mk n s) =
        ⟨n + arrays.length, observeItems s arrays.flatten⟩ := by
    intro arrays
    induction arrays with
    | nil => exact fun _ _ => rfl
    | cons items rest ih =>
      intro n s
      rw [List.foldl_cons, ih, List.flatten_cons, observeItems_append, List.length_cons]
      exact congrArg (ArrayShape.mk · _) (Nat.add_right_comm n 1 _)
  have hpart : (ofValues values).array = if (values.filterMap Json.items?).isEmpty then none
      else some ((values.filterMap Json.items?).foldl
        (fun a items => ArrayShape.mk (a.samples + 1) (observeItems a.items items)) ⟨0, ∅⟩) :=
    part_ofValues (ArrayShape.mk 0 ∅) _ rfl fun s v => by cases v <;> rfl
  rw [hpart, hfold, Nat.zero_add]
  rfl

theorem object_ofValues : (ofValues values).object =
    if (objectsIn values).isEmpty then none
    else some ⟨(objectsIn values).length, fieldsOf (objectsIn values).flatten⟩ := by
  have hfold : ∀ (objects : List (List (String × Json))) (n : Nat) (fields : List FieldShape),
      objects.foldl (fun o members => ⟨o.seen + 1, observeMembers o.fields members⟩)
        (ObjectShape.mk n fields) = ⟨n + objects.length, observeMembers fields objects.flatten⟩ := by
    intro objects
    induction objects with
    | nil => exact fun _ _ => rfl
    | cons members rest ih =>
      intro n fields
      rw [List.foldl_cons, ih, List.flatten_cons, observeMembers_append, List.length_cons]
      exact congrArg (ObjectShape.mk · _) (Nat.add_right_comm n 1 _)
  have hpart : (ofValues values).object = if (values.filterMap Json.members?).isEmpty then none
      else some ((values.filterMap Json.members?).foldl
        (fun o members => ObjectShape.mk (o.seen + 1) (observeMembers o.fields members)) ⟨0, []⟩) :=
    part_ofValues (ObjectShape.mk 0 []) _ rfl fun s v => by cases v <;> rfl
  rw [hpart, hfold, Nat.zero_add, observeMembers_nil]
  rfl

/-- **A shape without a fold.** -/
theorem ofValues_eq : ofValues values =
    { null := values.any (· matches .null)
      bool := values.any (· matches .bool _)
      integer := values.any (· matches .integer _)
      real := values.any (· matches .real _)
      strings := if (textsIn values).isEmpty then none else some (.ofTexts (textsIn values))
      array := if (arraysIn values).isEmpty then none
        else some ⟨(arraysIn values).length, ofValues (arraysIn values).flatten⟩
      object := if (objectsIn values).isEmpty then none
        else some ⟨(objectsIn values).length, fieldsOf (objectsIn values).flatten⟩ } := by
  have hnull : (ofValues values).null = values.any (· matches .null) :=
    flag_ofValues rfl fun s v => by cases v <;> simp [observe]
  have hbool : (ofValues values).bool = values.any (· matches .bool _) :=
    flag_ofValues rfl fun s v => by cases v <;> simp [observe]
  have hinteger : (ofValues values).integer = values.any (· matches .integer _) :=
    flag_ofValues rfl fun s v => by cases v <;> simp [observe]
  have hreal : (ofValues values).real = values.any (· matches .real _) :=
    flag_ofValues rfl fun s v => by cases v <;> simp [observe]
  have hstrings : (ofValues values).strings =
      if (textsIn values).isEmpty then none else some (.ofTexts (textsIn values)) :=
    part_ofValues ∅ StringShape.observe rfl fun s v => by cases v <;> rfl
  rw [← hnull, ← hbool, ← hinteger, ← hreal, ← hstrings, ← array_ofValues, ← object_ofValues]
  cases ofValues values
  rfl

end Shape

/-! ### Samples -/

namespace Samples

variable {samples : List (String × Json)}

/-- A write to a map that is listed by key. -/
theorem insertEntry_map {α β : Type} [DecidableEq α] {key : α} {value : β} {keys : List α}
    {f f' : α → β} (hother : ∀ k ≠ key, f' k = f k) (hvalue : f' key = value) (hnd : keys.Nodup) :
    insertEntry key value (keys.map fun k => (k, f k)) =
      (if key ∈ keys then keys else keys ++ [key]).map fun k => (k, f' k) := by
  induction keys with
  | nil => simp [insertEntry, hvalue]
  | cons k rest ih =>
    obtain ⟨hk, hrest⟩ := List.nodup_cons.1 hnd
    rw [List.map_cons, insertEntry]
    by_cases heq : k = key
    · subst heq
      rw [if_pos rfl, if_pos List.mem_cons_self, List.map_cons, hvalue]
      refine congrArg _ (List.map_congr_left fun j hj => ?_)
      rw [hother j fun h => hk (h ▸ hj)]
    · have hmem : key ∈ k :: rest ↔ key ∈ rest := by simp [Ne.symm heq]
      rw [if_neg heq, ih hrest]
      simp only [hmem]
      split <;> simp [hother k heq]

/-- **The shapes of samples**, by root. -/
theorem entries_ofList : (ofList samples).roots.entries =
    (firstSeen samples).map fun root => (root, .ofValues (valuesUnder root samples)) := by
  induction samples using List.reverseRecOn with
  | nil => rfl
  | append_singleton samples e ih =>
    obtain ⟨root, value⟩ := e
    have hstep : ofList (samples ++ [(root, value)]) = (ofList samples).observe root value := by
      rw [ofList, List.foldl_append]
      rfl
    have hfind : ((ofList samples).roots.find? root).getD ∅ = .ofValues (valuesUnder root samples) := by
      by_cases hroot : root ∈ firstSeen samples
      · rw [OrderedMap.find?_eq_some_iff.2 (ih ▸ List.mem_map_of_mem hroot), Option.getD_some]
      · have hkeys : (ofList samples).roots.keys = firstSeen samples := by
          rw [OrderedMap.keys, ih, List.map_map]
          exact List.map_id _
        rw [OrderedMap.find?_eq_none_iff.2 (hkeys ▸ hroot), valuesUnder_eq_nil_iff.2 hroot]
        rfl
    rw [hstep, firstSeen_concat]
    change insertEntry root (((ofList samples).roots.find? root).getD ∅ |>.observe value) _ = _
    rw [ih, hfind]
    refine insertEntry_map (fun k hk => ?_) ?_ nodup_firstSeen
    · rw [valuesUnder_concat, if_neg (Ne.symm hk)]
    · rw [valuesUnder_concat, if_pos rfl, Shape.ofValues_concat]

end Samples

end SchemaGraph
