import Mathlib.Data.List.Nodup
import SchemaGraph.Json.Parser
import SchemaGraph.Json.Pointer
import SchemaGraph.Proofs.Conformance

/-!
# What a shape remembers

A shape **covers** a value (`SchemaGraph.Shape.Covers`) if it remembers enough to let the value in:
for objects, that every key is a field, and that a field which no object lacks is there. An
observation covers its value and takes no covered value back
(`SchemaGraph.Shape.observes_of_isValue`), so the shape of samples covers all of them
(`SchemaGraph.Samples.covers_ofList`).

The presence counters carry the argument. A field counts at most as many objects as there were
(`SchemaGraph.ObjectShape.Tallied`), so one that an object lacks can never catch up with the number
of objects again, and a field that comes late starts behind it. This needs the keys of an object to
be distinct, as they are in every value (`SchemaGraph.Json.IsValue`).
-/

namespace SchemaGraph

/-! ### Values -/

/-- No object at any depth repeats a key. -/
inductive Json.IsValue : Json → Prop
  | null : IsValue .null
  | bool (b : Bool) : IsValue (.bool b)
  | integer (n : Int) : IsValue (.integer n)
  | real (literal : String) : IsValue (.real literal)
  | string (text : String) : IsValue (.string text)
  | array {items : List Json} (h : ∀ v ∈ items, IsValue v) : IsValue (.array items)
  | object {members : List (String × Json)} (hkeys : (members.map Prod.fst).Nodup)
      (h : ∀ m ∈ members, IsValue m.2) : IsValue (.object members)

namespace Json

mutual

/-- **What a document means is a value.** -/
theorem isValue_normal : (document : Json) → document.normal.IsValue
  | .null => .null
  | .bool b => .bool b
  | .integer n => .integer n
  | .real literal => .real literal
  | .string text => .string text
  | .array items => .array (isValue_normalItems items)
  | .object members => .object (OrderedMap.ofList _).nodup fun m hm =>
      isValue_normalMembers members m (OrderedMap.mem_of_mem_ofList hm)

theorem isValue_normalItems : (items : List Json) → ∀ v ∈ normalItems items, v.IsValue
  | [] => by simp [normalItems]
  | item :: rest => List.forall_mem_cons.2 ⟨isValue_normal item, isValue_normalItems rest⟩

theorem isValue_normalMembers :
    (members : List (String × Json)) → ∀ m ∈ normalMembers members, m.2.IsValue
  | [] => by simp [normalMembers]
  | (_, value) :: rest => List.forall_mem_cons.2 ⟨isValue_normal value, isValue_normalMembers rest⟩

end

/-- What a text holds is a value. -/
theorem isValue_of_parse {text : String} {v : Json} (h : parse text = some v) : v.IsValue := by
  obtain ⟨document, -, rfl⟩ := Option.map_eq_some_iff.1 h
  exact isValue_normal document

/-- What a pointer leads to in a value is a value. -/
theorem IsValue.of_pointer {pointer : String} {v part : Json} (hv : v.IsValue)
    (h : v.pointer? pointer = some part) : part.IsValue := by
  have hchild : ∀ {v part : Json} {key : String}, v.IsValue → v.child? key = some part →
      part.IsValue := by
    intro v part key hv h
    cases hv with
    | array hitems =>
      obtain ⟨index, -, hindex⟩ := Option.bind_eq_some_iff.1 h
      exact hitems part (List.mem_of_getElem? hindex)
    | @object members hkeys hmembers =>
      have hfind : (⟨members, hkeys⟩ : OrderedMap String Json).find? key = some part := h
      exact hmembers _ (OrderedMap.find?_eq_some_iff.1 hfind)
    | null | bool _ | integer _ | real _ | string _ => cases h
  have hsteps : ∀ (steps : List (List Char)) (v : Json), v.IsValue →
      steps.foldlM (fun value step => value.child? (stepKey step)) v = some part →
        part.IsValue := by
    intro steps
    induction steps with
    | nil => exact fun v hv h => Option.some.inj h ▸ hv
    | cons step rest ih =>
      intro v hv h
      rw [List.foldlM_cons] at h
      obtain ⟨next, hnext, hrest⟩ := Option.bind_eq_some_iff.1 h
      exact ih next (hchild hv hnext) hrest
  rw [pointer?] at h
  split at h
  · exact Option.some.inj h ▸ hv
  · exact hsteps _ v hv h
  · cases h

end Json

/-! ### Strings -/

/-- Every text is of the kind that it is classified as. -/
theorem Literal.accepts_classify (text : String) : (classify text).accepts (.string text) := by
  have hkind : classify text = .string ∨ (classify text).isFormatted = true := by
    rw [classify]
    grind [PrimitiveKind.isFormatted]
  rcases hkind with h | h <;> simp [PrimitiveKind.accepts, h]

namespace StringShape

variable {s : StringShape} {text other : String}

/-- The text is one of those that the shape was made from, as far as it remembers. -/
structure Covers (s : StringShape) (text : String) : Prop where
  kind : Literal.classify text ∈ s.kinds
  literal : s.overflowed = false → text ∈ s.literals

theorem covers_observe : (s.observe text).Covers text where
  kind := SortedSet.mem_insert.2 (.inl rfl)
  literal h := by
    simp only [observe, Bool.or_eq_false_iff, Bool.and_eq_false_iff, decide_eq_false_iff_not] at h ⊢
    by_cases hroom : s.literals.size < maxLiterals
    · rw [if_pos hroom]
      exact SortedSet.mem_insert.2 (.inl rfl)
    · rw [if_neg hroom]
      -- there was no room, so the text is one of those that are there
      rcases h.2 with hfull | hthere
      · omega
      · exact Decidable.not_not.1 hthere

theorem Covers.observe (h : s.Covers text) : (s.observe other).Covers text where
  kind := SortedSet.mem_insert.2 (.inr h.kind)
  literal hoverflowed := by
    simp only [StringShape.observe, Bool.or_eq_false_iff] at hoverflowed ⊢
    have hmem := h.literal hoverflowed.1
    split
    · exact SortedSet.mem_insert.2 (.inr hmem)
    · exact hmem

/-- The kind that is concluded accepts every string that was seen. -/
theorem Covers.accepts_kind (h : s.Covers text) : s.kind.accepts (.string text) := by
  rw [StringShape.kind]
  split
  · next only honly =>
    have hmem := h.kind
    rw [SortedSet.mem_def, honly, List.mem_singleton] at hmem
    exact hmem ▸ Literal.accepts_classify text
  · simp [PrimitiveKind.accepts]

/-- **A closed enum has a case for every string that was seen**: where some were not kept, it is
not closed. -/
theorem Covers.mem_closedLabels {cases : List String} (h : s.Covers text)
    (hcases : s.closedLabels? = some cases) : text ∈ cases := by
  rw [closedLabels?] at hcases
  split at hcases
  · next hclosed =>
    obtain rfl := Option.some.inj hcases
    simp only [Bool.and_eq_true, Bool.not_eq_true'] at hclosed
    exact h.literal hclosed.1.1.1.1.2
  · cases hcases

end StringShape

/-! ### Shapes -/

namespace ObjectShape

/-- There was an object, and no field was counted more often than there were objects. -/
structure Tallied (o : ObjectShape) : Prop where
  seen : 0 < o.seen
  nodup : (o.fields.map FieldShape.key).Nodup
  le_seen : ∀ f ∈ o.fields, f.presentIn ≤ o.seen

end ObjectShape

namespace Shape

/-- The counters at every depth are right. -/
inductive Tallied : Shape → Prop
  | intro {s : Shape} (items : ∀ a, s.array = some a → Tallied a.items)
      (object : ∀ o, s.object = some o → o.Tallied)
      (fields : ∀ o, s.object = some o → ∀ f ∈ o.fields, Tallied f.shape) : Tallied s

section

variable {s : Shape}

theorem Tallied.items (h : s.Tallied) : ∀ a, s.array = some a → a.items.Tallied := by
  obtain ⟨hitems, -, -⟩ := h
  exact hitems

theorem Tallied.object (h : s.Tallied) : ∀ o, s.object = some o → o.Tallied := by
  obtain ⟨-, hobject, -⟩ := h
  exact hobject

theorem Tallied.fields (h : s.Tallied) :
    ∀ o, s.object = some o → ∀ f ∈ o.fields, f.shape.Tallied := by
  obtain ⟨-, -, hfields⟩ := h
  exact hfields

end

theorem tallied_empty : (∅ : Shape).Tallied := .intro nofun nofun nofun

/-- The shape remembers enough of the value. -/
inductive Covers : Shape → Json → Prop
  | null {s : Shape} (h : s.null = true) : Covers s .null
  | bool {s : Shape} {b : Bool} (h : s.bool = true) : Covers s (.bool b)
  | integer {s : Shape} {n : Int} (h : s.integer = true) : Covers s (.integer n)
  | real {s : Shape} {literal : String} (h : s.real = true) : Covers s (.real literal)
  | string {s : Shape} {strings : StringShape} {text : String} (h : s.strings = some strings)
      (hs : strings.Covers text) : Covers s (.string text)
  | array {s : Shape} {a : ArrayShape} {items : List Json} (h : s.array = some a)
      (hitems : ∀ v ∈ items, Covers a.items v) : Covers s (.array items)
  /-- Every key is a field, a field that was always there is there, and the values are covered. -/
  | object {s : Shape} {o : ObjectShape} {members : List (String × Json)} (h : s.object = some o)
      (known : ∀ m ∈ members, m.1 ∈ o.fields.map FieldShape.key)
      (always : ∀ f ∈ o.fields, o.seen ≤ f.presentIn → f.key ∈ members.map Prod.fst)
      (values : ∀ f ∈ o.fields, ∀ m ∈ members, m.1 = f.key → Covers f.shape m.2) :
      Covers s (.object members)

/-- The one shape covers what the other does. -/
def Under (s t : Shape) : Prop := ∀ v : Json, s.Covers v → t.Covers v

end Shape

/-- The one shape of objects knows the keys of the other, takes no more fields for always there, and
covers no fewer values under the known keys. -/
structure ObjectShape.Under (o o' : ObjectShape) : Prop where
  known : ∀ k ∈ o.fields.map FieldShape.key, k ∈ o'.fields.map FieldShape.key
  always : ∀ f' ∈ o'.fields, o'.seen ≤ f'.presentIn →
    ∃ f ∈ o.fields, f.key = f'.key ∧ o.seen ≤ f.presentIn
  values : ∀ f' ∈ o'.fields, f'.key ∈ o.fields.map FieldShape.key →
    ∃ f ∈ o.fields, f.key = f'.key ∧ f.shape.Under f'.shape

namespace Shape

/-- The one shape has the parts of the other, or better ones. -/
structure Grows (s t : Shape) : Prop where
  null : s.null = true → t.null = true := by exact id
  bool : s.bool = true → t.bool = true := by exact id
  integer : s.integer = true → t.integer = true := by exact id
  real : s.real = true → t.real = true := by exact id
  strings : ∀ a, s.strings = some a → ∃ b, t.strings = some b ∧ ∀ text, a.Covers text → b.Covers text
    := by exact fun a h => ⟨a, h, fun _ => id⟩
  array : ∀ a, s.array = some a → ∃ b, t.array = some b ∧ a.items.Under b.items
    := by exact fun a h => ⟨a, h, fun _ => id⟩
  object : ∀ o, s.object = some o → ∃ o', t.object = some o' ∧ o.Under o'
    := by exact fun o h => ⟨o, h, fun _ => id, fun f hf h => ⟨f, hf, rfl, h⟩,
      fun f hf _ => ⟨f, hf, rfl, fun _ => id⟩⟩

/-- With its parts, a shape covers what the other does. -/
theorem Grows.under {s t : Shape} (h : s.Grows t) : s.Under t := by
  intro v hv
  cases hv with
  | null hs => exact .null (h.null hs)
  | bool hs => exact .bool (h.bool hs)
  | integer hs => exact .integer (h.integer hs)
  | real hs => exact .real (h.real hs)
  | string hs htext =>
    obtain ⟨b, hb, hcovers⟩ := h.strings _ hs
    exact .string hb (hcovers _ htext)
  | array hs hitems =>
    obtain ⟨b, hb, hunder⟩ := h.array _ hs
    exact .array hb fun v hv => hunder v (hitems v hv)
  | object hs known always values =>
    obtain ⟨o', ho', hunder⟩ := h.object _ hs
    refine .object ho' (fun m hm => hunder.known _ (known m hm)) (fun f' hf' halways => ?_)
      fun f' hf' m hm hkey => ?_
    · obtain ⟨f, hf, heq, hseen⟩ := hunder.always f' hf' halways
      exact heq ▸ always f hf hseen
    · obtain ⟨f, hf, heq, hvalues⟩ := hunder.values f' hf' (hkey ▸ known m hm)
      exact hvalues _ (values f hf m hm (hkey.trans heq.symm))

/-- What an observation does right: counters stay right, covered values stay covered, and the new
one is covered. -/
structure Observes (s : Shape) (v : Json) : Prop where
  tallied : (s.observe v).Tallied
  under : s.Under (s.observe v)
  covers : (s.observe v).Covers v

end Shape

/-! ### Fields -/

section Fields

variable {fields : List FieldShape} {f' : FieldShape} {key k : String} {observe : Shape → Shape}
  {members : List (String × Json)}

theorem mem_keys_updateField : k ∈ (updateField key observe fields).map FieldShape.key ↔
    k = key ∨ k ∈ fields.map FieldShape.key := by
  induction fields with
  | nil => simp [updateField]
  | cons f rest ih =>
    rw [updateField]
    split
    · next heq => simp [heq]
    · simp only [List.map_cons, List.mem_cons, ih]
      exact or_left_comm

theorem nodup_keys_updateField (h : (fields.map FieldShape.key).Nodup) :
    ((updateField key observe fields).map FieldShape.key).Nodup := by
  induction fields with
  | nil => simp [updateField]
  | cons f rest ih =>
    obtain ⟨hf, hrest⟩ := List.nodup_cons.1 h
    rw [updateField]
    split
    · exact h
    · next hne =>
      refine List.nodup_cons.2 ⟨fun hmem => ?_, ih hrest⟩
      rcases mem_keys_updateField.1 hmem with heq | hmem
      · exact hne heq
      · exact hf hmem

/-- Where a field comes from after the members of one more object. -/
inductive FieldShape.ComesFrom (fields : List FieldShape) (members : List (String × Json)) :
    FieldShape → Prop
  /-- The object does not have it. -/
  | kept {f : FieldShape} (hf : f ∈ fields) (hkey : f.key ∉ members.map Prod.fst) :
      ComesFrom fields members f
  /-- The object has it, as others did before. -/
  | found {f : FieldShape} {m : String × Json} (hf : f ∈ fields) (hm : m ∈ members)
      (hkey : m.1 = f.key) :
      ComesFrom fields members ⟨f.key, f.presentIn + 1, f.shape.observe m.2⟩
  /-- The object is the first to have it. -/
  | new {m : String × Json} (hm : m ∈ members) (hkey : m.1 ∉ fields.map FieldShape.key) :
      ComesFrom fields members ⟨m.1, 1, Shape.observe ∅ m.2⟩

/-- What one member does to the fields. -/
theorem comesFrom_of_mem_updateField {m : String × Json} (hnd : (fields.map FieldShape.key).Nodup)
    (h : f' ∈ updateField m.1 (fun shape => shape.observe m.2) fields) :
    FieldShape.ComesFrom fields [m] f' := by
  induction fields with
  | nil =>
    obtain rfl := List.mem_singleton.1 h
    exact .new (by simp) (by simp)
  | cons f rest ih =>
    obtain ⟨hf, hrest⟩ := List.nodup_cons.1 hnd
    rw [updateField] at h
    split at h
    · next heq =>
      rcases List.mem_cons.1 h with rfl | h
      · exact .found (by simp) (by simp) heq.symm
      · refine .kept (List.mem_cons_of_mem _ h) fun hkey => ?_
        simp only [List.map_cons, List.map_nil, List.mem_singleton] at hkey
        exact hf (heq.trans hkey.symm ▸ List.mem_map_of_mem h)
    · next hne =>
      rcases List.mem_cons.1 h with rfl | h
      · exact .kept (by simp) (by simpa using hne)
      · cases ih hrest h with
        | kept hf' hkey => exact .kept (List.mem_cons_of_mem _ hf') hkey
        | found hf' hm hkey => exact .found (List.mem_cons_of_mem _ hf') hm hkey
        | new hm hkey =>
          obtain rfl := List.mem_singleton.1 hm
          refine .new hm fun hmem => ?_
          rcases List.mem_cons.1 hmem with heq | hmem
          · exact hne heq.symm
          · exact hkey hmem

theorem mem_keys_observeMembers : k ∈ (observeMembers fields members).map FieldShape.key ↔
    k ∈ fields.map FieldShape.key ∨ k ∈ members.map Prod.fst := by
  induction members generalizing fields with
  | nil => simp [observeMembers]
  | cons m rest ih =>
    rw [observeMembers, ih, mem_keys_updateField, List.map_cons, List.mem_cons]
    grind

theorem nodup_keys_observeMembers (h : (fields.map FieldShape.key).Nodup) :
    ((observeMembers fields members).map FieldShape.key).Nodup := by
  induction members generalizing fields with
  | nil => exact h
  | cons m rest ih => exact ih (nodup_keys_updateField h)

/-- **What the members of one object do to the fields.** -/
theorem comesFrom_of_mem_observeMembers (hnd : (fields.map FieldShape.key).Nodup)
    (hkeys : (members.map Prod.fst).Nodup) (h : f' ∈ observeMembers fields members) :
    FieldShape.ComesFrom fields members f' := by
  induction members generalizing fields with
  | nil => exact .kept h (by simp)
  | cons m rest ih =>
    obtain ⟨hm, hrest⟩ := List.nodup_cons.1 hkeys
    rw [observeMembers] at h
    cases ih (nodup_keys_updateField hnd) hrest h with
    | kept hf hkey =>
      -- later members leave the field as the first one does
      cases comesFrom_of_mem_updateField hnd hf with
      | kept hf' hkey' => exact .kept hf' (by simp_all)
      | found hf' hm' hkey' => exact .found hf' (List.mem_cons.2 (.inl (by simpa using hm'))) hkey'
      | new hm' hkey' => exact .new (List.mem_cons.2 (.inl (by simpa using hm'))) hkey'
    | @found f e hf he hkey =>
      have hne : f.key ≠ m.1 := fun heq => hm (heq ▸ hkey ▸ List.mem_map_of_mem he)
      cases comesFrom_of_mem_updateField hnd hf with
      | kept hf' _ => exact .found hf' (List.mem_cons_of_mem _ he) hkey
      | found _ hm' hkey' =>
        obtain rfl := List.mem_singleton.1 hm'
        exact absurd hkey'.symm hne
      | new hm' _ =>
        obtain rfl := List.mem_singleton.1 hm'
        exact absurd rfl hne
    | new he hkey =>
      refine .new (List.mem_cons_of_mem _ he) fun hmem => ?_
      exact hkey (mem_keys_updateField.2 (.inr hmem))

end Fields

/-! ### One more value -/

namespace Shape

variable {s : Shape} {v : Json} {items : List Json} {members : List (String × Json)}

/-- The items of one more array. -/
theorem observes_items (h : ∀ v ∈ items, ∀ s : Shape, s.Tallied → s.Observes v) (hs : s.Tallied) :
    (observeItems s items).Tallied ∧ s.Under (observeItems s items) ∧
      ∀ v ∈ items, (observeItems s items).Covers v := by
  induction items generalizing s with
  | nil => exact ⟨hs, fun _ => id, by simp⟩
  | cons item rest ih =>
    have hitem := h item (by simp) s hs
    obtain ⟨htallied, hunder, hcovers⟩ := ih (fun v hv => h v (by simp [hv])) hitem.tallied
    refine ⟨htallied, fun v hv => hunder v (hitem.under v hv), ?_⟩
    exact List.forall_mem_cons.2 ⟨hunder item hitem.covers, hcovers⟩

end Shape

namespace ObjectShape

variable {o : ObjectShape} {members : List (String × Json)}

/-- The objects with one more. -/
def observe (o : ObjectShape) (members : List (String × Json)) : ObjectShape :=
  ⟨o.seen + 1, observeMembers o.fields members⟩

variable (hnd : (o.fields.map FieldShape.key).Nodup) (hle : ∀ f ∈ o.fields, f.presentIn ≤ o.seen)
  (hkeys : (members.map Prod.fst).Nodup)

include hnd hle hkeys

theorem tallied_observe : (o.observe members).Tallied := by
  refine ⟨Nat.succ_pos _, nodup_keys_observeMembers hnd, fun f hf => ?_⟩
  cases comesFrom_of_mem_observeMembers hnd hkeys hf with
  | kept hf' _ => exact Nat.le_succ_of_le (hle _ hf')
  | found hf' _ _ => exact Nat.succ_le_succ (hle _ hf')
  | new _ _ => exact Nat.succ_le_succ (Nat.zero_le _)

/-- A field that was always there is one of the object's. -/
theorem mem_keys_of_always {f : FieldShape} (hf : f ∈ (o.observe members).fields)
    (halways : (o.observe members).seen ≤ f.presentIn) : f.key ∈ members.map Prod.fst := by
  cases comesFrom_of_mem_observeMembers hnd hkeys hf with
  | kept hf' _ =>
    have := hle _ hf'
    simp only [observe] at halways
    omega
  | found _ hm hkey => exact List.mem_map.2 ⟨_, hm, hkey⟩
  | new hm _ => exact List.mem_map_of_mem hm

/-- What was covered before one more object still is. -/
theorem under_observe (hseen : 0 < o.seen)
    (h : ∀ m ∈ members, ∀ f ∈ o.fields, f.shape.Observes m.2) : o.Under (o.observe members) where
  known _ hk := mem_keys_observeMembers.2 (.inl hk)
  always f' hf' halways := by
    -- a field that the object lacks falls behind, and a new one starts behind
    cases comesFrom_of_mem_observeMembers hnd hkeys hf' with
    | kept hf _ => exact absurd (Nat.le_trans halways (hle _ hf)) (Nat.not_succ_le_self _)
    | found hf _ _ => exact ⟨_, hf, rfl, Nat.le_of_succ_le_succ halways⟩
    | new _ _ => exact absurd (Nat.le_of_succ_le_succ halways) (Nat.not_le_of_lt hseen)
  values f' hf' hk := by
    cases comesFrom_of_mem_observeMembers hnd hkeys hf' with
    | kept hf _ => exact ⟨_, hf, rfl, fun _ => id⟩
    | found hf hm _ => exact ⟨_, hf, rfl, (h _ hm _ hf).under⟩
    | new _ hnew => exact absurd hk hnew

end ObjectShape

namespace Shape

variable {s : Shape} {v : Json} {members : List (String × Json)}

/-- The objects of a shape, and no objects if it has none. -/
def objects (s : Shape) : ObjectShape := s.object.getD ⟨0, []⟩

theorem Tallied.objects (hs : s.Tallied) : (s.objects.fields.map FieldShape.key).Nodup ∧
    (∀ f ∈ s.objects.fields, f.presentIn ≤ s.objects.seen) ∧
      ∀ f ∈ s.objects.fields, f.shape.Tallied := by
  unfold Shape.objects
  cases ho : s.object with
  | none => exact ⟨List.nodup_nil, nofun, nofun⟩
  | some o => exact ⟨(hs.object o ho).nodup, (hs.object o ho).le_seen, hs.fields o ho⟩

/-- One more object. -/
theorem observes_object (h : ∀ m ∈ members, ∀ s : Shape, s.Tallied → s.Observes m.2)
    (hkeys : (members.map Prod.fst).Nodup) (hs : s.Tallied) : s.Observes (.object members) := by
  obtain ⟨hnd, hle, hshapes⟩ := hs.objects
  have hobserve : (s.observe (.object members)).object = some (s.objects.observe members) := rfl
  refine ⟨.intro hs.items ?_ ?_, ?_, ?_⟩
  · rintro _ ⟨⟩
    exact ObjectShape.tallied_observe hnd hle hkeys
  · rintro _ ⟨⟩ f hf
    cases comesFrom_of_mem_observeMembers hnd hkeys hf with
    | kept hf' _ => exact hshapes _ hf'
    | found hf' hm _ => exact (h _ hm _ (hshapes _ hf')).tallied
    | new hm _ => exact (h _ hm _ tallied_empty).tallied
  · refine Grows.under { object := fun o' ho' => ⟨_, hobserve, ?_⟩ }
    have heq : s.objects = o' := by rw [objects, ho', Option.getD_some]
    exact heq ▸ ObjectShape.under_observe hnd hle hkeys (heq ▸ (hs.object o' ho').seen)
      fun m hm f hf => h m hm _ (hshapes f hf)
  · refine .object hobserve (fun m hm => ?_)
      (fun f => ObjectShape.mem_keys_of_always hnd hle hkeys) fun f hf m hm hkey => ?_
    · exact mem_keys_observeMembers.2 (.inr (List.mem_map_of_mem hm))
    · cases comesFrom_of_mem_observeMembers hnd hkeys hf with
      | kept _ hnot => exact absurd (hkey ▸ List.mem_map_of_mem hm) hnot
      | @found f' m' hf' hm' hkey' =>
        obtain rfl : m' = m := List.inj_on_of_nodup_map hkeys hm' hm (hkey'.trans hkey.symm)
        exact (h _ hm _ (hshapes _ hf')).covers
      | @new m' hm' _ =>
        obtain rfl : m' = m := List.inj_on_of_nodup_map hkeys hm' hm hkey.symm
        exact (h _ hm _ tallied_empty).covers

/-- One more array. -/
theorem observes_array {items : List Json} (h : ∀ v ∈ items, ∀ s : Shape, s.Tallied → s.Observes v)
    (hs : s.Tallied) : s.Observes (.array items) := by
  have htallied : (s.array.getD ⟨0, ∅⟩).items.Tallied := by
    cases ha : s.array with
    | none => exact tallied_empty
    | some a => exact hs.items a ha
  obtain ⟨htallied', hunder, hcovers⟩ := observes_items h htallied
  refine ⟨.intro ?_ hs.object hs.fields, ?_, .array rfl hcovers⟩
  · rintro _ ⟨⟩
    exact htallied'
  · refine Grows.under { array := fun a ha => ⟨_, rfl, ?_⟩ }
    simp only [ha, Option.getD_some] at hunder ⊢
    exact hunder

/-- **An observation covers its value and takes none back.** -/
theorem observes_of_isValue (hv : v.IsValue) (hs : s.Tallied) : s.Observes v := by
  induction hv generalizing s with
  | array _ ih => exact observes_array (fun v hv _ => ih v hv) hs
  | object hkeys _ ih => exact observes_object (fun m hm _ => ih m hm) hkeys hs
  | string text =>
    refine ⟨.intro hs.items hs.object hs.fields, ?_, .string rfl StringShape.covers_observe⟩
    refine Grows.under { strings := fun a ha => ⟨_, rfl, fun other hother => ?_⟩ }
    rw [ha]
    exact hother.observe
  | null =>
    exact ⟨.intro hs.items hs.object hs.fields, Grows.under { null := fun _ => rfl }, .null rfl⟩
  | bool b =>
    exact ⟨.intro hs.items hs.object hs.fields, Grows.under { bool := fun _ => rfl }, .bool rfl⟩
  | integer n =>
    exact ⟨.intro hs.items hs.object hs.fields, Grows.under { integer := fun _ => rfl }, .integer rfl⟩
  | real literal =>
    exact ⟨.intro hs.items hs.object hs.fields, Grows.under { real := fun _ => rfl }, .real rfl⟩

end Shape

/-! ### Samples -/

namespace Samples

/-- The samples of a list, in its order. -/
def ofList (samples : List (String × Json)) : Samples :=
  samples.foldl (fun s e => s.observe e.1 e.2) ∅

/-- The shape of each root has right counters, and covers the samples of the root. -/
structure Covers (s : Samples) (samples : List (String × Json)) : Prop where
  tallied : ∀ e ∈ s.roots.entries, e.2.Tallied
  covers : ∀ e ∈ samples, ∃ shape, s.roots.find? e.1 = some shape ∧ shape.Covers e.2

variable {s : Samples} {samples : List (String × Json)}

theorem Covers.observe {root : String} {value : Json} (h : s.Covers samples) (hv : value.IsValue) :
    (s.observe root value).Covers (samples ++ [(root, value)]) := by
  have htallied : ((s.roots.find? root).getD ∅).Tallied := by
    cases hfind : s.roots.find? root with
    | none => exact Shape.tallied_empty
    | some shape => exact h.tallied (root, shape) (OrderedMap.find?_eq_some_iff.1 hfind)
  have hobserves := Shape.observes_of_isValue hv htallied
  have hhere : (s.observe root value).roots.find? root =
      some (((s.roots.find? root).getD ∅).observe value) := by
    rw [Samples.observe, OrderedMap.find?_insert, if_pos rfl]
  constructor
  · rintro ⟨name, shape⟩ hmem
    rcases OrderedMap.eq_or_of_find?_insert (OrderedMap.find?_eq_some_iff.2 hmem) with hold | ⟨-, rfl⟩
    · exact h.tallied _ (OrderedMap.find?_eq_some_iff.1 hold)
    · exact hobserves.tallied
  · intro e he
    rcases List.mem_append.1 he with hold | hnew
    · obtain ⟨shape, hfind, hcovers⟩ := h.covers e hold
      by_cases heq : root = e.1
      · subst heq
        rw [hfind] at hhere hobserves
        exact ⟨_, hhere, hobserves.under _ hcovers⟩
      · refine ⟨shape, ?_, hcovers⟩
        rw [Samples.observe, OrderedMap.find?_insert, if_neg heq, hfind]
    · obtain rfl := List.mem_singleton.1 hnew
      exact ⟨_, hhere, hobserves.covers⟩

/-- **The shapes of samples cover all of them.** -/
theorem covers_ofList (h : ∀ e ∈ samples, e.2.IsValue) : (ofList samples).Covers samples := by
  have hfold : ∀ (rest done : List (String × Json)) (s : Samples), s.Covers done →
      (∀ e ∈ rest, e.2.IsValue) →
        (rest.foldl (fun s e => s.observe e.1 e.2) s).Covers (done ++ rest) := by
    intro rest
    induction rest with
    | nil => exact fun done s hs _ => by simpa using hs
    | cons e rest ih =>
      intro done s hs hrest
      rw [List.append_cons]
      exact ih _ _ (hs.observe (hrest e (by simp))) fun e he => hrest e (by simp [he])
  exact hfold samples [] ∅ ⟨nofun, nofun⟩ h

end Samples

end SchemaGraph
