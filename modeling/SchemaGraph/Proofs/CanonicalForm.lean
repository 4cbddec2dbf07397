import Mathlib.Data.List.Nodup
import Mathlib.Data.Set.Basic
import SchemaGraph.Proofs.Collections
import SchemaGraph.Digraph.Basic
import SchemaGraph.Node

/-!
# Children and canonical forms

Replacing the children of a node and bringing it into canonical form do not get in each other's
way: canonical form looks at kinds, names and cases, and a replacement only at references. So
both orders give the same node (`SchemaGraph.Node.canonical_mapChildren`), replacements compose
(`SchemaGraph.Node.mapChildren_mapChildren`), and a node that is in canonical form stays as it is
under a mapping that keeps every kind (`SchemaGraph.Node.canonical_canonical`).

Anything can stand for the children of a node (`SchemaGraph.Node.level`). What confuses no more
children than something else confuses no more nodes (`SchemaGraph.Node.level_eq_of_level_eq`). For
replacements (`SchemaGraph.Node.mapChildren_eq_of_mapChildren_eq`), this is how equality of rebuilt
nodes is carried back to the nodes they come from.
-/

namespace SchemaGraph

/-- The kind and the labels of a node, and what stands for its children: in order, or as a set where
their order means nothing. -/
inductive Level (α : Type)
  | primitive (kind : PrimitiveKind)
  | array (items : α)
  | map (values : α)
  /-- Name, value and whether it is optional, of each property. -/
  | object (properties : List (String × α × Bool))
  | enum (cases : List String)
  | union (members : Set α)
  | intersection (members : Set α)

namespace Node

variable {f g : Ref → Ref} {n n' : Node} {m : StringMapping} {a : Bool}

/-! ### Replacing children -/

theorem mem_children_mapChildren {c : Ref} :
    c ∈ (n.mapChildren f).children ↔ ∃ b ∈ n.children, f b = c := by
  cases n with
  | object properties =>
    simp only [mapChildren, children, List.map_map, List.mem_map, Function.comp_apply]
    constructor
    · rintro ⟨p, hp, rfl⟩
      exact ⟨p.type, ⟨p, hp, rfl⟩, rfl⟩
    · rintro ⟨_, ⟨p, hp, rfl⟩, rfl⟩
      exact ⟨p, hp, rfl⟩
  | _ => simp [mapChildren, children, eq_comm]

/-- Only the images of the children matter. -/
theorem mapChildren_congr (h : ∀ c ∈ n.children, f c = g c) :
    n.mapChildren f = n.mapChildren g := by
  cases n with
  | primitive k => rfl
  | enum cases => rfl
  | array items => simp [mapChildren, h items (by simp [children])]
  | map values => simp [mapChildren, h values (by simp [children])]
  | object properties =>
    refine congrArg object (List.map_congr_left fun p hp => ?_)
    rw [h p.type (List.mem_map_of_mem hp)]
  | union members =>
    exact congrArg (fun rs => union (.ofList rs)) (List.map_congr_left h)
  | intersection members =>
    exact congrArg (fun rs => intersection (.ofList rs)) (List.map_congr_left h)

theorem mapChildren_id : n.mapChildren id = n := by
  have hset : ∀ members : SortedSet Ref, SortedSet.ofList (members.toList.map id) = members :=
    fun members => SortedSet.ext Ref.lt_irrefl fun c => by
      simp [SortedSet.mem_def]
  cases n with
  | object properties => simp [mapChildren]
  | union members => exact congrArg union (hset members)
  | intersection members => exact congrArg intersection (hset members)
  | _ => rfl

theorem mapChildren_mapChildren :
    (n.mapChildren f).mapChildren g = n.mapChildren (g ∘ f) := by
  cases n with
  | primitive k => rfl
  | enum cases => rfl
  | array items => rfl
  | map values => rfl
  | object properties => simp [mapChildren, Function.comp_def]
  | union members => simp only [mapChildren, SortedSet.ofList_map_ofList_map]
  | intersection members => simp only [mapChildren, SortedSet.ofList_map_ofList_map]

/-! ### One level -/

variable {α β : Type} {u : Ref → α} {v : Ref → β}

/-- The level of a node, with `u c` for a child `c`. -/
def level (u : Ref → α) : Node → Level α
  | primitive k => .primitive k
  | array items => .array (u items)
  | map values => .map (u values)
  | object properties => .object (properties.map fun p => (p.name, u p.type, p.optional))
  | enum cases => .enum cases
  | union members => .union {x | ∃ c ∈ members.toList, u c = x}
  | intersection members => .intersection {x | ∃ c ∈ members.toList, u c = x}

theorem members_eq_of_members_eq {cs ds : List Ref}
    (huv : ∀ c ∈ cs, ∀ d ∈ ds, u c = u d → v c = v d)
    (h : {x | ∃ c ∈ cs, u c = x} = {x | ∃ d ∈ ds, u d = x}) :
    {x | ∃ c ∈ cs, v c = x} = {x | ∃ d ∈ ds, v d = x} := by
  refine Set.ext fun x => ⟨?_, ?_⟩
  · rintro ⟨c, hc, rfl⟩
    obtain ⟨d, hd, heq⟩ : u c ∈ {x | ∃ d ∈ ds, u d = x} := h ▸ ⟨c, hc, rfl⟩
    exact ⟨d, hd, (huv c hc d hd heq.symm).symm⟩
  · rintro ⟨d, hd, rfl⟩
    obtain ⟨c, hc, heq⟩ : u d ∈ {x | ∃ c ∈ cs, u c = x} := h ▸ ⟨d, hd, rfl⟩
    exact ⟨c, hc, huv c hc d hd heq⟩

theorem properties_eq_of_properties_eq {ps qs : List Property}
    (huv : ∀ p ∈ ps, ∀ q ∈ qs, u p.type = u q.type → v p.type = v q.type)
    (h : (ps.map fun p => (p.name, u p.type, p.optional)) =
      qs.map fun q => (q.name, u q.type, q.optional)) :
    (ps.map fun p => (p.name, v p.type, p.optional)) =
      qs.map fun q => (q.name, v q.type, q.optional) := by
  induction ps generalizing qs with
  | nil =>
    obtain rfl : qs = [] := by simpa using h.symm
    rfl
  | cons p ps ih =>
    cases qs with
    | nil => simp at h
    | cons q qs =>
      simp only [List.map_cons, List.cons.injEq, Prod.mk.injEq] at h ⊢
      refine ⟨⟨h.1.1, huv p (by simp) q (by simp) h.1.2.1, h.1.2.2⟩, ih ?_ h.2⟩
      exact fun p' hp' q' hq' => huv p' (by simp [hp']) q' (by simp [hq'])

/-- **What tells no more children apart tells no more levels apart.** -/
theorem level_eq_of_level_eq (huv : ∀ c ∈ n.children, ∀ d ∈ n'.children, u c = u d → v c = v d)
    (h : n.level u = n'.level u) : n.level v = n'.level v := by
  cases n <;> cases n' <;> simp only [level, reduceCtorEq] at h ⊢
  case primitive.primitive => exact congrArg _ (Level.primitive.inj h)
  case enum.enum => exact congrArg _ (Level.enum.inj h)
  case array.array =>
    exact congrArg _ (huv _ (by simp [children]) _ (by simp [children]) (Level.array.inj h))
  case map.map =>
    exact congrArg _ (huv _ (by simp [children]) _ (by simp [children]) (Level.map.inj h))
  case object.object =>
    refine congrArg _ (properties_eq_of_properties_eq ?_ (Level.object.inj h))
    exact fun p hp q hq => huv _ (List.mem_map_of_mem hp) _ (List.mem_map_of_mem hq)
  case union.union =>
    exact congrArg _ (members_eq_of_members_eq huv (Level.union.inj h))
  case intersection.intersection =>
    exact congrArg _ (members_eq_of_members_eq huv (Level.intersection.inj h))

theorem members_eq_iff {cs ds : List Ref} :
    ({x | ∃ c ∈ cs, f c = x} = {x | ∃ d ∈ ds, f d = x}) ↔
      SortedSet.ofList (cs.map f) = SortedSet.ofList (ds.map f) := by
  constructor
  · intro h
    refine SortedSet.ofList_congr Ref.lt_irrefl fun x => ?_
    have hx := Set.ext_iff.1 h x
    simpa only [List.mem_map, Set.mem_ofPred_eq] using hx
  · intro h
    refine Set.ext fun x => ?_
    have hx : x ∈ SortedSet.ofList (cs.map f) ↔ x ∈ SortedSet.ofList (ds.map f) := by rw [h]
    simpa only [SortedSet.mem_ofList, List.mem_map, Set.mem_ofPred_eq] using hx

/-- Levels of references are nodes. -/
theorem level_eq_iff : n.level f = n'.level f ↔ n.mapChildren f = n'.mapChildren f := by
  cases n <;> cases n' <;> simp only [level, mapChildren, reduceCtorEq]
  case primitive.primitive => rw [Level.primitive.injEq, primitive.injEq]
  case enum.enum => rw [Level.enum.injEq, enum.injEq]
  case array.array => rw [Level.array.injEq, array.injEq]
  case map.map => rw [Level.map.injEq, map.injEq]
  case object.object ps qs =>
    rw [Level.object.injEq, object.injEq]
    constructor
    · intro h
      have hmap := congrArg (List.map fun t => Property.mk t.1 t.2.1 t.2.2) h
      simpa [Function.comp_def] using hmap
    · intro h
      have hmap := congrArg (List.map fun p => (p.name, p.type, p.optional)) h
      simpa [Function.comp_def] using hmap
  case union.union => rw [Level.union.injEq, union.injEq, members_eq_iff]
  case intersection.intersection => rw [Level.intersection.injEq, intersection.injEq, members_eq_iff]

/-- **A replacement that confuses no more references confuses no more nodes.** -/
theorem mapChildren_eq_of_mapChildren_eq
    (hfg : ∀ c ∈ n.children, ∀ d ∈ n'.children, f c = f d → g c = g d)
    (h : n.mapChildren f = n'.mapChildren f) : n.mapChildren g = n'.mapChildren g :=
  level_eq_iff.1 (level_eq_of_level_eq hfg (level_eq_iff.2 h))

/-! ### Canonical form -/

theorem distinctCases_distinctCases (cases : List String) :
    distinctCases (distinctCases cases) = distinctCases cases :=
  eraseDups_eq_self_of_nodup (Digraph.nodup_eraseDups cases)

theorem mem_children_canonical {c : Ref} : c ∈ (n.canonical m a).children ↔ c ∈ n.children := by
  cases n with
  | object properties => cases a <;> simp [canonical, children]
  | _ => simp [canonical, children]

/-- **Replacing children and bringing into canonical form commute.** -/
theorem canonical_mapChildren : (n.mapChildren f).canonical m a = (n.canonical m a).mapChildren f := by
  cases n with
  | object properties =>
    cases a with
    | false => rfl
    | true =>
      simp only [mapChildren, canonical, if_true]
      have hsort := List.map_mergeSort (l := properties)
        (r := fun p q => decide (p.name ≤ q.name)) (s := fun p q => decide (p.name ≤ q.name))
        (f := fun p => { p with type := f p.type }) fun p _ q _ => rfl
      rw [hsort]
  | _ => rfl

/-- **Canonical form is brought about once and for all**, except for the kinds that a mapping
would move again. -/
theorem canonical_canonical : (n.canonical m a).canonical .preserving a = n.canonical m a := by
  cases n with
  | primitive k => simp only [canonical, StringMapping.apply_preserving]
  | object properties =>
    cases a with
    | false => rfl
    | true =>
      simp only [canonical, if_true]
      refine congrArg object (List.mergeSort_of_pairwise (List.pairwise_mergeSort ?_ ?_ _))
      · intro p q r hpq hqr
        simp only [decide_eq_true_eq] at *
        exact String.le_trans hpq hqr
      · intro p q
        simpa using String.le_total p.name q.name
  | enum cases => simp only [canonical, distinctCases_distinctCases]
  | _ => rfl

/-- The order of properties does not matter where they are sorted. -/
theorem canonical_object_eq_of_perm {ps qs : List Property} (h : ps.Perm qs)
    (hnames : (ps.map Property.name).Nodup) :
    (object ps).canonical m true = (object qs).canonical m true := by
  simp only [canonical, if_true]
  exact congrArg object (mergeSort_eq_of_perm h fun p hp q hq => List.inj_on_of_nodup_map hnames hp hq)

theorem mapChildren_canonical_mapChildren {g : Ref → Ref} :
    (((n.mapChildren f).canonical m a).mapChildren g).canonical .preserving a =
      (n.mapChildren (g ∘ f)).canonical m a := by
  rw [← canonical_mapChildren, canonical_canonical, mapChildren_mapChildren]

/-- The node with its children forgotten. -/
def form (n : Node) : Node := n.mapChildren fun _ => default

@[simp]
theorem form_mapChildren : (n.mapChildren f).form = n.form := mapChildren_mapChildren

@[simp]
theorem form_canonical : (n.canonical m a).form = n.form.canonical m a := canonical_mapChildren.symm

/-! ### Intersections -/

theorem kind_mapChildren : (n.mapChildren f).kind = n.kind := by
  cases n <;> rfl

theorem kind_canonical_preserving : (n.canonical .preserving a).kind = n.kind := by
  cases n with
  | primitive k => rw [canonical, StringMapping.apply_preserving]
  | object properties => cases a <;> rfl
  | _ => rfl

theorem canonical_eq_union_iff {members : SortedSet Ref} :
    n.canonical m a = .union members ↔ n = .union members := by
  cases n with
  | object properties => cases a <;> simp [canonical]
  | _ => simp [canonical]

theorem kind_canonical_eq_intersection_iff :
    (n.canonical m a).kind = .intersection ↔ n.kind = .intersection := by
  cases n with
  | object properties => cases a <;> simp [canonical, kind]
  | _ => simp [canonical, kind]

@[simp]
theorem children_indirection (r : Ref) : (indirection r).children = [r] := rfl

theorem indirectionTarget?_eq_some_iff {r : Ref} :
    n.indirectionTarget? = some r ↔ n = indirection r := by
  constructor
  · intro h
    cases n with
    | intersection members =>
      obtain ⟨list, sorted⟩ := members
      match list with
      | [target] =>
        obtain rfl := Option.some.inj h
        rfl
      | [] | _ :: _ :: _ => simp [indirectionTarget?] at h
    | _ => simp [indirectionTarget?] at h
  · rintro rfl
    rfl

end Node

end SchemaGraph
