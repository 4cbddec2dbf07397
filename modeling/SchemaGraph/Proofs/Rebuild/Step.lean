import SchemaGraph.Proofs.CanonicalForm
import SchemaGraph.Proofs.Interning
import SchemaGraph.Proofs.Reachability

/-!
# The steps of a rebuilding

While a generation is rebuilt without replacement groups, two things happen to the workspace: a
placeholder is reserved for an old node that a cycle leads back to, and an old node whose children
all have an image is settled. A node is settled in one of four ways, by whether its identity is
known already and whether it has a placeholder. `SchemaGraph.Derivation.Step` lists these
steps with all that they do, so that an invariant of the whole rebuilding is proved once
for each of them and the recursion is not looked at again.

The **image** of an old node (`SchemaGraph.Workspace.image?`) is its counterpart, or its
placeholder while it has none. It never changes once it is there: this is why a node can be stored
while some of its children are placeholders still.
-/

namespace SchemaGraph

/-! ### Images -/

namespace Workspace

/-- What stands for an old node so far: its counterpart, or its placeholder. -/
def image? (w : Workspace) (index : Nat) : Option Ref :=
  (w.counterparts.find? index).or (w.placeholders.find? index)

/-- The workspace in which `new` has become the counterpart of an old node. -/
def settleAs (w : Workspace) (index : Nat) (new : Ref) (draft : Draft) : Workspace :=
  { w with
    draft
    counterparts := w.counterparts.insert index new
    placeholders := w.placeholders.erase index }

variable {w : Workspace} {index k : Nat} {r : Ref} {draft : Draft}

@[simp]
theorem draft_settleAs : (w.settleAs index r draft).draft = draft := rfl

theorem counterparts_settleAs : (w.settleAs index r draft).counterparts.find? k =
    if index = k then some r else w.counterparts.find? k :=
  OrderedMap.find?_insert

theorem placeholders_settleAs : (w.settleAs index r draft).placeholders.find? k =
    if k = index then none else w.placeholders.find? k :=
  OrderedMap.find?_erase

theorem image?_settleAs :
    (w.settleAs index r draft).image? k = if index = k then some r else w.image? k := by
  rw [image?, counterparts_settleAs, placeholders_settleAs, image?]
  grind

theorem image?_eq_none_iff :
    w.image? index = none ↔ w.counterparts.find? index = none ∧ w.placeholders.find? index = none :=
  Option.or_eq_none_iff

theorem image?_of_counterpart (h : w.counterparts.find? index = some r) : w.image? index = some r := by
  rw [image?, h]
  rfl

theorem image?_of_placeholder (hc : w.counterparts.find? index = none)
    (hp : w.placeholders.find? index = some r) : w.image? index = some r := by
  rw [image?, hc, hp]
  rfl

end Workspace

/-! ### Steps -/

namespace Derivation

/-- The index of the old node that is rebuilt where `r` stands. -/
def goal (d : Derivation) (r : Ref) : Nat := (d.plan.target r).index

/-- What stands so far for the old node that is rebuilt where `r` stands. -/
def imageOf (d : Derivation) (w : Workspace) (r : Ref) : Ref := (w.image? (d.goal r)).getD default

/-- The old node at `index` was met, its children have images, and it is to be stored as `node`
with these attributes. -/
structure Ready (d : Derivation) (w : Workspace) (index : Nat) (node : Node)
    (attributes : Attributes) : Prop where
  met : d.old.Visits d.plan.target (d.old.refAt index)
  node : ∃ old, d.old.node? index = some old ∧
    (∀ c ∈ old.children, (w.image? (d.goal c)).isSome) ∧
      node = (old.mapChildren (d.imageOf w)).canonical d.mapping d.alphabetize
  attributes : d.attributes (d.old.refAt index) = .ok attributes

/-- What happens to the workspace while old nodes are rebuilt. -/
inductive Step (d : Derivation) (w : Workspace) : Workspace → Prop
  /-- A placeholder is reserved. -/
  | reserve {index : Nat} (hindex : index < d.old.size) (himage : w.image? index = none) :
    d.Step w { w with
      draft := { w.draft with slots := w.draft.slots.push none }
      placeholders := w.placeholders.insert index w.draft.nextRef }
  /-- A node without a placeholder turns out to be known. -/
  | share {index : Nat} {node : Node} {attributes : Attributes} {known : Ref}
    {store : AttributeStore} (hready : d.Ready w index node attributes)
    (hsettled : w.counterparts.find? index = none) (hplace : w.placeholders.find? index = none)
    (hid : w.draft.identities.find? (node, attributes.identityTexts) = some known)
    (hstore : w.draft.store.Writes known.index attributes store) :
    d.Step w (w.settleAs index known { w.draft with store })
  /-- A node without a placeholder is new. -/
  | store {index : Nat} {node : Node} {attributes : Attributes} {store : AttributeStore}
    (hready : d.Ready w index node attributes)
    (hsettled : w.counterparts.find? index = none) (hplace : w.placeholders.find? index = none)
    (hid : w.draft.identities.find? (node, attributes.identityTexts) = none)
    (hstore : w.draft.store.Writes w.draft.size attributes store) :
    d.Step w (w.settleAs index w.draft.nextRef { w.draft with
      slots := w.draft.slots.push (some node)
      identities := w.draft.identities.insert (node, attributes.identityTexts) w.draft.nextRef
      store })
  /-- A node with a placeholder turns out to be known, and the placeholder becomes an
  indirection. -/
  | fold {index : Nat} {node : Node} {attributes : Attributes} {known slot : Ref}
    {store : AttributeStore} (hready : d.Ready w index node attributes)
    (hsettled : w.counterparts.find? index = none) (hplace : w.placeholders.find? index = some slot)
    (hfolds : d.plan.foldsCycles = true)
    (hid : w.draft.identities.find? (node, attributes.identityTexts) = some known)
    (hstore : w.draft.store.Writes known.index attributes store) :
    d.Step w (w.settleAs index slot { w.draft with
      slots := w.draft.slots.setIfInBounds slot.index (some (.indirection known))
      store
      forwarded := true })
  /-- A node is put behind its placeholder: because it is new, or because it is not looked for. -/
  | fill {index : Nat} {node : Node} {attributes : Attributes} {slot : Ref}
    {store : AttributeStore} (hready : d.Ready w index node attributes)
    (hsettled : w.counterparts.find? index = none) (hplace : w.placeholders.find? index = some slot)
    (hid : d.plan.foldsCycles = true →
      w.draft.identities.find? (node, attributes.identityTexts) = none)
    (hstore : w.draft.store.Writes slot.index attributes store) :
    d.Step w (w.settleAs index slot { w.draft with
      slots := w.draft.slots.setIfInBounds slot.index (some node)
      identities := if w.draft.identities.contains (node, attributes.identityTexts)
        then w.draft.identities
        else w.draft.identities.insert (node, attributes.identityTexts) slot
      store })

/-- The workspaces that a rebuilding goes through: steps are taken, and between them roots are
bound. -/
inductive Grown (d : Derivation) : Workspace → Prop
  | start : d.Grown d.workspace
  | step {w w' : Workspace} (hw : d.Grown w) (h : d.Step w w') : d.Grown w'
  | bindRoots {w : Workspace} (hw : d.Grown w) (roots : OrderedMap String Ref)
    (rootAttributes : OrderedMap String Attributes) :
    d.Grown { w with draft := { w.draft with
      roots, store := { w.draft.store with roots := rootAttributes } } }

end Derivation

/-! ### What steps keep -/

/-- Nothing of the first workspace is taken back in the second one: images, stored nodes and
identities stay. -/
structure Workspace.Grows (w w' : Workspace) : Prop where
  image : ∀ {index r}, w.image? index = some r → w'.image? index = some r
  counterpart : ∀ {index r}, w.counterparts.find? index = some r →
    w'.counterparts.find? index = some r
  holds : ∀ {r node}, w.draft.Holds r node → w'.draft.Holds r node
  identity : ∀ {identity r}, w.draft.identities.find? identity = some r →
    w'.draft.identities.find? identity = some r
  forwarded : w.draft.forwarded = true → w'.draft.forwarded = true

theorem Workspace.Grows.refl (w : Workspace) : w.Grows w :=
  ⟨id, id, id, id, id⟩

theorem Workspace.Grows.trans {w w' w'' : Workspace} (h : w.Grows w') (h' : w'.Grows w'') :
    w.Grows w'' :=
  ⟨h'.image ∘ h.image, h'.counterpart ∘ h.counterpart, h'.holds ∘ h.holds,
    h'.identity ∘ h.identity, h'.forwarded ∘ h.forwarded⟩

/-- The second workspace has what rebuilding nodes leaves alone from the first one: the roots,
and what scripts write. -/
structure Workspace.SameRoots (w w' : Workspace) : Prop where
  roots : w'.draft.roots = w.draft.roots
  rootAttributes : w'.draft.store.roots = w.draft.store.roots
  options : w'.draft.options = w.draft.options
  lossDeclared : w'.lossDeclared = w.lossDeclared
  journal : w'.journal = w.journal

namespace Derivation

variable {d : Derivation} {w w' : Workspace} {index : Nat} {node : Node} {attributes : Attributes}
  {r s : Ref}

theorem imageOf_eq (h : w.image? (d.goal r) = some s) : d.imageOf w r = s := by
  rw [imageOf, h]
  rfl

/-- The image of a reference that has one is the same later on. -/
theorem imageOf_eq_of_grows (h : w.Grows w') (hr : (w.image? (d.goal r)).isSome) :
    d.imageOf w' r = d.imageOf w r := by
  obtain ⟨s, hs⟩ := Option.isSome_iff_exists.1 hr
  rw [imageOf_eq hs, imageOf_eq (h.image hs)]

theorem isSome_of_grows (h : w.Grows w') (hr : (w.image? index).isSome) : (w'.image? index).isSome := by
  obtain ⟨s, hs⟩ := Option.isSome_iff_exists.1 hr
  exact Option.isSome_iff_exists.2 ⟨s, h.image hs⟩

/-- What is ready stays ready, and is still to be stored as the same node. -/
theorem Ready.grow (hready : d.Ready w index node attributes) (h : w.Grows w') :
    d.Ready w' index node attributes := by
  obtain ⟨met, ⟨old, hold, hchildren, rfl⟩, hattributes⟩ := hready
  refine ⟨met, ⟨old, hold, fun c hc => isSome_of_grows h (hchildren c hc), ?_⟩, hattributes⟩
  exact congrArg _ (Node.mapChildren_congr fun c hc =>
    (imageOf_eq_of_grows h (hchildren c hc)).symm)

end Derivation

end SchemaGraph
