import SchemaGraph.Proofs.Rebuild.Groups

/-!
# What a rebuilding keeps

Some facts about the new generation stay true all the time, whatever order things are done in and
whatever scripts there are. To show such a fact it is enough to look at the actions of a rebuilding
one by one (`SchemaGraph.Keeps.bind`), and those that touch the slots are few
(`SchemaGraph.Draft.Tolerates`): what remains is the merging of attributes into nodes, and the scripts
(`SchemaGraph.Derivation.keepsDraft_visit`). A fact about the attributes and the roots
(`SchemaGraph.Draft.OfEntries`) has nothing to do with slots at all.

What faults are met on the way is followed as well, as far as it matters whether it can be the one
that is met when a root is bound (`SchemaGraph.Fault.SparesRoots`), or the one that is met before
indirections are removed: an ordinary fault is neither (`SchemaGraph.Fault.IsOrdinary`).
-/

namespace SchemaGraph

/-- The fault is not that a root is bound already. -/
def Fault.SparesRoots (f : Fault) : Prop := ∀ root bound, f ≠ .rootBound root bound

/-- The fault is neither that a root is bound already, nor that indirections run in circles. -/
def Fault.IsOrdinary : Fault → Prop
  | rootBound _ _ | indirectionCycle => False
  | _ => True

theorem Fault.IsOrdinary.sparesRoots {f : Fault} (h : f.IsOrdinary) : f.SparesRoots := by
  rintro root bound rfl
  exact h

theorem Fault.IsOrdinary.ne_indirectionCycle {f : Fault} (h : f.IsOrdinary) :
    f ≠ .indirectionCycle := by
  rintro rfl
  exact h

theorem Ref.requireSerial_ends {r : Ref} {serial : Nat} :
    Ends (r.requireSerial serial) Fault.IsOrdinary fun _ => r.serial = serial := by
  unfold requireSerial
  split
  · assumption
  · trivial

theorem Generation.nodeAt_ends {g : Generation} {index : Nat} :
    Ends (g.nodeAt index) Fault.IsOrdinary fun node => g.node? index = some node := by
  unfold nodeAt
  split
  · assumption
  · trivial

/-- Whatever the action does to a state in which something holds, it still holds afterwards, unless
there is a fault among `bad`. -/
def Keeps {σ α : Type} (bad : Fault → Prop) (kept : σ → Prop) (x : StateT σ (Except Fault) α) : Prop :=
  ∀ s, kept s → Ends (x s) bad fun out => kept out.2

section Actions

variable {σ α β : Type} {bad : Fault → Prop} {kept : σ → Prop} {x : StateT σ (Except Fault) α}

theorem Keeps.bind {k : α → StateT σ (Except Fault) β} (h : Keeps bad kept x)
    (hk : ∀ a, Keeps bad kept (k a)) : Keeps bad kept (x >>= k) :=
  fun s hs => Ends.bind (h s hs) fun out hout => hk out.1 out.2 hout

theorem Keeps.mono_bad {bad' : Fault → Prop} (h : Keeps bad kept x) (himp : ∀ f, bad f → bad' f) :
    Keeps bad' kept x :=
  fun s hs => Ends.mono_bad (h s hs) himp

theorem keeps_pure {a : α} : Keeps bad kept (pure a) := fun _ hs => hs

theorem keeps_modify {f : σ → σ} (h : ∀ s, kept s → kept (f s)) :
    Keeps bad kept (modify f : StateT σ (Except Fault) PUnit) :=
  fun s hs => h s hs

/-- What is done next may depend on what the state is. -/
theorem keeps_get_bind {k : σ → StateT σ (Except Fault) β}
    (hk : ∀ s, kept s → Keeps bad kept (k s)) : Keeps bad kept (get >>= k) :=
  fun s hs => hk s hs s hs

theorem keeps_lift_bind {a : Except Fault α} {good : α → Prop} {k : α → StateT σ (Except Fault) β}
    (ha : Ends a bad good) (hk : ∀ r, good r → Keeps bad kept (k r)) :
    Keeps bad kept (liftM a >>= k) := by
  intro s hs
  cases a with
  | error f => exact ha
  | ok r => exact hk r ha s hs

theorem keeps_forM {as : List α} {f : α → StateT σ (Except Fault) PUnit}
    (h : ∀ a ∈ as, Keeps bad kept (f a)) : Keeps bad kept (as.forM f) := by
  induction as with
  | nil => exact keeps_pure
  | cons a as ih => exact (h a (by simp)).bind fun _ => ih fun b hb => h b (by simp [hb])

end Actions

/-- What is said of a draft stays true while slots are reserved and filled and identities recorded, if
only nodes among `good` are stored. -/
structure Draft.Tolerates (good : Node → Prop) (kept : Draft → Prop) : Prop where
  reserve : ∀ {b : Draft}, kept b → kept { b with slots := b.slots.push none }
  fill : ∀ {b : Draft} {r : Ref} {n : Node}, kept b → good n →
    kept { b with slots := b.slots.setIfInBounds r.index (some n) }
  identify : ∀ {b : Draft} {identity : Identity} {r : Ref}, kept b →
    kept { b with identities := b.identities.insert identity r }
  forwarded : ∀ {b : Draft}, kept b → kept { b with forwarded := true }
  indirection : ∀ target, good (.indirection target)

/-- What is said of a draft is said of its attributes and its roots. -/
def Draft.OfEntries (kept : Draft → Prop) : Prop :=
  ∀ {b c : Draft}, kept b → c.store = b.store → c.roots = b.roots → kept c

theorem Draft.OfEntries.tolerates {kept : Draft → Prop} (h : Draft.OfEntries kept) :
    Draft.Tolerates (fun _ => True) kept :=
  ⟨fun hb => h hb rfl rfl, fun hb _ => h hb rfl rfl, fun hb => h hb rfl rfl, fun hb => h hb rfl rfl,
    fun _ => trivial⟩

variable {bad : Fault → Prop} {good : Node → Prop} {kept : Draft → Prop}

/-! ### Operations -/

namespace Build

variable {node : Node} {attributes : Attributes} {r slot : Ref} {forwarding : Option Ref}

section Slots

variable (hbad : ∀ f : Fault, f.IsOrdinary → bad f) (hkept : Draft.Tolerates good kept)

include hkept

theorem keeps_reserve : Keeps bad kept reserve := fun _ hb => hkept.reserve hb

theorem keeps_identify {identity : Identity} : Keeps bad kept (identify identity r) :=
  fun _ hb => hkept.identify hb

include hbad

theorem keeps_fill (hnode : good node) : Keeps bad kept (fill r node) := by
  intro b hb
  refine (Ref.requireSerial_ends.mono_bad hbad).bind fun _ _ => ?_
  split
  · exact hbad _ trivial
  · exact hbad _ trivial
  · exact hkept.fill hb hnode

theorem keeps_forward : Keeps bad kept (forward r slot) :=
  (keeps_fill hbad hkept (hkept.indirection slot)).bind fun _ =>
    keeps_modify fun _ hb => hkept.forwarded hb

omit hkept in
theorem canonical_ends {b : Draft} : Ends (b.canonical node) bad fun n => b.canonical node = .ok n := by
  have hends : Ends (b.canonical node) bad fun _ => True := by
    rw [Draft.canonical]
    split
    · next fault hfault =>
      obtain ⟨c, -, hc⟩ := List.exists_of_findSome?_eq_some hfault
      unfold Draft.childFault? at hc
      refine hbad fault ?_
      grind [Fault.IsOrdinary]
    · trivial
  exact hends.with_eq.mono fun _ h => h.1

/-- Finding or making a node keeps what its attributes, and its marker, do not change. -/
theorem keeps_intern (hnode : ∀ b n, kept b → b.canonical node = .ok n → good n)
    (hadd : ∀ r, Keeps bad kept (addAttributes r attributes))
    (hmark : ∀ r index, Keeps bad kept (addAttributes r (.singleton .provenance (.singleton index)))) :
    Keeps bad kept (intern node attributes forwarding) := by
  -- a node that is stored in a slot gets its attributes, and its marker if nodes are marked
  have hstore : ∀ (n : Node) (identity : Identity) (stamps : Bool) (r : Ref), good n →
      Keeps bad kept (do
        fill r n
        identify identity r
        addAttributes r attributes
        if stamps then
          addAttributes r (.singleton .provenance (.singleton r.index))
        return r : Build Ref) := by
    intro n identity stamps r hn
    refine (keeps_fill hbad hkept hn).bind fun _ => (keeps_identify hkept).bind fun _ => ?_
    refine (hadd r).bind fun _ => ?_
    cases stamps with
    | false => exact keeps_pure
    | true => exact (hmark r r.index).bind fun _ => keeps_pure
  rw [intern]
  refine keeps_get_bind fun b hb => keeps_lift_bind (canonical_ends hbad) fun n hn => ?_
  have hgood : good n := hnode b n hb hn
  dsimp only
  split
  · next known _ =>
    refine (hadd known).bind fun _ => ?_
    cases forwarding with
    | none => exact keeps_pure
    | some slot => exact (keeps_forward hbad hkept).bind fun _ => keeps_pure
  · cases forwarding with
    | none => exact (keeps_reserve hkept).bind fun r => hstore _ _ _ r hgood
    | some slot => exact hstore _ _ _ slot hgood

theorem keeps_define (hnode : ∀ b n, kept b → b.canonical node = .ok n → good n)
    (hadd : Keeps bad kept (addAttributes r attributes)) :
    Keeps bad kept (define r node attributes) := by
  rw [define]
  refine keeps_get_bind fun b hb => keeps_lift_bind (canonical_ends hbad) fun n hn => ?_
  have hgood : good n := hnode b n hb hn
  dsimp only
  split
  · exact (keeps_fill hbad hkept hgood).bind fun _ => hadd
  · refine (keeps_identify hkept).bind fun _ => ?_
    exact (keeps_fill hbad hkept hgood).bind fun _ => hadd

end Slots

end Build

/-! ### Rebuilding -/

/-- The script runs only operations among `edits`, whatever it is answered, and gives up only with a
fault among `faults`. -/
def Script.Only {α : Type} (edits : Edit → Prop) (faults : Fault → Prop) : Script α → Prop
  | done _ => True
  | visiting _ next => ∀ r, (next r).Only edits faults
  | editing edit next => edits edit ∧ ∀ answer, (next answer).Only edits faults
  | inspecting next => ∀ b, (next b).Only edits faults
  | remarking _ next | declaringLoss next => next.Only edits faults
  | failing fault => faults fault

namespace Rebuild

/-- What is kept of the new generation alone. -/
abbrev KeepsDraft {α : Type} (bad : Fault → Prop) (kept : Draft → Prop) (x : Rebuild α) : Prop :=
  Keeps bad (fun w => kept w.draft) x

variable {α : Type}

theorem keepsDraft_build {action : Build α} (h : Keeps bad kept action) :
    KeepsDraft bad kept (build action) :=
  fun w hw => ends_build (h w.draft hw)

theorem keepsDraft_placeholder {index : Nat} (hkept : Draft.Tolerates good kept) :
    KeepsDraft bad kept (placeholder index) := by
  refine keeps_get_bind fun w _ => ?_
  split
  · exact keeps_pure
  · refine (keepsDraft_build (Build.keeps_reserve hkept)).bind fun _ => ?_
    exact Keeps.bind (keeps_modify fun _ hw => hw) fun _ => keeps_pure

/-- **A script keeps what its operations and its visits keep.** The induction is on the script. -/
theorem keepsDraft_runScript {visit : Ref → Rebuild Ref} {edits : Edit → Prop}
    (hvisit : ∀ r, KeepsDraft bad kept (visit r)) (hedits : ∀ edit, edits edit → Keeps bad kept edit.run)
    {script : Script α} (h : script.Only edits bad) : KeepsDraft bad kept (runScript visit script) := by
  induction script with
  | done result => exact keeps_pure
  | visiting old next ih => exact (hvisit old).bind fun r => ih r (h r)
  | editing edit next ih => exact (keepsDraft_build (hedits edit h.1)).bind fun a => ih a (h.2 a)
  | inspecting next ih => exact keeps_get_bind fun w _ => ih w.draft (h w.draft)
  | remarking ref next ih => exact Keeps.bind (keeps_modify fun _ hw => hw) fun _ => ih h
  | declaringLoss next ih => exact Keeps.bind (keeps_modify fun _ hw => hw) fun _ => ih h
  | failing fault => exact fun _ _ => h

end Rebuild

namespace Derivation

open Rebuild

variable {d : Derivation} {group : Group} {number : Nat}
  (hbad : ∀ f : Fault, f.IsOrdinary → bad f) (hkept : Draft.Tolerates good kept)

include hbad hkept

/-- Settling a node keeps what its attributes do not change. -/
theorem keepsDraft_settle {old : Ref} {node : Node}
    (hnode : ∀ b n, kept b → b.canonical node = .ok n → good n) (hattributes : Ends (d.attributes old) bad
      fun attributes => ∀ r, Keeps bad kept (Build.addAttributes r attributes))
    (hmark : ∀ r index, Keeps bad kept
      (Build.addAttributes r (.singleton .provenance (.singleton index)))) :
    KeepsDraft bad kept (d.settle old node) := by
  intro w hw
  cases hold : d.attributes old with
  | error f =>
    rw [settle_of_error hold]
    exact hattributes.of_eq_error hold
  | ok attributes =>
    have hadd := hattributes.of_eq_ok hold
    have hstoring : Keeps bad kept (d.storing (w.placeholders.find? old.index) node attributes) := by
      unfold storing
      split
      · exact Build.keeps_intern hbad hkept hnode hadd hmark
      · split
        · exact Build.keeps_intern hbad hkept hnode hadd hmark
        · exact (Build.keeps_define hbad hkept hnode (hadd _)).bind fun _ => keeps_pure
    rw [settle_of_ok hold]
    exact Ends.map (hstoring w.draft hw)

/-- Replacing a group keeps what its script keeps. -/
theorem keepsDraft_runGroup {visit : Ref → Rebuild Ref}
    (hscript : ∀ slot, KeepsDraft bad kept (runScript visit (group.script slot))) :
    KeepsDraft bad kept (d.runGroup visit number group) := by
  rw [runGroup]
  refine (keepsDraft_build (Build.keeps_reserve hkept)).bind fun slot => ?_
  refine Keeps.bind (keeps_forM fun _ _ _ hw => hw) fun _ => ?_
  refine Keeps.bind (keeps_modify fun _ hw => hw) fun _ => ?_
  refine (hscript slot).bind fun r => ?_
  refine keeps_lift_bind (Ref.requireSerial_ends.mono_bad hbad) fun _ _ => ?_
  split
  · exact (keepsDraft_build (Build.keeps_forward hbad hkept)).bind fun _ => keeps_pure
  · exact keeps_pure

/-- **A visit keeps what scripts and the settling of single nodes keep.** The node that is settled is
an old one with other children. The induction is on the depth. -/
theorem keepsDraft_visit
    (hsettle : ∀ old node settled, d.old.node? old.index = some node → settled.form = node.form →
      KeepsDraft bad kept (d.settle old settled))
    (hscripts : ∀ visit, (∀ r, KeepsDraft bad kept (visit r)) → ∀ group ∈ d.plan.groups, ∀ slot,
      KeepsDraft bad kept (runScript visit (group.script slot)))
    (depth : Nat) (path : List Nat) (r : Ref) : KeepsDraft bad kept (d.visit depth path r) := by
  induction depth generalizing path r with
  | zero => exact keepsDraft_placeholder hkept
  | succ depth ih =>
    rw [visit]
    refine keeps_lift_bind (Ref.requireSerial_ends.mono_bad hbad) fun _ _ => ?_
    refine keeps_get_bind fun v _ => ?_
    split
    · exact keeps_pure
    · split
      · next number group found =>
        obtain ⟨j, -, hj, -⟩ := Plan.exists_of_findGroup? found
        exact keepsDraft_runGroup hbad hkept
          (hscripts _ (ih path) group (List.mem_of_getElem? hj))
      · refine keeps_lift_bind (Generation.nodeAt_ends.mono_bad hbad) fun node hnode => ?_
        split
        · exact keepsDraft_placeholder hkept
        · intro w hw
          have hvisit (c : Ref) (v : Workspace) (hv : kept v.draft) :
              Ends (d.visit depth ((d.plan.target r).index :: path) c v) bad fun out =>
                kept out.2.draft :=
            ih _ c v hv
          exact ends_bind (ends_mapChildrenM_of_keeps (fun v => kept v.draft) hvisit hw)
            fun settled v hv => hsettle _ node settled hnode hv.2 v hv.1

omit hkept in
/-- A rebuilding keeps what visits, groups and the binding of roots keep. -/
theorem keepsDraft_rebuildAll (hvisit : ∀ r, KeepsDraft bad kept (d.visitRoot r))
    (hgroups : ∀ number, ∀ group ∈ d.plan.groups,
      KeepsDraft bad kept (d.runGroup d.visitRoot number group))
    (hroot : ∀ name r, Keeps bad kept (Build.addRoot name r))
    (hrootAttributes : ∀ name attributes, Keeps bad kept (Build.addRootAttributes name attributes)) :
    KeepsDraft bad kept d.rebuildAll := by
  rw [rebuildAll]
  refine Keeps.bind (keeps_forM fun e _ => ?_) fun _ => keeps_get_bind fun v _ => ?_
  · refine Keeps.bind (hvisit e.2) fun new => ?_
    exact (keepsDraft_build (hroot e.1 new)).bind fun _ => keepsDraft_build (hrootAttributes e.1 _)
  · refine Keeps.bind (keeps_forM fun e he => ?_) fun _ => keeps_get_bind fun v _ => ?_
    · have hgroup : e.1 ∈ d.plan.groups := List.mem_of_getElem? (mem_pendingGroups he)
      exact Keeps.bind (hgroups e.2 e.1 hgroup) fun _ => keeps_pure
    · split
      · exact keeps_pure
      · exact fun _ _ => hbad _ trivial

end Derivation

end SchemaGraph
