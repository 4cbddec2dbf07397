import SchemaGraph.Proofs.CanonicalForm
import SchemaGraph.Proofs.Deriving
import SchemaGraph.Proofs.DraftHistory
import SchemaGraph.Proofs.Rebuild.Keeps
import SchemaGraph.Proofs.SubstitutionSafety

/-!
# Stored nodes are in canonical form

Nodes get into a generation in three ways: they are asked for, they are put into the slot of a node
on a cycle, or a slot is forwarded. Whichever it was, every node of a generation is the canonical form
of one that was asked for, but for the indirections (`SchemaGraph.Generation.nodes_canonical`): sorted
properties if the generation sorts them, no case twice, and kinds that have gone through its mapping.
A replacement may build two generations, the second of which has another mapping. It neither sends
kinds through the first one again nor brings them back, since canonical form is brought about once and
for all.

What nodes were asked for is only known up to their children, which a rebuilding replaces; the rest of
a node is its form (`SchemaGraph.Node.form`).
-/

namespace SchemaGraph

variable {m : StringMapping} {a : Bool} {asked good : Node → Prop}

/-! ### Canonical form, piece by piece -/

namespace Node

/-- The second node is the first one in canonical form, whatever the children are: the kind has gone
through the mapping, the properties are the same, and in the order of their names if they are sorted,
and every case is there once, in the order in which they first occur. -/
def Normalizes (m : StringMapping) (a : Bool) : Node → Node → Prop
  | primitive k, primitive k' => k' = m.apply k
  | object ps, object qs =>
    (qs.map fun q => (q.name, q.optional)).Perm (ps.map fun p => (p.name, p.optional)) ∧
      if a then qs.Pairwise (·.name ≤ ·.name)
      else (qs.map fun q => (q.name, q.optional)) = ps.map fun p => (p.name, p.optional)
  | enum cs, enum ds =>
    ds.Nodup ∧ (∀ c, c ∈ ds ↔ c ∈ cs) ∧ ds.Pairwise fun c d => cs.idxOf c < cs.idxOf d
  | array _, array _ | map _, map _ | union _, union _ | intersection _, intersection _ => True
  | _, _ => False

theorem normalizes_of_form {o n : Node} (h : n.form = o.form.canonical m a) : o.Normalizes m a n := by
  have hlabels : ∀ rs : List Property, (rs.map fun p => ({ p with type := default } : Property)).map
      (fun p => (p.name, p.optional)) = rs.map fun p => (p.name, p.optional) := fun rs => by
    simp [Function.comp_def]
  cases o with
  | object ps =>
    cases a with
    | false =>
      cases n with
      | object qs =>
        have hsame := congrArg (List.map fun p => (p.name, p.optional)) (object.inj h)
        rw [hlabels, hlabels] at hsame
        exact ⟨.of_eq hsame, hsame⟩
      | _ => simp [form, mapChildren, canonical] at h
    | true =>
      cases n with
      | object qs =>
        have hsorted : (qs.map fun q => ({ q with type := default } : Property)) =
            (ps.map fun p => { p with type := default }).mergeSort fun p q => p.name ≤ q.name :=
          object.inj h
        have hperm := (List.Perm.of_eq hsorted).trans (List.mergeSort_perm _ _)
        have hlabelled := hperm.map fun p => (p.name, p.optional)
        rw [hlabels, hlabels] at hlabelled
        refine ⟨hlabelled, ?_⟩
        have hnames : ((ps.map fun p => ({ p with type := default } : Property)).mergeSort
            fun p q => p.name ≤ q.name).Pairwise fun p q => p.name ≤ q.name := pairwise_mergeSort_text
        rw [← hsorted, List.pairwise_map] at hnames
        exact hnames
      | _ => simp [form, mapChildren, canonical] at h
  | enum cs =>
    cases n with
    | enum ds =>
      obtain rfl : ds = cs.eraseDups := enum.inj h
      exact ⟨Digraph.nodup_eraseDups cs, fun c => List.mem_eraseDups, pairwise_idxOf_eraseDups cs⟩
    | _ => simp [form, mapChildren, canonical] at h
  | _ => cases n <;> simp_all [form, mapChildren, canonical, Normalizes]

end Node

/-! ### What is stored -/

/-- What the operation asks for is among `asked`, if it asks for a node. -/
def Edit.Asks (asked : Node → Prop) : Edit → Prop
  | intern node .. => asked node
  | reserve | annotate .. | bindRoot .. | annotateRoot .. => True

/-- The nodes that the script asks for are among `asked`, whatever it is answered. -/
def Script.Asks {α : Type} (asked : Node → Prop) (script : Script α) : Prop :=
  script.Only (Edit.Asks asked) fun _ => True

/-- The draft has this way to make canonical forms, and the nodes in its slots are among `good`. -/
structure Draft.Stores (m : StringMapping) (a : Bool) (good : Node → Prop) (b : Draft) : Prop where
  mapping : b.mapping = m
  alphabetize : b.alphabetize = a
  nodes : ∀ node, some node ∈ b.slots → good node

theorem Draft.Stores.mono {good' : Node → Prop} {b : Draft} (h : b.Stores m a good)
    (himp : ∀ n, good n → good' n) : b.Stores m a good' :=
  ⟨h.mapping, h.alphabetize, fun node hnode => himp node (h.nodes node hnode)⟩

/-- Every canonical form of what is asked for is among `good`, and so is every indirection. -/
structure Covers (m : StringMapping) (a : Bool) (asked good : Node → Prop) : Prop where
  indirection : ∀ target, good (.indirection target)
  canonical : ∀ o, asked o → ∀ n : Node, n.form = o.form.canonical m a → good n

namespace Covers

variable (h : Covers m a asked good)

include h

theorem tolerates : Draft.Tolerates good (Draft.Stores m a good) where
  reserve hb := ⟨hb.mapping, hb.alphabetize, fun node hnode =>
    hb.nodes node (by simpa using hnode)⟩
  fill {b r n} hb hn := by
    refine ⟨hb.mapping, hb.alphabetize, fun node hnode => ?_⟩
    rcases Array.mem_or_eq_of_mem_setIfInBounds hnode with hold | heq
    · exact hb.nodes node hold
    · obtain rfl := Option.some.inj heq
      exact hn
  identify hb := ⟨hb.mapping, hb.alphabetize, hb.nodes⟩
  forwarded hb := ⟨hb.mapping, hb.alphabetize, hb.nodes⟩
  indirection := h.indirection

omit h in
/-- Attributes are not stored in slots. -/
theorem keeps_addAttributes {r : Ref} {attributes : Attributes} :
    Keeps (fun _ => True) (Draft.Stores m a good) (Build.addAttributes r attributes) := by
  intro b hb
  rw [Build.addAttributes_eq]
  exact Ends.map (Ends.anyhow.mono fun _ _ => ⟨hb.mapping, hb.alphabetize, hb.nodes⟩)

omit h in
theorem keeps_addRootAttributes {root : String} {attributes : Attributes} :
    Keeps (fun _ => True) (Draft.Stores m a good) (Build.addRootAttributes root attributes) :=
  fun _ hb => Ends.anyhow.bind fun _ _ => ⟨hb.mapping, hb.alphabetize, hb.nodes⟩

omit h in
theorem keeps_addRoot {root : String} {r : Ref} :
    Keeps (fun _ => True) (Draft.Stores m a good) (Build.addRoot root r) := by
  intro b hb
  refine Ends.anyhow.bind fun _ _ => ?_
  split
  · split
    · exact hb
    · trivial
  · exact ⟨hb.mapping, hb.alphabetize, hb.nodes⟩

/-- What is stored for a node with the form of one that was asked for. -/
theorem of_canonical {b : Draft} {o node n : Node} (ho : asked o) (hform : node.form = o.form)
    (hb : b.Stores m a good) (hn : b.canonical node = .ok n) : good n := by
  refine h.canonical o ho n ?_
  rw [Draft.eq_canonical_of_ok hn, hb.mapping, hb.alphabetize, Node.form_canonical, hform]

theorem keeps_edit {edit : Edit} (hedit : edit.Asks asked) :
    Keeps (fun _ => True) (Draft.Stores m a good) edit.run := by
  cases edit with
  | reserve => exact Build.keeps_reserve h.tolerates
  | intern node attributes forwarding =>
    exact Build.keeps_intern (fun _ _ => trivial) h.tolerates
      (fun _ _ hb hn => h.of_canonical hedit rfl hb hn) (fun _ => keeps_addAttributes)
      fun _ _ => keeps_addAttributes
  | annotate r attributes => exact keeps_addAttributes
  | bindRoot root r => exact keeps_addRoot
  | annotateRoot root attributes => exact keeps_addRootAttributes

end Covers

/-! ### Runs of operations -/

/-- A call of the list asked for the node. -/
def AskedIn (calls : List Call) (o : Node) : Prop :=
  ∃ attributes forwarding answer, ⟨.intern o attributes forwarding, answer⟩ ∈ calls

/-- An indirection, or the canonical form of one that was asked for, whatever the children are. -/
def CanonicalOf (m : StringMapping) (a : Bool) (asked : Node → Prop) (n : Node) : Prop :=
  n.kind = .intersection ∨ ∃ o, asked o ∧ n.form = o.form.canonical m a

theorem covers_canonicalOf : Covers m a asked (CanonicalOf m a asked) where
  indirection _ := .inl rfl
  canonical o ho _ hn := .inr ⟨o, ho, hn⟩

theorem CanonicalOf.mono {asked' : Node → Prop} {n : Node} (h : CanonicalOf m a asked n)
    (himp : ∀ o, asked o → asked' o) : CanonicalOf m a asked' n :=
  h.imp_right fun ⟨o, ho, hn⟩ => ⟨o, himp o ho, hn⟩

/-- **A run of operations stores canonical forms of what its calls ask for.** The induction is on the
run. -/
theorem Draft.Runs.stores {start b : Draft} {calls : List Call} (hstart : start.Fresh)
    (h : start.Runs calls b) :
    b.Stores start.mapping start.alphabetize
      (CanonicalOf start.mapping start.alphabetize (AskedIn calls)) := by
  induction h with
  | nil => exact ⟨rfl, rfl, fun node hnode => by simp [hstart.slots] at hnode⟩
  | @call calls b c e answer h hrun ih =>
    have hold : ∀ o, AskedIn calls o → AskedIn (calls ++ [⟨e, answer⟩]) o :=
      fun o ⟨attributes, forwarding, r, hr⟩ => ⟨attributes, forwarding, r, List.mem_append_left _ hr⟩
    have hedit : e.Asks (AskedIn (calls ++ [⟨e, answer⟩])) := by
      cases e with
      | intern node attributes forwarding => exact ⟨attributes, forwarding, answer, by simp⟩
      | _ => trivial
    exact (covers_canonicalOf.keeps_edit hedit b (ih.mono fun n hn => hn.mono hold)).of_eq_ok hrun

/-! ### Derivations -/

namespace Derivation

open Rebuild

variable {d : Derivation}

section Scripts

variable (hscripts : ∀ group ∈ d.plan.groups, ∀ slot, (group.script slot).Asks asked)
  (hgood : Covers d.mapping d.alphabetize (fun o => o ∈ d.old.nodes ∨ asked o) good)

include hscripts hgood

theorem keeps_runScript {visit : Ref → Rebuild Ref} {group : Group} {slot : Ref}
    (hvisit : ∀ r, KeepsDraft (fun _ => True) (Draft.Stores d.mapping d.alphabetize good) (visit r))
    (hgroup : group ∈ d.plan.groups) :
    KeepsDraft (fun _ => True) (Draft.Stores d.mapping d.alphabetize good)
      (runScript visit (group.script slot)) := by
  refine keepsDraft_runScript hvisit (fun edit hedit => ?_) (hscripts group hgroup slot)
  have hasked : Covers d.mapping d.alphabetize asked good :=
    ⟨hgood.indirection, fun o ho => hgood.canonical o (.inr ho)⟩
  exact hasked.keeps_edit hedit

theorem keeps_visit (depth : Nat) (path : List Nat) (r : Ref) :
    KeepsDraft (fun _ => True) (Draft.Stores d.mapping d.alphabetize good) (d.visit depth path r) := by
  refine keepsDraft_visit (fun _ _ => trivial) hgood.tolerates (fun old node settled hnode hform => ?_)
    (fun _ hvisit _ hgroup _ => keeps_runScript hscripts hgood hvisit hgroup) depth path r
  have hold : node ∈ d.old.nodes := Array.mem_of_getElem? hnode
  refine keepsDraft_settle (fun _ _ => trivial) hgood.tolerates
    (fun _ _ hb hn => hgood.of_canonical (.inl hold) hform hb hn)
    (Ends.anyhow.mono fun _ _ _ => Covers.keeps_addAttributes) fun _ _ => Covers.keeps_addAttributes

/-- **A derivation stores canonical forms** of old nodes and of what its scripts ask for. -/
theorem run_stores :
    Ends d.run (fun _ => True) fun w => w.draft.Stores d.mapping d.alphabetize good := by
  rw [run]
  split
  · trivial
  · have hvisit := keeps_visit hscripts hgood (d.old.size + d.plan.groups.length + 1) []
    have hall : KeepsDraft (fun _ => True) (Draft.Stores d.mapping d.alphabetize good) d.rebuildAll :=
      keepsDraft_rebuildAll (fun _ _ => trivial) hvisit
        (fun _ _ hgroup => keepsDraft_runGroup (fun _ _ => trivial) hgood.tolerates fun _ =>
          keeps_runScript hscripts hgood hvisit hgroup)
        (fun _ _ => Covers.keeps_addRoot) fun _ _ => Covers.keeps_addRootAttributes
    have hstart : d.workspace.draft.Stores d.mapping d.alphabetize good :=
      ⟨rfl, rfl, fun node hnode => by simp [workspace, Draft.ofGeneration] at hnode⟩
    exact (hall d.workspace hstart).bind fun _ h => h

end Scripts

end Derivation

/-! ### Generations -/

namespace Generation

variable {g : Generation} {settings : Settings} {force : Bool}

theorem good_of_ofDraft {b : Draft} (hb : b.Stores m a good) :
    Ends (ofDraft b) (fun _ => True) fun built => ∀ n ∈ built.nodes, good n := by
  refine Ends.self.mono fun built hbuilt n hn => hb.nodes n ?_
  rw [(of_ofDraft hbuilt).2.1]
  exact Array.mem_map_of_mem hn

theorem derive_good {plan : Plan} {accept : Workspace → Except Fault Unit}
    (hscripts : ∀ group ∈ plan.groups, ∀ slot, (group.script slot).Asks asked)
    (hgood : Covers settings.mapping settings.alphabetize (fun o => o ∈ g.nodes ∨ asked o) good) :
    (g.derive plan settings accept).Ends (fun _ => True) (fun _ => True) fun out =>
      ∀ n ∈ out.1.nodes, good n := by
  have hrun : Ends (g.derivation plan settings).run (fun _ => True) _ :=
    Derivation.run_stores (d := g.derivation plan settings) hscripts hgood
  refine derive_ends_of Ends.anyhow (hrun.mono fun w hw => ⟨Ends.anyhow, ?_⟩)
  refine (good_of_ofDraft hw).mono fun built hbuilt => ⟨Ends.anyhow, ?_⟩
  refine Ends.anyhow.mono fun found _ => ?_
  cases found with
  | some e => trivial
  | none => exact hbuilt

theorem substitute_good {map : OrderedMap Ref Ref}
    (hgood : Covers settings.mapping settings.alphabetize (· ∈ g.nodes) good) :
    (g.substitute settings map force).Ends (fun _ => True) (fun _ => True) fun out =>
      ∀ h, out = .derived h → ∀ n ∈ h.nodes, good n := by
  rw [substitute]
  split
  · exact Transform.ends_pure (by rintro _ ⟨⟩)
  · have hold : Covers settings.mapping settings.alphabetize (fun o => o ∈ g.nodes ∨ False) good :=
      ⟨hgood.indirection, fun o ho => hgood.canonical o (ho.resolve_right id)⟩
    have hderive (accept : Workspace → Except Fault Unit) :
        (g.derive (.substitute map) settings accept).Ends (fun _ => True) (fun _ => True) _ :=
      derive_good (by simp [Plan.groups]) hold
    refine (hderive _).bind fun out hout => Transform.ends_pure fun h heq => ?_
    obtain rfl := Outcome.derived.inj heq
    exact hout

/-- Removing indirections keeps canonical forms as they are, whatever mapping they are due to. -/
theorem removeIndirections_canonicalOf {announce : Bool} (hg : ∀ n ∈ g.nodes, CanonicalOf m a asked n) :
    (g.removeIndirections a announce).Ends (fun _ => True) (fun _ => True) fun out =>
      ∀ n ∈ (out.after g).nodes, CanonicalOf m a asked n := by
  have hgood : Covers .preserving a (· ∈ g.nodes) (CanonicalOf m a asked) := by
    refine ⟨fun _ => .inl rfl, fun o ho n hn => ?_⟩
    rcases hg o ho with hkind | ⟨first, hfirst, hform⟩
    · have hform : n.form.kind = .intersection := by
        rw [hn, Node.kind_canonical_eq_intersection_iff]
        exact Node.kind_mapChildren.trans hkind
      exact .inl (Node.kind_mapChildren.symm.trans hform)
    · refine .inr ⟨first, hfirst, ?_⟩
      rw [hn, hform, Node.canonical_canonical]
  rw [removeIndirections]
  dsimp only
  split
  · exact Transform.ends_pure hg
  · refine (Transform.ends_ofExcept Ends.anyhow).bind fun graph _ => ?_
    split
    · exact fun _ => trivial
    · refine (substitute_good hgood).mono fun out hout => ?_
      cases out with
      | unchanged => exact hg
      | derived h => exact hout h rfl

theorem replace_canonicalOf {groups : List Group}
    (hscripts : ∀ group ∈ groups, ∀ slot, (group.script slot).Asks asked) :
    (g.replace settings groups force).Ends (fun _ => True) (fun _ => True) fun out =>
      ∀ h, out = .derived h → ∀ n ∈ h.nodes,
        CanonicalOf settings.mapping settings.alphabetize (fun o => o ∈ g.nodes ∨ asked o) n := by
  rw [replace]
  split
  · exact Transform.ends_pure (by rintro _ ⟨⟩)
  · have hderive (accept : Workspace → Except Fault Unit) :
        (g.derive (.replace groups) settings accept).Ends (fun _ => True) (fun _ => True) _ :=
      derive_good hscripts covers_canonicalOf
    refine (hderive _).bind ?_
    rintro ⟨new, forwarded⟩ hnew
    cases forwarded with
    | false =>
      refine Transform.ends_pure fun h heq => ?_
      obtain rfl := Outcome.derived.inj heq
      exact hnew
    | true =>
      refine (removeIndirections_canonicalOf hnew).bind fun out hout => Transform.ends_pure ?_
      intro h heq
      obtain rfl := Outcome.derived.inj heq
      exact hout

/-- The nodes of a generation are in canonical form. -/
structure CanonicalFrom (asked : Node → Prop) (m : StringMapping) (a : Bool) (g : Generation) :
    Prop where
  /-- Each of them is an intersection, or what a node that was asked for is in canonical form. -/
  source : ∀ n ∈ g.nodes, n.kind = .intersection ∨ ∃ o, asked o ∧ o.Normalizes m a n
  sorted : a = true → ∀ properties, .object properties ∈ g.nodes →
    properties.Pairwise (·.name ≤ ·.name)
  distinct : ∀ cases, .enum cases ∈ g.nodes → cases.Nodup
  mapped : ∀ k, .primitive k ∈ g.nodes → ∃ k', k = m.apply k'
  plain : m = .plain → ∀ k, .primitive k ∈ g.nodes → k.isFormatted = false

theorem canonicalFrom_of_forall (h : ∀ n ∈ g.nodes, CanonicalOf m a asked n) :
    g.CanonicalFrom asked m a := by
  have hsource : ∀ n ∈ g.nodes, n.kind = .intersection ∨ ∃ o, asked o ∧ o.Normalizes m a n :=
    fun n hn => (h n hn).imp_right fun ⟨o, ho, hform⟩ => ⟨o, ho, Node.normalizes_of_form hform⟩
  have hof : ∀ n ∈ g.nodes, n.kind ≠ .intersection → ∃ o : Node, o.Normalizes m a n := fun n hn hkind =>
    let ⟨o, _, ho⟩ := (hsource n hn).resolve_left hkind
    ⟨o, ho⟩
  have hmapped : ∀ k, .primitive k ∈ g.nodes → ∃ k', k = m.apply k' := by
    intro k hk
    obtain ⟨o, ho⟩ := hof _ hk (by simp [Node.kind])
    cases o with
    | primitive k' => exact ⟨k', ho⟩
    | _ => exact ho.elim
  refine ⟨hsource, fun ha properties hmem => ?_, fun cases hmem => ?_, hmapped, fun hm k hk => ?_⟩
  · obtain ⟨o, ho⟩ := hof _ hmem (by simp [Node.kind])
    cases o with
    | object ps => simpa [ha] using ho.2
    | _ => exact ho.elim
  · obtain ⟨o, ho⟩ := hof _ hmem (by simp [Node.kind])
    cases o with
    | enum cs => exact ho.1
    | _ => exact ho.elim
  · obtain ⟨k', rfl⟩ := hmapped k hk
    rw [hm]
    cases k' <;> rfl

/-- **Every node that is stored is in canonical form**, after any run of operations, any replacement
and any substitution, as the settings have it. What a replacement derives has gone through its mapping
once, also where indirections were removed from it by a second derivation. -/
theorem nodes_canonical :
    (∀ {start b : Draft} {calls : List Call} {g : Generation}, start.Fresh → start.Runs calls b →
      ofDraft b = .ok g → g.CanonicalFrom (AskedIn calls) start.mapping start.alphabetize) ∧
    (∀ {g h : Generation} {settings : Settings} {groups : List Group} {force : Bool}
      {asked : Node → Prop}, (∀ group ∈ groups, ∀ slot, (group.script slot).Asks asked) →
      (g.replace settings groups force).Returns (.derived h) →
        h.CanonicalFrom (fun o => o ∈ g.nodes ∨ asked o) settings.mapping settings.alphabetize) ∧
    ∀ {g h : Generation} {settings : Settings} {map : OrderedMap Ref Ref} {force : Bool},
      (g.substitute settings map force).Returns (.derived h) →
        h.CanonicalFrom (· ∈ g.nodes) settings.mapping settings.alphabetize := by
  refine ⟨fun hstart hruns hfreeze => ?_, fun hscripts hreturns => ?_, fun hreturns => ?_⟩
  · exact canonicalFrom_of_forall ((good_of_ofDraft (hruns.stores hstart)).of_eq_ok hfreeze)
  · exact canonicalFrom_of_forall ((replace_canonicalOf hscripts).of_returns hreturns _ rfl)
  · exact canonicalFrom_of_forall
      ((substitute_good covers_canonicalOf).of_returns hreturns _ rfl)

/-- Where nodes are not marked, a substitution that stays inside the generation returns something. -/
theorem exists_returns_substitute {P : AnyKind → Prop} {map : OrderedMap Ref Ref} (htypes : OneType P)
    (hg : g.store.Among P) (hmap : g.Admits map) (hdo : (map.isEmpty && !force) = false)
    (htrack : g.options.trackProvenance = false) :
    ∃ h, (g.substitute settings map force).Returns (.derived h) := by
  obtain ⟨out, hreturns, _, h, rfl, -⟩ := (substitute_ends_of_admits htypes hg hmap hdo).exists_returns
    (fun _ => id) fun _ hlost => by simp [htrack] at hlost
  exact ⟨h, hreturns⟩

/-- The dates of a diary, with numbers for the days of the week. -/
def diary : Generation where
  options := ⟨false⟩
  nodes := #[.primitive .date, .primitive .integer,
    .object [⟨"on", ⟨0, 0⟩, false⟩, ⟨"day", ⟨0, 1⟩, true⟩]]
  store := .empty 0
  roots := .ofList [("diary", ⟨0, 2⟩)]
  announced := false
  children_inBounds := by decide
  roots_inBounds := by decide

/-- How the nodes of the diary are asked for. -/
def diaryCalls : List Call :=
  [⟨.intern (.primitive .date) ∅ none, ⟨0, 0⟩⟩, ⟨.intern (.primitive .integer) ∅ none, ⟨0, 1⟩⟩,
    ⟨.intern (.object [⟨"on", ⟨0, 0⟩, false⟩, ⟨"day", ⟨0, 1⟩, true⟩]) ∅ none, ⟨0, 2⟩⟩]

/-- The numbers become cases, one of which is there twice. -/
def weekdays : Group where
  members := [⟨0, 1⟩]
  script slot := Script.intern (.enum ["mon", "tue", "mon"]) ∅ (some slot)

/-- The date becomes a string when the diary is built, when its numbers are replaced, and when its
properties are sorted. -/
theorem nodes_canonical_diary :
    (∃ b g, (Draft.ofGeneration 0 ⟨false⟩ .plain false).Runs diaryCalls b ∧ ofDraft b = .ok g ∧
      g.CanonicalFrom (AskedIn diaryCalls) .plain false) ∧
    (∃ h, (diary.replace ⟨"weekdays", .plain, false, false⟩ [weekdays] false).Returns (.derived h) ∧
      h.nodes = #[.primitive .string, .enum ["mon", "tue"],
        .object [⟨"on", ⟨1, 0⟩, false⟩, ⟨"day", ⟨1, 1⟩, true⟩]] ∧
      h.CanonicalFrom (fun o => o ∈ diary.nodes ∨ o = .enum ["mon", "tue", "mon"]) .plain false) ∧
    ∃ h, (diary.substitute ⟨"sort", .plain, true, false⟩ ∅ true).Returns (.derived h) ∧
      h.CanonicalFrom (· ∈ diary.nodes) .plain true := by
  obtain ⟨hbuilt, hreplaced, hsubstituted⟩ := nodes_canonical
  refine ⟨?_, ?_, ?_⟩
  · have hreplay : (((Draft.ofGeneration 0 ⟨false⟩ .plain false).replay diaryCalls).bind fun b =>
        (ofDraft b).toOption).isSome = true := by decide +kernel
    obtain ⟨g, hg⟩ := Option.isSome_iff_exists.1 hreplay
    obtain ⟨b, hb, hfreeze⟩ := Option.bind_eq_some_iff.1 hg
    have hruns : (Draft.ofGeneration 0 ⟨false⟩ .plain false).Runs diaryCalls b :=
      Draft.Runs.nil.replay hb
    have hfreeze : ofDraft b = .ok g := by
      cases h : ofDraft b with
      | error f => simp [h, Except.toOption] at hfreeze
      | ok built => simpa [h, Except.toOption] using hfreeze
    exact ⟨b, g, hruns, hfreeze, hbuilt Draft.fresh_ofGeneration hruns hfreeze⟩
  · have hpasses : (diary.replace ⟨"weekdays", .plain, false, false⟩ [weekdays] false).passes
        (fun out _ => (out.after diary).serial = 1 ∧
          (out.after diary).nodes = #[.primitive .string, .enum ["mon", "tue"],
            .object [⟨"on", ⟨1, 0⟩, false⟩, ⟨"day", ⟨1, 1⟩, true⟩]]) = true := by decide +kernel
    obtain ⟨out, log, hrun, hout⟩ := Transform.exists_of_passes hpasses
    obtain ⟨hserial, hnodes⟩ := of_decide_eq_true hout
    cases out with
    | unchanged => cases hserial
    | derived h =>
      refine ⟨h, ⟨_, log, hrun⟩, hnodes, hreplaced (fun group hgroup slot => ?_) ⟨_, log, hrun⟩⟩
      obtain rfl := List.mem_singleton.1 hgroup
      exact ⟨rfl, fun _ => trivial⟩
  · have hstore : diary.store.Among OwnKind := AttributeStore.among_empty
    have hadmits : diary.Admits ∅ := ⟨nofun, nofun, nofun⟩
    have hsome : ∃ h, (diary.substitute ⟨"sort", .plain, true, false⟩ ∅ true).Returns (.derived h) :=
      exists_returns_substitute oneType_ownKind hstore hadmits rfl rfl
    obtain ⟨h, hreturns⟩ := hsome
    exact ⟨h, hreturns, hsubstituted hreturns⟩

end Generation

end SchemaGraph
