import Mathlib.Data.List.Forall2
import SchemaGraph.Transform
import SchemaGraph.Proofs.Collections

/-!
# How computations end

The library's computations are partial: one that builds a generation may meet a fault, and a
transformation may also lose markers. `SchemaGraph.Ends` says both halves of what is known of
such a computation at once, which faults it can meet and what its result satisfies, so that a
proof follows the program step by step (`SchemaGraph.Ends.bind`) whether the statement is about
every result or also about there being one: the latter is the case of no fault at all.

`SchemaGraph.Transform.Ends` is the same for transformations, whatever was logged before.
-/

namespace SchemaGraph

/-- The computation meets a fault among `bad`, or its result is among `good`. -/
def Ends {α : Type} (x : Except Fault α) (bad : Fault → Prop) (good : α → Prop) : Prop :=
  match x with
  | .error f => bad f
  | .ok a => good a

/-- After a result, the computation goes on from it. -/
theorem ok_bind {α β : Type} {a : α} {k : α → Except Fault β} : (Except.ok a >>= k) = k a := rfl

namespace Ends

variable {α β : Type} {x : Except Fault α} {bad : Fault → Prop} {good : α → Prop}

@[simp]
theorem ok_iff {a : α} : Ends (.ok a) bad good ↔ good a := Iff.rfl

@[simp]
theorem error_iff {f : Fault} : Ends (.error f) bad good ↔ bad f := Iff.rfl

/-- What is known of a result that is there. -/
theorem of_eq_ok (h : Ends x bad good) {a : α} (hx : x = .ok a) : good a := by
  rw [hx] at h
  exact h

/-- What is known of a fault that was met. -/
theorem of_eq_error (h : Ends x bad good) {f : Fault} (hx : x = .error f) : bad f := by
  rw [hx] at h
  exact h

/-- A computation that meets no fault has a result. -/
theorem exists_ok (h : Ends x bad good) (hbad : ∀ f, ¬bad f) : ∃ a, x = .ok a ∧ good a := by
  cases x with
  | error f => exact absurd h (hbad f)
  | ok a => exact ⟨a, rfl, h⟩

theorem mono {good' : α → Prop} (h : Ends x bad good) (himp : ∀ a, good a → good' a) :
    Ends x bad good' := by
  cases x with
  | error f => exact h
  | ok a => exact himp a h

theorem mono_bad {bad' : Fault → Prop} (h : Ends x bad good) (himp : ∀ f, bad f → bad' f) :
    Ends x bad' good := by
  cases x with
  | error f => exact himp f h
  | ok a => exact h

/-- What is known of the same computation from two sides. -/
theorem and {good' : α → Prop} (h : Ends x bad good) (h' : Ends x (fun _ => True) good') :
    Ends x bad fun a => good a ∧ good' a := by
  cases x with
  | error f => exact h
  | ok a => exact ⟨h, h'⟩

/-- Nothing need be known of a computation if nothing is asked of it. -/
theorem of_forall (hbad : ∀ f, bad f) (hgood : ∀ a, good a) : Ends x bad good := by
  cases x with
  | error f => exact hbad f
  | ok a => exact hgood a

/-- Every computation ends in some way. -/
theorem anyhow : Ends x (fun _ => True) fun _ => True :=
  of_forall (fun _ => trivial) fun _ => trivial

/-- A computation that goes on with `k` ends as `k` does on what it is handed. -/
theorem bind {good' : β → Prop} {k : α → Except Fault β} (h : Ends x bad good)
    (hk : ∀ a, good a → Ends (k a) bad good') : Ends (x >>= k) bad good' := by
  cases x with
  | error f => exact h
  | ok a => exact hk a h

theorem map {good' : β → Prop} {k : α → β} (h : Ends x bad fun a => good' (k a)) :
    Ends (x.map k) bad good' := by
  cases x with
  | error f => exact h
  | ok a => exact h

/-- What is known of each result is known of the list of the results. -/
theorem mapM_forall₂ {f : α → Except Fault β} {as : List α} {post : α → β → Prop}
    (h : ∀ a ∈ as, Ends (f a) bad (post a)) : Ends (as.mapM f) bad (List.Forall₂ post as) := by
  induction as with
  | nil => exact .nil
  | cons a as ih =>
    rw [List.mapM_cons]
    refine (h a (by simp)).bind fun b hb => ?_
    exact (ih fun a' ha' => h a' (by simp [ha'])).bind fun _ hbs => .cons hb hbs

theorem mapM {f : α → Except Fault β} {as : List α}
    (h : ∀ a ∈ as, Ends (f a) bad fun _ => True) : Ends (as.mapM f) bad fun _ => True :=
  (mapM_forall₂ h).mono fun _ _ => trivial

/-- A fold keeps what each of its steps keeps. -/
theorem foldlM {f : β → α → Except Fault β} {as : List α} {b : β} {kept : β → Prop}
    (hstep : ∀ b, kept b → ∀ a ∈ as, Ends (f b a) bad kept) (hb : kept b) :
    Ends (as.foldlM f b) bad kept := by
  induction as generalizing b with
  | nil => exact hb
  | cons a rest ih =>
    rw [List.foldlM_cons]
    refine (hstep b hb a (by simp)).bind fun b' hb' => ?_
    exact ih (fun c hc d hd => hstep c hc d (by simp [hd])) hb'

/-- All that is known of any computation is that its result is what it is. -/
theorem self : Ends x (fun _ => True) fun a => x = .ok a := by
  cases x with
  | error f => trivial
  | ok a => rfl

theorem with_eq (h : Ends x bad good) : Ends x bad fun a => x = .ok a ∧ good a := by
  cases x with
  | error f => exact h
  | ok a => exact ⟨rfl, h⟩

end Ends

theorem Ref.requireSerial_eq_ok {r : Ref} {serial : Nat} (h : r.serial = serial) :
    r.requireSerial serial = .ok () :=
  if_pos h

namespace Rebuild

variable {α β : Type} {w : Workspace} {bad : Fault → Prop}

/-- An action that goes on with `k`, where its first part gives a result. -/
theorem bind_eq {x : Rebuild α} {k : α → Rebuild β} {a : α} {v : Workspace}
    (h : x w = .ok (a, v)) : (x >>= k) w = k a v := by
  change (x w >>= fun r => k r.1 r.2) = _
  rw [h]
  rfl

/-- An action that goes on with `k` ends as `k` does in the workspace it leaves. -/
theorem ends_bind {x : Rebuild α} {k : α → Rebuild β} {good : α × Workspace → Prop}
    {good' : β × Workspace → Prop} (h : Ends (x w) bad good)
    (hk : ∀ a w', good (a, w') → Ends (k a w') bad good') : Ends ((x >>= k) w) bad good' :=
  Ends.bind h fun r hr => hk r.1 r.2 hr

/-- A value, or a fault. -/
theorem ends_lift {x : Except Fault α} {good : α × Workspace → Prop}
    (h : Ends x bad fun a => good (a, w)) : Ends ((liftM x : Rebuild α) w) bad good := by
  cases x with
  | error f => exact h
  | ok a => exact h

/-- An action that goes on with `k` where a value is there. -/
theorem ends_bind_lift {x : Except Fault α} {k : α → Rebuild β} {good : β × Workspace → Prop}
    (h : Ends x bad fun a => Ends (k a w) bad good) : Ends ((liftM x >>= k : Rebuild β) w) bad good :=
  have hx : Ends ((liftM x : Rebuild α) w) bad fun out => Ends (k out.1 out.2) bad good := ends_lift h
  ends_bind hx fun _ _ hk => hk

theorem build_eq {action : Build α} {a : α} {b : Draft} (h : action w.draft = .ok (a, b)) :
    build action w = .ok (a, { w with draft := b }) := by
  rw [build, h]
  rfl

/-- An action on the new generation alone. -/
theorem ends_build {action : Build α} {good : α × Workspace → Prop}
    (h : Ends (action w.draft) bad fun r => good (r.1, { w with draft := r.2 })) :
    Ends (build action w) bad good :=
  Ends.bind h fun _ hr => hr

/-- Going through a list: what every visit keeps is kept, and what a visit finds out about its
entry is true of the whole result, if later visits do not take it back. -/
theorem ends_mapM {f : α → Rebuild β} {good : Workspace → Prop}
    (post : α → β → Workspace → Prop) {as : List α}
    (hf : ∀ a ∈ as, ∀ w, good w → Ends (f a w) bad fun out =>
      good out.2 ∧ post a out.1 out.2 ∧ ∀ a b, post a b w → post a b out.2) (hw : good w) :
    Ends (as.mapM f w) bad fun out =>
      good out.2 ∧ List.Forall₂ (fun a b => post a b out.2) as out.1 ∧
        ∀ a b, post a b w → post a b out.2 := by
  induction as generalizing w with
  | nil => exact ⟨hw, .nil, fun _ _ => id⟩
  | cons a as ih =>
    rw [List.mapM_cons]
    refine ends_bind (hf a (by simp) w hw) ?_
    rintro b w₁ ⟨hw₁, hb, hkeep⟩
    refine ends_bind (ih (fun a' ha' => hf a' (by simp [ha'])) hw₁) ?_
    rintro bs w₂ ⟨hw₂, hbs, hkeep'⟩
    exact ⟨hw₂, .cons (hkeep' a b hb) hbs, fun a' b' h => hkeep' a' b' (hkeep a' b' h)⟩

/-- Going through a list, where what holds in between is told by what is done. -/
theorem ends_forM {f : α → Rebuild Unit} (inv : List α → Workspace → Prop) {as : List α}
    (hf : ∀ {done a rest}, done ++ a :: rest = as → ∀ w, inv done w →
      Ends (f a w) bad fun out => inv (done ++ [a]) out.2) (hw : inv [] w) :
    Ends (as.forM f w) bad fun out => inv as out.2 := by
  have hlist : ∀ rest done w, done ++ rest = as → inv done w →
      Ends (rest.forM f w) bad fun out => inv as out.2 := by
    intro rest
    induction rest with
    | nil =>
      intro done w hall h
      rw [List.append_nil] at hall
      exact hall ▸ h
    | cons a rest ih =>
      intro done w hall h
      refine ends_bind (hf hall w h) fun _ w' h' => ?_
      exact ih (done ++ [a]) w' (by simp [← hall]) h'
  exact hlist as [] w rfl hw

/-- A list of results that are what the function gives for the entries. -/
theorem eq_map_of_forall₂ {image : Ref → Option Ref} {cs rs : List Ref}
    (h : List.Forall₂ (fun c r => image c = some r) cs rs) :
    (∀ c ∈ cs, (image c).isSome) ∧ rs = cs.map fun c => (image c).getD default := by
  induction h with
  | nil => exact ⟨by simp, rfl⟩
  | cons hc _ ih => exact ⟨List.forall_mem_cons.2 ⟨by simp [hc], ih.1⟩, by simp [hc, ih.2]⟩

/-- The same for properties, of which only the types are replaced. -/
theorem properties_eq_map_of_forall₂ {image : Ref → Option Ref} {ps qs : List Property}
    (h : List.Forall₂ (fun p q => image p.type = some q.type ∧ q = { p with type := q.type }) ps
      qs) :
    (∀ p ∈ ps, (image p.type).isSome) ∧
      qs = ps.map fun p => { p with type := (image p.type).getD default } := by
  induction h with
  | nil => exact ⟨by simp, rfl⟩
  | cons hpq _ ih =>
    obtain ⟨hp, hq⟩ := hpq
    refine ⟨List.forall_mem_cons.2 ⟨by simp [hp], ih.1⟩, ?_⟩
    rw [List.map_cons, ← ih.2, hp]
    exact congrArg (· :: _) hq

/-- Replacing the children of a node: if each child is sent to what the workspace has for it, and
the workspace never changes its mind, the result is the node with these children. -/
theorem ends_mapChildrenM {f : Ref → Rebuild Ref} (good : Workspace → Prop)
    (image : Workspace → Ref → Option Ref) {node : Node}
    (hf : ∀ c ∈ node.children, ∀ w, good w → Ends (f c w) bad fun out =>
      good out.2 ∧ image out.2 c = some out.1 ∧
        ∀ c r, image w c = some r → image out.2 c = some r) (hw : good w) :
    Ends (node.mapChildrenM f w) bad fun out =>
      good out.2 ∧ (∀ c ∈ node.children, (image out.2 c).isSome) ∧
        out.1 = node.mapChildren fun c => (image out.2 c).getD default := by
  cases node with
  | primitive k => exact ⟨hw, by simp [Node.children], rfl⟩
  | enum cases => exact ⟨hw, by simp [Node.children], rfl⟩
  | array items =>
    refine ends_bind (hf items (by simp [Node.children]) w hw) ?_
    rintro r w' ⟨hw', hr, _⟩
    exact ⟨hw', by simp [Node.children, hr], by simp [Node.mapChildren, hr]⟩
  | map values =>
    refine ends_bind (hf values (by simp [Node.children]) w hw) ?_
    rintro r w' ⟨hw', hr, _⟩
    exact ⟨hw', by simp [Node.children, hr], by simp [Node.mapChildren, hr]⟩
  | object properties =>
    let post (p q : Property) (w : Workspace) : Prop :=
      image w p.type = some q.type ∧ q = { p with type := q.type }
    have hone : ∀ p ∈ properties, ∀ w, good w →
        Ends ((do return { p with type := ← f p.type } : Rebuild Property) w) bad fun out =>
          good out.2 ∧ post p out.1 out.2 ∧ ∀ p q, post p q w → post p q out.2 := by
      intro p hp w hw
      have hmem : p.type ∈ (Node.object properties).children := List.mem_map_of_mem hp
      refine ends_bind (hf p.type hmem w hw) ?_
      rintro r w' ⟨hw', hr, hkeep⟩
      exact ⟨hw', ⟨hr, rfl⟩, fun p q h => ⟨hkeep _ _ h.1, h.2⟩⟩
    refine ends_bind (ends_mapM post hone hw) ?_
    rintro qs w' ⟨hw', hqs, _⟩
    obtain ⟨hsome, hqs⟩ := properties_eq_map_of_forall₂ hqs
    refine ⟨hw', fun c hc => ?_, congrArg Node.object hqs⟩
    obtain ⟨p, hp, rfl⟩ := List.mem_map.1 hc
    exact hsome p hp
  | union members =>
    refine ends_bind (ends_mapM (fun c r w => image w c = some r) hf hw) ?_
    rintro rs w' ⟨hw', hrs, _⟩
    obtain ⟨hsome, hrs⟩ := eq_map_of_forall₂ hrs
    exact ⟨hw', hsome, congrArg (fun rs => Node.union (.ofList rs)) hrs⟩
  | intersection members =>
    refine ends_bind (ends_mapM (fun c r w => image w c = some r) hf hw) ?_
    rintro rs w' ⟨hw', hrs, _⟩
    obtain ⟨hsome, hrs⟩ := eq_map_of_forall₂ hrs
    exact ⟨hw', hsome, congrArg (fun rs => Node.intersection (.ofList rs)) hrs⟩

/-- Replacing the children of a node keeps what every visit keeps, and changes nothing about the node
but its children. -/
theorem ends_mapChildrenM_of_keeps {f : Ref → Rebuild Ref} (good : Workspace → Prop)
    (hf : ∀ c w, good w → Ends (f c w) bad fun out => good out.2) {node : Node} (hw : good w) :
    Ends (node.mapChildrenM f w) bad fun out =>
      good out.2 ∧ (out.1.mapChildren fun _ => default) = node.mapChildren fun _ => default := by
  have hlist : ∀ {α β : Type} {f : α → Rebuild β} {as : List α} (post : α → β → Prop),
      (∀ a w, good w → Ends (f a w) bad fun out => good out.2 ∧ post a out.1) →
        Ends (as.mapM f w) bad fun out => good out.2 ∧ List.Forall₂ post as out.1 := by
    intro α β f as post hf
    refine (ends_mapM (fun a b _ => post a b) (fun a _ w hw => ?_) hw).mono fun _ h => ⟨h.1, h.2.1⟩
    exact (hf a w hw).mono fun _ h => ⟨h.1, h.2, fun _ _ => id⟩
  have hrefs : ∀ {as : List Ref}, Ends (as.mapM f w) bad fun out => good out.2 ∧
      (out.1.map fun _ => (default : Ref)) = as.map fun _ => default := fun {as} => by
    refine (hlist (fun _ _ => True) fun c w hw => (hf c w hw).mono fun _ h => ⟨h, trivial⟩).mono ?_
    exact fun out h => ⟨h.1, by simp [List.map_const', h.2.length_eq]⟩
  have hset : ∀ {rs as : List Ref}, (rs.map fun _ => (default : Ref)) = as.map (fun _ => default) →
      SortedSet.ofList ((SortedSet.ofList rs).toList.map fun _ => (default : Ref)) =
        .ofList (as.map fun _ => default) := fun {rs as} h => by
    rw [← h]
    simpa using SortedSet.ofList_map_ofList_map id (fun _ => default) rs
  cases node with
  | primitive k => exact ⟨hw, rfl⟩
  | enum cases => exact ⟨hw, rfl⟩
  | array items => exact ends_bind (hf items w hw) fun _ _ hw' => ⟨hw', rfl⟩
  | map values => exact ends_bind (hf values w hw) fun _ _ hw' => ⟨hw', rfl⟩
  | object properties =>
    let forget (p : Property) : Property := { p with type := default }
    refine ends_bind (hlist (fun p q => forget q = forget p) fun p w hw => ?_) fun qs _ hqs => ?_
    · exact ends_bind (hf p.type w hw) fun _ _ hw' => ⟨hw', rfl⟩
    · refine ⟨hqs.1, congrArg Node.object ?_⟩
      have hforget : ∀ {ps qs : List Property}, List.Forall₂ (fun p q => forget q = forget p) ps qs →
          qs.map forget = ps.map forget := fun h => by
        induction h with
        | nil => rfl
        | cons hpq _ ih => rw [List.map_cons, List.map_cons, hpq, ih]
      exact hforget hqs.2
  | union members =>
    exact ends_bind hrefs fun rs _ h => ⟨h.1, congrArg Node.union (hset h.2)⟩
  | intersection members =>
    exact ends_bind hrefs fun rs _ h => ⟨h.1, congrArg Node.intersection (hset h.2)⟩

end Rebuild

namespace Transform

variable {α β : Type}

/-- The transformation meets a fault among `bad`, loses markers among `lost`, or its result is
among `good`, whatever was logged before. -/
def Ends (t : Transform α) (bad : Fault → Prop) (lost : LostMarkers → Prop)
    (good : α → Prop) : Prop :=
  ∀ log, SchemaGraph.Ends (t.run.run log) bad fun out =>
    match out.1 with
    | .error e => lost e
    | .ok a => good a

/-- The transformation can return `a`. -/
def Returns (t : Transform α) (a : α) : Prop :=
  ∃ log log', t.run.run log = .ok (.ok a, log')

variable {t : Transform α} {bad : Fault → Prop} {lost : LostMarkers → Prop} {good : α → Prop}

/-- What is known of a result that is returned. -/
theorem Ends.of_returns (h : t.Ends bad lost good) {a : α} (ha : t.Returns a) : good a := by
  obtain ⟨log, log', ha⟩ := ha
  exact (h log).of_eq_ok ha

/-- A transformation that meets no fault and loses no marker returns something. -/
theorem Ends.exists_returns (h : t.Ends bad lost good) (hbad : ∀ f, ¬bad f)
    (hlost : ∀ e, ¬lost e) : ∃ a, t.Returns a ∧ good a := by
  have hrun := h ⟨"", []⟩
  cases ht : t.run.run ⟨"", []⟩ with
  | error f => exact absurd (hrun.of_eq_error ht) (hbad f)
  | ok out =>
    obtain ⟨_ | a, log⟩ := out
    · exact absurd (hrun.of_eq_ok ht) (hlost _)
    · exact ⟨a, ⟨_, log, ht⟩, hrun.of_eq_ok ht⟩

theorem Ends.mono {good' : α → Prop} (h : t.Ends bad lost good)
    (himp : ∀ a, good a → good' a) : t.Ends bad lost good' := by
  refine fun log => (h log).mono ?_
  rintro ⟨_ | a, _⟩ ha
  · exact ha
  · exact himp a ha

theorem Ends.mono_bad {bad' : Fault → Prop} (h : t.Ends bad lost good)
    (himp : ∀ f, bad f → bad' f) : t.Ends bad' lost good :=
  fun log => SchemaGraph.Ends.mono_bad (h log) himp

theorem Ends.mono_lost {lost' : LostMarkers → Prop} (h : t.Ends bad lost good)
    (himp : ∀ e, lost e → lost' e) : t.Ends bad lost' good := by
  refine fun log => (h log).mono ?_
  rintro ⟨e | a, _⟩ hout
  · exact himp e hout
  · exact hout

theorem Ends.and {lost' : LostMarkers → Prop} {good' : α → Prop} (h : t.Ends bad lost good)
    (h' : t.Ends (fun _ => True) lost' good') :
    t.Ends bad (fun e => lost e ∧ lost' e) fun a => good a ∧ good' a := by
  refine fun log => (SchemaGraph.Ends.and (h log) (h' log)).mono ?_
  rintro ⟨_ | a, _⟩ hout
  · exact hout
  · exact hout

/-- Every transformation ends in some way. -/
theorem ends_anyhow : t.Ends (fun _ => True) (fun _ => True) fun _ => True :=
  fun _ => SchemaGraph.Ends.self.mono fun out _ => by cases out.1 <;> trivial

theorem ends_pure {a : α} (h : good a) : Transform.Ends (pure a) bad lost good :=
  fun _ => h

/-- A transformation that goes on with `k` ends as `k` does on what it is handed. -/
theorem Ends.bind {good' : β → Prop} {k : α → Transform β} (h : t.Ends bad lost good)
    (hk : ∀ a, good a → (k a).Ends bad lost good') : (t >>= k).Ends bad lost good' := by
  refine fun log => SchemaGraph.Ends.bind (h log) ?_
  rintro ⟨_ | a, log'⟩ ha
  · exact ha
  · exact hk a ha log'

/-- A transformation may go on differently where it does the same on all that it can return. -/
theorem bind_congr {k k' : α → Transform β} (h : ∀ a, t.Returns a → k a = k' a) :
    t >>= k = t >>= k' := by
  refine ExceptT.ext (funext fun log => ?_)
  change (t.run.run log >>= fun out => _) = (t.run.run log >>= fun out => _)
  cases ht : t.run.run log with
  | error f => rfl
  | ok out =>
    obtain ⟨_ | a, log'⟩ := out
    · rfl
    · change (k a).run.run log' = (k' a).run.run log'
      rw [h a ⟨log, log', ht⟩]

theorem ends_ofExcept {x : Except Fault α} (h : SchemaGraph.Ends x bad good) :
    (Transform.ofExcept x).Ends bad lost good := by
  intro log
  cases x with
  | error f => exact h
  | ok a => exact h

theorem ends_print {text : String} {good : Unit → Prop} (h : good ()) :
    (Transform.print text).Ends bad lost good :=
  fun _ => h

theorem ends_record {events : List Event} {good : Unit → Prop} (h : good ()) :
    (Transform.record events).Ends bad lost good :=
  fun _ => h

/-- Whether the transformation, started with an empty log, returns something that passes a
test. -/
def passes (t : Transform α) (test : α → Log → Bool) : Bool :=
  match t.start with
  | .ok (.ok a, log) => test a log
  | _ => false

theorem exists_of_passes {test : α → Log → Bool} (h : t.passes test = true) :
    ∃ a log, t.run.run ⟨"", []⟩ = .ok (.ok a, log) ∧ test a log = true := by
  rw [passes] at h
  split at h
  · next a log hrun => exact ⟨a, log, hrun, h⟩
  · cases h

end Transform

end SchemaGraph
