import SchemaGraph.Proofs.Outcome

/-!
# Computations in step

What two inputs have in common is carried over to what is made of them by running both computations
side by side. Two computations concur (`SchemaGraph.Concur`) if both meet a fault or both have a result,
and two actions on states are in step (`SchemaGraph.InStep`) if, started in states that go together,
they concur, return the same and leave states that go together. Both are taken apart at the binds, so
that a proof follows the two programs at once, as long as they are the same program.

How far the two may differ on the way, in the faults that they meet, the events that they record and
the texts that they print, is a parameter (`SchemaGraph.Leeway`).
-/

namespace SchemaGraph

/-- Both computations meet a fault, or both have a result, and `faults` or `results` relates the two. -/
def Concur {α β : Type} (faults : Fault → Fault → Prop) (results : α → β → Prop)
    (x : Except Fault α) (y : Except Fault β) : Prop :=
  match x, y with
  | .ok a, .ok b => results a b
  | .error f, .error f' => faults f f'
  | .ok _, .error _ | .error _, .ok _ => False

section Concur

variable {α β γ δ : Type} {faults : Fault → Fault → Prop} {results : α → β → Prop}
  {x : Except Fault α} {y : Except Fault β}

theorem Concur.mono {results' : α → β → Prop} (h : Concur faults results x y)
    (himp : ∀ a b, results a b → results' a b) : Concur faults results' x y := by
  cases x <;> cases y
  case ok.ok a b => exact himp a b h
  all_goals exact h

theorem Concur.bind {results' : γ → δ → Prop} {k : α → Except Fault γ} {k' : β → Except Fault δ}
    (h : Concur faults results x y)
    (hk : ∀ a b, results a b → Concur faults results' (k a) (k' b)) :
    Concur faults results' (x >>= k) (y >>= k') := by
  cases x <;> cases y
  case ok.ok a b => exact hk a b h
  case error.error f f' => exact h
  all_goals exact h.elim

theorem Concur.map {results' : γ → δ → Prop} {k : α → γ} {k' : β → δ}
    (h : Concur faults (fun a b => results' (k a) (k' b)) x y) :
    Concur faults results' (x.map k) (y.map k') := by
  cases x <;> cases y <;> exact h

/-- The other computation has a result as well. -/
theorem Concur.exists_ok (h : Concur faults results x y) {a : α} (hx : x = .ok a) :
    ∃ b, y = .ok b ∧ results a b := by
  subst hx
  cases y with
  | error f => exact h.elim
  | ok b => exact ⟨b, rfl, h⟩

/-- What is known of each of the two alone. -/
theorem Concur.with_eq (h : Concur faults results x y) :
    Concur faults (fun a b => x = .ok a ∧ y = .ok b ∧ results a b) x y := by
  cases x <;> cases y
  case ok.ok a b => exact ⟨rfl, rfl, h⟩
  all_goals exact h

/-- If either may fail with any fault, computations that concur with a third one do so with each other. -/
theorem Concur.trans {results' : β → γ → Prop} {results'' : α → γ → Prop} {z : Except Fault γ}
    (h : Concur faults results x y) (h' : Concur faults results' y z) (hfaults : ∀ f f', faults f f')
    (himp : ∀ a b c, results a b → results' b c → results'' a c) : Concur faults results'' x z := by
  cases x <;> cases y <;> cases z
  case ok.ok.ok a b c => exact himp a b c h h'
  case error.error.error f _ f' => exact hfaults f f'
  all_goals first | exact h.elim | exact h'.elim

theorem concur_mapM {f : γ → Except Fault α} {f' : γ → Except Fault β} {cs : List γ}
    (h : ∀ c ∈ cs, Concur faults (fun _ _ => True) (f c) (f' c)) :
    Concur faults (fun _ _ => True) (cs.mapM f) (cs.mapM f') := by
  induction cs with
  | nil => trivial
  | cons c rest ih =>
    rw [List.mapM_cons, List.mapM_cons]
    refine (h c (by simp)).bind fun _ _ _ => ?_
    exact (ih fun d hd => h d (by simp [hd])).bind fun _ _ _ => trivial

/-- Every computation concurs with itself. -/
theorem concur_self (hfaults : ∀ f, faults f f) : Concur faults Eq x x := by
  cases x with
  | error f => exact hfaults f
  | ok a => rfl

/-- Computations that fail under the same condition concur. -/
theorem concur_of_ends {p : Prop} {good : α → Prop} {good' : β → Prop} (hfaults : ∀ f f', faults f f')
    (hx : Ends x (fun _ => ¬p) fun a => p ∧ good a) (hy : Ends y (fun _ => ¬p) fun b => p ∧ good' b)
    (h : ∀ a b, good a → good' b → results a b) : Concur faults results x y := by
  cases x <;> cases y
  case ok.ok a b => exact h a b hx.2 hy.2
  case error.error f f' => exact hfaults f f'
  case ok.error a f => exact hy hx.1
  case error.ok f b => exact hx hy.1

end Concur

/-- Started in states that go together, the actions concur, return the same and leave states that go
together. -/
def InStep {σ τ α : Type} (faults : Fault → Fault → Prop) (states : σ → τ → Prop)
    (x : StateT σ (Except Fault) α) (y : StateT τ (Except Fault) α) : Prop :=
  ∀ s t, states s t → Concur faults (fun out out' => out.1 = out'.1 ∧ states out.2 out'.2) (x s) (y t)

section InStep

variable {σ τ α β : Type} {faults : Fault → Fault → Prop} {states : σ → τ → Prop}
  {x : StateT σ (Except Fault) α} {y : StateT τ (Except Fault) α}

theorem inStep_pure {a : α} :
    InStep faults states (pure a : StateT σ (Except Fault) α) (pure a : StateT τ (Except Fault) α) :=
  fun _ _ h => ⟨rfl, h⟩

theorem inStep_throw {f : Fault} (h : faults f f) :
    InStep faults states (throw f : StateT σ (Except Fault) α) (throw f : StateT τ (Except Fault) α) :=
  fun _ _ _ => h

theorem InStep.bind {k : α → StateT σ (Except Fault) β} {k' : α → StateT τ (Except Fault) β}
    (h : InStep faults states x y) (hk : ∀ a, InStep faults states (k a) (k' a)) :
    InStep faults states (x >>= k) (y >>= k') := by
  intro s t hst
  refine Concur.bind (h s t hst) ?_
  rintro ⟨a, s'⟩ ⟨_, t'⟩ ⟨rfl, hst'⟩
  exact hk a s' t' hst'

theorem inStep_modify {f : σ → σ} {f' : τ → τ} (h : ∀ s t, states s t → states (f s) (f' t)) :
    InStep faults states (modify f : StateT σ (Except Fault) PUnit) (modify f') :=
  fun s t hst => ⟨rfl, h s t hst⟩

/-- What is done next may depend on what the states are. -/
theorem inStep_get_bind {k : σ → StateT σ (Except Fault) β} {k' : τ → StateT τ (Except Fault) β}
    (hk : ∀ s t, states s t → InStep faults states (k s) (k' t)) :
    InStep faults states (get >>= k) (get >>= k') :=
  fun s t hst => hk s t hst s t hst

theorem inStep_lift_bind {γ δ : Type} {a : Except Fault γ} {b : Except Fault δ} {results : γ → δ → Prop}
    {k : γ → StateT σ (Except Fault) β} {k' : δ → StateT τ (Except Fault) β}
    (h : Concur faults results a b) (hk : ∀ c d, results c d → InStep faults states (k c) (k' d)) :
    InStep faults states (liftM a >>= k) (liftM b >>= k') := by
  intro s t hst
  cases a <;> cases b
  case ok.ok c d => exact hk c d h s t hst
  case error.error f f' => exact h
  all_goals exact h.elim

theorem inStep_forM {as : List α} {f : α → StateT σ (Except Fault) PUnit}
    {f' : α → StateT τ (Except Fault) PUnit} (h : ∀ a ∈ as, InStep faults states (f a) (f' a)) :
    InStep faults states (as.forM f) (as.forM f') := by
  induction as with
  | nil => exact inStep_pure
  | cons a rest ih => exact (h a (by simp)).bind fun _ => ih fun b hb => h b (by simp [hb])

theorem inStep_mapM {as : List α} {f : α → StateT σ (Except Fault) β}
    {f' : α → StateT τ (Except Fault) β} (h : ∀ a, InStep faults states (f a) (f' a)) :
    InStep faults states (as.mapM f) (as.mapM f') := by
  induction as with
  | nil => exact inStep_pure
  | cons a rest ih =>
    rw [List.mapM_cons, List.mapM_cons]
    exact (h a).bind fun _ => ih.bind fun _ => inStep_pure

/-- Children that are replaced in step make the same node. -/
theorem inStep_mapChildrenM {f : Ref → StateT σ (Except Fault) Ref}
    {f' : Ref → StateT τ (Except Fault) Ref} {node : Node}
    (h : ∀ c, InStep faults states (f c) (f' c)) :
    InStep faults states (node.mapChildrenM f) (node.mapChildrenM f') := by
  cases node with
  | primitive k => exact inStep_pure
  | enum cases => exact inStep_pure
  | array items => exact (h items).bind fun _ => inStep_pure
  | map values => exact (h values).bind fun _ => inStep_pure
  | object properties =>
    refine InStep.bind (inStep_mapM fun p => ?_) fun _ => inStep_pure
    exact (h p.type).bind fun _ => inStep_pure
  | union members => exact (inStep_mapM h).bind fun _ => inStep_pure
  | intersection members => exact (inStep_mapM h).bind fun _ => inStep_pure

end InStep

/-! ### Leeway -/

/-- How far two computations may differ. -/
structure Leeway where
  faults : Fault → Fault → Prop
  events : List Event → List Event → Prop
  texts : String → String → Prop
  faults_refl : ∀ f, faults f f
  events_refl : ∀ es, events es es
  events_append : ∀ {es es' fs fs'}, events es es' → events fs fs' → events (es ++ fs) (es' ++ fs')
  texts_refl : ∀ s, texts s s
  texts_append : ∀ {s s' t t'}, texts s s' → texts t t' → texts (s ++ t) (s' ++ t')

/-- Anything may be different. -/
def Leeway.any : Leeway where
  faults _ _ := True
  events _ _ := True
  texts _ _ := True
  faults_refl _ := trivial
  events_refl _ := trivial
  events_append _ _ := trivial
  texts_refl _ := trivial
  texts_append _ _ := trivial

/-- The event without the number of its group. -/
def Event.unnumbered : Event → Event
  | replacing _ members forwarding => replacing 0 members forwarding
  | remark ref => remark ref

/-- Groups may have other numbers. -/
def Leeway.numbers : Leeway where
  faults := Eq
  events es es' := es.map Event.unnumbered = es'.map Event.unnumbered
  texts := Eq
  faults_refl _ := rfl
  events_refl _ := rfl
  events_append he hf := by rw [List.map_append, List.map_append, he, hf]
  texts_refl _ := rfl
  texts_append hs ht := by rw [hs, ht]

variable {lee : Leeway} {drafts : Draft → Draft → Prop}

/-- The workspaces are the same but for the new generations, which `drafts` relates, and what the
leeway is for. -/
structure Workspace.GoWith (lee : Leeway) (drafts : Draft → Draft → Prop) (w w' : Workspace) : Prop where
  draft : drafts w.draft w'.draft
  counterparts : w.counterparts = w'.counterparts
  placeholders : w.placeholders = w'.placeholders
  lossDeclared : w.lossDeclared = w'.lossDeclared
  journal : lee.events w.journal w'.journal

namespace Rebuild

variable {α : Type}

/-- Actions on two workspaces in step. -/
abbrev GoOn (lee : Leeway) (drafts : Draft → Draft → Prop) (x y : Rebuild α) : Prop :=
  InStep lee.faults (Workspace.GoWith lee drafts) x y

theorem goOn_build {x y : Build α} (h : InStep lee.faults drafts x y) :
    GoOn lee drafts (build x) (build y) := by
  intro w w' hw
  refine Concur.bind (h w.draft w'.draft hw.draft) ?_
  rintro ⟨a, b⟩ ⟨_, b'⟩ ⟨rfl, hb⟩
  exact ⟨rfl, hb, hw.counterparts, hw.placeholders, hw.lossDeclared, hw.journal⟩

theorem goOn_setCounterpart {index : Nat} {new : Ref} :
    GoOn lee drafts (setCounterpart index new) (setCounterpart index new) := by
  refine inStep_modify fun w w' hw => ?_
  exact ⟨hw.draft, by rw [hw.counterparts], hw.placeholders, hw.lossDeclared, hw.journal⟩

theorem goOn_record {e e' : Event} (h : lee.events [e] [e']) :
    GoOn lee drafts (record e) (record e') := by
  refine inStep_modify fun w w' hw => ?_
  exact ⟨hw.draft, hw.counterparts, hw.placeholders, hw.lossDeclared, lee.events_append hw.journal h⟩

theorem goOn_placeholder (hreserve : InStep lee.faults drafts Build.reserve Build.reserve) {index : Nat} :
    GoOn lee drafts (placeholder index) (placeholder index) := by
  refine inStep_get_bind fun w w' hw => ?_
  rw [← hw.placeholders]
  split
  · exact inStep_pure
  · refine (goOn_build hreserve).bind fun slot => ?_
    refine InStep.bind (inStep_modify fun v v' hv => ?_) fun _ => inStep_pure
    exact ⟨hv.draft, hv.counterparts, by rw [hv.placeholders], hv.lossDeclared, hv.journal⟩

theorem goOn_takePlaceholder {index : Nat} :
    GoOn lee drafts (takePlaceholder index) (takePlaceholder index) := by
  intro w w' hw
  refine ⟨by rw [hw.placeholders], ?_⟩
  exact ⟨hw.draft, hw.counterparts, by rw [hw.placeholders], hw.lossDeclared, hw.journal⟩

end Rebuild

/-! ### Transformations -/

/-- What two logs have in common. -/
structure Log.GoWith (lee : Leeway) (l l' : Log) : Prop where
  printed : lee.texts l.printed l'.printed
  events : lee.events l.events l'.events

namespace Transform

variable {α β γ δ : Type}

/-- Both transformations meet a fault, both lose the same markers, or both return something, and
`results` relates what they return. -/
def GoOn (lee : Leeway) (results : α → β → Prop) (t : Transform α) (t' : Transform β) : Prop :=
  ∀ l l', Log.GoWith lee l l' → Concur lee.faults
    (fun out out' => out.2.GoWith lee out'.2 ∧
      match out.1, out'.1 with
      | .ok a, .ok b => results a b
      | .error e, .error e' => e = e'
      | .ok _, .error _ | .error _, .ok _ => False) (t.run.run l) (t'.run.run l')

variable {results : α → β → Prop} {t : Transform α} {t' : Transform β}

theorem goOn_pure {a : α} {b : β} (h : results a b) :
    GoOn lee results (pure a) (pure b) :=
  fun _ _ hl => ⟨hl, h⟩

theorem goOn_throw {e : LostMarkers} :
    GoOn lee results (throw e : Transform α) (throw e : Transform β) :=
  fun _ _ hl => ⟨hl, rfl⟩

theorem GoOn.mono {results' : α → β → Prop} (h : GoOn lee results t t')
    (himp : ∀ a b, results a b → results' a b) : GoOn lee results' t t' := by
  refine fun l l' hl => (h l l' hl).mono ?_
  rintro ⟨_ | a, m⟩ ⟨_ | b, m'⟩ ⟨hm, hab⟩
  · exact ⟨hm, hab⟩
  · exact hab.elim
  · exact hab.elim
  · exact ⟨hm, himp a b hab⟩

theorem GoOn.bind {results' : γ → δ → Prop} {k : α → Transform γ} {k' : β → Transform δ}
    (h : GoOn lee results t t') (hk : ∀ a b, results a b → GoOn lee results' (k a) (k' b)) :
    GoOn lee results' (t >>= k) (t' >>= k') := by
  intro l l' hl
  refine Concur.bind (h l l' hl) ?_
  rintro ⟨_ | a, m⟩ ⟨_ | b, m'⟩ ⟨hm, hab⟩
  · exact ⟨hm, hab⟩
  · exact hab.elim
  · exact hab.elim
  · exact hk a b hab m m' hm

theorem goOn_ofExcept {x : Except Fault α} {y : Except Fault β} (h : Concur lee.faults results x y) :
    GoOn lee results (ofExcept x) (ofExcept y) := by
  intro l l' hl
  cases x <;> cases y
  case ok.ok a b => exact ⟨hl, h⟩
  case error.error f f' => exact h
  all_goals exact h.elim

theorem goOn_print {text text' : String} (h : lee.texts text text') :
    GoOn lee Eq (print text) (print text') :=
  fun _ _ hl => ⟨⟨lee.texts_append hl.printed h, hl.events⟩, rfl⟩

theorem goOn_record {es es' : List Event} (h : lee.events es es') :
    GoOn lee Eq (record es) (record es') :=
  fun _ _ hl => ⟨⟨hl.printed, lee.events_append hl.events h⟩, rfl⟩

end Transform

end SchemaGraph
