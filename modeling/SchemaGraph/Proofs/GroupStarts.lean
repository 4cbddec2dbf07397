import SchemaGraph.Proofs.Rebuild.Groups
import SchemaGraph.Proofs.Substitution

/-!
# How often a replacement starts its scripts

The log of a replacement has the events of its rebuilding, and nothing else has any: listings
only print, and removing the indirections that are left behind is a substitution, which has no
scripts to start. So the starts in the log are those that
`SchemaGraph.Derivation.run_timesStarted` counts.

They are not always one for each group: of two groups that no root reaches, the second one is
started twice if the script of the first one asks for a member of it.
-/

namespace SchemaGraph

/-! ### What transformations log -/

namespace Transform

variable {α β : Type} {t : Transform α} {k : α → Transform β} {p : List Event → Prop}

/-- If the transformation meets no fault, it adds events to the log that are among `p`, also if
it loses markers. -/
def Logs (t : Transform α) (p : List Event → Prop) : Prop :=
  ∀ log, SchemaGraph.Ends (t.run.run log) (fun _ => True) fun out =>
    ∃ added, p added ∧ out.2.events = log.events ++ added

/-- The transformation logs no events, and it loses no markers. -/
def Silent (t : Transform α) : Prop :=
  ∀ log, SchemaGraph.Ends (t.run.run log) (fun _ => True) fun out =>
    (∃ a, out.1 = .ok a) ∧ out.2.events = log.events

theorem Silent.logs (h : t.Silent) : t.Logs (· = []) := by
  refine fun log => SchemaGraph.Ends.mono (h log) ?_
  rintro out ⟨-, hevents⟩
  exact ⟨[], rfl, by rw [hevents, List.append_nil]⟩

/-- What comes after a silent part logs what it logs by itself. -/
theorem Silent.bind (h : t.Silent) (hk : ∀ a, (k a).Logs p) : (t >>= k).Logs p := by
  refine fun log => SchemaGraph.Ends.bind (h log) ?_
  rintro ⟨_, log'⟩ ⟨⟨a, rfl⟩, hevents⟩
  dsimp only at hevents
  rw [← hevents]
  exact hk a log'

/-- If nothing is logged later on, what was logged is the whole. -/
theorem Logs.bind (h : t.Logs p) (hk : ∀ a, (k a).Logs (· = [])) : (t >>= k).Logs p := by
  refine fun log => SchemaGraph.Ends.bind (h log) ?_
  rintro ⟨result, log'⟩ ⟨added, hadded, hevents⟩
  cases result with
  | error e => exact ⟨added, hadded, hevents⟩
  | ok a =>
    refine SchemaGraph.Ends.mono (hk a log') ?_
    rintro ⟨_, log''⟩ ⟨_, rfl, hevents'⟩
    exact ⟨added, hadded, by rw [hevents', List.append_nil, hevents]⟩

theorem silent_pure {a : α} : Silent (pure a) := fun _ => ⟨⟨a, rfl⟩, rfl⟩

theorem silent_print {text : String} : (Transform.print text).Silent := fun _ => ⟨⟨(), rfl⟩, rfl⟩

theorem silent_ofExcept {x : Except Fault α} : (Transform.ofExcept x).Silent := by
  intro log
  cases x with
  | error f => trivial
  | ok a => exact ⟨⟨a, rfl⟩, rfl⟩

theorem logs_throw {e : LostMarkers} : Logs (throw e : Transform α) (· = []) := fun _ =>
  ⟨[], rfl, (List.append_nil _).symm⟩

theorem logs_ofExcept_bind {x : Except Fault α} (h : ∀ a, x = .ok a → (k a).Logs p) :
    (Transform.ofExcept x >>= k).Logs p := by
  intro log
  cases x with
  | error f => trivial
  | ok a => exact h a rfl log

theorem logs_record_bind {events : List Event} {k : Unit → Transform β} (hevents : p events)
    (hk : (k ()).Logs (· = [])) : (Transform.record events >>= k).Logs p :=
  Logs.bind (fun _ => ⟨events, hevents, rfl⟩) fun _ => hk

end Transform

namespace Generation

variable {g : Generation} {settings : Settings}

/-- Printing a listing first, or not, makes no difference to what is logged. -/
theorem logs_printing {α : Type} {title moment : String} {k : Unit → Transform α}
    {p : List Event → Prop} (printing : Bool) (hk : (k ()).Logs p) :
    Transform.Logs (if printing then g.printListing title moment >>= k else k ()) p := by
  cases printing with
  | false => exact hk
  | true =>
    rw [printListing]
    simp only [if_true, bind_assoc]
    refine Transform.silent_print.bind fun _ => ?_
    refine Transform.silent_ofExcept.bind fun listing => ?_
    exact Transform.silent_print.bind fun _ => hk

/-- **A derivation logs the journal of its rebuilding.** -/
theorem derive_logs {plan : Plan} {accept : Workspace → Except Fault Unit} :
    (g.derive plan settings accept).Logs fun added =>
      ∃ w, (g.derivation plan settings).run = .ok w ∧ added = w.journal := by
  rw [derive]
  refine logs_printing (settings.announce || g.announced) ?_
  refine Transform.logs_ofExcept_bind fun w hw => ?_
  refine Transform.silent_ofExcept.bind fun _ => ?_
  refine Transform.logs_record_bind ⟨w, hw, rfl⟩ ?_
  refine Transform.silent_ofExcept.bind fun built => ?_
  refine logs_printing (settings.announce || g.announced) ?_
  by_cases hdeclared : w.lossDeclared
  · simp only [hdeclared]
    exact Transform.silent_pure.logs
  · simp only [hdeclared]
    refine Transform.silent_ofExcept.bind fun lost => ?_
    cases lost with
    | none => exact Transform.silent_pure.logs
    | some e => exact Transform.logs_throw.bind fun _ => Transform.silent_pure.logs

theorem substitute_logs {map : OrderedMap Ref Ref} {force : Bool} :
    (g.substitute settings map force).Logs (· = []) := by
  rw [substitute]
  split
  · exact Transform.silent_pure.logs
  · refine Transform.Logs.bind ?_ fun _ => Transform.silent_pure.logs
    refine fun log => (derive_logs log).mono ?_
    rintro out ⟨added, ⟨w, hw, rfl⟩, hevents⟩
    have hfinished := (Derivation.run_ends (P := fun _ => True) (fun _ _ _ => trivial) rfl).of_eq_ok hw
    exact ⟨w.journal, hfinished.2.journal, hevents⟩

theorem removeIndirections_logs {alphabetize announce : Bool} :
    (g.removeIndirections alphabetize announce).Logs (· = []) := by
  rw [removeIndirections]
  dsimp only
  split
  · exact Transform.silent_pure.logs
  · refine Transform.silent_ofExcept.bind fun graph => ?_
    split
    · exact Transform.silent_ofExcept.bind fun _ => substitute_logs
    · exact substitute_logs

/-- A replacement logs what its rebuilding logs. -/
theorem replace_logs {groups : List Group} {force : Bool} (h : groups ≠ []) :
    (g.replace settings groups force).Logs fun added =>
      ∃ w, (g.derivation (.replace groups) settings).run = .ok w ∧ added = w.journal := by
  have hdo : (groups.isEmpty && !force) = false := by simp [h]
  rw [replace, hdo]
  refine derive_logs.bind ?_
  rintro ⟨new, forwarded⟩
  cases forwarded with
  | true => exact removeIndirections_logs.bind fun _ => Transform.silent_pure.logs
  | false => exact Transform.silent_pure.logs

/-- **How often a replacement starts the script of a group**: once, unless the group is one that
no root reaches and the script of a group before it leads to it. Then it is started when it is
met, and once more when its turn comes. -/
theorem replace_timesStarted {groups : List Group} {force : Bool} {log log' : Log}
    {out : Except LostMarkers Outcome} {k : Nat}
    (h : (g.replace settings groups force).run.run log = .ok (out, log')) (hk : k < groups.length) :
    timesStarted k log'.events = timesStarted k log.events + 1 +
      ((g.derivation (.replace groups) settings).metBeforeTurn k).toNat := by
  have hne : groups ≠ [] := List.ne_nil_of_length_pos (Nat.zero_lt_of_lt hk)
  obtain ⟨added, ⟨w, hw, rfl⟩, hevents⟩ := (replace_logs hne log).of_eq_ok h
  have hgroup : (g.derivation (.replace groups) settings).plan.groups[k]? = some groups[k] :=
    List.getElem?_eq_getElem hk
  rw [hevents, timesStarted_append, Derivation.run_timesStarted hw hgroup, Nat.add_assoc]

/-! ### Two groups that no root reaches -/

/-- A string, which is the root, and an array and a map that the root does not lead to. -/
def strings : Generation where
  options := ⟨false⟩
  nodes := #[.primitive .string, .array ⟨0, 0⟩, .map ⟨0, 0⟩]
  store := .empty 0
  roots := .ofList [("top", ⟨0, 0⟩)]
  announced := false
  children_inBounds := by decide
  roots_inBounds := by decide

/-- The array is replaced by a map to what replaces the map, and the map by an array of
itself. -/
def crossing : List Group :=
  [⟨[⟨0, 1⟩], fun slot => do
      let values ← Script.visit ⟨0, 2⟩
      Script.intern (.map values) ∅ (some slot)⟩,
    ⟨[⟨0, 2⟩], fun slot => Script.intern (.array slot) ∅ (some slot)⟩]

/-- The script of the first group leads to the second one, whose turn comes all the same. -/
theorem timesStarted_crossing :
    ∃ out log, (strings.replace ⟨"replace", .preserving, false, false⟩ crossing false).run.run
        ⟨"", []⟩ = .ok (.ok out, log) ∧
      timesStarted 0 log.events = 1 ∧ timesStarted 1 log.events = 2 := by
  have hreturns : (strings.replace ⟨"replace", .preserving, false, false⟩ crossing false).passes
      (fun _ _ => true) = true := by decide +kernel
  obtain ⟨out, log, hrun, -⟩ := Transform.exists_of_passes hreturns
  have hfirst : (strings.derivation (.replace crossing)
      ⟨"replace", .preserving, false, false⟩).metBeforeTurn 0 = false := by decide +kernel
  have hsecond : (strings.derivation (.replace crossing)
      ⟨"replace", .preserving, false, false⟩).metBeforeTurn 1 = true := by decide +kernel
  have h₀ := replace_timesStarted hrun (k := 0) (by decide)
  have h₁ := replace_timesStarted hrun (k := 1) (by decide)
  rw [hfirst] at h₀
  rw [hsecond] at h₁
  exact ⟨out, log, hrun, h₀, h₁⟩

/-- **A replacement does not always start each script once.** -/
theorem not_forall_started_once :
    ¬∀ (g : Generation) (settings : Settings) (groups : List Group) (force : Bool)
      (log log' : Log) (out : Except LostMarkers Outcome) (k : Nat),
      (g.replace settings groups force).run.run log = .ok (out, log') → k < groups.length →
        timesStarted k log'.events = timesStarted k log.events + 1 := by
  intro hall
  have htwice : (strings.replace ⟨"replace", .preserving, false, false⟩ crossing false).passes
      (fun _ log => timesStarted 1 log.events = 2) = true := by decide +kernel
  obtain ⟨out, log, hrun, htest⟩ := Transform.exists_of_passes htwice
  have honce := hall _ _ _ _ _ _ _ 1 hrun (by decide)
  rw [of_decide_eq_true htest] at honce
  cases honce

end Generation

end SchemaGraph
