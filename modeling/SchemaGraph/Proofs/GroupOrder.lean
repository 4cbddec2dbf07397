import SchemaGraph.Proofs.Rebuild.Course
import SchemaGraph.Proofs.Rebuild.SideBySide

/-!
# The order of groups

A rebuilding finds a group by its members, so the place of a group in the list that it is given in
shows only in the number that its start is recorded with. Where the roots reach every group, this is all:
groups that are listed in another order are replaced at the same moments by the same scripts
(`SchemaGraph.Generation.replace_goOn`), however these ask for each other's members. Groups that no root
reaches are another matter, since they are replaced in the order of the list.
-/

namespace SchemaGraph

/-! ### Groups in another order -/

namespace Plan

variable {groups groups' : List Group} {serial index : Nat}

theorem memberFault?_eq_none_iff {earlier : List Group} {m : Ref} :
    memberFault? serial earlier m = none ↔
      m.serial = serial ∧ ∀ first ∈ earlier, ∀ m' ∈ first.members, m'.index ≠ m.index := by
  rw [memberFault?]
  split
  · next hne => exact iff_of_false (Option.some_ne_none _) fun h => hne h.1
  · next hserial =>
    rw [Option.map_eq_none_iff, findGroup?_eq_none_iff]
    exact (and_iff_right (not_not.1 hserial)).symm

/-- Groups fit if none is empty, all members are of the generation, and no two groups, nor one of those
before, have a member in common. -/
theorem groupsFault?_eq_none_iff {earlier : List Group} (hearlier : earlier.Pairwise Apart) :
    groupsFault? serial earlier groups = none ↔
      (∀ group ∈ groups, group.members ≠ [] ∧ ∀ m ∈ group.members, m.serial = serial) ∧
        (earlier ++ groups).Pairwise Apart := by
  induction groups generalizing earlier with
  | nil => simpa [groupsFault?] using hearlier
  | cons group rest ih =>
    have hmembers : group.members.findSome? (memberFault? serial earlier) = none ↔
        (∀ m ∈ group.members, m.serial = serial) ∧ ∀ first ∈ earlier, Apart first group := by
      rw [List.findSome?_eq_none_iff]
      simp only [memberFault?_eq_none_iff]
      exact ⟨fun h => ⟨fun m hm => (h m hm).1, fun first hf m' hm' m hm => (h m hm).2 first hf m' hm'⟩,
        fun h m hm => ⟨h.1 m hm, fun first hf m' hm' => h.2 first hf m' hm' m hm⟩⟩
    have hsnoc : (earlier ++ [group]).Pairwise Apart ↔ ∀ first ∈ earlier, Apart first group := by
      rw [List.pairwise_append]
      simp [hearlier]
    rw [groupsFault?, List.forall_mem_cons, List.append_cons earlier group rest]
    by_cases hempty : group.members = []
    · simp [hempty]
    · rw [if_neg (by simpa using hempty), Option.or_eq_none_iff, hmembers, ← hsnoc]
      constructor
      · rintro ⟨⟨hserial, hapart⟩, hrest⟩
        obtain ⟨hall, hpairs⟩ := (ih hapart).1 hrest
        exact ⟨⟨⟨hempty, hserial⟩, hall⟩, hpairs⟩
      · rintro ⟨⟨⟨-, hserial⟩, hall⟩, hpairs⟩
        have hapart : (earlier ++ [group]).Pairwise Apart := (List.pairwise_append.1 hpairs).1
        exact ⟨⟨hserial, hapart⟩, (ih hapart).2 ⟨hall, hpairs⟩⟩

theorem Apart.symm {a b : Group} (h : Apart a b) : Apart b a :=
  fun m hm m' hm' heq => h m' hm' m hm heq.symm

/-- Whether groups fit does not depend on their order. -/
theorem fault?_replace_of_perm (h : groups.Perm groups') (hfits : (replace groups).fault? serial = none) :
    (replace groups').fault? serial = none := by
  obtain ⟨hall, hpairs⟩ := (groupsFault?_eq_none_iff .nil).1 hfits
  refine (groupsFault?_eq_none_iff .nil).2 ⟨fun group hgroup => hall group (h.mem_iff.2 hgroup), ?_⟩
  exact (h.pairwise_iff fun hab => hab.symm).1 hpairs

/-- And a node is in the same group. -/
theorem groupAt?_of_perm (h : groups.Perm groups') (hapart : groups.Pairwise Apart) :
    ((replace groups).groupAt? index).map Prod.snd = ((replace groups').groupAt? index).map Prod.snd := by
  have hapart' : groups'.Pairwise Apart := (h.pairwise_iff fun hab => hab.symm).1 hapart
  cases hfound : (replace groups).groupAt? index with
  | none =>
    have hnone : (replace groups').groupAt? index = none := by
      refine findGroup?_eq_none_iff.2 fun group hgroup => ?_
      exact findGroup?_eq_none_iff.1 hfound group (h.mem_iff.2 hgroup)
    rw [hnone]
  | some found =>
    obtain ⟨k, group⟩ := found
    obtain ⟨j, -, hj, m, hm, rfl⟩ := exists_of_findGroup? hfound
    obtain ⟨i, hi⟩ := List.mem_iff_getElem?.1 (h.mem_iff.1 (List.mem_of_getElem? hj))
    have hthere : (replace groups').groupAt? m.index = some (i, group) :=
      groupAt?_of_mem (p := replace groups') hapart' hi hm
    rw [hthere]
    rfl

end Plan

/-! ### Derivations -/

namespace Rebuild

variable {α : Type}

/-- On the same draft, an operation is in step with itself. -/
theorem inStep_self {σ : Type} {x : StateT σ (Except Fault) α} : InStep Eq Eq x x := by
  rintro s _ rfl
  refine (concur_self fun _ => rfl).mono ?_
  rintro out _ rfl
  exact ⟨rfl, rfl⟩

/-- **A script is in step with itself** if its visits are. The induction is on the script. -/
theorem goOn_runScript {visit visit' : Ref → Rebuild Ref}
    (hvisit : ∀ r, GoOn .numbers Eq (visit r) (visit' r)) (script : Script α) :
    GoOn .numbers Eq (runScript visit script) (runScript visit' script) := by
  induction script with
  | done result => exact inStep_pure
  | visiting old next ih => exact (hvisit old).bind fun r => ih r
  | editing edit next ih => exact (goOn_build inStep_self).bind fun a => ih a
  | inspecting next ih => exact inStep_get_bind fun w w' hw => hw.draft ▸ ih w.draft
  | remarking ref next ih => exact (goOn_record rfl).bind fun _ => ih
  | declaringLoss next ih =>
    refine InStep.bind (inStep_modify fun w w' hw => ?_) fun _ => ih
    exact ⟨hw.draft, hw.counterparts, hw.placeholders, rfl, hw.journal⟩
  | failing fault => exact inStep_throw rfl

end Rebuild

namespace Derivation

open Rebuild

variable {d e : Derivation}

/-- A group is replaced in the same way under another number. -/
theorem goOn_runGroup (hserial : e.serial = d.serial) {visit visit' : Ref → Rebuild Ref}
    (hvisit : ∀ r, GoOn .numbers Eq (visit r) (visit' r)) (number number' : Nat) (group : Group) :
    GoOn .numbers Eq (d.runGroup visit number group) (e.runGroup visit' number' group) := by
  rw [runGroup, runGroup, hserial]
  refine (goOn_build inStep_self).bind fun slot => ?_
  refine (inStep_forM fun _ _ => goOn_setCounterpart).bind fun _ => ?_
  refine (goOn_record rfl).bind fun _ => (goOn_runScript hvisit _).bind fun new => ?_
  refine inStep_lift_bind (concur_self fun _ => rfl) fun _ _ _ => ?_
  split
  · exact (goOn_build inStep_self).bind fun _ => inStep_pure
  · exact inStep_pure

end Derivation

namespace Generation

variable {g : Generation} {settings : Settings} {force : Bool} {groups groups' : List Group}

/-- Every group is met while the roots are processed. -/
def RootsReach (g : Generation) (settings : Settings) (groups : List Group) : Prop :=
  ∀ w, (g.derivation (.replace groups) settings).rebuildRoots
    (g.derivation (.replace groups) settings).workspace = .ok ((), w) →
      ∀ group ∈ groups, w.met group = true

theorem pendingGroups_eq_nil {w w' : Workspace} (h : groups.Perm groups')
    (hfits : (Plan.replace groups).fault? g.serial = none) (hroots : g.RootsReach settings groups)
    (hw : (g.derivation (.replace groups) settings).rebuildRoots
      (g.derivation (.replace groups) settings).workspace = .ok ((), w))
    (hgo : w.GoWith .numbers Eq w') :
    (g.derivation (.replace groups) settings).pendingGroups w = [] ∧
      (g.derivation (.replace groups') settings).pendingGroups w' = [] := by
  have htally := (Derivation.rebuildRoots_counts hfits Derivation.tally_workspace).of_eq_ok hw
  have hfirst : ∀ group ∈ groups,
      group.members.head?.any (fun first => !w.counterparts.contains first.index) = false := by
    intro group hgroup
    obtain ⟨k, hk⟩ := List.mem_iff_getElem?.1 hgroup
    rw [Option.any_eq_false]
    intro first hmem
    have hin := htally.tally.whole hk (hroots w hw group hgroup) first (List.mem_of_mem_head? hmem)
    simp [hin]
  have hnone : ∀ {gs : List Group}, (∀ group ∈ gs, group ∈ groups) →
      gs.zipIdx.filter (fun e => e.1.members.head?.any
        fun first => !w.counterparts.contains first.index) = [] := fun hgs => by
    refine List.filter_eq_nil_iff.2 fun e he => ?_
    simp [hfirst e.1 (hgs e.1 (List.fst_mem_of_mem_zipIdx he))]
  refine ⟨hnone fun _ => id, ?_⟩
  rw [Derivation.pendingGroups, ← hgo.counterparts]
  exact hnone fun _ => h.mem_iff.2

/-- Two rebuildings that leave the same new generation make the same of a derivation. -/
theorem derive_goOn_numbers {plan plan' : Plan} {accept : Workspace → Except Fault Unit}
    (haccept : ∀ w w', w.GoWith .numbers Eq w' → accept w = accept w')
    (hrun : Concur Eq (Workspace.GoWith .numbers Eq) (g.derivation plan settings).run
      (g.derivation plan' settings).run) :
    (g.derive plan settings accept).GoOn .numbers Eq (g.derive plan' settings accept) := by
  have hsame : ∀ {α : Type} {x y : Except Fault α}, x = y → Concur Eq Eq x y := by
    rintro α x _ rfl
    exact concur_self fun _ => rfl
  have hends : (g.derive plan settings accept).GoOn .numbers
      (fun out out' => out.1 = out'.1 ∧ out.2 = out'.2) (g.derive plan' settings accept) :=
    derive_goOn hrun (fun w w' hw => hsame (haccept w w' hw)) (fun b c h => congrArg Draft.forwarded h)
      (fun b c h => h ▸ (hsame rfl).mono fun _ _ heq => heq ▸ rfl) (fun h k heq => congrArg serial heq)
      (fun h k heq => hsame (congrArg listing heq)) fun h k heq => hsame (heq ▸ rfl)
  exact hends.mono fun _ _ hout => Prod.ext hout.1 hout.2

/-- A removal of indirections is in step with itself. -/
theorem removeIndirections_goOn {alphabetize announce : Bool} :
    (g.removeIndirections alphabetize announce).GoOn .numbers Eq
      (g.removeIndirections alphabetize announce) := by
  have hself : ∀ {α : Type} {x : Except Fault α}, Concur Eq Eq x x := concur_self fun _ => rfl
  have hrun : ∀ {plan : Plan} {settings : Settings}, Concur Eq (Workspace.GoWith .numbers Eq)
      (g.derivation plan settings).run (g.derivation plan settings).run := fun {plan settings} =>
    hself.mono fun w w' hw => hw ▸ ⟨rfl, rfl, rfl, rfl, rfl⟩
  rw [removeIndirections]
  dsimp only
  split
  · exact Transform.goOn_pure rfl
  · refine (Transform.goOn_ofExcept hself).bind fun graph _ hgraph => ?_
    subst hgraph
    split
    · exact fun _ _ _ => rfl
    · rw [substitute]
      split
      · exact Transform.goOn_pure rfl
      · refine (derive_goOn_numbers (fun w w' hw => ?_) hrun).bind fun out _ hout => ?_
        · rw [hw.draft]
        · exact Transform.goOn_pure (by rw [hout])

/-- **Groups that the roots reach are replaced alike in any order.** -/
theorem replace_goOn (h : groups.Perm groups') (hfits : (Plan.replace groups).fault? g.serial = none)
    (hroots : g.RootsReach settings groups) :
    (g.replace settings groups force).GoOn .numbers Eq (g.replace settings groups' force) := by
  have hparallel : (g.derivation (.replace groups) settings).Parallel .numbers Eq
      (g.derivation (.replace groups') settings) :=
    ⟨rfl, fun _ => rfl, rfl, h.length_eq.symm, fun _ => Plan.groupAt?_of_perm h
      (Plan.groups_of_fault? hfits).2, fun _ => concur_self fun _ => rfl⟩
  have hsteps : Draft.Steps .numbers Eq Eq :=
    ⟨fun _ => Rebuild.inStep_self, fun _ _ => Rebuild.inStep_self,
      fun _ _ _ _ heq => heq ▸ Rebuild.inStep_self, fun _ _ _ _ heq => heq ▸ Rebuild.inStep_self,
      fun heq => congrArg Draft.forwarded heq⟩
  have hrun : Concur Eq (Workspace.GoWith .numbers Eq) (g.derivation (.replace groups) settings).run
      (g.derivation (.replace groups') settings).run :=
    Derivation.run_concur hparallel hsteps hfits (Plan.fault?_replace_of_perm h hfits)
      (fun hvisit number number' group _ => Derivation.goOn_runGroup rfl hvisit number number' group) rfl
      fun w w' => pendingGroups_eq_nil h hfits hroots
  rw [replace, replace, h.isEmpty_eq]
  split
  · exact Transform.goOn_pure rfl
  · refine (derive_goOn_numbers (fun _ _ _ => rfl) hrun).bind fun out _ hout => ?_
    subst hout
    obtain ⟨new, forwarded⟩ := out
    cases forwarded with
    | false => exact Transform.goOn_pure rfl
    | true =>
      refine removeIndirections_goOn.bind fun out _ hout => ?_
      exact Transform.goOn_pure (by rw [hout])

end Generation

end SchemaGraph
