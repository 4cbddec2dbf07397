import SchemaGraph.Proofs.DraftGrowth
import SchemaGraph.Proofs.Rebuild.Groups

/-!
# The course of a rebuilding with groups

A script may do anything while other nodes are being rebuilt: ask for old nodes, which are then
rebuilt in the middle of it, fill slots that are not its own, and start further groups.
`SchemaGraph.Derivation.Course` says what can happen to the workspace all the same, and keeps a
list of what the scripts did (`SchemaGraph.Deed`): which operations they ran, and what they
returned for their groups. The invariants are proved here by induction on the course, so that the
recursion is not looked at again:

* an old node that is in no group keeps its image, and its counterpart leads to the node with
  every child replaced by its image (`SchemaGraph.Derivation.Course.steady`);
* the members of a group that was met stand for one slot, which the journal names
  (`SchemaGraph.Derivation.Course.replaced`);
* a slot that a group reserved is filled by what the script returned, or else by an operation that
  names it (`SchemaGraph.Derivation.Course.of_returned`).
-/

namespace SchemaGraph

/-- What the scripts of a rebuilding do, as far as slots of the new generation are concerned. -/
inductive Deed
  /-- The script of a group returned what replaces it, to be put behind the slot. -/
  | returned (group : Nat) (slot replacement : Ref)
  /-- A script ran an operation. -/
  | edited (edit : Edit)

/-- Whether the script of group `k` returned. -/
def Deed.isReturnOf (k : Nat) : Deed → Bool
  | returned group _ _ => group = k
  | edited _ => false

namespace Plan

variable {p : Plan} {k index : Nat} {group : Group} {m : Ref}

/-- A member of a group is found in that group. -/
theorem groupAt?_of_mem (hapart : p.groups.Pairwise Apart) (hk : p.groups[k]? = some group)
    (hm : m ∈ group.members) : p.groupAt? m.index = some (k, group) := by
  cases hfind : p.groupAt? m.index with
  | none =>
    exact absurd rfl (findGroup?_eq_none_iff.1 hfind group (List.mem_of_getElem? hk) m hm)
  | some found =>
    obtain ⟨j, b⟩ := found
    obtain ⟨j', rfl, hj, m', hm', heq⟩ := exists_of_findGroup? hfind
    obtain rfl := eq_of_mem_members hapart hk hj hm hm' heq.symm
    rw [Nat.zero_add, Option.some.inj (hk.symm.trans hj)]

theorem not_mem_of_groupAt?_eq_none (h : p.groupAt? index = none) (hk : p.groups[k]? = some group)
    (hm : m ∈ group.members) : m.index ≠ index :=
  findGroup?_eq_none_iff.1 h group (List.mem_of_getElem? hk) m hm

end Plan

namespace Derivation

open Rebuild

/-! ### Courses -/

/-- The workspace in which the script of a group is started: a slot is reserved, and the members
stand for it. -/
def opened (w : Workspace) (number : Nat) (group : Group) : Workspace :=
  starting { w with draft := { w.draft with slots := w.draft.slots.push none } } number group
    w.draft.nextRef

/-- What a script returned is put behind the slot of its group, unless it is the slot. -/
inductive Closes (slot replacement : Ref) (w : Workspace) : Workspace → Prop
  | itself (heq : replacement = slot) : Closes slot replacement w w
  | forwarding {draft : Draft} (hne : replacement ≠ slot)
    (hrun : Build.forward slot replacement w.draft = .ok ((), draft)) :
    Closes slot replacement w { w with draft }

/-- What happens to the workspace in a rebuilding, and what the scripts did on the way. Groups that
were met before are started again only where `restarts` allows it. -/
inductive Course (d : Derivation) (restarts : Prop) : Workspace → List Deed → Workspace → Prop
  /-- Nothing happens. -/
  | stop (w : Workspace) : d.Course restarts w [] w
  /-- One thing happens after the other. -/
  | append {w w' w'' : Workspace} {deeds deeds' : List Deed} (h : d.Course restarts w deeds w')
    (h' : d.Course restarts w' deeds' w'') : d.Course restarts w (deeds ++ deeds') w''
  /-- A placeholder is reserved for a node that is in no group. -/
  | hold {w : Workspace} {index : Nat} (hgroup : d.plan.groupAt? index = none)
    (himage : w.image? index = none) :
    d.Course restarts w [] { w with
      draft := { w.draft with slots := w.draft.slots.push none }
      placeholders := w.placeholders.insert index w.draft.nextRef }
  /-- A node that is in no group is stored, with its children replaced by their images. -/
  | settle {w : Workspace} {index : Nat} {old : Node} {attributes : Attributes} {new : Ref}
    {draft : Draft} (hgroup : d.plan.groupAt? index = none) (hnode : d.old.node? index = some old)
    (hchildren : ∀ c ∈ old.children, (w.image? (d.goal c)).isSome)
    (hattributes : d.attributes (d.old.refAt index) = .ok attributes)
    (hsettled : w.counterparts.find? index = none)
    (hrun : Build.intern (old.mapChildren (d.imageOf w)) attributes (w.placeholders.find? index)
      w.draft = .ok (new, draft)) :
    d.Course restarts w [] (w.settleAs index new draft)
  /-- A root is bound, or given its attributes. -/
  | bind {w : Workspace} {edit : Edit} {answer : edit.Answer} {draft : Draft}
    (hnot : ∀ slot, ¬edit.PutsBehind slot) (hrun : edit.run w.draft = .ok (answer, draft)) :
    d.Course restarts w [] { w with draft }
  /-- A script runs an operation. -/
  | edit {w : Workspace} {edit : Edit} {answer : edit.Answer} {draft : Draft}
    (hrun : edit.run w.draft = .ok (answer, draft)) :
    d.Course restarts w [.edited edit] { w with draft }
  /-- A script leaves a reference in the journal. -/
  | remark (w : Workspace) (ref : Ref) :
    d.Course restarts w [] { w with journal := w.journal ++ [.remark ref] }
  /-- A script declares a loss. -/
  | declareLoss (w : Workspace) : d.Course restarts w [] { w with lossDeclared := true }
  /-- The script of a group is run. -/
  | replace {w w' w'' : Workspace} {number depth : Nat} {path : List Nat} {group : Group}
    {replacement : Ref} {deeds : List Deed} (hgroup : d.plan.groups[number]? = some group)
    (hmet : w.met group = true → restarts)
    (hscript : runScript (d.visit depth path) (group.script w.draft.nextRef)
      (opened w number group) = .ok (replacement, w'))
    (hinner : d.Course restarts (opened w number group) deeds w')
    (hcloses : Closes w.draft.nextRef replacement w' w'') :
    d.Course restarts w (deeds ++ [.returned number w.draft.nextRef replacement]) w''

variable {d : Derivation} {restarts : Prop} {w w' : Workspace} {deeds : List Deed} {index k : Nat}
  {group : Group} {r slot replacement : Ref}

/-! ### What every course keeps -/

theorem counterparts_starting {number : Nat} :
    (starting w number group slot).counterparts.find? index =
      if group.members.any (·.index = index) then some slot else w.counterparts.find? index := by
  have hfold : ∀ (members : List Ref) (found : OrderedMap Nat Ref),
      (members.foldl (fun found m => found.insert m.index slot) found).find? index =
        if members.any (·.index = index) then some slot else found.find? index := by
    intro members
    induction members with
    | nil => simp
    | cons m rest ih =>
      intro found
      rw [List.foldl_cons, ih, OrderedMap.find?_insert, List.any_cons]
      by_cases hm : m.index = index <;> simp [hm]
  exact hfold _ _

/-- The members of a group stand for its slot from the start of its script. -/
theorem counterparts_opened_of_mem {number : Nat} {m : Ref} (hm : m ∈ group.members) :
    (opened w number group).counterparts.find? m.index = some w.draft.nextRef := by
  rw [opened, counterparts_starting, if_pos (List.any_eq_true.2 ⟨m, hm, by simp⟩)]

/-- Other nodes do not. -/
theorem counterparts_opened_of_not {number : Nat} (h : ∀ m ∈ group.members, m.index ≠ index) :
    (opened w number group).counterparts.find? index = w.counterparts.find? index := by
  rw [opened, counterparts_starting, if_neg]
  rw [List.any_eq_true]
  rintro ⟨m, hm, heq⟩
  exact h m hm (of_decide_eq_true heq)

theorem Closes.extends (h : Closes slot replacement w w') :
    w.draft.Extends (· = slot) w'.draft := by
  cases h with
  | itself => exact .refl _
  | forwarding _ hrun => exact (Build.forward_extends hrun).1

theorem Closes.same (h : Closes slot replacement w w') :
    w'.counterparts = w.counterparts ∧ w'.placeholders = w.placeholders ∧
      w'.journal = w.journal := by
  cases h with
  | itself => exact ⟨rfl, rfl, rfl⟩
  | forwarding => exact ⟨rfl, rfl, rfl⟩

/-- **The new generation only grows.** -/
theorem Course.extends (h : d.Course restarts w deeds w') :
    w.draft.Extends (fun _ => True) w'.draft := by
  induction h with
  | stop => exact .refl _
  | append _ _ ih ih' => exact ih.trans ih'
  | hold => exact Draft.extends_reserve.any
  | settle _ _ _ _ _ hrun => exact (Build.intern_extends hrun).1.mono fun _ _ => trivial
  | bind _ hrun => exact (Edit.run_extends hrun).mono fun _ _ => trivial
  | edit hrun => exact (Edit.run_extends hrun).mono fun _ _ => trivial
  | remark => exact .refl _
  | declareLoss => exact .refl _
  | replace _ _ _ _ hcloses ih =>
    have hinner := Draft.extends_reserve.any.trans ih
    exact hinner.trans (hcloses.extends.mono fun _ _ => trivial)

/-- A course in which no group is started again is one in which some may be. -/
theorem Course.mono {restarts' : Prop} (h : d.Course restarts w deeds w')
    (himp : restarts → restarts') : d.Course restarts' w deeds w' := by
  induction h with
  | stop w => exact .stop w
  | append _ _ ih ih' => exact .append ih ih'
  | hold hgroup himage => exact .hold hgroup himage
  | settle hgroup hnode hchildren hattributes hsettled hrun =>
    exact .settle hgroup hnode hchildren hattributes hsettled hrun
  | bind hnot hrun => exact .bind hnot hrun
  | edit hrun => exact .edit hrun
  | remark w ref => exact .remark w ref
  | declareLoss w => exact .declareLoss w
  | replace hgroup hmet hscript _ hcloses ih =>
    exact .replace hgroup (himp ∘ hmet) hscript ih hcloses

/-- No event is taken back. -/
theorem Course.mem_journal {event : Event} (h : d.Course restarts w deeds w')
    (hevent : event ∈ w.journal) : event ∈ w'.journal := by
  induction h with
  | append _ _ ih ih' => exact ih' (ih hevent)
  | remark => exact List.mem_append_left _ hevent
  | replace _ _ _ _ hcloses ih =>
    rw [hcloses.same.2.2]
    exact ih (List.mem_append_left _ hevent)
  | _ => exact hevent

/-- A node that has a counterpart keeps one. -/
theorem Course.contains (h : d.Course restarts w deeds w')
    (hindex : w.counterparts.contains index = true) : w'.counterparts.contains index = true := by
  induction h with
  | append _ _ ih ih' => exact ih' (ih hindex)
  | settle =>
    rw [OrderedMap.contains, Workspace.counterparts_settleAs]
    split
    · rfl
    · exact hindex
  | replace _ _ _ _ hcloses ih =>
    rw [hcloses.same.1]
    exact ih (contains_starting.2 (.inl hindex))
  | _ => exact hindex

theorem Course.met (h : d.Course restarts w deeds w') (hmet : w.met group = true) :
    w'.met group = true := by
  obtain ⟨m, hm, hc⟩ := Workspace.met_iff.1 hmet
  exact Workspace.met_iff.2 ⟨m, hm, h.contains hc⟩

/-! ### Groups that were met -/

/-- The members of a group that was met stand for one slot, which was announced for it. -/
def Replaced (d : Derivation) (w : Workspace) : Prop :=
  ∀ (k : Nat) (group : Group), d.plan.groups[k]? = some group → w.met group = true →
    ∃ slot, .replacing k group.members slot ∈ w.journal ∧
      ∀ m ∈ group.members, w.counterparts.find? m.index = some slot

theorem Replaced.contains {m : Ref} (h : d.Replaced w) (hk : d.plan.groups[k]? = some group)
    (hmet : w.met group = true) (hm : m ∈ group.members) :
    w.counterparts.contains m.index = true := by
  obtain ⟨slot, -, hslot⟩ := h k group hk hmet
  rw [OrderedMap.contains, hslot m hm]
  rfl

theorem Replaced.of_same (h : d.Replaced w) (hjournal : ∀ event ∈ w.journal, event ∈ w'.journal)
    (hcounterparts : ∀ {k : Nat} {group : Group}, d.plan.groups[k]? = some group →
      ∀ m ∈ group.members, w'.counterparts.find? m.index = w.counterparts.find? m.index) :
    d.Replaced w' := by
  intro k group hk hmet
  have hsame : w'.met group = w.met group := Workspace.met_congr fun m hm => by
    rw [OrderedMap.contains, hcounterparts hk m hm, OrderedMap.contains]
  obtain ⟨slot, hevent, hslot⟩ := h k group hk (hsame ▸ hmet)
  exact ⟨slot, hjournal _ hevent, fun m hm => (hcounterparts hk m hm).trans (hslot m hm)⟩

/-- When a group is started its members are made to stand for its slot. -/
theorem Replaced.opened (hapart : d.plan.groups.Pairwise Plan.Apart) (hw : d.Replaced w)
    (hgroup : d.plan.groups[k]? = some group) : d.Replaced (opened w k group) := by
  intro j b hj hb
  by_cases hjk : j = k
  · subst hjk
    obtain rfl : group = b := Option.some.inj (hgroup.symm.trans hj)
    exact ⟨w.draft.nextRef, by simp [Derivation.opened, starting],
      fun m hm => counterparts_opened_of_mem hm⟩
  · -- the members of another group are not among those of this one
    have hother : ∀ m ∈ b.members, (Derivation.opened w k group).counterparts.find? m.index =
        w.counterparts.find? m.index := fun m hm =>
      counterparts_opened_of_not fun m' hm' heq =>
        hjk (Plan.eq_of_mem_members hapart hj hgroup hm hm' heq.symm)
    have hsame : (Derivation.opened w k group).met b = w.met b := Workspace.met_congr fun m hm => by
      rw [OrderedMap.contains, hother m hm, OrderedMap.contains]
    obtain ⟨slot, hevent, hslot⟩ := hw j b hj (hsame ▸ hb)
    exact ⟨slot, List.mem_append_left _ hevent, fun m hm => (hother m hm).trans (hslot m hm)⟩

/-- **Groups that were met stand for their slots**, whatever the scripts do. -/
theorem Course.replaced (hapart : d.plan.groups.Pairwise Plan.Apart)
    (h : d.Course restarts w deeds w') (hw : d.Replaced w) : d.Replaced w' := by
  induction h with
  | append _ _ ih ih' => exact ih' (ih hw)
  | @settle w index old attributes new draft hgroup =>
    refine hw.of_same (fun _ => id) fun hk m hm => ?_
    have hne := Plan.not_mem_of_groupAt?_eq_none hgroup hk hm
    rw [Workspace.counterparts_settleAs, if_neg (Ne.symm hne)]
  | remark => exact hw.of_same (fun _ => List.mem_append_left _) fun _ _ _ => rfl
  | replace hgroup _ _ _ hcloses ih =>
    obtain ⟨hcounterparts, -, hjournal⟩ := hcloses.same
    exact (ih (hw.opened hapart hgroup)).of_same (fun _ => hjournal ▸ id) fun _ _ _ => by
      rw [hcounterparts]
  | _ => exact hw.of_same (fun _ => id) fun _ _ _ => rfl

/-! ### Nodes that are in no group -/

/-- Only nodes that are in no group have placeholders. -/
def Ungrouped (d : Derivation) (w : Workspace) : Prop :=
  ∀ index s, w.placeholders.find? index = some s → d.plan.groupAt? index = none

theorem Course.ungrouped (h : d.Course restarts w deeds w') (hw : d.Ungrouped w) :
    d.Ungrouped w' := by
  induction h with
  | append _ _ ih ih' => exact ih' (ih hw)
  | hold hgroup =>
    intro i s hs
    rcases OrderedMap.eq_or_of_find?_insert hs with hs | ⟨rfl, -⟩
    · exact hw i s hs
    · exact hgroup
  | settle =>
    intro i s hs
    rw [Workspace.placeholders_settleAs] at hs
    split at hs
    · cases hs
    · exact hw i s hs
  | replace _ _ _ _ hcloses ih =>
    intro i s hs
    rw [hcloses.same.2.1] at hs
    exact ih hw i s hs
  | _ => exact hw

/-- An image stays when a group is started for the first time, and otherwise at least that of a node
in no group. -/
theorem image_opened (hapart : d.plan.groups.Pairwise Plan.Apart)
    (hgroup : d.plan.groups[k]? = some group) (hw : d.Ungrouped w)
    (hmet : w.met group = true → d.plan.groupAt? index = none) (himage : w.image? index = some r) :
    (opened w k group).image? index = some r := by
  have hnot : ∀ m ∈ group.members, m.index ≠ index := by
    rintro m hm rfl
    have hin := Plan.groupAt?_of_mem hapart hgroup hm
    by_cases hstarted : w.met group = true
    · simp [hmet hstarted] at hin
    · -- a member of a group that was not met has neither a counterpart nor a placeholder
      have hc : w.counterparts.find? m.index = none := by
        by_contra hc
        exact hstarted (Workspace.met_iff.2 ⟨m, hm, Option.isSome_iff_ne_none.2 hc⟩)
      have hplace : w.placeholders.find? m.index = some r := by
        simpa [Workspace.image?, hc] using himage
      simp [hw m.index r hplace] at hin
  rw [Workspace.image?, counterparts_opened_of_not hnot]
  exact himage

/-- **An image stays**, at least that of a node in no group if groups may be started again. -/
theorem Course.image (hapart : d.plan.groups.Pairwise Plan.Apart)
    (h : d.Course restarts w deeds w') (hw : d.Ungrouped w)
    (hrestarts : restarts → d.plan.groupAt? index = none) (himage : w.image? index = some r) :
    w'.image? index = some r := by
  induction h with
  | append h _ ih ih' => exact ih' (h.ungrouped hw) (ih hw himage)
  | @hold w j hgroup hnone =>
    have hne : j ≠ index := fun heq => by simp [← heq, hnone] at himage
    simp only [Workspace.image?, OrderedMap.find?_insert, if_neg hne]
    exact himage
  | @settle w j old attributes new draft hgroup hnode hchildren hattributes hsettled hrun =>
    rw [Workspace.image?_settleAs]
    split
    · next heq =>
      -- the slot that was reserved for the node is where it is stored
      obtain rfl := heq
      have hplace : w.placeholders.find? j = some r := by
        simpa [Workspace.image?, hsettled] using himage
      rw [(Build.intern_extends hrun).2.1 r hplace]
    · exact himage
  | replace hgroup hmet _ _ hcloses ih =>
    obtain ⟨hcounterparts, hplaceholders, -⟩ := hcloses.same
    rw [Workspace.image?, hcounterparts, hplaceholders]
    exact ih hw (image_opened hapart hgroup hw (hrestarts ∘ hmet) himage)
  | _ => exact himage

/-- What is known of the nodes in no group: a counterpart leads to the node that is stored for the
old one, whose children all have images. -/
structure Steady (d : Derivation) (w : Workspace) : Prop where
  mapping : w.draft.mapping = d.mapping
  alphabetize : w.draft.alphabetize = d.alphabetize
  indexed : w.draft.Indexed
  ungrouped : d.Ungrouped w
  settled : ∀ index r, d.plan.groupAt? index = none → w.counterparts.find? index = some r →
    ∃ old, d.old.node? index = some old ∧
      (∀ c ∈ old.children, (w.image? (d.goal c)).isSome) ∧
      w.draft.HoldsBehind r ((old.mapChildren (d.imageOf w)).canonical d.mapping d.alphabetize)

/-- What takes back neither images nor nodes keeps what is known, if it is known of the nodes that
have got a counterpart. -/
theorem Steady.advance {filled : Ref → Prop} (hw : d.Steady w)
    (hextends : w.draft.Extends filled w'.draft) (hungrouped : d.Ungrouped w')
    (himage : ∀ index r, w.image? index = some r → w'.image? index = some r)
    (hnew : ∀ index r, d.plan.groupAt? index = none → w'.counterparts.find? index = some r →
      w.counterparts.find? index = some r ∨ ∃ old, d.old.node? index = some old ∧
        (∀ c ∈ old.children, (w.image? (d.goal c)).isSome) ∧
        w'.draft.HoldsBehind r
          ((old.mapChildren (d.imageOf w)).canonical d.mapping d.alphabetize)) :
    d.Steady w' where
  mapping := hextends.mapping.trans hw.mapping
  alphabetize := hextends.alphabetize.trans hw.alphabetize
  indexed := hextends.indexed hw.indexed
  ungrouped := hungrouped
  settled := by
    intro index r hgroup hc
    obtain ⟨old, hnode, hchildren, hholds⟩ : ∃ old, d.old.node? index = some old ∧
        (∀ c ∈ old.children, (w.image? (d.goal c)).isSome) ∧ w'.draft.HoldsBehind r
          ((old.mapChildren (d.imageOf w)).canonical d.mapping d.alphabetize) := by
      rcases hnew index r hgroup hc with hc | h
      · obtain ⟨old, hnode, hchildren, hholds⟩ := hw.settled index r hgroup hc
        exact ⟨old, hnode, hchildren, hextends.holdsBehind hholds⟩
      · exact h
    have hkeep : ∀ c ∈ old.children, (w'.image? (d.goal c)).isSome ∧
        d.imageOf w' c = d.imageOf w c := by
      intro c hc
      obtain ⟨s, hs⟩ := Option.isSome_iff_exists.1 (hchildren c hc)
      have hs' := himage _ s hs
      exact ⟨Option.isSome_iff_exists.2 ⟨s, hs'⟩, by rw [imageOf_eq hs, imageOf_eq hs']⟩
    refine ⟨old, hnode, fun c hc => (hkeep c hc).1, ?_⟩
    rw [Node.mapChildren_congr fun c hc => (hkeep c hc).2]
    exact hholds

/-- **Nodes in no group are stored as they should be**, whatever the scripts do, as long as no group
is started again. -/
theorem Course.steady (hapart : d.plan.groups.Pairwise Plan.Apart) (h : d.Course False w deeds w')
    (hw : d.Steady w) : d.Steady w' := by
  -- a course in which no node gets a counterpart
  have hsame : ∀ {v v' : Workspace} {deeds : List Deed}, d.Course False v deeds v' → d.Steady v →
      v'.counterparts = v.counterparts → d.Steady v' := fun h hv heq =>
    hv.advance h.extends (h.ungrouped hv.ungrouped)
      (fun _ _ => h.image hapart hv.ungrouped False.elim) fun _ _ _ hc => .inl (heq ▸ hc)
  induction h with
  | stop => exact hw
  | append _ _ ih ih' => exact ih' (ih hw)
  | hold hgroup himage => exact hsame (.hold hgroup himage) hw rfl
  | bind hnot hrun => exact hsame (.bind hnot hrun) hw rfl
  | edit hrun => exact hsame (.edit hrun) hw rfl
  | remark w ref => exact hsame (.remark w ref) hw rfl
  | declareLoss w => exact hsame (.declareLoss w) hw rfl
  | @settle w index old attributes new draft hgroup hnode hchildren hattributes hsettled hrun =>
    have hcourse : d.Course False w [] (w.settleAs index new draft) :=
      .settle hgroup hnode hchildren hattributes hsettled hrun
    refine hw.advance hcourse.extends (hcourse.ungrouped hw.ungrouped)
      (fun _ _ => hcourse.image hapart hw.ungrouped False.elim) fun j r hj hc => ?_
    rw [Workspace.counterparts_settleAs] at hc
    split at hc
    · next heq =>
      obtain rfl := heq
      obtain rfl := Option.some.inj hc
      have hbehind := (Build.intern_extends hrun).2.2 hw.indexed
      rw [hw.mapping, hw.alphabetize] at hbehind
      exact .inr ⟨old, hnode, hchildren, hbehind⟩
    · exact .inl hc
  | @replace w w₁ w₂ number depth path group replacement deeds hgroup hmet hscript hinner hcloses ih =>
    have hopened : d.Steady (opened w number group) := by
      refine hw.advance Draft.extends_reserve hw.ungrouped (fun _ _ =>
        image_opened hapart hgroup hw.ungrouped fun hstarted => (hmet hstarted).elim)
        fun j r hj hc => .inl ?_
      rwa [counterparts_opened_of_not fun m => Plan.not_mem_of_groupAt?_eq_none hj hgroup] at hc
    obtain ⟨hcounterparts, hplaceholders, -⟩ := hcloses.same
    refine (ih hopened).advance hcloses.extends ?_ (fun i s hs => ?_) fun _ _ _ hc =>
      .inl (hcounterparts ▸ hc)
    · intro i s hs
      exact (ih hopened).ungrouped i s (hplaceholders ▸ hs)
    · rw [Workspace.image?, hcounterparts, hplaceholders]
      exact hs

theorem steady_workspace : d.Steady d.workspace where
  mapping := rfl
  alphabetize := rfl
  indexed := fun h => by
    simp [workspace, Draft.ofGeneration, EmptyCollection.emptyCollection] at h
  ungrouped := fun _ _ h => by simp [workspace, EmptyCollection.emptyCollection] at h
  settled := fun _ _ _ h => by simp [workspace, EmptyCollection.emptyCollection] at h

theorem replaced_workspace : d.Replaced d.workspace := by
  intro k group hk hmet
  obtain ⟨m, hm, hc⟩ := Workspace.met_iff.1 hmet
  simp [workspace, EmptyCollection.emptyCollection, OrderedMap.contains] at hc

/-! ### Slots of groups -/

/-- Every placeholder is a slot of the new generation. -/
def Placed (w : Workspace) : Prop :=
  ∀ index s, w.placeholders.find? index = some s → w.draft.HasSlot s

/-- The slot is empty, and not because the node of a placeholder is still being rebuilt. -/
structure Vacant (w : Workspace) (slot : Ref) : Prop where
  empty : w.draft.IsEmptyAt slot
  unplaced : ∀ index, w.placeholders.find? index ≠ some slot

theorem Course.placed (h : d.Course restarts w deeds w') (hw : Placed w) : Placed w' := by
  induction h with
  | stop => exact hw
  | append _ _ ih ih' => exact ih' (ih hw)
  | @hold w index hgroup himage =>
    intro i s hs
    rcases OrderedMap.eq_or_of_find?_insert hs with hs | ⟨-, rfl⟩
    · exact Draft.extends_reserve.hasSlot (hw i s hs)
    · exact ((Draft.isEmptyAt_push_iff rfl).2 (.inr ⟨rfl, rfl⟩)).hasSlot
  | settle _ _ _ _ _ hrun =>
    intro i s hs
    rw [Workspace.placeholders_settleAs] at hs
    split at hs
    · cases hs
    · exact (Build.intern_extends hrun).1.hasSlot (hw i s hs)
  | bind _ hrun => exact fun i s hs => (Edit.run_extends hrun).hasSlot (hw i s hs)
  | edit hrun => exact fun i s hs => (Edit.run_extends hrun).hasSlot (hw i s hs)
  | remark => exact hw
  | declareLoss => exact hw
  | replace _ _ _ _ hcloses ih =>
    intro i s hs
    rw [hcloses.same.2.1] at hs
    refine hcloses.extends.hasSlot (ih (fun j t ht => ?_) i s hs)
    exact Draft.extends_reserve.hasSlot (hw j t ht)

/-- The slot that a group reserves is its own. -/
theorem vacant_opened {number : Nat} (hw : Placed w) :
    Vacant (opened w number group) w.draft.nextRef where
  empty := (Draft.isEmptyAt_push_iff rfl).2 (.inr ⟨rfl, rfl⟩)
  unplaced := fun index hs => Nat.lt_irrefl _ (hw index _ hs).2

theorem Closes.vacant (h : Closes slot replacement w w') {s : Ref} (hs : Vacant w s)
    (hne : s ≠ slot) : Vacant w' s where
  empty := (h.extends.empty hs.empty).resolve_right hne
  unplaced := fun index => by
    rw [h.same.2.1]
    exact hs.unplaced index

/-- **An empty slot that is no placeholder is filled only by an operation of a script**, as long as
it is not the slot of a group that is started on the way. -/
theorem Course.vacant (h : d.Course restarts w deeds w') (hslot : Vacant w slot) :
    Vacant w' slot ∨ ∃ edit, Deed.edited edit ∈ deeds ∧ edit.PutsBehind slot := by
  induction h with
  | stop => exact .inl hslot
  | append _ _ ih ih' =>
    rcases ih hslot with hslot | ⟨edit, hmem, hputs⟩
    · rcases ih' hslot with hslot | ⟨edit, hmem, hputs⟩
      · exact .inl hslot
      · exact .inr ⟨edit, List.mem_append_right _ hmem, hputs⟩
    · exact .inr ⟨edit, List.mem_append_left _ hmem, hputs⟩
  | hold =>
    refine .inl ⟨(Draft.isEmptyAt_push_iff rfl).2 (.inl hslot.empty), fun i hs => ?_⟩
    rcases OrderedMap.eq_or_of_find?_insert hs with hs | ⟨-, rfl⟩
    · exact hslot.unplaced i hs
    · exact Draft.not_isEmptyAt_nextRef hslot.empty
  | @settle w index _ _ _ _ _ _ _ _ _ hrun =>
    refine .inl ⟨?_, fun i hs => ?_⟩
    · exact ((Build.intern_extends hrun).1.empty hslot.empty).resolve_right (hslot.unplaced index)
    · rw [Workspace.placeholders_settleAs] at hs
      split at hs
      · cases hs
      · exact hslot.unplaced i hs
  | bind hnot hrun =>
    exact .inl ⟨((Edit.run_extends hrun).empty hslot.empty).resolve_right (hnot slot),
      hslot.unplaced⟩
  | @edit w edit _ _ hrun =>
    rcases (Edit.run_extends hrun).empty hslot.empty with hempty | hputs
    · exact .inl ⟨hempty, hslot.unplaced⟩
    · exact .inr ⟨edit, List.mem_singleton.2 rfl, hputs⟩
  | remark => exact .inl ⟨hslot.empty, hslot.unplaced⟩
  | declareLoss => exact .inl ⟨hslot.empty, hslot.unplaced⟩
  | @replace w w₁ w₂ number depth path group result deeds hgroup hmet hscript hinner hcloses ih =>
    have hopened : Vacant (opened w number group) slot :=
      ⟨(Draft.isEmptyAt_push_iff rfl).2 (.inl hslot.empty), hslot.unplaced⟩
    rcases ih hopened with hslot' | ⟨edit, hmem, hputs⟩
    · have hne : slot ≠ w.draft.nextRef := fun heq =>
        Draft.not_isEmptyAt_nextRef (heq ▸ hslot.empty)
      exact .inl (hcloses.vacant hslot' hne)
    · exact .inr ⟨edit, List.mem_append_left _ hmem, hputs⟩

/-! ### What the scripts did -/

/-- The slot of a group that is started on the way is new. -/
theorem Course.not_hasSlot_of_returned (h : d.Course restarts w deeds w')
    (hmem : .returned k slot replacement ∈ deeds) : ¬w.draft.HasSlot slot := by
  induction h with
  | append h _ ih ih' =>
    rcases List.mem_append.1 hmem with hmem | hmem
    · exact ih hmem
    · exact fun hslot => ih' hmem (h.extends.hasSlot hslot)
  | replace _ _ _ _ _ ih =>
    rcases List.mem_append.1 hmem with hmem | hmem
    · exact fun hslot =>
        ih hmem (Draft.extends_reserve.hasSlot hslot)
    · obtain ⟨-, rfl, -⟩ := Deed.returned.inj (List.mem_singleton.1 hmem)
      exact fun hslot => Nat.lt_irrefl _ hslot.2
  | edit => simp at hmem
  | _ => cases hmem

/-- **Where a script's result ends up**: behind the slot of its group, unless it is the slot. In
that case the slot is still to be filled, or an operation has put a node behind it. -/
theorem Course.of_returned (h : d.Course restarts w deeds w') (hw : Placed w)
    (hmem : .returned k slot replacement ∈ deeds) :
    (replacement ≠ slot → w'.draft.Holds slot (.indirection replacement)) ∧
      (replacement = slot →
        Vacant w' slot ∨ ∃ edit, Deed.edited edit ∈ deeds ∧ edit.PutsBehind slot) := by
  induction h with
  | @append w w₁ w₂ deeds deeds' h h' ih ih' =>
    rcases List.mem_append.1 hmem with hmem | hmem
    · obtain ⟨hother, hself⟩ := ih hw hmem
      refine ⟨fun hne => h'.extends.holds (hother hne), fun heq => ?_⟩
      rcases hself heq with hvacant | ⟨edit, hedit, hputs⟩
      · refine (h'.vacant hvacant).imp_right ?_
        rintro ⟨edit, hedit, hputs⟩
        exact ⟨edit, List.mem_append_right _ hedit, hputs⟩
      · exact .inr ⟨edit, List.mem_append_left _ hedit, hputs⟩
    · obtain ⟨hother, hself⟩ := ih' (h.placed hw) hmem
      refine ⟨hother, fun heq => (hself heq).imp_right ?_⟩
      rintro ⟨edit, hedit, hputs⟩
      exact ⟨edit, List.mem_append_right _ hedit, hputs⟩
  | @replace w w₁ w₂ number depth path group result deeds hgroup hmet hscript hinner hcloses ih =>
    have hopened : Placed (opened w number group) := fun i s hs =>
      Draft.extends_reserve.hasSlot (hw i s hs)
    -- operations that were run in the script of this group were run on the way
    have hleft : (∃ edit, Deed.edited edit ∈ deeds ∧ edit.PutsBehind slot) →
        ∃ edit, Deed.edited edit ∈ deeds ++ [Deed.returned number w.draft.nextRef result] ∧
          edit.PutsBehind slot := by
      rintro ⟨edit, hedit, hputs⟩
      exact ⟨edit, List.mem_append_left _ hedit, hputs⟩
    rcases List.mem_append.1 hmem with hmem | hmem
    · obtain ⟨hother, hself⟩ := ih hopened hmem
      refine ⟨fun hne => hcloses.extends.holds (hother hne), fun heq => ?_⟩
      rcases hself heq with hvacant | hedit
      · have hne : slot ≠ w.draft.nextRef := fun h =>
          hinner.not_hasSlot_of_returned hmem (h ▸ (vacant_opened hw).empty.hasSlot)
        exact .inl (hcloses.vacant hvacant hne)
      · exact .inr (hleft hedit)
    · obtain ⟨-, rfl, rfl⟩ := Deed.returned.inj (List.mem_singleton.1 hmem)
      cases hcloses with
      | itself heq =>
        exact ⟨fun hne => absurd heq hne, fun _ =>
          (hinner.vacant (vacant_opened hw)).imp_right hleft⟩
      | forwarding hne hrun =>
        exact ⟨fun _ => (Build.forward_extends hrun).2, fun heq => absurd heq hne⟩
  | edit => simp at hmem
  | _ => cases hmem

/-- **What an operation puts behind a slot stays there.** -/
theorem Course.of_edited {node : Node} {attributes : Attributes}
    (h : d.Course restarts w deeds w') (hw : w.draft.Indexed)
    (hmem : .edited (.intern node attributes (some slot)) ∈ deeds) :
    w'.draft.HoldsBehind slot (node.canonical w.draft.mapping w.draft.alphabetize) := by
  induction h with
  | append h h' ih ih' =>
    rcases List.mem_append.1 hmem with hmem | hmem
    · exact h'.extends.holdsBehind (ih hw hmem)
    · have hholds := ih' (h.extends.indexed hw) hmem
      rwa [h.extends.mapping, h.extends.alphabetize] at hholds
  | @edit w edit answer draft hrun =>
    obtain rfl := Deed.edited.inj (List.mem_singleton.1 hmem)
    have hintern : Build.intern node attributes (some slot) w.draft = .ok (answer, draft) := hrun
    obtain ⟨-, hanswer, hholds⟩ := Build.intern_extends hintern
    rw [hanswer slot rfl]
    exact hholds hw
  | replace _ _ _ _ hcloses ih =>
    rcases List.mem_append.1 hmem with hmem | hmem
    · exact hcloses.extends.holdsBehind
        (ih (Draft.extends_reserve.indexed hw) hmem)
    · simp at hmem
  | _ => cases hmem

/-- Every script that is started returns, or the rebuilding fails. -/
theorem Course.timesStarted_eq (h : d.Course restarts w deeds w') :
    timesStarted k w'.journal = timesStarted k w.journal + deeds.countP (Deed.isReturnOf k) := by
  induction h with
  | append _ _ ih ih' => rw [ih', ih, List.countP_append, Nat.add_assoc]
  | edit => rfl
  | remark => rw [timesStarted_append, timesStarted_remark, List.countP_nil]
  | @replace w w₁ w₂ number _ _ group result deeds _ _ _ _ hcloses ih =>
    have hopened : timesStarted k (opened w number group).journal =
        timesStarted k w.journal + if number = k then 1 else 0 := by
      rw [opened, starting, timesStarted_append, timesStarted_replacing]
    rw [hcloses.same.2.2, ih, hopened, List.countP_append, List.countP_singleton, Deed.isReturnOf]
    simp only [decide_eq_true_eq]
    omega
  | _ => rfl

/-- The script of a group returns for the slot that was announced. -/
theorem Course.replacing_of_returned (h : d.Course restarts w deeds w')
    (hmem : .returned k slot replacement ∈ deeds) :
    ∃ members, .replacing k members slot ∈ w'.journal := by
  induction h with
  | append _ h' ih ih' =>
    rcases List.mem_append.1 hmem with hmem | hmem
    · obtain ⟨members, hevent⟩ := ih hmem
      exact ⟨members, h'.mem_journal hevent⟩
    · exact ih' hmem
  | replace _ _ _ hinner hcloses ih =>
    rw [hcloses.same.2.2]
    rcases List.mem_append.1 hmem with hmem | hmem
    · exact ih hmem
    · obtain ⟨rfl, rfl, -⟩ := Deed.returned.inj (List.mem_singleton.1 hmem)
      exact ⟨_, hinner.mem_journal (List.mem_append_right _ (List.mem_singleton.2 rfl))⟩
  | edit => simp at hmem
  | _ => cases hmem

end Derivation

end SchemaGraph
