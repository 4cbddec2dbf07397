import SchemaGraph.Proofs.StringSummary

/-!
# Strings of several kinds

An enum should have plain strings as its cases, but no string is asked for its kind when an enum is
made. The kind of all strings together has to be plain string, and that is also what it is where the
strings are of different kinds (`SchemaGraph.StringShape.kind_ofTexts_eq_string_iff`). So strings that
disagree (`SchemaGraph.Disagree`) are not kept apart from plain strings: they become an enum if they are
few labels with repeats (`SchemaGraph.FewLabels`), and only otherwise they become plain strings
(`SchemaGraph.Samples.build_strings`). The cases of an enum are plain strings exactly if the strings
that it is made from do not disagree (`SchemaGraph.StringShape.forall_cases_iff`).
-/

namespace SchemaGraph

/-- Some two of the texts are of different kinds. -/
def Disagree (texts : List String) : Prop :=
  ∃ a ∈ texts, ∃ b ∈ texts, Literal.classify a ≠ Literal.classify b

/-- The texts are labels, of which there are few, and some come up again. -/
structure FewLabels (texts : List String) : Prop where
  few : 1 ≤ texts.eraseDups.length ∧ texts.eraseDups.length ≤ 8
  repeated : ∃ text, 2 ≤ texts.count text
  labels : ∀ text ∈ texts, Literal.isLabel text = true

section Kinds

variable {texts cases : List String} {kind : PrimitiveKind}

theorem not_disagree_of_forall (hall : ∀ text ∈ texts, Literal.classify text = kind) :
    ¬Disagree texts := by
  rintro ⟨a, ha, b, hb, hne⟩
  exact hne ((hall a ha).trans (hall b hb).symm)

namespace StringShape

theorem kind_ofTexts_of_disagree (h : Disagree texts) : (ofTexts texts).kind = .string :=
  kind_ofTexts_of_not fun ⟨_, _, hall⟩ => not_disagree_of_forall hall h

/-- **The kind of all texts together does not tell plain strings from texts that disagree.** -/
theorem kind_ofTexts_eq_string_iff : (ofTexts texts).kind = .string ↔
    (∀ text ∈ texts, Literal.classify text = .string) ∨ Disagree texts := by
  constructor
  · intro hkind
    refine or_iff_not_imp_right.2 fun hagree text htext => ?_
    have hall : ∀ other ∈ texts, Literal.classify other = Literal.classify text := fun other hother =>
      Classical.byContradiction fun hne => hagree ⟨other, hother, text, htext, hne⟩
    exact (kind_ofTexts_of_forall (List.ne_nil_of_mem htext) hall).symm.trans hkind
  · rintro (hall | hdisagree)
    · cases texts with
      | nil => rfl
      | cons text rest => exact kind_ofTexts_of_forall (List.cons_ne_nil _ _) hall
    · exact kind_ofTexts_of_disagree hdisagree

/-- There are cases if the texts together are plain strings and few labels. -/
theorem closedLabels?_eq_some_iff : (ofTexts texts).closedLabels? = some cases ↔
    (ofTexts texts).kind = .string ∧ FewLabels texts ∧ cases = (SortedSet.ofList texts).toList := by
  rw [closedLabels?_ofTexts_eq_some_iff]
  constructor
  · rintro ⟨hkind, hfew, hrepeated, hlabels, hcases⟩
    exact ⟨hkind, ⟨hfew, hrepeated, hlabels⟩, hcases⟩
  · rintro ⟨hkind, ⟨hfew, hrepeated, hlabels⟩, hcases⟩
    exact ⟨hkind, hfew, hrepeated, hlabels, hcases⟩

/-- **Cases are plain strings if and only if all strings are of one kind.** -/
theorem forall_cases_iff (h : (ofTexts texts).closedLabels? = some cases) :
    (∀ case ∈ cases, Literal.classify case = .string) ↔ ¬Disagree texts := by
  obtain ⟨hkind, -, rfl⟩ := closedLabels?_eq_some_iff.1 h
  simp only [SortedSet.mem_toList_ofList]
  exact ⟨not_disagree_of_forall, (kind_ofTexts_eq_string_iff.1 hkind).resolve_right⟩

theorem node_ofTexts_of_fewLabels (hkind : (ofTexts texts).kind = .string) (h : FewLabels texts) :
    (ofTexts texts).node = .enum (SortedSet.ofList texts).toList := by
  rw [node, closedLabels?_eq_some_iff.2 ⟨hkind, h, rfl⟩]

theorem node_ofTexts_of_not (h : ¬((ofTexts texts).kind = .string ∧ FewLabels texts)) :
    (ofTexts texts).node = .primitive (ofTexts texts).kind := by
  rw [node]
  split
  · next hcases =>
    obtain ⟨hkind, hfew, -⟩ := closedLabels?_eq_some_iff.1 hcases
    exact absurd ⟨hkind, hfew⟩ h
  · rfl

end StringShape

theorem nodeOfTexts_of_ne_nil (hne : texts ≠ []) :
    nodeOfTexts texts = some (StringShape.ofTexts texts).node := by
  rw [nodeOfTexts, if_neg (by simpa using hne)]

end Kinds

namespace Samples

/-- **What becomes of strings.** The cases of an enum are all plain strings if and only if the strings
that it is made from are of one kind. The graph of samples has nothing for strings, along a path, if
there are none at its end. It has an enum for them if they are few labels with repeats and all of them
are plain strings, and their kind if they have one otherwise. Strings of different kinds become an enum
too if they are few labels with repeats, and only if not they become plain strings. -/
theorem build_strings (samples : List (String × Json)) (options : Options) :
    (∀ texts cases, (StringShape.ofTexts texts).closedLabels? = some cases →
      ((∀ case ∈ cases, Literal.classify case = .string) ↔ ¬Disagree texts)) ∧
    ∃ g, (ofList samples).build options = .ok g ∧
      ∀ root path texts, textsAt path (valuesUnder root samples) = texts →
        (texts = [] → g.stringsAt root path = none) ∧
        (∀ kind, texts ≠ [] → (∀ text ∈ texts, Literal.classify text = kind) →
          (kind = .string ∧ FewLabels texts →
            g.stringsAt root path = some (.enum (SortedSet.ofList texts).toList)) ∧
          (¬(kind = .string ∧ FewLabels texts) →
            g.stringsAt root path = some (.primitive kind))) ∧
        (Disagree texts →
          (FewLabels texts →
            g.stringsAt root path = some (.enum (SortedSet.ofList texts).toList)) ∧
          (¬FewLabels texts → g.stringsAt root path = some (.primitive .string))) := by
  refine ⟨fun texts cases h => StringShape.forall_cases_iff h, ?_⟩
  obtain ⟨g, hg, hstrings⟩ := (build_stringsAt samples options).exists_ok fun _ => id
  refine ⟨g, hg, fun root path texts htexts => ?_⟩
  rw [hstrings, htexts]
  refine ⟨fun hnone => hnone ▸ rfl, fun kind hne hall => ?_, fun hdisagree => ?_⟩
  · obtain rfl := StringShape.kind_ofTexts_of_forall hne hall
    rw [nodeOfTexts_of_ne_nil hne]
    exact ⟨fun ⟨hkind, hfew⟩ => congrArg some (StringShape.node_ofTexts_of_fewLabels hkind hfew),
      fun hnot => congrArg some (StringShape.node_ofTexts_of_not hnot)⟩
  · have hkind := StringShape.kind_ofTexts_of_disagree hdisagree
    have hne : texts ≠ [] := fun hnone => by simp [Disagree, hnone] at hdisagree
    rw [nodeOfTexts_of_ne_nil hne]
    refine ⟨fun hfew => congrArg some (StringShape.node_ofTexts_of_fewLabels hkind hfew), fun hnot => ?_⟩
    rw [StringShape.node_ofTexts_of_not fun h => hnot h.2, hkind]

/-- Names of colours, and a number between them. -/
def colours : List (String × Json) :=
  [("colour", .string "red"), ("colour", .string "42"), ("colour", .string "red")]

theorem disagree_colours : Disagree ["red", "42", "red"] :=
  ⟨"red", by simp, "42", by simp, by decide⟩

theorem fewLabels_colours : FewLabels ["red", "42", "red"] :=
  ⟨by decide, ⟨"red", by decide⟩, by decide⟩

/-- The number is a case of the enum. -/
theorem build_strings_colours :
    ∃ g, (ofList colours).build ⟨false⟩ = .ok g ∧
      g.stringsAt "colour" [] = some (.enum ["42", "red"]) ∧
      Literal.classify "42" = .integerString := by
  obtain ⟨-, g, hg, hstrings⟩ := build_strings colours ⟨false⟩
  obtain ⟨-, -, hdisagree⟩ := hstrings "colour" [] ["red", "42", "red"] rfl
  have henum := (hdisagree disagree_colours).1 fewLabels_colours
  exact ⟨g, hg, henum, by decide⟩

/-- So not all cases are plain strings, and strings of different kinds are not always plain strings. -/
theorem not_forall_cases_plain :
    ¬(∀ texts cases, (StringShape.ofTexts texts).closedLabels? = some cases →
      ∀ case ∈ cases, Literal.classify case = .string) ∧
    ¬∀ samples options g root path, (ofList samples).build options = .ok g →
      Disagree (textsAt path (valuesUnder root samples)) →
        g.stringsAt root path = some (.primitive .string) := by
  have hkind := StringShape.kind_ofTexts_of_disagree disagree_colours
  constructor
  · intro hplain
    have hcases : (StringShape.ofTexts ["red", "42", "red"]).closedLabels? = some ["42", "red"] :=
      StringShape.closedLabels?_eq_some_iff.2 ⟨hkind, fewLabels_colours, by decide⟩
    exact absurd (hplain _ _ hcases "42" (by simp)) (by decide)
  · intro hplain
    obtain ⟨g, hg, hstrings⟩ := (build_stringsAt colours ⟨false⟩).exists_ok fun _ => id
    have hprimitive := hplain colours ⟨false⟩ g "colour" [] hg disagree_colours
    have henum : g.stringsAt "colour" [] = some (.enum (SortedSet.ofList ["red", "42", "red"]).toList) :=
      (hstrings "colour" []).trans
        (congrArg some (StringShape.node_ofTexts_of_fewLabels hkind fewLabels_colours))
    cases hprimitive.symm.trans henum

end Samples

end SchemaGraph
