import SchemaGraph.Proofs.OrderOfSamples

/-!
# What is concluded from strings

Of the strings seen at one place only the first few different ones are kept, so which these are depends
on the order of the strings as soon as there are too many. The fold can be said in closed form all the
same (`SchemaGraph.StringShape.summary_ofTexts`): kept are the first `SchemaGraph.StringShape.maxLiterals`
of the different strings in the order in which they come up
(`SchemaGraph.StringShape.literals_ofTexts`), and there were more exactly if there are more different
strings than that. Nothing that is concluded depends on the strings that were dropped: the kind is read
off the kinds, of which all are kept, and where strings were dropped there are too many for an enum.
-/

namespace SchemaGraph

/-! ### Different members of a list -/

section EraseDups

variable {α : Type} [DecidableEq α] {as : List α}

/-- There are repeats exactly if some member counts twice. -/
theorem length_eraseDups_lt_iff : as.eraseDups.length < as.length ↔ ∃ a, 2 ≤ as.count a := by
  have hsub : as.eraseDups.Subperm as :=
    (Digraph.nodup_eraseDups as).subperm fun a ha => List.mem_eraseDups.1 ha
  have hnodup : as.length ≤ as.eraseDups.length ↔ as.Nodup := by
    constructor
    · exact fun hle => (hsub.perm_of_length_le hle).nodup_iff.1 (Digraph.nodup_eraseDups as)
    · exact fun h => by rw [eraseDups_eq_self_of_nodup h]
  rw [← not_le, hnodup, List.nodup_iff_count_le_one, not_forall]
  exact exists_congr fun a => not_le

end EraseDups

namespace SortedSet

variable {α : Type} [LT α] [DecidableLT α] [Trans (α := α) (· < ·) (· < ·) (· < ·)] {as : List α}
  {a : α}

theorem ofList_concat : ofList (as ++ [a]) = (ofList as).insert a := by
  rw [ofList, List.foldl_append]
  rfl

variable [Std.Trichotomous (α := α) (· < ·)] (hirrefl : ∀ a : α, ¬ a < a)

include hirrefl

theorem insert_eq_self {s : SortedSet α} (h : a ∈ s) : s.insert a = s :=
  ext hirrefl fun b => by
    rw [mem_insert]
    exact or_iff_right_of_imp fun heq => heq ▸ h

/-- The size of a set is the number of different members of the list that it is made from. -/
theorem size_ofList [DecidableEq α] : (ofList as).size = as.eraseDups.length := by
  refine ((List.perm_ext_iff_of_nodup (nodup_toList hirrefl) (Digraph.nodup_eraseDups as)).2
    fun a => ?_).length_eq
  rw [mem_toList_ofList, List.mem_eraseDups]

end SortedSet

namespace StringShape

variable {texts : List String} {kind : PrimitiveKind}

/-! ### What is kept -/

/-- **The first different strings are kept**, as many as there is room for. -/
theorem literals_ofTexts :
    (ofTexts texts).literals = .ofList (texts.eraseDups.take maxLiterals) := by
  induction texts using List.reverseRecOn with
  | nil => rfl
  | append_singleton texts text ih =>
    have hsize : (ofTexts texts).literals.size = min maxLiterals texts.eraseDups.length := by
      have hnodup := (Digraph.nodup_eraseDups texts).sublist (List.take_sublist maxLiterals _)
      rw [ih, SortedSet.size_ofList String.lt_irrefl, eraseDups_eq_self_of_nodup hnodup,
        List.length_take]
    have hobserve : (ofTexts (texts ++ [text])).literals =
        if (ofTexts texts).literals.size < maxLiterals then (ofTexts texts).literals.insert text
        else (ofTexts texts).literals := by
      rw [ofTexts_concat]
      rfl
    rw [hobserve, hsize, ih, eraseDups_concat]
    by_cases hroom : texts.eraseDups.length < maxLiterals
    · rw [if_pos (lt_of_le_of_lt (min_le_right _ _) hroom), List.take_of_length_le hroom.le]
      split
      · next hmem =>
        rw [List.take_of_length_le hroom.le]
        refine SortedSet.insert_eq_self String.lt_irrefl (SortedSet.mem_ofList.2 ?_)
        simpa using hmem
      · have hlength : (texts.eraseDups ++ [text]).length ≤ maxLiterals := by
          rw [List.length_append, List.length_singleton]
          exact hroom
        rw [List.take_of_length_le hlength, SortedSet.ofList_concat]
    · rw [if_neg fun hlt => hroom ((min_lt_iff.1 hlt).resolve_left (lt_irrefl _))]
      split
      · rfl
      · rw [List.take_append_of_le_length (not_lt.1 hroom)]

theorem overflowed_ofTexts_iff :
    (ofTexts texts).overflowed = true ↔ maxLiterals < texts.eraseDups.length := by
  rw [keeps_ofTexts.overflowed_iff, SortedSet.size_ofList String.lt_irrefl]

theorem kinds_ofTexts : (ofTexts texts).kinds = .ofList (texts.map Literal.classify) :=
  SortedSet.ext (fun kind => Nat.lt_irrefl kind.rank) fun kind => by
    rw [mem_kinds_ofTexts, SortedSet.mem_ofList, List.mem_map]

/-! ### What is concluded -/

/-- **The kind is the one that all strings have**, -/
theorem kind_ofTexts_of_forall (hne : texts ≠ [])
    (hall : ∀ text ∈ texts, Literal.classify text = kind) : (ofTexts texts).kind = kind := by
  have hkinds : (ofTexts texts).kinds = .singleton kind := by
    refine SortedSet.ext (fun kind => Nat.lt_irrefl kind.rank) fun k => ?_
    rw [mem_kinds_ofTexts]
    refine Iff.trans ⟨?_, ?_⟩ (List.mem_singleton (a := k) (b := kind)).symm
    · rintro ⟨text, htext, rfl⟩
      exact hall text htext
    · rintro rfl
      obtain ⟨text, htext⟩ := List.exists_mem_of_ne_nil texts hne
      exact ⟨text, htext, hall text htext⟩
  rw [StringShape.kind, hkinds]
  rfl

/-- and plain string if there is none. -/
theorem kind_ofTexts_of_not
    (hnone : ¬∃ kind, texts ≠ [] ∧ ∀ text ∈ texts, Literal.classify text = kind) :
    (ofTexts texts).kind = .string := by
  rw [StringShape.kind]
  split
  · next only honly =>
    have hmem : ∀ k, k ∈ (ofTexts texts).kinds ↔ k = only := fun k => by
      rw [SortedSet.mem_def, honly, List.mem_singleton]
    obtain ⟨text, htext, -⟩ := mem_kinds_ofTexts.1 ((hmem only).2 rfl)
    refine absurd ⟨only, List.ne_nil_of_mem htext, fun text htext => ?_⟩ hnone
    exact (hmem _).1 (mem_kinds_ofTexts.2 ⟨text, htext, rfl⟩)
  · rfl

/-- **The cases of an enum** are all strings, if they are few labels of no other kind with repeats. -/
theorem closedLabels?_ofTexts_eq_some_iff {cases : List String} :
    (ofTexts texts).closedLabels? = some cases ↔
      (ofTexts texts).kind = .string ∧
      (1 ≤ texts.eraseDups.length ∧ texts.eraseDups.length ≤ maxCases) ∧
      (∃ text, 2 ≤ texts.count text) ∧ (∀ text ∈ texts, Literal.isLabel text = true) ∧
      cases = (SortedSet.ofList texts).toList := by
  have hlength : (SortedSet.ofList texts).toList.length = texts.eraseDups.length :=
    SortedSet.size_ofList String.lt_irrefl
  have hempty : (!(SortedSet.ofList texts).toList.isEmpty) = true ↔ 1 ≤ texts.eraseDups.length := by
    rw [← hlength, Nat.one_le_iff_ne_zero, Bool.not_eq_true', List.isEmpty_eq_false_iff, ne_eq, ne_eq,
      List.length_eq_zero_iff]
  have hlabels : (SortedSet.ofList texts).toList.all Literal.isLabel = true ↔
      ∀ text ∈ texts, Literal.isLabel text = true := by
    simp only [List.all_eq_true, SortedSet.mem_toList_ofList]
  rw [closedLabels?_ofTexts]
  dsimp only
  rw [Option.ite_none_right_eq_some, Option.some.injEq]
  simp only [Bool.and_eq_true, decide_eq_true_eq, hempty, hlabels, hlength, length_eraseDups_lt_iff]
  rw [eq_comm (a := cases)]
  tauto

/-- **What a shape remembers of strings and what it concludes from them**, whatever the strings. Kept
are the first different ones, up to 64; the number of strings and the set of their kinds are exact. The
kind is the one that all strings have, or plain string; there are cases if and only if the strings are
plain, all labels, of one to eight different ones, and some string is there twice, and then the cases
are all strings. So neither depends on the order of the strings. -/
theorem summary_ofTexts (texts : List String) :
    (ofTexts texts).observations = texts.length ∧
    (ofTexts texts).kinds = .ofList (texts.map Literal.classify) ∧
    (ofTexts texts).literals = .ofList (texts.eraseDups.take 64) ∧
    ((ofTexts texts).overflowed = true ↔ 64 < texts.eraseDups.length) ∧
    (∀ kind, texts ≠ [] → (∀ text ∈ texts, Literal.classify text = kind) →
      (ofTexts texts).kind = kind) ∧
    ((¬∃ kind, texts ≠ [] ∧ ∀ text ∈ texts, Literal.classify text = kind) →
      (ofTexts texts).kind = .string) ∧
    (∀ cases, (ofTexts texts).closedLabels? = some cases ↔
      (ofTexts texts).kind = .string ∧
      (1 ≤ texts.eraseDups.length ∧ texts.eraseDups.length ≤ 8) ∧
      (∃ text, 2 ≤ texts.count text) ∧ (∀ text ∈ texts, Literal.isLabel text = true) ∧
      cases = (SortedSet.ofList texts).toList) ∧
    ∀ others, texts.Perm others → (ofTexts texts).kind = (ofTexts others).kind ∧
      (ofTexts texts).closedLabels? = (ofTexts others).closedLabels? :=
  ⟨observations_ofTexts, kinds_ofTexts, literals_ofTexts, overflowed_ofTexts_iff,
    fun _ => kind_ofTexts_of_forall, kind_ofTexts_of_not,
    fun _ => closedLabels?_ofTexts_eq_some_iff,
    fun _ h => ⟨kind_ofTexts_perm h, closedLabels?_ofTexts_perm h⟩⟩

/-- A switch that was on twice, and the same in another order. -/
theorem summary_ofTexts_switch :
    (ofTexts ["on", "off", "on"]).closedLabels? = some ["off", "on"] ∧
      (ofTexts ["off", "on", "on"]).closedLabels? = some ["off", "on"] := by
  obtain ⟨-, -, -, -, hkind, -, hcases, hperm⟩ := summary_ofTexts ["on", "off", "on"]
  have hplain : ∀ text ∈ ["on", "off", "on"], Literal.classify text = .string := by decide
  have hsome : (ofTexts ["on", "off", "on"]).closedLabels? = some ["off", "on"] := by
    refine (hcases _).2 ⟨hkind _ (by decide) hplain, by decide, ⟨"on", by decide⟩, by decide, ?_⟩
    decide
  exact ⟨hsome, (hperm _ (.swap _ _ _)).2.symm.trans hsome⟩

end StringShape

end SchemaGraph
