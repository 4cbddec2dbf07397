import Mathlib.Data.List.Forall2
import SchemaGraph.Sample.Identifier

/-!
# Words and type names

A key is read with one bit of memory, which says whether the next letter or digit begins a word. What
comes of it can be said without it: the **words** of a key are its runs of letters and digits
(`SchemaGraph.words`), and its type name is made of the words with a capital in front of each, and of a
`T` where no letter would be first (`SchemaGraph.toList_pascalCase`). So the type name is the same for
all keys of the same words, whatever stands between them.

What is made like this is an identifier, and one word that begins with a capital already
(`SchemaGraph.IsTypeName`). Such a word is its own type name.
-/

namespace SchemaGraph

/-! ### Characters -/

section Characters

variable {c : Char}

theorem isUpper_iff : c.isUpper = true ↔ 65 ≤ c.toNat ∧ c.toNat ≤ 90 := decide_eq_true_iff

theorem isLower_iff : c.isLower = true ↔ 97 ≤ c.toNat ∧ c.toNat ≤ 122 :=
  Bool.and_eq_true_iff.trans (and_congr decide_eq_true_iff decide_eq_true_iff)

theorem isDigit_iff : c.isDigit = true ↔ 48 ≤ c.toNat ∧ c.toNat ≤ 57 :=
  Bool.and_eq_true_iff.trans (and_congr decide_eq_true_iff decide_eq_true_iff)

theorem isAlpha_iff : c.isAlpha = true ↔ c.isUpper = true ∨ c.isLower = true := Bool.or_eq_true_iff

theorem isAlphanum_iff : c.isAlphanum = true ↔ c.isAlpha = true ∨ c.isDigit = true :=
  Bool.or_eq_true_iff

theorem isAlpha_of_isUpper (h : c.isUpper = true) : c.isAlpha = true := isAlpha_iff.2 (.inl h)

theorem isAlphanum_of_isAlpha (h : c.isAlpha = true) : c.isAlphanum = true := isAlphanum_iff.2 (.inl h)

theorem not_isDigit_of_isUpper (h : c.isUpper = true) : c.isDigit = false := by
  refine Bool.eq_false_iff.2 fun hdigit => ?_
  have hletter := isUpper_iff.1 h
  have hnumber := isDigit_iff.1 hdigit
  omega

theorem toNat_lt_of_isAlphanum (h : c.isAlphanum = true) : c.toNat < 128 := by
  rw [isAlphanum_iff, isAlpha_iff, isUpper_iff, isLower_iff, isDigit_iff] at h
  omega

theorem toUpper_of_not_isLower (h : ¬c.isLower = true) : c.toUpper = c :=
  dif_neg fun hlower => h (isLower_iff.2 hlower)

theorem toNat_toUpper_of_isLower (h : c.isLower = true) : c.toUpper.toNat = c.toNat - 32 := by
  obtain ⟨hle, hle'⟩ := isLower_iff.1 h
  have hrange : 'a'.val ≤ c.val ∧ c.val ≤ 'z'.val := ⟨hle, hle'⟩
  have hupper : c.toUpper.val = c.val + ('A'.val - 'a'.val) := by
    delta Char.toUpper
    rw [dif_pos hrange]
  have hshift : ('A'.val - 'a'.val).toNat = 4294967264 := by decide
  change c.toUpper.val.toNat = c.val.toNat - 32
  rw [hupper, UInt32.toNat_add, hshift]
  change 97 ≤ c.val.toNat at hle
  change c.val.toNat ≤ 122 at hle'
  omega

theorem isUpper_toUpper (h : c.isAlpha = true) : c.toUpper.isUpper = true := by
  by_cases hlower : c.isLower = true
  · rw [isUpper_iff, toNat_toUpper_of_isLower hlower]
    have hletter := isLower_iff.1 hlower
    omega
  · rw [toUpper_of_not_isLower hlower]
    exact (isAlpha_iff.1 h).resolve_right hlower

/-- Only letters have other capitals, -/
theorem toUpper_of_not_isAlpha (h : c.isAlpha = false) : c.toUpper = c :=
  toUpper_of_not_isLower fun hlower => by simp [isAlpha_iff.2 (.inr hlower)] at h

/-- and capitals have none. -/
theorem toUpper_of_isUpper (h : c.isUpper = true) : c.toUpper = c := by
  refine toUpper_of_not_isLower fun hlower => ?_
  have hletter := isUpper_iff.1 h
  have hletter' := isLower_iff.1 hlower
  omega

theorem isAlphanum_toUpper (h : c.isAlphanum = true) : c.toUpper.isAlphanum = true := by
  cases halpha : c.isAlpha with
  | true => exact isAlphanum_of_isAlpha (isAlpha_of_isUpper (isUpper_toUpper halpha))
  | false => rwa [toUpper_of_not_isAlpha halpha]

/-- The capital of a letter or digit is a digit if it is of no letter. -/
theorem isDigit_toUpper (h : c.isAlphanum = true) : c.toUpper.isDigit = !c.isAlpha := by
  cases halpha : c.isAlpha with
  | true => exact not_isDigit_of_isUpper (isUpper_toUpper halpha)
  | false =>
    rw [toUpper_of_not_isAlpha halpha]
    exact (isAlphanum_iff.1 h).resolve_left (by simp [halpha])

end Characters

/-! ### Words -/

/-- What a text has between its separators, which are all characters but letters and digits. There is
nothing between two separators in a row. -/
def pieces (cs : List Char) : List (List Char) := cs.splitOnP fun c => !c.isAlphanum

/-- The words of a text: its runs of letters and digits. -/
def words (cs : List Char) : List (List Char) := (pieces cs).filter fun piece => !piece.isEmpty

/-- A word with a capital in front. -/
def capitalize : List Char → List Char
  | [] => []
  | c :: rest => c.toUpper :: rest

section Words

variable {c : Char} {cs ds : List Char}

theorem pieces_ne_nil (cs : List Char) : pieces cs ≠ [] := List.splitOnP_ne_nil _ cs

theorem pieces_cons_of_isAlphanum (h : c.isAlphanum = true) :
    pieces (c :: cs) = (pieces cs).modifyHead (c :: ·) := by
  rw [pieces, List.splitOnP_cons_eq_if_modifyHead, h]
  rfl

theorem pieces_cons_of_not (h : c.isAlphanum = false) : pieces (c :: cs) = [] :: pieces cs := by
  rw [pieces, List.splitOnP_cons_eq_if_modifyHead, h]
  rfl

/-- No letter or digit is lost, and none comes out of order. -/
theorem flatten_words : (words cs).flatten = cs.filter Char.isAlphanum := by
  rw [words, List.flatten_filter_not_isEmpty]
  induction cs with
  | nil => rfl
  | cons c cs ih =>
    cases h : c.isAlphanum with
    | true =>
      obtain ⟨piece, rest, hpieces⟩ := List.exists_cons_of_ne_nil (pieces_ne_nil cs)
      rw [pieces_cons_of_isAlphanum h, List.filter_cons_of_pos h, ← ih, hpieces]
      rfl
    | false =>
      rw [pieces_cons_of_not h, List.filter_cons_of_neg (by simp [h]), ← ih]
      rfl

/-- Nothing has no capital, so it does not matter what is between separators in a row. -/
theorem flatMap_capitalize_words : (words cs).flatMap capitalize = (pieces cs).flatMap capitalize := by
  rw [words]
  induction pieces cs with
  | nil => rfl
  | cons piece rest ih => cases piece <;> simp_all [capitalize]

/-- The scan of a text goes on with a piece of it, which gets a capital if it was not begun before. -/
theorem joinWords_eq {piece : List Char} {rest : List (List Char)} (atStart : Bool)
    (h : pieces cs = piece :: rest) : joinWords atStart cs =
      (if atStart then capitalize piece else piece) ++ rest.flatMap capitalize := by
  induction cs generalizing atStart piece rest with
  | nil =>
    obtain ⟨rfl, rfl⟩ := List.cons.inj h
    cases atStart <;> rfl
  | cons c cs ih =>
    obtain ⟨piece', rest', hpieces⟩ := List.exists_cons_of_ne_nil (pieces_ne_nil cs)
    cases hc : c.isAlphanum with
    | true =>
      rw [pieces_cons_of_isAlphanum hc, hpieces] at h
      obtain ⟨rfl, rfl⟩ := List.cons.inj h
      rw [joinWords, if_pos hc, ih false hpieces]
      cases atStart <;> rfl
    | false =>
      rw [pieces_cons_of_not hc, hpieces] at h
      obtain ⟨rfl, rfl⟩ := List.cons.inj h
      rw [joinWords, if_neg (by simp [hc]), ih true hpieces]
      cases atStart <;> rfl

theorem joinWords_true : joinWords true cs = (words cs).flatMap capitalize := by
  obtain ⟨piece, rest, hpieces⟩ := List.exists_cons_of_ne_nil (pieces_ne_nil cs)
  rw [joinWords_eq true hpieces, flatMap_capitalize_words, hpieces]
  rfl

/-- Texts that differ in separators only have the same words. -/
theorem words_eq_of_forall₂
    (h : List.Forall₂ (fun c d => c = d ∨ (c.isAlphanum = false ∧ d.isAlphanum = false)) cs ds) :
    words cs = words ds := by
  refine congrArg (List.filter fun piece => !piece.isEmpty) (?_ : pieces cs = pieces ds)
  induction h with
  | nil => rfl
  | @cons c d cs ds hcd _ ih =>
    rcases hcd with rfl | ⟨hc, hd⟩
    · cases hc : c.isAlphanum with
      | true => rw [pieces_cons_of_isAlphanum hc, pieces_cons_of_isAlphanum hc, ih]
      | false => rw [pieces_cons_of_not hc, pieces_cons_of_not hc, ih]
    · rw [pieces_cons_of_not hc, pieces_cons_of_not hd, ih]

end Words

/-! ### Type names -/

/-- One word that begins with a capital letter. -/
def IsTypeName (cs : List Char) : Prop :=
  ∃ first rest, cs = first :: rest ∧ first.isUpper = true ∧ ∀ c ∈ rest, c.isAlphanum = true

section TypeNames

variable {cs : List Char}

/-- There are only letters and digits in what a scan makes of a text. -/
theorem isAlphanum_of_mem_joinWords {c : Char} {atStart : Bool} (h : c ∈ joinWords atStart cs) :
    c.isAlphanum = true := by
  induction cs generalizing atStart with
  | nil => cases h
  | cons d cs ih =>
    rw [joinWords] at h
    split at h
    · next hd =>
      rcases List.mem_cons.1 h with rfl | h
      · cases atStart with
        | true => exact isAlphanum_toUpper hd
        | false => exact hd
      · exact ih h
    · exact ih h

/-- What a text begins with after the scan: nothing, or the capital of its first letter or digit. -/
theorem joinWords_true_eq (cs : List Char) : joinWords true cs = [] ∧ cs.find? Char.isAlphanum = none ∨
    ∃ c rest, joinWords true cs = c.toUpper :: joinWords false rest ∧
      cs.find? Char.isAlphanum = some c := by
  induction cs with
  | nil => exact .inl ⟨rfl, rfl⟩
  | cons c cs ih =>
    cases hc : c.isAlphanum with
    | true => exact .inr ⟨c, cs, by rw [joinWords, if_pos hc]; rfl, List.find?_cons_of_pos hc⟩
    | false =>
      have hc' : ¬c.isAlphanum = true := by simp [hc]
      rwa [joinWords, if_neg hc', List.find?_cons_of_neg hc']

/-- The `T` is there if the first letter or digit is no letter. -/
theorem startWithLetter_joinWords : startWithLetter (joinWords true cs) =
    (if (cs.find? Char.isAlphanum).any Char.isAlpha then [] else ['T']) ++ joinWords true cs := by
  rcases joinWords_true_eq cs with ⟨hjoin, hfind⟩ | ⟨c, rest, hjoin, hfind⟩
  · rw [hjoin, hfind]
    rfl
  · have hdigit := isDigit_toUpper (List.find?_some hfind)
    rw [hjoin, hfind, startWithLetter, hdigit, Option.any_some]
    cases c.isAlpha <;> rfl

/-- **The type name of a key is made of its words.** -/
theorem toList_pascalCase (key : String) : (pascalCase key).toList =
    (if (key.toList.find? Char.isAlphanum).any Char.isAlpha then [] else ['T']) ++
      (words key.toList).flatMap capitalize := by
  rw [pascalCase, String.toList_ofList, startWithLetter_joinWords, joinWords_true]

/-- **It is one word that begins with a capital.** -/
theorem isTypeName_pascalCase (key : String) : IsTypeName (pascalCase key).toList := by
  have hall : ∀ c ∈ joinWords true key.toList, c.isAlphanum = true := fun _ =>
    isAlphanum_of_mem_joinWords
  rw [pascalCase, String.toList_ofList, startWithLetter_joinWords]
  rcases joinWords_true_eq key.toList with ⟨hjoin, hfind⟩ | ⟨c, rest, hjoin, hfind⟩
  · rw [hjoin, hfind]
    exact ⟨'T', [], rfl, rfl, nofun⟩
  · rw [hfind, Option.any_some]
    cases hc : c.isAlpha with
    | true =>
      rw [hjoin] at hall ⊢
      exact ⟨_, _, rfl, isUpper_toUpper hc, fun d hd => hall d (List.mem_cons_of_mem _ hd)⟩
    | false => exact ⟨'T', _, rfl, rfl, hall⟩

theorem joinWords_false_eq_self (h : ∀ c ∈ cs, c.isAlphanum = true) : joinWords false cs = cs := by
  induction cs with
  | nil => rfl
  | cons c cs ih =>
    obtain ⟨hc, hcs⟩ := List.forall_mem_cons.1 h
    rw [joinWords, if_pos hc, ih hcs]
    rfl

theorem IsTypeName.toNat_lt (h : IsTypeName cs) : ∀ c ∈ cs, c.toNat < 128 := by
  obtain ⟨first, rest, rfl, hfirst, hrest⟩ := h
  refine List.forall_mem_cons.2 ⟨?_, fun c hc => toNat_lt_of_isAlphanum (hrest c hc)⟩
  exact toNat_lt_of_isAlphanum (isAlphanum_of_isAlpha (isAlpha_of_isUpper hfirst))

/-- **One word that begins with a capital is its own type name.** -/
theorem IsTypeName.pascalCase_eq {name : String} (h : IsTypeName name.toList) :
    pascalCase name = name := by
  obtain ⟨first, rest, hname, hfirst, hrest⟩ := h
  have halpha := isAlpha_of_isUpper hfirst
  have hjoin : joinWords true name.toList = name.toList := by
    rw [hname, joinWords, if_pos (isAlphanum_of_isAlpha halpha), if_pos rfl,
      toUpper_of_isUpper hfirst, joinWords_false_eq_self hrest]
  have hfind : name.toList.find? Char.isAlphanum = some first := by
    rw [hname, List.find?_cons_of_pos (isAlphanum_of_isAlpha halpha)]
  rw [pascalCase, startWithLetter_joinWords, hjoin, hfind, Option.any_some, halpha, if_pos rfl,
    List.nil_append, String.ofList_toList]

/-- **Type names are identifiers made of the words of a key.** The name of a key is a capital letter
with letters and digits after it, all of ASCII, and is its own name. It has the words of the key, that
is all its letters and digits in their order, with a capital in front of each word and a `T` before
them unless a letter is first. So keys of the same words have the same name, and in particular those
that differ only in the characters between the words. -/
theorem pascalCase_joins_words (key : String) :
    IsTypeName (pascalCase key).toList ∧ (∀ c ∈ (pascalCase key).toList, c.toNat < 128) ∧
    pascalCase (pascalCase key) = pascalCase key ∧
    (words key.toList).flatten = key.toList.filter Char.isAlphanum ∧
    (pascalCase key).toList =
      (if (key.toList.find? Char.isAlphanum).any Char.isAlpha then [] else ['T']) ++
        (words key.toList).flatMap capitalize ∧
    (∀ other, words other.toList = words key.toList → pascalCase other = pascalCase key) ∧
    ∀ other, List.Forall₂ (fun c d => c = d ∨ (c.isAlphanum = false ∧ d.isAlphanum = false))
      other.toList key.toList → pascalCase other = pascalCase key := by
  have hwords : ∀ other, words other.toList = words key.toList → pascalCase other = pascalCase key := by
    intro other h
    rw [pascalCase, pascalCase, joinWords_true, joinWords_true, h]
  have hname := isTypeName_pascalCase key
  exact ⟨hname, hname.toNat_lt, hname.pascalCase_eq, flatten_words, toList_pascalCase key, hwords,
    fun other h => hwords other (words_eq_of_forall₂ h)⟩

/-- It does not matter by what the words are separated, and how often. -/
theorem pascalCase_joins_words_separated :
    words "2fa--user_id".toList = words "2fa user.id".toList ∧
      pascalCase "2fa--user_id" = pascalCase "2fa user.id" ∧ pascalCase "2fa user.id" = "T2faUserId" ∧
      pascalCase "2fa/user-id" = pascalCase "2fa user.id" := by
  obtain ⟨-, -, -, -, -, hwords, hseparators⟩ := pascalCase_joins_words "2fa user.id"
  have hsame : words "2fa--user_id".toList = words "2fa user.id".toList := by decide
  exact ⟨hsame, hwords _ hsame, by decide, hseparators "2fa/user-id" (by decide)⟩

end TypeNames

end SchemaGraph
