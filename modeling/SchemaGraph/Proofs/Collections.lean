import Mathlib.Data.List.Induction
import Mathlib.Data.List.Nodup
import SchemaGraph.OrderedMap
import SchemaGraph.Ref
import SchemaGraph.SortedSet

/-!
# Facts about ordered maps and sorted sets

What the proofs about the library need to know of its two collections. A look-up in an ordered
map says which entry is there (`SchemaGraph.OrderedMap.find?_eq_some_iff`) and is not disturbed
by what happens to other keys. A sorted set is determined by its members
(`SchemaGraph.SortedSet.ext`), so a set that is made from a list again can be computed on the
list (`SchemaGraph.SortedSet.ofList_map_ofList_map`).
-/

namespace SchemaGraph

/-- A list without repeats has none to drop. -/
theorem eraseDups_eq_self_of_nodup {α : Type} [DecidableEq α] {as : List α} (h : as.Nodup) :
    as.eraseDups = as := by
  induction as with
  | nil => rfl
  | cons a as ih =>
    obtain ⟨ha, has⟩ := List.nodup_cons.1 h
    have hfilter : as.filter (fun b => !b == a) = as :=
      List.filter_eq_self.2 fun b hb => by
        have hba : b ≠ a := fun heq => ha (heq ▸ hb)
        simp [hba]
    rw [List.eraseDups_cons, hfilter, ih has]

/-- What comes at the end of a list is new, or a repeat. -/
theorem eraseDups_concat {α : Type} [DecidableEq α] {as : List α} {a : α} :
    (as ++ [a]).eraseDups = if a ∈ as then as.eraseDups else as.eraseDups ++ [a] := by
  rw [List.eraseDups_append]
  by_cases h : a ∈ as
  · rw [if_pos h]
    simp [List.removeAll, h]
  · rw [if_neg h]
    have hnew : [a].removeAll as = [a] :=
      List.filter_eq_self.2 fun b hb => by simpa [List.mem_singleton.1 hb] using h
    rw [hnew]
    rfl

/-- What is left of a list without repeats is in the order of first occurrences. -/
theorem pairwise_idxOf_eraseDups {α : Type} [DecidableEq α] (as : List α) :
    as.eraseDups.Pairwise fun b c => as.idxOf b < as.idxOf c := by
  induction as using List.reverseRecOn with
  | nil => exact .nil
  | append_singleton as last ih =>
    have hbefore : ∀ b ∈ as, (as ++ [last]).idxOf b = as.idxOf b := fun b hb =>
      List.idxOf_append_of_mem hb
    have hold : as.eraseDups.Pairwise fun b c => (as ++ [last]).idxOf b < (as ++ [last]).idxOf c := by
      refine ih.imp_of_mem fun hb hc hlt => ?_
      rwa [hbefore _ (List.mem_eraseDups.1 hb), hbefore _ (List.mem_eraseDups.1 hc)]
    rw [eraseDups_concat]
    split
    · exact hold
    · next hnew =>
      refine List.pairwise_append.2 ⟨hold, List.pairwise_singleton _ _, fun b hb c hc => ?_⟩
      obtain rfl := List.mem_singleton.1 hc
      have hb := List.mem_eraseDups.1 hb
      rw [hbefore b hb, List.idxOf_append_of_notMem hnew]
      exact Nat.lt_add_right _ (List.idxOf_lt_length_of_mem hb)

/-- What is sorted by a text is in order. -/
theorem pairwise_mergeSort_text {α : Type} {text : α → String} {as : List α} :
    (as.mergeSort fun a b => text a ≤ text b).Pairwise fun a b => text a ≤ text b := by
  have htrans : ∀ a b c : α, decide (text a ≤ text b) = true → decide (text b ≤ text c) = true →
      decide (text a ≤ text c) = true := fun _ _ _ hab hbc =>
    decide_eq_true (String.le_trans (of_decide_eq_true hab) (of_decide_eq_true hbc))
  have htotal : ∀ a b : α, (decide (text a ≤ text b) || decide (text b ≤ text a)) = true :=
    fun a b => by simpa using String.le_total (text a) (text b)
  exact (List.pairwise_mergeSort htrans htotal as).imp of_decide_eq_true

/-- Sorting by a text leaves no choice if no two entries have one text. -/
theorem mergeSort_eq_of_perm {α : Type} {text : α → String} {as bs : List α} (h : as.Perm bs)
    (hsame : ∀ a ∈ as, ∀ b ∈ as, text a = text b → a = b) :
    as.mergeSort (fun a b => text a ≤ text b) = bs.mergeSort (fun a b => text a ≤ text b) := by
  refine List.Perm.eq_of_pairwise (fun a b ha hb hab hba => ?_) pairwise_mergeSort_text
    pairwise_mergeSort_text ((List.mergeSort_perm _ _).trans (h.trans (List.mergeSort_perm _ _).symm))
  have ha' : a ∈ as := List.mem_mergeSort.1 ha
  have hb' : b ∈ bs := List.mem_mergeSort.1 hb
  exact hsame a ha' b (h.mem_iff.2 hb') (String.le_antisymm hab hba)

namespace OrderedMap

variable {α β : Type} [DecidableEq α] {m : OrderedMap α β} {key k : α} {value : β}

theorem find?_eq_some_iff : m.find? key = some value ↔ (key, value) ∈ m.entries := by
  obtain ⟨entries, hnd⟩ := m
  change lookupEntry key entries = some value ↔ (key, value) ∈ entries
  induction entries with
  | nil => simp [lookupEntry]
  | cons e rest ih =>
    obtain ⟨k, v⟩ := e
    obtain ⟨hk, hrest⟩ := List.nodup_cons.1 hnd
    rw [lookupEntry]
    by_cases h : k = key
    · subst h
      have hnot : (k, value) ∉ rest := fun hm => hk (List.mem_map.2 ⟨_, hm, rfl⟩)
      simp [hnot, eq_comm]
    · rw [if_neg h, ih hrest]
      simp [Ne.symm h]

/-- The order of the entries makes no difference to look-ups. -/
theorem find?_of_perm {m' : OrderedMap α β} (h : m.entries.Perm m'.entries) (key : α) :
    m'.find? key = m.find? key :=
  Option.ext fun v => by rw [find?_eq_some_iff, find?_eq_some_iff, h.mem_iff]

theorem lookupEntry_filter {entries : List (α × β)} :
    lookupEntry k (entries.filter (·.1 ≠ key)) = if k = key then none else lookupEntry k entries := by
  induction entries with
  | nil => simp [lookupEntry]
  | cons e rest ih => grind [lookupEntry]

/-- A look-up after a deletion misses the deleted key and sees the old map elsewhere. -/
theorem find?_erase : (m.erase key).find? k = if k = key then none else m.find? k :=
  lookupEntry_filter

theorem contains_eq_false_iff : m.contains key = false ↔ m.find? key = none := by
  simp [contains]

/-- What is found after a write was there before, or was written. -/
theorem eq_or_of_find?_insert {v : β} (h : (m.insert key value).find? k = some v) :
    m.find? k = some v ∨ (k = key ∧ v = value) := by
  rw [find?_insert] at h
  split at h
  · next heq => exact .inr ⟨heq.symm, (Option.some.inj h).symm⟩
  · exact .inl h

/-- A value after a write was there before, or was written. -/
theorem eq_or_mem_of_mem_values_insert {v : β} (h : v ∈ (m.insert key value).values) :
    v ∈ m.values ∨ v = value := by
  obtain ⟨⟨k, v⟩, he, rfl⟩ := List.mem_map.1 h
  rcases eq_or_of_find?_insert (find?_eq_some_iff.2 he) with hold | ⟨-, rfl⟩
  · exact .inl (List.mem_map_of_mem (find?_eq_some_iff.1 hold))
  · exact .inr rfl

/-- A write under a new key hides nothing. -/
theorem find?_insert_of_find? {v : β} (hkey : m.find? key = none) (h : m.find? k = some v) :
    (m.insert key value).find? k = some v := by
  have hne : key ≠ k := fun heq => by simp [← heq, hkey] at h
  rw [find?_insert, if_neg hne, h]

/-- A value stands where its key does. -/
theorem getElem?_values_idxOf {v : β} (h : m.find? k = some v) :
    m.values[m.keys.idxOf k]? = some v := by
  obtain ⟨entries, hnd⟩ := m
  change lookupEntry k entries = some v at h
  change (entries.map Prod.snd)[(entries.map Prod.fst).idxOf k]? = some v
  clear hnd
  induction entries with
  | nil => cases h
  | cons e rest ih =>
    rw [lookupEntry] at h
    rw [List.map_cons, List.map_cons]
    by_cases hk : e.1 = k
    · rw [if_pos hk] at h
      rw [hk, List.idxOf_cons_self, List.getElem?_cons_zero, h]
    · rw [if_neg hk] at h
      rw [List.idxOf_cons_ne _ hk, List.getElem?_cons_succ, ih h]

omit [DecidableEq α] in
/-- The keys before an entry are others. -/
theorem not_mem_keys_of_entries_eq {done rest : List (α × β)} {e : α × β}
    (h : done ++ e :: rest = m.entries) : e.1 ∉ done.map Prod.fst := by
  have hnodup := m.nodup
  rw [← h, List.map_append, List.nodup_append] at hnodup
  exact fun hmem => hnodup.2.2 e.1 hmem e.1 (by simp) rfl

theorem isEmpty_of_find?_eq_none (h : ∀ k, m.find? k = none) : m.isEmpty = true := by
  rw [isEmpty, List.isEmpty_iff]
  refine List.eq_nil_iff_forall_not_mem.2 fun e he => ?_
  have hfind : m.find? e.1 = some e.2 := find?_eq_some_iff.2 he
  simp [h] at hfind

theorem entries_insert_of_find?_eq_none (h : m.find? key = none) :
    (m.insert key value).entries = m.entries ++ [(key, value)] := by
  obtain ⟨entries, hnd⟩ := m
  change lookupEntry key entries = none at h
  change insertEntry key value entries = entries ++ [(key, value)]
  clear hnd
  induction entries with
  | nil => rfl
  | cons e rest ih => grind [lookupEntry, insertEntry]

/-- A map has no entries but those of the list it is made of. -/
theorem mem_of_mem_ofList {entries : List (α × β)} {e : α × β} (h : e ∈ (ofList entries).entries) :
    e ∈ entries := by
  have hfold : ∀ (entries : List (α × β)) (m : OrderedMap α β),
      e ∈ (entries.foldl (fun m e => m.insert e.1 e.2) m).entries → e ∈ m.entries ∨ e ∈ entries := by
    intro entries
    induction entries with
    | nil => exact fun _ h => .inl h
    | cons first rest ih =>
      intro m h
      rcases ih _ h with h | h
      · rcases eq_or_of_find?_insert (find?_eq_some_iff.2 h) with h | ⟨hk, hv⟩
        · exact .inl (find?_eq_some_iff.1 h)
        · exact .inr (List.mem_cons.2 (.inl (Prod.ext hk hv)))
      · exact .inr (List.mem_cons_of_mem _ h)
  exact (hfold entries empty h).resolve_left (by simp [empty])

/-- The map of a function on some keys. -/
theorem find?_ofList_map (f : α → β) (keys : List α) :
    (ofList (keys.map fun k => (k, f k))).find? key = if key ∈ keys then some (f key) else none := by
  have hfold : ∀ (keys : List α) (m : OrderedMap α β),
      ((keys.map fun k => (k, f k)).foldl (fun m e => m.insert e.1 e.2) m).find? key =
        if key ∈ keys then some (f key) else m.find? key := by
    intro keys
    induction keys with
    | nil => simp
    | cons k rest ih =>
      intro m
      rw [List.map_cons, List.foldl_cons, ih, find?_insert]
      by_cases hk : k = key
      · subst hk
        simp
      · simp [hk, Ne.symm hk]
  exact hfold keys empty

end OrderedMap

namespace Ref

theorem ext {r s : Ref} (hserial : r.serial = s.serial) (hindex : r.index = s.index) : r = s := by
  obtain ⟨serial, index⟩ := r
  obtain rfl : serial = s.serial := hserial
  obtain rfl : index = s.index := hindex
  rfl

theorem lt_irrefl (r : Ref) : ¬ r < r := by
  rw [lt_def]
  omega

end Ref

namespace SortedSet

section Ext

variable {α : Type} [LT α] {s t : SortedSet α}

/-- **A sorted set is determined by its members.** -/
theorem ext (hirrefl : ∀ a : α, ¬ a < a) [Trans (α := α) (· < ·) (· < ·) (· < ·)]
    (h : ∀ a, a ∈ s ↔ a ∈ t) : s = t := by
  have hlist : ∀ {as bs : List α}, as.Pairwise (· < ·) → bs.Pairwise (· < ·) →
      (∀ a, a ∈ as ↔ a ∈ bs) → as = bs := by
    intro as
    induction as with
    | nil =>
      intro bs _ _ h
      exact (List.eq_nil_iff_forall_not_mem.2 fun b hb => by simpa using (h b).2 hb).symm
    | cons a as ih =>
      intro bs has hbs h
      cases bs with
      | nil => simpa using (h a).1 (by simp)
      | cons b bs =>
        obtain ⟨ha, has⟩ := List.pairwise_cons.1 has
        obtain ⟨hb, hbs'⟩ := List.pairwise_cons.1 hbs
        -- both heads are the least member
        have hab : a = b := by
          rcases List.mem_cons.1 ((h a).1 (by simp)) with hab | hab
          · exact hab
          · rcases List.mem_cons.1 ((h b).2 (by simp)) with hba | hba
            · exact hba.symm
            · exact absurd (Trans.trans (ha b hba) (hb a hab)) (hirrefl a)
        subst hab
        refine congrArg (a :: ·) (ih has hbs' fun c => ⟨fun hc => ?_, fun hc => ?_⟩)
        · rcases List.mem_cons.1 ((h c).1 (by simp [hc])) with rfl | hc'
          · exact absurd (ha c hc) (hirrefl c)
          · exact hc'
        · rcases List.mem_cons.1 ((h c).2 (by simp [hc])) with rfl | hc'
          · exact absurd (hb c hc) (hirrefl c)
          · exact hc'
  obtain ⟨as, has⟩ := s
  obtain ⟨bs, hbs⟩ := t
  have hab : as = bs := hlist has hbs h
  subst hab
  rfl

theorem nodup_toList (hirrefl : ∀ a : α, ¬ a < a) : s.toList.Nodup := by
  refine List.nodup_iff_pairwise_ne.2 (s.sorted.imp ?_)
  rintro a _ hlt rfl
  exact hirrefl a hlt

/-- A set with more members than another is larger. -/
theorem size_lt_of_subset {a : α} (hirrefl : ∀ a : α, ¬ a < a) (h : ∀ b ∈ s, b ∈ t) (ha : a ∈ t)
    (hnot : a ∉ s) : s.size < t.size := by
  have hnd : (a :: s.toList).Nodup := List.nodup_cons.2 ⟨hnot, nodup_toList hirrefl⟩
  exact hnd.length_le_of_subset (List.cons_subset.2 ⟨ha, h⟩)

end Ext

section OfList

variable {α : Type} [LT α] [DecidableLT α] [Trans (α := α) (· < ·) (· < ·) (· < ·)]
  [Std.Trichotomous (α := α) (· < ·)]

theorem mem_foldl_insert {as : List α} {s : SortedSet α} {a : α} :
    a ∈ as.foldl insert s ↔ a ∈ as ∨ a ∈ s := by
  induction as generalizing s with
  | nil => simp
  | cons b bs ih =>
    rw [List.foldl_cons, ih, mem_insert, List.mem_cons]
    grind

omit [Std.Trichotomous (α := α) (· < ·)] in
theorem size_insert_le {s : SortedSet α} {a : α} : (s.insert a).size ≤ s.size + 1 := by
  have hlist : ∀ as : List α, (insertList a as).length ≤ as.length + 1 := by
    intro as
    induction as with
    | nil => simp [insertList]
    | cons b bs ih => grind [insertList]
  exact hlist s.toList

@[simp]
theorem mem_ofList {as : List α} {a : α} : a ∈ ofList as ↔ a ∈ as := by
  rw [ofList, mem_foldl_insert]
  exact or_iff_left (by simp [mem_def, empty])

@[simp]
theorem mem_toList_ofList {as : List α} {a : α} : a ∈ (ofList as).toList ↔ a ∈ as := mem_ofList

@[simp]
theorem mem_union {s t : SortedSet α} {a : α} : a ∈ s.union t ↔ a ∈ s ∨ a ∈ t := by
  rw [union, mem_foldl_insert, mem_def, mem_def]
  exact or_comm

/-- Two lists with the same members make the same set. -/
theorem ofList_congr (hirrefl : ∀ a : α, ¬ a < a) {as bs : List α} (h : ∀ a, a ∈ as ↔ a ∈ bs) :
    ofList as = ofList bs :=
  ext hirrefl fun a => by simp only [mem_ofList, h]

end OfList

/-- The image of a set of references under one map and then another. -/
theorem ofList_map_ofList_map (f g : Ref → Ref) (rs : List Ref) :
    ofList ((ofList (rs.map f)).toList.map g) = ofList (rs.map (g ∘ f)) :=
  ofList_congr Ref.lt_irrefl fun a => by
    simp only [List.mem_map, mem_toList_ofList, Function.comp_apply]
    constructor
    · rintro ⟨_, ⟨r, hr, rfl⟩, rfl⟩
      exact ⟨r, hr, rfl⟩
    · rintro ⟨r, hr, rfl⟩
      exact ⟨_, ⟨r, hr, rfl⟩, rfl⟩

end SortedSet

end SchemaGraph
