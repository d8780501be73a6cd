import MethodBrowser.Dictionary

/-!
# What dictionaries map

A dictionary is what it maps: `get?` after each change, in terms of `get?` before
(`Dictionary.get?_insert`, `Dictionary.get?_erase`), and the entries as those that `get?` finds
(`Dictionary.mem_entries`).
-/

namespace MethodBrowser.Dictionary

variable {α : Type}

theorem lookup_insertEntry (key : String) (value : α) (l : List (String × α)) (k : String) :
    (insertEntry key value l).lookup k = if k = key then some value else l.lookup k := by
  induction l with
  | nil =>
    simp only [insertEntry, List.lookup_cons, List.lookup_nil]
    by_cases hk : k = key
    · simp [hk]
    · simp [hk, beq_eq_false_iff_ne.2 hk]
  | cons entry rest ih =>
    obtain ⟨name, v⟩ := entry
    simp only [insertEntry]
    by_cases hkey : key = name
    · subst hkey
      by_cases hk : k = key
      · simp [hk]
      · simp [hk, List.lookup_cons, beq_eq_false_iff_ne.2 hk]
    · rw [if_neg hkey]
      split
      · by_cases hk : k = key
        · simp [hk]
        · simp [hk, List.lookup_cons, beq_eq_false_iff_ne.2 hk]
      · rw [List.lookup_cons, List.lookup_cons, ih]
        by_cases hk : k = name
        · subst hk
          simp [Ne.symm hkey]
        · simp [beq_eq_false_iff_ne.2 hk]

theorem lookup_filter (key : String) (l : List (String × α)) (k : String) :
    (l.filter fun e => e.1 != key).lookup k = if k = key then none else l.lookup k := by
  induction l with
  | nil => simp
  | cons entry rest ih =>
    obtain ⟨name, v⟩ := entry
    rw [List.filter_cons]
    by_cases hname : name = key
    · subst hname
      rw [if_neg (by simp), ih, List.lookup_cons]
      by_cases hk : k = name
      · simp [hk]
      · simp [hk, beq_eq_false_iff_ne.2 hk]
    · rw [if_pos (by simpa using hname), List.lookup_cons, List.lookup_cons, ih]
      by_cases hk : k = name
      · subst hk
        simp [hname]
      · simp [beq_eq_false_iff_ne.2 hk]

theorem get?_empty (key : String) : (empty : Dictionary α).get? key = none := rfl

theorem get?_insert (d : Dictionary α) (key : String) (value : α) (k : String) :
    (d.insert key value).get? k = if k = key then some value else d.get? k :=
  lookup_insertEntry key value d.entries k

theorem get?_erase (d : Dictionary α) (key : String) (k : String) :
    (d.erase key).get? k = if k = key then none else d.get? k :=
  lookup_filter key d.entries k

theorem mem_of_lookup {l : List (String × α)} {key : String} {value : α}
    (h : l.lookup key = some value) : (key, value) ∈ l := by
  induction l with
  | nil => simp at h
  | cons entry rest ih =>
    obtain ⟨name, v⟩ := entry
    rw [List.lookup_cons] at h
    by_cases hk : key = name
    · subst hk
      simp only [beq_self_eq_true, Option.some.injEq] at h
      simp [h]
    · simp only [beq_eq_false_iff_ne.2 hk] at h
      exact List.mem_cons_of_mem _ (ih h)

theorem lookup_of_mem {l : List (String × α)} (hl : l.Pairwise fun a b => a.1 < b.1) {key : String}
    {value : α} (h : (key, value) ∈ l) : l.lookup key = some value := by
  induction hl with
  | nil => simp at h
  | @cons entry rest hentry _ ih =>
    obtain ⟨name, v⟩ := entry
    rw [List.lookup_cons]
    rcases List.mem_cons.1 h with h | h
    · obtain ⟨rfl, rfl⟩ := Prod.mk.inj h
      simp
    · have hlt := hentry _ h
      have hk : (key == name) = false := by
        rw [beq_eq_false_iff_ne]
        rintro rfl
        exact String.lt_irrefl _ hlt
      simp only [hk]
      exact ih h

/-- The entries are what the dictionary maps. -/
theorem mem_entries {d : Dictionary α} {key : String} {value : α} :
    (key, value) ∈ d.entries ↔ d.get? key = some value :=
  ⟨lookup_of_mem d.sorted, mem_of_lookup⟩

theorem mem_keys {d : Dictionary α} {key : String} : key ∈ d.keys ↔ (d.get? key).isSome = true := by
  rw [keys, List.mem_map]
  constructor
  · rintro ⟨⟨name, value⟩, hmem, rfl⟩
    simp [mem_entries.1 hmem]
  · intro h
    obtain ⟨value, hvalue⟩ := Option.isSome_iff_exists.1 h
    exact ⟨(key, value), mem_entries.2 hvalue, rfl⟩

/-! ## Building a dictionary from its entries -/

theorem insertEntry_of_lt {l : List (String × α)} {key : String} (value : α)
    (h : ∀ e ∈ l, e.1 < key) : insertEntry key value l = l ++ [(key, value)] := by
  induction l with
  | nil => rfl
  | cons entry rest ih =>
    rw [List.forall_mem_cons] at h
    have hne : key ≠ entry.1 := fun heq => String.lt_irrefl _ (heq ▸ h.1)
    have hnlt : ¬key < entry.1 := fun hlt => String.lt_irrefl _ (String.lt_trans hlt h.1)
    rw [insertEntry, if_neg hne, if_neg hnlt, ih h.2]
    rfl

/-- Entries that are put in one after the other in increasing order of their names are listed as
they came. -/
theorem entries_foldl_insert (d : Dictionary α) {l : List (String × α)}
    (h : (d.entries ++ l).Pairwise fun a b => a.1 < b.1) :
    (l.foldl (fun d e => d.insert e.1 e.2) d).entries = d.entries ++ l := by
  induction l generalizing d with
  | nil => simp
  | cons e l ih =>
    have hlast : (d.insert e.1 e.2).entries = d.entries ++ [e] :=
      insertEntry_of_lt e.2 fun e' he' => (List.pairwise_append.1 h).2.2 e' he' e List.mem_cons_self
    have hsorted : ((d.insert e.1 e.2).entries ++ l).Pairwise fun a b => a.1 < b.1 := by
      rw [hlast, List.append_assoc]
      exact h
    rw [List.foldl_cons, ih _ hsorted, hlast, List.append_assoc]
    rfl

/-- A dictionary is built again from its entries. -/
theorem ofList_entries (d : Dictionary α) : ofList d.entries = d := by
  have h : (ofList d.entries).entries = d.entries := entries_foldl_insert .empty d.sorted
  generalize ofList d.entries = d' at h
  cases d
  cases d'
  simpa using h

end MethodBrowser.Dictionary
