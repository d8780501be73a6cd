/-!
# Dictionaries

A finite map from names to values, kept as a list in strictly increasing order of its names. The
order is part of the type, so a dictionary is determined by what it maps and lists its names the
same way however it was built.
-/

namespace MethodBrowser

/-- Values by name, in increasing order of the names. -/
structure Dictionary (α : Type) where
  entries : List (String × α)
  sorted : entries.Pairwise fun a b => a.1 < b.1

namespace Dictionary

variable {α β : Type}

instance [DecidableEq α] : DecidableEq (Dictionary α) := fun a b =>
  decidable_of_iff (a.entries = b.entries) (by cases a; cases b; simp)

def empty : Dictionary α := ⟨[], .nil⟩

instance : Inhabited (Dictionary α) := ⟨empty⟩

def size (d : Dictionary α) : Nat := d.entries.length

def keys (d : Dictionary α) : List String := d.entries.map (·.1)

def values (d : Dictionary α) : List α := d.entries.map (·.2)

/-- The value of a name. -/
def get? (d : Dictionary α) (key : String) : Option α := d.entries.lookup key

def contains (d : Dictionary α) (key : String) : Bool := (d.get? key).isSome

/-! ## Changes -/

/-- Puts an entry where its name belongs, in the place of an entry of the same name. -/
def insertEntry (key : String) (value : α) : List (String × α) → List (String × α)
  | [] => [(key, value)]
  | entry :: rest =>
    if key = entry.1 then (key, value) :: rest
    else if key < entry.1 then (key, value) :: entry :: rest
    else entry :: insertEntry key value rest

theorem fst_of_mem_insertEntry {key : String} {value : α} {l : List (String × α)} {e : String × α}
    (h : e ∈ insertEntry key value l) : e.1 = key ∨ e ∈ l := by
  induction l with
  | nil => simp_all [insertEntry]
  | cons entry rest ih =>
    unfold insertEntry at h
    grind

theorem sorted_insertEntry {key : String} {value : α} {l : List (String × α)}
    (h : l.Pairwise fun a b => a.1 < b.1) :
    (insertEntry key value l).Pairwise fun a b => a.1 < b.1 := by
  induction l with
  | nil => simp [insertEntry]
  | cons entry rest ih =>
    obtain ⟨hentry, hrest⟩ := List.pairwise_cons.1 h
    unfold insertEntry
    split
    · next heq => exact List.pairwise_cons.2 ⟨fun e he => heq ▸ hentry e he, hrest⟩
    · next hne =>
      split
      · next hlt =>
        refine List.pairwise_cons.2 ⟨fun e he => ?_, h⟩
        rcases List.mem_cons.1 he with rfl | he
        · exact hlt
        · exact String.lt_trans hlt (hentry e he)
      · next hnlt =>
        have hgt : entry.1 < key := by
          apply String.not_le.1
          exact fun hle => hne (String.le_antisymm hle (String.not_lt.1 hnlt))
        refine List.pairwise_cons.2 ⟨fun e he => ?_, ih hrest⟩
        rcases fst_of_mem_insertEntry he with he | he
        · exact he ▸ hgt
        · exact hentry e he

/-- Maps a name to a value, whatever it was mapped to before. -/
def insert (d : Dictionary α) (key : String) (value : α) : Dictionary α :=
  ⟨insertEntry key value d.entries, sorted_insertEntry d.sorted⟩

/-- Forgets a name. -/
def erase (d : Dictionary α) (key : String) : Dictionary α :=
  ⟨d.entries.filter fun e => e.1 != key, d.sorted.filter _⟩

/-- The dictionary of a list in which the last entry of a name counts. -/
def ofList (l : List (String × α)) : Dictionary α :=
  l.foldl (fun d e => d.insert e.1 e.2) empty

end Dictionary

/-- The distinct strings of a list, in increasing order. -/
def sortedNames (names : List String) : List String :=
  (Dictionary.ofList (names.map fun name => (name, ()))).keys

end MethodBrowser
