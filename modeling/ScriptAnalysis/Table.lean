/-!
# Tables

Values under distinct names, in the order of the names by their code points. `get?` is the view of a
table: `get?_insert` says what a new value does to it.
-/

namespace ScriptAnalysis

variable {α : Type}

/-- The entries with one more; an entry of the same name is replaced. -/
def insertEntry (name : String) (value : α) : List (String × α) → List (String × α)
  | [] => [(name, value)]
  | (n, v) :: entries =>
    if name < n then (name, value) :: (n, v) :: entries
    else if name = n then (name, value) :: entries
    else (n, v) :: insertEntry name value entries

/-- Every entry after inserting one is the new one or one that was there. -/
theorem mem_insertEntry {name : String} {value : α} {entries : List (String × α)}
    {entry : String × α} (h : entry ∈ insertEntry name value entries) :
    entry = (name, value) ∨ entry ∈ entries := by
  fun_induction insertEntry name value entries <;> simp_all <;> grind

/-- Entries in the order of their names stay in order. -/
theorem pairwise_insertEntry (name : String) (value : α) {entries : List (String × α)}
    (h : entries.Pairwise (·.1 < ·.1)) : (insertEntry name value entries).Pairwise (·.1 < ·.1) := by
  fun_induction insertEntry name value entries with
  | case1 => simp
  | case2 n v entries hlt =>
    simp only [List.pairwise_cons] at h
    refine List.pairwise_cons.2 ⟨fun e he => ?_, List.pairwise_cons.2 h⟩
    rcases List.mem_cons.1 he with rfl | he
    · exact hlt
    · exact String.lt_trans hlt (h.1 e he)
  | case3 v entries _ =>
    simp only [List.pairwise_cons] at h ⊢
    exact h
  | case4 n v entries hlt hne ih =>
    simp only [List.pairwise_cons] at h
    refine List.pairwise_cons.2 ⟨fun e he => ?_, ih h.2⟩
    rcases mem_insertEntry he with rfl | he
    · exact String.not_le.1 fun hle => hlt (Std.lt_of_le_of_ne hle hne)
    · exact h.1 e he

/-- The new entry is found under its name, and every other name finds what it found before. -/
theorem lookup_insertEntry (name other : String) (value : α) (entries : List (String × α)) :
    (insertEntry name value entries).lookup other =
      if other = name then some value else entries.lookup other := by
  fun_induction insertEntry name value entries <;> grind

/-- Values under distinct names. -/
structure Table (α : Type) where
  /-- The names with their values. -/
  entries : List (String × α)
  /-- The names are in strictly ascending order. -/
  sorted : entries.Pairwise (·.1 < ·.1)

namespace Table

/-- The table without entries. -/
def empty : Table α := ⟨[], .nil⟩

instance : Inhabited (Table α) := ⟨empty⟩

/-- The table with a value under a name; a value that was there is replaced. -/
def insert (t : Table α) (name : String) (value : α) : Table α :=
  ⟨insertEntry name value t.entries, pairwise_insertEntry name value t.sorted⟩

/-- The table of some entries; of several with one name the last counts. -/
def ofList (entries : List (String × α)) : Table α :=
  entries.foldl (fun t entry => t.insert entry.1 entry.2) empty

/-- The value under a name. -/
def get? (t : Table α) (name : String) : Option α := t.entries.lookup name

/-- The names in order. -/
def names (t : Table α) : List String := t.entries.map (·.1)

@[simp] theorem get?_empty (name : String) : (empty : Table α).get? name = none := rfl

theorem get?_insert (t : Table α) (name other : String) (value : α) :
    (t.insert name value).get? other = if other = name then some value else t.get? other :=
  lookup_insertEntry name other value t.entries

end Table

end ScriptAnalysis
