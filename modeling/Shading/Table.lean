/-!
# Tables sorted by key

A finite map kept as a list of entries in strictly increasing order of key. Two tables with the
same entries are equal, whatever the order in which they were filled, so a table can itself be
part of a key.
-/

namespace Shading

/-- Entries in strictly increasing order of key. -/
structure Table (κ : Type) (ν : Type) [Ord κ] where
  /-- The entries, by key. -/
  entries : List (κ × ν)
  /-- Keys increase along the entries. -/
  sorted : entries.Pairwise fun left right => compare left.1 right.1 = .lt

namespace Table

variable {κ ν : Type} [Ord κ]

/-- A table is determined by its entries. -/
@[ext]
theorem ext {left right : Table κ ν} (entries : left.entries = right.entries) : left = right := by
  cases left
  cases right
  cases entries
  rfl

instance [DecidableEq κ] [DecidableEq ν] : DecidableEq (Table κ ν) := fun left right =>
  decidable_of_iff (left.entries = right.entries) ⟨Table.ext, congrArg Table.entries⟩

/-- The table without entries. -/
def empty : Table κ ν where
  entries := []
  sorted := .nil

instance : Inhabited (Table κ ν) := ⟨empty⟩

/-- The number of entries. -/
def size (table : Table κ ν) : Nat :=
  table.entries.length

/-- The keys, in increasing order. -/
def keys (table : Table κ ν) : List κ :=
  table.entries.map Prod.fst

/-- The values, in the order of their keys. -/
def values (table : Table κ ν) : List ν :=
  table.entries.map Prod.snd

/-- The value of a key. -/
def get? (table : Table κ ν) (key : κ) : Option ν :=
  (table.entries.find? fun entry => compare key entry.1 == .eq).map Prod.snd

/-- Puts an entry in its place and drops the entry that had the same key. -/
def insertEntry (key : κ) (value : ν) : List (κ × ν) → List (κ × ν)
  | [] => [(key, value)]
  | entry :: rest =>
    match compare key entry.1 with
    | .lt => (key, value) :: entry :: rest
    | .eq => (key, value) :: rest
    | .gt => entry :: insertEntry key value rest

/-- Each entry of the result is the new one or was there before. -/
theorem mem_of_mem_insertEntry {key : κ} {value : ν} {entry : κ × ν} {entries : List (κ × ν)}
    (member : entry ∈ insertEntry key value entries) :
    entry = (key, value) ∨ entry ∈ entries := by
  induction entries with
  | nil => exact Or.inl (List.mem_singleton.mp member)
  | cons first rest ih =>
    rw [insertEntry] at member
    split at member
    · exact List.mem_cons.mp member
    · exact (List.mem_cons.mp member).imp id (List.mem_cons_of_mem first)
    · rcases List.mem_cons.mp member with same | later
      · exact Or.inr (same ▸ List.mem_cons_self)
      · exact (ih later).imp id (List.mem_cons_of_mem first)

/-- Insertion keeps the entries sorted. -/
theorem pairwise_insertEntry [Std.TransOrd κ] [Std.LawfulEqOrd κ] (key : κ) (value : ν)
    {entries : List (κ × ν)}
    (sorted : entries.Pairwise fun left right => compare left.1 right.1 = .lt) :
    (insertEntry key value entries).Pairwise
      fun left right => compare left.1 right.1 = .lt := by
  induction entries with
  | nil => exact List.pairwise_singleton _ _
  | cons first rest ih =>
    obtain ⟨below, sortedRest⟩ := List.pairwise_cons.mp sorted
    rw [insertEntry]
    split
    next before =>
      refine List.pairwise_cons.mpr ⟨fun entry member => ?_, sorted⟩
      rcases List.mem_cons.mp member with same | later
      · exact same ▸ before
      · exact Std.TransCmp.lt_trans before (below entry later)
    next same =>
      have keyEq : key = first.1 := Std.LawfulEqCmp.eq_of_compare same
      refine List.pairwise_cons.mpr ⟨fun entry member => ?_, sortedRest⟩
      rw [keyEq]
      exact below entry member
    next after =>
      refine List.pairwise_cons.mpr ⟨fun entry member => ?_, ih sortedRest⟩
      rcases mem_of_mem_insertEntry member with same | earlier
      · rw [same]
        exact Std.OrientedCmp.lt_of_gt after
      · exact below entry earlier

/-- Gives a key a value; an earlier value of the same key is replaced. -/
def insert [Std.TransOrd κ] [Std.LawfulEqOrd κ] (table : Table κ ν) (key : κ) (value : ν) :
    Table κ ν where
  entries := insertEntry key value table.entries
  sorted := pairwise_insertEntry key value table.sorted

/-- The empty table has no values. -/
@[simp]
theorem get?_empty (key : κ) : (empty : Table κ ν).get? key = none := rfl

/-- An inserted value is found. -/
@[simp]
theorem get?_insert_self [Std.TransOrd κ] [Std.LawfulEqOrd κ] (table : Table κ ν) (key : κ)
    (value : ν) : (table.insert key value).get? key = some value := by
  unfold insert get?
  simp only
  induction table.entries with
  | nil => simp [insertEntry, Std.ReflCmp.compare_self]
  | cons first rest ih =>
    rw [insertEntry]
    split
    · simp [Std.ReflCmp.compare_self]
    · simp [Std.ReflCmp.compare_self]
    next after => rwa [List.find?_cons_of_neg (by simp [after])]

/-- An insertion leaves the values of other keys. -/
theorem get?_insert_of_ne [Std.TransOrd κ] [Std.LawfulEqOrd κ] (table : Table κ ν)
    {key other : κ} (value : ν) (different : other ≠ key) :
    (table.insert key value).get? other = table.get? other := by
  have apart : (compare other key == .eq) = false := by
    refine Bool.eq_false_iff.mpr fun same => ?_
    exact different (Std.LawfulEqCmp.eq_of_compare (eq_of_beq same))
  unfold insert get?
  simp only
  induction table.entries with
  | nil => simp only [insertEntry, List.find?_cons, apart]
  | cons first rest ih =>
    rw [insertEntry]
    split
    · simp only [List.find?_cons, apart]
    next same =>
      have keyEq : key = first.1 := Std.LawfulEqCmp.eq_of_compare same
      have skipped : (compare other first.1 == .eq) = false := keyEq ▸ apart
      simp only [List.find?_cons, apart, skipped]
    · simp only [List.find?_cons]
      split
      · rfl
      · exact ih

/-- The table of a list of entries; of entries with one key the last stays. -/
def ofList [Std.TransOrd κ] [Std.LawfulEqOrd κ] (entries : List (κ × ν)) : Table κ ν :=
  entries.foldl (fun table entry => table.insert entry.1 entry.2) empty

end Table

end Shading
