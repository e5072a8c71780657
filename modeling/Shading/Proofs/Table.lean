import Shading.Table

/-!
# Entries of a sorted table

A table finds exactly its entries, and grows by one entry when a new key is inserted.
-/

namespace Shading.Table

variable {κ ν : Type} [Ord κ] {table : Table κ ν} {key : κ} {value : ν}

section Entries

variable [Std.LawfulEqOrd κ]

/-- Keys of which one comes before the other are different. -/
theorem ne_of_compare_lt {left right : κ} (less : compare left right = .lt) : left ≠ right := by
  intro same
  have equal : compare left right = .eq := Std.LawfulEqCmp.compare_eq_iff_eq.mpr same
  rw [equal] at less
  cases less

/-- A value is found under a key exactly if the table has the entry. -/
theorem get?_eq_some_iff : table.get? key = some value ↔ (key, value) ∈ table.entries := by
  obtain ⟨entries, sorted⟩ := table
  unfold get?
  induction entries with
  | nil => simp
  | cons first rest ih =>
      obtain ⟨below, sortedRest⟩ := List.pairwise_cons.mp sorted
      by_cases same : key = first.1
      · have absent : (first.1, value) ∉ rest := by
          intro member
          exact ne_of_compare_lt (below _ member) rfl
        simp [same, absent, Prod.ext_iff, eq_comm]
      · have apart : compare key first.1 ≠ .eq := by
          intro equal
          exact same (Std.LawfulEqCmp.eq_of_compare equal)
        simpa [apart, same, Prod.ext_iff] using ih sortedRest

/-- No key has two entries. -/
theorem entries_pairwise_ne (table : Table κ ν) :
    table.entries.Pairwise fun left right => left.1 ≠ right.1 :=
  table.sorted.imp ne_of_compare_lt

/-- The entry of a key, with the entries of smaller keys before it. -/
theorem exists_entries (found : table.get? key = some value) :
    ∃ before rest, table.entries = before ++ (key, value) :: rest ∧
      ∀ entry ∈ before, compare entry.1 key = .lt := by
  obtain ⟨before, rest, isEntries⟩ := List.append_of_mem (get?_eq_some_iff.mp found)
  have sorted := table.sorted
  rw [isEntries, List.pairwise_append] at sorted
  exact ⟨before, rest, isEntries, fun entry member =>
    sorted.2.2 entry member _ List.mem_cons_self⟩

end Entries

/-- A new key adds an entry. -/
theorem length_insertEntry_of_new {entries : List (κ × ν)}
    (new : ∀ entry ∈ entries, compare key entry.1 ≠ .eq) (value : ν) :
    (insertEntry key value entries).length = entries.length + 1 := by
  induction entries with
  | nil => rfl
  | cons first rest ih =>
      rw [insertEntry]
      split
      next => rfl
      next same => exact absurd same (new first List.mem_cons_self)
      next =>
        rw [List.length_cons, ih fun entry member => new entry (List.mem_cons_of_mem _ member)]
        rfl

/-- An entry with a key above all others is put at the end. -/
theorem insertEntry_of_last [Std.OrientedOrd κ] {entries : List (κ × ν)}
    (last : ∀ entry ∈ entries, compare entry.1 key = .lt) (value : ν) :
    insertEntry key value entries = entries ++ [(key, value)] := by
  induction entries with
  | nil => rfl
  | cons first rest ih =>
      have above : compare key first.1 = .gt :=
        Std.OrientedCmp.gt_of_lt (last first List.mem_cons_self)
      rw [insertEntry, above, ih fun entry member => last entry (List.mem_cons_of_mem _ member)]
      rfl

/-- An entry with a key that is there takes the place of the one that had it. -/
theorem insertEntry_of_present [Std.OrientedOrd κ] {before rest : List (κ × ν)}
    (last : ∀ entry ∈ before, compare entry.1 key = .lt) (old value : ν) :
    insertEntry key value (before ++ (key, old) :: rest) = before ++ (key, value) :: rest := by
  induction before with
  | nil =>
      have same : compare key key = .eq := Std.ReflCmp.compare_self
      rw [List.nil_append, insertEntry, same, List.nil_append]
  | cons first before ih =>
      have above : compare key first.1 = .gt :=
        Std.OrientedCmp.gt_of_lt (last first List.mem_cons_self)
      rw [List.cons_append, insertEntry, above,
        ih fun entry member => last entry (List.mem_cons_of_mem _ member)]
      rfl

/-- The table with a function applied to its values. -/
def map {μ : Type} (change : ν → μ) (table : Table κ ν) : Table κ μ where
  entries := table.entries.map fun entry => (entry.1, change entry.2)
  sorted := List.pairwise_map.mpr table.sorted

/-- Changing the values changes what is found. -/
theorem get?_map {μ : Type} (change : ν → μ) (table : Table κ ν) (key : κ) :
    (table.map change).get? key = (table.get? key).map change := by
  simp only [get?, map, List.find?_map, Option.map_map]
  rfl

section Insertion

variable [Std.TransOrd κ] [Std.LawfulEqOrd κ]

/-- After an insertion the new value is found under its key, and the rest as before. -/
theorem get?_insert [DecidableEq κ] (table : Table κ ν) (key other : κ) (value : ν) :
    (table.insert key value).get? other = if other = key then some value else table.get? other := by
  split
  next same => rw [same, get?_insert_self]
  next different => rw [get?_insert_of_ne table value different]

/-- A new key makes a table larger by one. -/
theorem size_insert_of_new (new : table.get? key = none) (value : ν) :
    (table.insert key value).size = table.size + 1 := by
  refine length_insertEntry_of_new ?_ value
  intro entry member same
  have keyEq : key = entry.1 := Std.LawfulEqCmp.eq_of_compare same
  have found : table.get? key = some entry.2 := get?_eq_some_iff.mpr (keyEq ▸ member)
  rw [new] at found
  cases found

/-- A key that is there does not make a table larger. -/
theorem size_insert_of_found (found : table.get? key = some value) (other : ν) :
    (table.insert key other).size = table.size := by
  obtain ⟨before, rest, isEntries, smaller⟩ := exists_entries found
  change (insertEntry key other table.entries).length = table.entries.length
  rw [isEntries, insertEntry_of_present smaller]
  simp

/-- A key that gets the value that it has changes nothing. -/
theorem insert_of_found (found : table.get? key = some value) : table.insert key value = table := by
  obtain ⟨before, rest, isEntries, smaller⟩ := exists_entries found
  apply Table.ext
  change insertEntry key value table.entries = table.entries
  rw [isEntries, insertEntry_of_present smaller]

/-! ### Tables of lists -/

variable {entries : List (κ × ν)}

/-- Insertions under other keys do not matter for a key. -/
theorem get?_foldl_insert_of_notMem (absent : key ∉ entries.map Prod.fst) (table : Table κ ν) :
    (entries.foldl (fun table entry => table.insert entry.1 entry.2) table).get? key =
      table.get? key := by
  induction entries generalizing table with
  | nil => rfl
  | cons first rest ih =>
      rw [List.map_cons, List.mem_cons, not_or] at absent
      rw [List.foldl_cons, ih absent.2, get?_insert_of_ne table first.2 absent.1]

/-- Of insertions under distinct keys each is found. -/
theorem get?_foldl_insert_of_mem (distinct : (entries.map Prod.fst).Nodup)
    (member : (key, value) ∈ entries) (table : Table κ ν) :
    (entries.foldl (fun table entry => table.insert entry.1 entry.2) table).get? key =
      some value := by
  induction entries generalizing table with
  | nil => cases member
  | cons first rest ih =>
      rw [List.map_cons, List.nodup_cons] at distinct
      rw [List.foldl_cons]
      rcases List.mem_cons.mp member with rfl | later
      · rw [get?_foldl_insert_of_notMem distinct.1, get?_insert_self]
      · exact ih distinct.2 later _

/-- A list with distinct keys is the list of entries of its table. -/
theorem get?_ofList_eq_some_iff (distinct : (entries.map Prod.fst).Nodup) :
    (ofList entries).get? key = some value ↔ (key, value) ∈ entries := by
  constructor
  · intro found
    by_cases present : key ∈ entries.map Prod.fst
    · obtain ⟨⟨_, other⟩, member, rfl⟩ := List.mem_map.mp present
      rw [ofList, get?_foldl_insert_of_mem distinct member] at found
      cases found
      exact member
    · rw [ofList, get?_foldl_insert_of_notMem present, get?_empty] at found
      cases found
  · intro member
    exact get?_foldl_insert_of_mem distinct member empty

/-- Entries inserted in order stand in that order after the old ones. -/
theorem entries_foldl_insert (table : Table κ ν)
    (sorted : (table.entries ++ entries).Pairwise fun left right =>
      compare left.1 right.1 = .lt) :
    (entries.foldl (fun table entry => table.insert entry.1 entry.2) table).entries =
      table.entries ++ entries := by
  induction entries generalizing table with
  | nil => exact (List.append_nil _).symm
  | cons first rest ih =>
      have last : ∀ entry ∈ table.entries, compare entry.1 first.1 = .lt :=
        fun entry member => (List.pairwise_append.mp sorted).2.2 entry member first
          List.mem_cons_self
      have inserted : (table.insert first.1 first.2).entries = table.entries ++ [first] :=
        insertEntry_of_last last first.2
      have split : table.entries ++ first :: rest = table.entries ++ [first] ++ rest := by simp
      rw [List.foldl_cons, ih, inserted, split]
      rwa [inserted, ← split]

/-- A table is the table of its entries. -/
theorem ofList_entries (table : Table κ ν) : ofList table.entries = table :=
  Table.ext (entries_foldl_insert empty table.sorted)

/-- Insertions under distinct new keys are counted one by one. -/
theorem size_foldl_insert (distinct : (entries.map Prod.fst).Nodup) {table : Table κ ν}
    (new : ∀ key ∈ entries.map Prod.fst, table.get? key = none) :
    (entries.foldl (fun table entry => table.insert entry.1 entry.2) table).size =
      table.size + entries.length := by
  induction entries generalizing table with
  | nil => rfl
  | cons first rest ih =>
      rw [List.map_cons, List.nodup_cons] at distinct
      have newFirst := new first.1 List.mem_cons_self
      have newRest : ∀ key ∈ rest.map Prod.fst, (table.insert first.1 first.2).get? key = none := by
        intro key member
        have different : key ≠ first.1 := fun same => distinct.1 (same ▸ member)
        rw [get?_insert_of_ne table first.2 different]
        exact new key (List.mem_cons_of_mem _ member)
      rw [List.foldl_cons, ih distinct.2 newRest, size_insert_of_new newFirst, List.length_cons]
      omega

/-- A table made from distinct keys has as many entries. -/
theorem size_ofList (distinct : (entries.map Prod.fst).Nodup) :
    (ofList entries).size = entries.length := by
  rw [ofList, size_foldl_insert distinct fun key _ => get?_empty key]
  exact Nat.zero_add _

end Insertion

end Shading.Table
