import Firmware.OrderedSet
import Firmware.Proofs.Table
/-!
Insertion of several entries or elements.  A table keeps the positions of its keys; entries
replace its values in place or follow at the end, in their own order.  A set does the same with
its elements.  Where three of them are inserted into each other, it does not matter which two are
taken first.
-/

namespace Firmware

namespace Table

variable {κ α : Type} [DecidableEq κ] {table : Table κ α} {key : κ} {value : α}
  {entry : κ × α}

theorem insert_insert (table : Table κ α) (key : κ) (old value : α) :
    insert (insert table key old) key value = insert table key value := by
  induction table with
  | nil => simp [insert]
  | cons first rest ih =>
      obtain ⟨k, v⟩ := first
      by_cases h : k = key
      · simp [insert, h]
      · simp [insert, h, ih]

/-- Insertions under different keys can be exchanged, if one of the keys is present. -/
theorem insert_comm {other : κ} {value' : α} (h : key ∈ keys table) (hne : other ≠ key) :
    insert (insert table other value') key value =
      insert (insert table key value) other value' := by
  induction table with
  | nil => simp [keys] at h
  | cons first rest ih =>
      obtain ⟨k, v⟩ := first
      by_cases hk : k = key
      · subst hk
        simp [insert, hne.symm]
      · have hrest : key ∈ keys rest := by
          simpa [keys, Ne.symm hk] using h
        by_cases ho : k = other
        · simp [insert, ho, hne]
        · simp [insert, hk, ho, ih hrest]

/-- Keys keep their positions, and new ones follow in their order. -/
theorem keys_insertAll {entries : Table κ α} (h : (keys entries).Nodup) (table : Table κ α) :
    keys (insertAll table entries) =
      keys table ++ (keys entries).filter fun key => key ∉ keys table := by
  induction entries generalizing table with
  | nil => simp [insertAll, keys]
  | cons entry rest ih =>
      obtain ⟨hnew, hrest⟩ := List.nodup_cons.mp h
      rw [insertAll_cons, ih hrest, keys_insert]
      have hkeys : keys (entry :: rest) = entry.1 :: keys rest := rfl
      rw [hkeys]
      by_cases hmem : entry.1 ∈ keys table
      · simp [hmem]
      · -- The new key occurs only once, so the later ones are filtered as before.
        have hsame : ((keys rest).filter fun key => key ∉ keys table ++ [entry.1]) =
            (keys rest).filter fun key => key ∉ keys table := by
          refine List.filter_congr fun key hkey => ?_
          have hne : key ≠ entry.1 := by
            rintro rfl
            exact hnew hkey
          simp [hne]
        rw [if_neg hmem, hsame, List.filter_cons_of_pos (by simpa using hmem)]
        simp

theorem get?_insertAll {entries : Table κ α} (h : (keys entries).Nodup) (table : Table κ α)
    (key : κ) : get? (insertAll table entries) key = (get? entries key).or (get? table key) := by
  induction entries generalizing table with
  | nil => rfl
  | cons entry rest ih =>
      obtain ⟨k, v⟩ := entry
      obtain ⟨hnew, hrest⟩ := List.nodup_cons.mp h
      rw [insertAll_cons, ih hrest, get?_insert, get?_cons]
      by_cases hk : k = key
      · subst hk
        rw [get?_eq_none_iff.mpr hnew]
        simp
      · simp [hk]

theorem insertAll_insert_comm {entries : Table κ α} (h : key ∈ keys table)
    (hnew : key ∉ keys entries) :
    insertAll (insert table key value) entries = insert (insertAll table entries) key value := by
  induction entries generalizing table with
  | nil => rfl
  | cons entry rest ih =>
      have hne : entry.1 ≠ key := fun heq =>
        hnew (List.mem_map.mpr ⟨entry, List.mem_cons_self, heq⟩)
      have hrest : key ∉ keys rest := fun hmem => hnew (.tail _ hmem)
      have hpresent : key ∈ keys (insert table entry.1 entry.2) :=
        contains_eq_true_iff.mp (contains_insert.mpr (.inl (contains_eq_true_iff.mpr h)))
      rw [insertAll_cons, insertAll_cons, ← insert_comm h hne, ih hpresent hrest]

theorem insertAll_insert {entries : Table κ α} (h : (keys entries).Nodup) (table : Table κ α)
    (key : κ) (value : α) :
    insertAll table (insert entries key value) = insert (insertAll table entries) key value := by
  induction entries generalizing table with
  | nil => rfl
  | cons entry rest ih =>
      obtain ⟨k, old⟩ := entry
      obtain ⟨hnew, hrest⟩ := List.nodup_cons.mp h
      by_cases hk : k = key
      · subst hk
        have hpresent : k ∈ keys (insert table k old) :=
          contains_eq_true_iff.mp (contains_insert.mpr (.inr rfl))
        rw [insert, if_pos rfl, insertAll_cons, insertAll_cons,
          ← insertAll_insert_comm hpresent hnew, insert_insert]
      · rw [insert, if_neg hk, insertAll_cons, insertAll_cons, ih hrest]

/-- It does not matter which of two insertions comes first. -/
theorem insertAll_assoc {second : Table κ α} (h : (keys second).Nodup)
    (first third : Table κ α) :
    insertAll (insertAll first second) third = insertAll first (insertAll second third) := by
  induction third generalizing second with
  | nil => rfl
  | cons entry rest ih =>
      rw [insertAll_cons, insertAll_cons, ← insertAll_insert h, ih (nodup_keys_insert h)]

theorem eq_of_get?_eq {left right : Table κ α} (h : (keys right).Nodup)
    (hkeys : keys left = keys right)
    (hvalues : ∀ key ∈ keys right, get? left key = get? right key) : left = right := by
  have hsub : (keys left).Sublist (keys right) := hkeys ▸ List.Sublist.refl _
  calc left
    _ = (keys right).filterMap (fun key => (get? left key).map (key, ·)) :=
        (filterMap_get?_of_sublist hsub h).symm
    _ = (keys right).filterMap (fun key => (get? right key).map (key, ·)) :=
        List.filterMap_congr fun key hmem => congrArg (Option.map (key, ·)) (hvalues key hmem)
    _ = right := filterMap_get?_of_sublist (List.Sublist.refl _) h

/-- Entries under all the keys of a table replace it. -/
theorem insertAll_eq_self {entries : Table κ α} (h : (keys entries).Nodup)
    (hkeys : keys table = keys entries) : insertAll table entries = entries := by
  have hall : keys (insertAll table entries) = keys entries := by
    rw [keys_insertAll h, hkeys]
    simp
  refine eq_of_get?_eq h hall fun key hmem => ?_
  obtain ⟨value, hvalue⟩ := Option.isSome_iff_exists.mp (contains_eq_true_iff.mpr hmem)
  rw [get?_insertAll h, hvalue, Option.some_or]

section Mapped

variable {β : Type} (f : κ → α → β)

def mapValues (table : Table κ α) : Table κ β :=
  List.map (fun entry => (entry.1, f entry.1 entry.2)) table

omit [DecidableEq κ] in
@[simp] theorem keys_mapValues (table : Table κ α) : keys (mapValues f table) = keys table := by
  rw [mapValues, keys, List.map_map]
  rfl

theorem get?_mapValues (table : Table κ α) (key : κ) :
    get? (mapValues f table) key = (get? table key).map (f key) := by
  induction table with
  | nil => rfl
  | cons entry rest ih =>
      obtain ⟨k, v⟩ := entry
      rw [mapValues, List.map_cons, get?_cons, get?_cons]
      by_cases hk : k = key
      · simp [hk]
      · rw [if_neg hk, if_neg hk]
        exact ih

theorem mapValues_insert (table : Table κ α) (key : κ) (value : α) :
    mapValues f (insert table key value) = insert (mapValues f table) key (f key value) := by
  induction table with
  | nil => rfl
  | cons entry rest ih =>
      obtain ⟨k, v⟩ := entry
      by_cases hk : k = key
      · simp [mapValues, insert, hk]
      · simp only [mapValues, List.map_cons, insert, if_neg hk] at ih ⊢
        rw [ih]

theorem mapValues_insertAll (table entries : Table κ α) :
    mapValues f (insertAll table entries) =
      insertAll (mapValues f table) (mapValues f entries) := by
  induction entries generalizing table with
  | nil => rfl
  | cons entry rest ih =>
      rw [insertAll_cons, ih, mapValues_insert]
      rfl

end Mapped

end Table

namespace OrderedSet

variable {α : Type} [DecidableEq α]

theorem mem_foldl_add {set elements : OrderedSet α} {element : α} :
    element ∈ elements.foldl add set ↔ element ∈ set ∨ element ∈ elements := by
  induction elements generalizing set with
  | nil => simp
  | cons first rest ih => rw [List.foldl_cons, ih, mem_add, List.mem_cons, or_assoc]

/-- What is there comes first, and what is new follows in its own order, each element once. -/
theorem foldl_add_eq (set elements : OrderedSet α) :
    elements.foldl add set =
      set ++ (elements.filter fun element => element ∉ set).eraseDups := by
  induction elements generalizing set with
  | nil => simp
  | cons first rest ih =>
      rw [List.foldl_cons, ih]
      by_cases hmem : first ∈ set
      · simp [add, hmem]
      · rw [add, if_neg hmem, List.filter_cons_of_pos (by simpa using hmem), List.eraseDups_cons,
          List.filter_filter, List.append_assoc, List.singleton_append]
        have hsame : (rest.filter fun element => element ∉ set ++ [first]) =
            rest.filter fun element => (!element == first) && (element ∉ set : Bool) := by
          refine List.filter_congr fun element _ => ?_
          by_cases heq : element = first <;> simp [heq]
        rw [hsame]

theorem foldl_add_self {set elements : OrderedSet α} (h : ∀ element ∈ elements, element ∈ set) :
    elements.foldl add set = set := by
  have hnone : (elements.filter fun element => element ∉ set) = [] :=
    List.filter_eq_nil_iff.mpr fun element hmem => by simpa using h element hmem
  rw [foldl_add_eq, hnone, List.eraseDups_nil, List.append_nil]

/-- It does not matter which of two additions comes first. -/
theorem foldl_add_assoc (first second third : OrderedSet α) :
    third.foldl add (second.foldl add first) = (third.foldl add second).foldl add first := by
  induction third generalizing second with
  | nil => rfl
  | cons element rest ih =>
      have hadd : (add second element).foldl add first = add (second.foldl add first) element := by
        by_cases hmem : element ∈ second
        · rw [add, add, if_pos hmem, if_pos (mem_foldl_add.mpr (.inr hmem))]
        · rw [add, if_neg hmem, List.foldl_append]
          rfl
      rw [List.foldl_cons, List.foldl_cons, ← ih, hadd]

end OrderedSet

end Firmware
