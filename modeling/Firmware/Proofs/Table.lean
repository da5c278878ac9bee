import Firmware.Table
import Mathlib.Data.List.Forall2
/-!
Tables in which no key occurs twice: what insertion adds to them, and how the entry
of a key is found.
-/

namespace Firmware

namespace Table

variable {κ α : Type} [DecidableEq κ] {table : Table κ α} {key : κ} {value : α}
  {entry : κ × α}

theorem mem_insert (h : entry ∈ insert table key value) : entry = (key, value) ∨ entry ∈ table := by
  induction table with
  | nil => exact .inl (List.mem_singleton.mp h)
  | cons first rest ih =>
      rw [insert] at h
      split at h
      · exact (List.mem_cons.mp h).imp_right (.tail _)
      · rcases List.mem_cons.mp h with rfl | hrest
        · exact .inr List.mem_cons_self
        · exact (ih hrest).imp_right (.tail _)

theorem nodup_keys_insert (h : (keys table).Nodup) : (keys (insert table key value)).Nodup := by
  rw [keys_insert]
  split
  · exact h
  · next hnew =>
      refine List.nodup_append.mpr ⟨h, by simp, ?_⟩
      rintro old hold _ hkey rfl
      rw [List.mem_singleton.mp hkey] at hold
      exact hnew hold

/-- A new key is added at the end. -/
theorem insert_eq_append (h : key ∉ keys table) :
    insert table key value = table ++ [(key, value)] := by
  induction table with
  | nil => rfl
  | cons first rest ih =>
      obtain ⟨k, v⟩ := first
      rw [keys, List.map_cons, List.mem_cons, not_or] at h
      rw [insert, if_neg (Ne.symm h.1), ih h.2]
      rfl

def insertAll (table entries : Table κ α) : Table κ α :=
  List.foldl (fun table entry => insert table entry.1 entry.2) table entries

theorem insertAll_cons (table rest : Table κ α) (entry : κ × α) :
    insertAll table (entry :: rest) = insertAll (insert table entry.1 entry.2) rest := rfl

theorem nodup_keys_insertAll (h : (keys table).Nodup) (entries : Table κ α) :
    (keys (insertAll table entries)).Nodup := by
  induction entries generalizing table with
  | nil => exact h
  | cons entry rest ih => exact ih (nodup_keys_insert h)

theorem mem_insertAll {entries : Table κ α} (h : entry ∈ insertAll table entries) :
    entry ∈ entries ∨ entry ∈ table := by
  induction entries generalizing table with
  | nil => exact .inr h
  | cons first rest ih =>
      rcases ih h with hrest | hinserted
      · exact .inl (.tail _ hrest)
      · rcases mem_insert hinserted with rfl | hold
        · exact .inl List.mem_cons_self
        · exact .inr hold

/-- Entries with new keys are added at the end. -/
theorem insertAll_eq_append {entries : Table κ α} (h : (keys (table ++ entries)).Nodup) :
    insertAll table entries = table ++ entries := by
  induction entries generalizing table with
  | nil => exact (List.append_nil table).symm
  | cons entry rest ih =>
      have hnew : entry.1 ∉ keys table := by
        rw [keys, List.map_append, List.nodup_append] at h
        exact fun hmem => h.2.2 _ hmem _ List.mem_cons_self rfl
      have hassoc : table ++ entry :: rest = table ++ [(entry.1, entry.2)] ++ rest := by simp
      rw [hassoc] at h ⊢
      rw [insertAll_cons, insert_eq_append hnew]
      exact ih h

theorem nodup_keys_ofList (entries : List (κ × α)) : (keys (ofList entries)).Nodup := by
  have hempty : (keys ([] : Table κ α)).Nodup := .nil
  exact nodup_keys_insertAll hempty entries

/-- Entries without a repeated key are a table as they are. -/
theorem ofList_of_nodup {entries : List (κ × α)} (h : (keys entries).Nodup) :
    ofList entries = entries :=
  insertAll_eq_append h

theorem mem_of_mem_ofList {entries : List (κ × α)} (h : entry ∈ ofList entries) :
    entry ∈ entries :=
  (mem_insertAll h).resolve_right List.not_mem_nil

theorem mem_of_get?_eq (h : get? table key = some value) : (key, value) ∈ table := by
  obtain ⟨⟨found, _⟩, hfind, rfl⟩ := Option.map_eq_some_iff.mp h
  have hkey : found = key := by simpa using List.find?_some hfind
  exact hkey ▸ List.mem_of_find?_eq_some hfind

theorem get?_eq_of_mem (h : (keys table).Nodup) (hmem : (key, value) ∈ table) :
    get? table key = some value := by
  induction table with
  | nil => simp at hmem
  | cons first rest ih =>
      obtain ⟨k, v⟩ := first
      obtain ⟨hnew, hrest⟩ := List.nodup_cons.mp h
      rw [get?_cons]
      rcases List.mem_cons.mp hmem with heq | hlater
      · obtain ⟨rfl, rfl⟩ := Prod.mk.inj heq
        simp
      · have hne : k ≠ key := by
          rintro rfl
          exact hnew (List.mem_map.mpr ⟨_, hlater, rfl⟩)
        rw [if_neg hne, ih hrest hlater]

theorem contains_eq_true_iff : contains table key = true ↔ key ∈ keys table := by
  induction table with
  | nil => simp [contains, keys]
  | cons first rest ih =>
      obtain ⟨k, v⟩ := first
      rw [contains, keys] at ih
      rw [contains, get?_cons, keys, List.map_cons, List.mem_cons, ← ih]
      split
      · next heq => simp [heq]
      · next hne => simp [Ne.symm hne]

theorem get?_eq_none_iff : get? table key = none ↔ key ∉ keys table := by
  rw [← contains_eq_true_iff, contains, Bool.not_eq_true, Option.isSome_eq_false_iff,
    Option.isNone_iff_eq_none]

/-- A table whose keys are among others, in their order, is found by looking up all of
them. -/
theorem filterMap_get?_of_sublist {found : List κ} (h : (keys table).Sublist found)
    (hnodup : found.Nodup) :
    found.filterMap (fun key => (get? table key).map (key, ·)) = table := by
  generalize hkeys : keys table = present at h
  induction h generalizing table with
  | slnil => rw [List.map_eq_nil_iff.mp hkeys, List.filterMap_nil]
  | cons key hrest ih =>
      obtain ⟨hnew, hothers⟩ := List.nodup_cons.mp hnodup
      have hnone : get? table key = none :=
        get?_eq_none_iff.mpr fun hmem => hnew (hrest.subset (hkeys ▸ hmem))
      rw [List.filterMap_cons_none (by rw [hnone, Option.map_none]), ih hothers hkeys]
  | @cons_cons _ rest key _ ih =>
      obtain ⟨hnew, hothers⟩ := List.nodup_cons.mp hnodup
      obtain ⟨⟨k, value⟩, others, rfl, rfl, hlater⟩ := List.map_eq_cons_iff.mp hkeys
      have hsame :
          (rest.filterMap fun other => (get? ((k, value) :: others) other).map (other, ·)) =
            rest.filterMap fun other => (get? others other).map (other, ·) := by
        refine List.filterMap_congr fun other hmem => ?_
        have hne : k ≠ other := fun heq => hnew (heq ▸ hmem)
        rw [get?_cons, if_neg hne]
      rw [List.filterMap_cons_some (by rw [get?_cons, if_pos rfl, Option.map_some]), hsame,
        ih hothers hlater]

theorem get?_insert (table : Table κ α) (key other : κ) (value : α) :
    get? (insert table key value) other = if key = other then some value else get? table other := by
  split
  · next heq => exact heq ▸ get?_insert_self table key value
  · next hne => exact get?_insert_of_ne table value hne

theorem contains_insert {other : κ} :
    contains (insert table key value) other = true ↔ contains table other = true ∨ key = other := by
  rw [contains, contains, get?_insert]
  split <;> simp_all

theorem mem_keys_insert {other : κ} :
    other ∈ keys (insert table key value) ↔ other ∈ keys table ∨ key = other := by
  rw [← contains_eq_true_iff, contains_insert, contains_eq_true_iff]

/-- Of several entries with one key the last is found. -/
theorem get?_foldl_insert (entries : List (κ × α)) (table : Table κ α) (key : κ) :
    get? (entries.foldl (fun table entry => insert table entry.1 entry.2) table) key =
      ((entries.reverse.find? (·.1 = key)).map (·.2)).or (get? table key) := by
  induction entries generalizing table with
  | nil => simp
  | cons entry rest ih =>
      rw [List.foldl_cons, ih, get?_insert, List.reverse_cons, List.find?_append, Option.map_or,
        Option.or_assoc]
      by_cases hkey : entry.1 = key <;> simp [hkey]

/-- Where present keys are left alone, the first of several entries with one key is found. -/
theorem get?_foldl_insert_new (entries : List (κ × α)) (table : Table κ α) (key : κ) :
    get? (entries.foldl (fun table entry =>
        if contains table entry.1 then table else insert table entry.1 entry.2) table) key =
      (get? table key).or ((entries.find? (·.1 = key)).map (·.2)) := by
  induction entries generalizing table with
  | nil => simp
  | cons entry rest ih =>
      rw [List.foldl_cons, ih, List.find?_cons]
      by_cases hkey : entry.1 = key
      · subst hkey
        cases hfound : get? table entry.1 with
        | some value => simp [contains, hfound]
        | none => simp [contains, hfound]
      · have hsame : get? (if contains table entry.1 then table
            else insert table entry.1 entry.2) key = get? table key := by
          split
          · rfl
          · rw [get?_insert, if_neg hkey]
        simp [hsame, hkey]

section Related

variable {β : Type} {related : α → β → Prop}

/-- Tables with the same keys in the same order, and with values that are related. -/
def Related (related : α → β → Prop) : Table κ α → Table κ β → Prop :=
  List.Forall₂ fun a b => a.1 = b.1 ∧ related a.2 b.2

omit [DecidableEq κ] in
/-- Tables are related by what two functions make of their values exactly if they become the
same table. -/
theorem related_iff_map_eq {γ : Type} {f : α → γ} {g : β → γ} {left : Table κ α}
    {right : Table κ β} :
    Related (fun a b => f a = g b) left right ↔
      left.map (fun entry => (entry.1, f entry.2)) =
        right.map fun entry => (entry.1, g entry.2) := by
  rw [← List.forall₂_eq_eq_eq, List.forall₂_map_left_iff, List.forall₂_map_right_iff]
  simp only [Prod.mk.injEq]
  rfl

theorem Related.insert {left : Table κ α} {right : Table κ β} {a : α} {b : β}
    (h : Related related left right) (key : κ) (hvalue : related a b) :
    Related related (insert left key a) (insert right key b) := by
  induction h with
  | nil => exact .cons ⟨rfl, hvalue⟩ .nil
  | @cons first first' _ _ hfirst hrest ih =>
      obtain ⟨k, v⟩ := first
      obtain ⟨_, v'⟩ := first'
      obtain ⟨rfl, hfirst⟩ := hfirst
      rw [Table.insert, Table.insert]
      split
      · exact .cons ⟨rfl, hvalue⟩ hrest
      · exact .cons ⟨rfl, hfirst⟩ ih

theorem Related.ofList {left : List (κ × α)} {right : List (κ × β)}
    (h : Related related left right) : Related related (ofList left) (ofList right) := by
  have hfold : ∀ (table : Table κ α) (table' : Table κ β), Related related table table' →
      Related related (left.foldl (fun table entry => Table.insert table entry.1 entry.2) table)
        (right.foldl (fun table entry => Table.insert table entry.1 entry.2) table') := by
    induction h with
    | nil => exact fun _ _ h => h
    | @cons first first' _ _ hfirst _ ih =>
        obtain ⟨k, v⟩ := first
        obtain ⟨_, v'⟩ := first'
        obtain ⟨rfl, hfirst⟩ := hfirst
        exact fun table table' h => ih _ _ (h.insert k hfirst)
  exact hfold [] [] .nil

end Related

end Table

end Firmware
