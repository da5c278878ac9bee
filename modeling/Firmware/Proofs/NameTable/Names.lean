import Firmware.NameTable.Basic
import Firmware.Proofs.Table
import Mathlib.Data.List.Nodup
import Mathlib.Data.List.Perm.Subperm
/-!
The identifiers of a table.  Candidates for a name are all different, so one of them
is free; a name is given to one location only, and once given it stays taken.
-/

namespace Firmware

namespace NameTable

variable {table table' table'' : NameTable} {path other : Path} {name base type : String}
  {id : Identifier} {isPointer : Bool}

/-- Different numbers have different digits. -/
theorem repr_injective : Function.Injective Nat.repr := by
  intro j k heq
  have hdigits := congrArg (fun text : String => Nat.ofDigitChars 10 text.toList 0) heq
  simpa only [Nat.toList_repr, Nat.ofDigitChars_ten_toDigits] using hdigits

theorem candidate_injective (base : String) : Function.Injective (candidate base) := by
  have hplain : ∀ k, candidate base (k + 1) = base ++ ("_" ++ (k + 2).repr) := by
    intro k
    simp only [candidate, Nat.add_one_ne_zero, if_false, String.append_assoc]
    rfl
  have hlonger : ∀ k, base ≠ candidate base (k + 1) := by
    intro k heq
    have hlength := congrArg String.length heq
    rw [hplain, String.length_append, String.length_append] at hlength
    have : "_".length = 1 := rfl
    omega
  intro j k heq
  cases j with
  | zero =>
      cases k with
      | zero => rfl
      | succ k => exact absurd heq (hlonger k)
  | succ j =>
      cases k with
      | zero => exact absurd heq.symm (hlonger j)
      | succ k =>
          rw [hplain, hplain, String.append_right_inj, String.append_right_inj] at heq
          have := repr_injective heq
          omega

def takenNames (table : NameTable) : List String :=
  Table.keys table.byName ++ reservedNames ++ table.kept

theorem isTaken_eq_true_iff : table.isTaken name = true ↔ name ∈ table.takenNames := by
  simp only [isTaken, isReserved, takenNames, Bool.or_eq_true, List.contains_iff_mem,
    List.mem_append, Table.contains_eq_true_iff, or_assoc]

/-- A list with the first candidates in it is at least as long as there are of them. -/
theorem le_length_of_candidates {names : List String} {bound : Nat}
    (h : ∀ k < bound, candidate base k ∈ names) : bound ≤ names.length := by
  have hsubset : (List.range bound).map (candidate base) ⊆ names := by
    intro found hfound
    obtain ⟨k, hk, rfl⟩ := List.mem_map.mp hfound
    exact h k (List.mem_range.mp hk)
  have hnodup := (List.nodup_range (n := bound)).map (candidate_injective base)
  have hlength := (List.subperm_of_subset hnodup hsubset).length_le
  rwa [List.length_map, List.length_range] at hlength

/-- There are fewer taken names than candidates that are tried. -/
theorem exists_free_candidate (table : NameTable) (base : String) :
    ∃ k < table.takenCount + 1, table.isTaken (candidate base k) = false := by
  by_contra hnone
  have hall : ∀ k < table.takenCount + 1, candidate base k ∈ table.takenNames := by
    intro k hbound
    rw [← isTaken_eq_true_iff, ← Bool.not_eq_false]
    exact fun hfree => hnone ⟨k, hbound, hfree⟩
  have hlength := le_length_of_candidates hall
  simp only [takenNames, List.length_append, takenCount, Table.keys, List.length_map] at hlength
  omega

/-- The name that is given out is the first candidate that is free. -/
theorem exists_freeName_eq (table : NameTable) (base : String) :
    ∃ k, table.freeName base = candidate base k ∧ table.isTaken (candidate base k) = false ∧
      ∀ j < k, table.isTaken (candidate base j) = true := by
  obtain ⟨bound, hbound, hfree⟩ := table.exists_free_candidate base
  have hsome : ((List.range (table.takenCount + 1)).find?
      fun k => !table.isTaken (candidate base k)).isSome = true := by
    rw [List.find?_isSome]
    exact ⟨bound, List.mem_range.mpr hbound, by simp [hfree]⟩
  obtain ⟨first, hfirst⟩ := Option.isSome_iff_exists.mp hsome
  obtain ⟨htest, _, hearlier⟩ := List.find?_range_eq_some.mp hfirst
  refine ⟨first, by simp only [freeName, hfirst, Option.getD_some], by simpa using htest, ?_⟩
  intro j hlt
  simpa using hearlier j hlt

theorem isTaken_freeName (table : NameTable) (base : String) :
    table.isTaken (table.freeName base) = false := by
  obtain ⟨k, hk, hfree, _⟩ := table.exists_freeName_eq base
  rw [hk, hfree]

/-- What holds of a table: identifiers are found under their names, those of locations
are among them, and no two locations have the same. -/
structure Sound (table : NameTable) : Prop where
  named : ∀ {name : String} {id : Identifier}, table.lookup? name = some id → id.name = name
  listed : ∀ {path : Path} {id : Identifier}, table.at? path = some id →
    table.lookup? id.name = some id
  apart : ∀ {path other : Path} {id id' : Identifier}, table.at? path = some id →
    table.at? other = some id' → id.name = id'.name → path = other

/-- Later tables: what was taken stays taken, and is given to no other location. -/
structure Grows (table table' : NameTable) : Prop where
  taken : ∀ {name : String}, table.isTaken name = true → table'.isTaken name = true
  kept : ∀ {path : Path} {id : Identifier}, table'.at? path = some id →
    table.isTaken id.name = true → table.at? path = some id

theorem Grows.refl (table : NameTable) : table.Grows table := ⟨id, fun hat _ => hat⟩

theorem Grows.trans (hfirst : table.Grows table') (hsecond : table'.Grows table'') :
    table.Grows table'' where
  taken htaken := hsecond.taken (hfirst.taken htaken)
  kept hat htaken := hfirst.kept (hsecond.kept hat (hfirst.taken htaken)) htaken

/-- Whether a name is taken, and by no other location. -/
def IsHeldBy (table : NameTable) (name : String) (path : Path) : Prop :=
  table.isTaken name = true ∧
    ∀ other id, table.at? other = some id → id.name = name → other = path

theorem IsHeldBy.grows (h : table.IsHeldBy name path) (hgrows : table.Grows table') :
    table'.IsHeldBy name path := by
  refine ⟨hgrows.taken h.1, fun other id hat hname => ?_⟩
  exact h.2 other id (hgrows.kept hat (hname ▸ h.1)) hname

/-- The table with an identifier for a location. -/
def entered (table : NameTable) (path : Path) (id : Identifier) : NameTable where
  byName := Table.insert table.byName id.name id
  byPath := Table.insert table.byPath path id
  kept := table.kept

theorem at?_entered (table : NameTable) (path other : Path) (id : Identifier) :
    (table.entered path id).at? other = if path = other then some id else table.at? other :=
  Table.get?_insert ..

theorem lookup?_entered (table : NameTable) (path : Path) (id : Identifier) (name : String) :
    (table.entered path id).lookup? name =
      if id.name = name then some id else table.lookup? name :=
  Table.get?_insert ..

/-- What asking for an identifier does, told by what locations have. -/
theorem allocateFor_eq (table : NameTable) (path : Path) (base type : String) (isPointer : Bool) :
    table.allocateFor path base type isPointer =
      match table.at? path with
      | some id => (id, table)
      | none =>
          (⟨table.freeName base, type, isPointer⟩,
            table.entered path ⟨table.freeName base, type, isPointer⟩) := rfl

/-- What declaring a name does, told by what locations have. -/
theorem declare_eq (table : NameTable) (path : Path) (name type : String) (isPointer : Bool) :
    table.declare path name type isPointer =
      match (table.at? path).filter (·.name == name) with
      | some id => .ok (id, table)
      | none =>
          if table.isTaken name then .error (duplicate path name)
          else .ok (⟨name, type, isPointer⟩, table.entered path ⟨name, type, isPointer⟩) := rfl

theorem isTaken_of_lookup? (h : table.lookup? name = some id) : table.isTaken name = true := by
  have hcontains : Table.contains table.byName name = true := Option.isSome_iff_exists.mpr ⟨id, h⟩
  rw [isTaken, hcontains, Bool.true_or]

theorem Sound.isTaken_of_at? (h : table.Sound) (hat : table.at? path = some id) :
    table.isTaken id.name = true :=
  isTaken_of_lookup? (h.listed hat)

theorem Sound.isHeldBy (h : table.Sound) (hat : table.at? path = some id) :
    table.IsHeldBy id.name path :=
  ⟨h.isTaken_of_at? hat, fun _ _ hother hname => h.apart hother hat hname⟩

theorem Sound.entered (h : table.Sound) (hfree : table.isTaken id.name = false) :
    (table.entered path id).Sound := by
  have hnew : ∀ {other : Path} {found : Identifier}, table.at? other = some found →
      found.name ≠ id.name := by
    intro other found hat hname
    rw [← hname, h.isTaken_of_at? hat] at hfree
    simp at hfree
  constructor
  · intro name found hfound
    rw [lookup?_entered] at hfound
    split at hfound
    · next heq => exact Option.some.inj hfound ▸ heq
    · exact h.named hfound
  · intro other found hat
    rw [at?_entered] at hat
    rw [lookup?_entered]
    split at hat
    · rw [Option.some.inj hat, if_pos rfl]
    · rw [if_neg (Ne.symm (hnew hat)), h.listed hat]
  · intro left right found found' hleft hright hname
    rw [at?_entered] at hleft hright
    split at hleft <;> split at hright
    · next hl hr => exact hl.symm.trans hr
    · exact absurd (hname.symm.trans (congrArg _ (Option.some.inj hleft).symm)) (hnew hright)
    · exact absurd (hname.trans (congrArg _ (Option.some.inj hright).symm)) (hnew hleft)
    · exact h.apart hleft hright hname

theorem isTaken_entered : (table.entered path id).isTaken name = true ↔
    table.isTaken name = true ∨ id.name = name := by
  have hcontains : Table.contains (table.entered path id).byName name = true ↔
      Table.contains table.byName name = true ∨ id.name = name := Table.contains_insert
  rw [isTaken, Bool.or_eq_true, hcontains, isTaken, Bool.or_eq_true, or_right_comm]
  rfl

theorem grows_entered (hfree : table.isTaken id.name = false) :
    table.Grows (table.entered path id) := by
  constructor
  · exact fun htaken => isTaken_entered.mpr (.inl htaken)
  · intro other found hat htaken
    rw [at?_entered] at hat
    split at hat
    · rw [← Option.some.inj hat, hfree] at htaken
      simp at htaken
    · exact hat

/-- What giving an identifier to a location may do: it has the identifier already, or
gets one whose name is free. -/
inductive Gives (table : NameTable) (path : Path) (id : Identifier) : NameTable → Prop
  | again (present : table.at? path = some id) : Gives table path id table
  | fresh (free : table.isTaken id.name = false) : Gives table path id (table.entered path id)

theorem Gives.sound (h : table.Gives path id table') (hsound : table.Sound) : table'.Sound := by
  cases h with
  | again => exact hsound
  | fresh hfree => exact hsound.entered hfree

theorem Gives.grows (h : table.Gives path id table') : table.Grows table' := by
  cases h with
  | again => exact .refl _
  | fresh hfree => exact grows_entered hfree

theorem Gives.at? (h : table.Gives path id table') : table'.at? path = some id := by
  cases h with
  | again hpresent => exact hpresent
  | fresh => rw [at?_entered, if_pos rfl]

theorem Gives.at?_of_ne (h : table.Gives path id table') (hne : path ≠ other) :
    table'.at? other = table.at? other := by
  cases h with
  | again => rfl
  | fresh => rw [at?_entered, if_neg hne]

theorem Gives.isTaken_cases (h : table.Gives path id table') (htaken : table'.isTaken name = true) :
    table.isTaken name = true ∨ id.name = name := by
  cases h with
  | again => exact .inl htaken
  | fresh => exact isTaken_entered.mp htaken

/-- A location that declares a name gets an identifier of that name. -/
theorem declare_eq_ok (h : table.declare path name type isPointer = .ok (id, table')) :
    table.Gives path id table' ∧ id.name = name := by
  rw [declare_eq] at h
  split at h
  · next found hown =>
      obtain ⟨rfl, rfl⟩ := Prod.mk.inj (Except.ok.inj h)
      obtain ⟨hat, hname⟩ := Option.filter_eq_some_iff.mp hown
      exact ⟨.again hat, by simpa using hname⟩
  · split at h
    · simp at h
    · next hfree =>
        obtain ⟨rfl, rfl⟩ := Prod.mk.inj (Except.ok.inj h)
        exact ⟨.fresh (by simpa using hfree), rfl⟩

theorem Sound.isHeldBy_of_declare (h : table.Sound)
    (hdeclared : table.declare path name type isPointer = .ok (id, table')) :
    table'.IsHeldBy name path := by
  obtain ⟨hgives, rfl⟩ := declare_eq_ok hdeclared
  exact (hgives.sound h).isHeldBy hgives.at?

/-- A name that another location holds cannot be declared. -/
theorem IsHeldBy.eq_of_declare (h : table.IsHeldBy name path)
    (hdeclared : table.declare other name type isPointer = .ok (id, table')) : other = path := by
  obtain ⟨hgives, hname⟩ := declare_eq_ok hdeclared
  cases hgives with
  | again hpresent => exact h.2 other id hpresent hname
  | fresh hfree =>
      rw [hname, h.1] at hfree
      simp at hfree

/-- A location may declare the name that it has, and nothing changes. -/
theorem declare_of_at? (h : table.at? path = some id) (type : String) (isPointer : Bool) :
    table.declare path id.name type isPointer = .ok (id, table) := by
  rw [declare_eq, h, Option.filter_some_pos (by simp)]

/-- A location without an identifier that declares a name gets one as it declares it, and the
name was free. -/
theorem declare_of_new (h : table.at? path = none)
    (hdeclared : table.declare path name type isPointer = .ok (id, table')) :
    id = ⟨name, type, isPointer⟩ ∧ table.isTaken name = false := by
  simp only [declare_eq, h, Option.filter_none] at hdeclared
  split at hdeclared
  · simp at hdeclared
  · next hfree =>
      obtain ⟨rfl, _⟩ := Prod.mk.inj (Except.ok.inj hdeclared)
      exact ⟨rfl, by simpa using hfree⟩

/-- A location that has an identifier gets it as it asks, and nothing changes. -/
theorem allocateFor_of_at? (h : table.at? path = some id) (base type : String)
    (isPointer : Bool) : table.allocateFor path base type isPointer = (id, table) := by
  rw [allocateFor_eq, h]

/-- A location without an identifier gets one as it asks for it, with the first name that is
free. -/
theorem allocateFor_of_new (h : table.at? path = none) (base type : String) (isPointer : Bool) :
    table.allocateFor path base type isPointer =
      (⟨table.freeName base, type, isPointer⟩,
        table.entered path ⟨table.freeName base, type, isPointer⟩) := by
  rw [allocateFor_eq, h]

/-- A location that asks for an identifier keeps the one it has. -/
theorem allocateFor_gives (table : NameTable) (path : Path) (base type : String)
    (isPointer : Bool) :
    table.Gives path (table.allocateFor path base type isPointer).1
        (table.allocateFor path base type isPointer).2 ∧
      ∀ id, table.at? path = some id → (table.allocateFor path base type isPointer).1 = id := by
  cases hat : table.at? path with
  | some id =>
      rw [allocateFor_of_at? hat]
      exact ⟨.again hat, fun _ hsame => Option.some.inj hsame⟩
  | none =>
      rw [allocateFor_of_new hat]
      exact ⟨.fresh (table.isTaken_freeName base), nofun⟩

end NameTable

end Firmware
