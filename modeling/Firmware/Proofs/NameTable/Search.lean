import Firmware.Proofs.NameTable.Names
import Mathlib.Algebra.Group.Nat.Defs
import Mathlib.Data.List.Dedup
import Mathlib.Logic.Function.Iterate
/-!
The search for a free name as a loop.  It looks at the base, and then at one numbered candidate
after another, with nothing to stop it but a free one.  It does stop: candidates are all different,
so that it has seen at most one more of them than there are taken names.  A counter in a machine
word takes the same course, as long as the taken names leave it room.
-/

namespace Firmware

namespace NameTable

namespace Search

section Loop

variable {γ : Type} [Add γ] [OfNat γ 1] [ToString γ]

def after (table : NameTable) (base : String) (looks : Nat) : Search γ :=
  (look table base)^[looks] .begun

/-- Whether the search finds a name with its last look of a number of looks. -/
def EndsAfter (γ : Type) [Add γ] [OfNat γ 1] [ToString γ] (table : NameTable) (base : String)
    (looks : Nat) (name : String) : Prop :=
  (after table base looks : Search γ) = .found name ∧
    ∀ earlier < looks, ∀ other, (after table base earlier : Search γ) ≠ .found other

end Loop

variable {table : NameTable} {base : String} {attempt looks : Nat} {name : String}

/-- The search behind as many candidates as it has looked at, all of them taken. -/
def behind : Nat → Search Nat
  | 0 => .begun
  | attempt + 1 => .passed (attempt + 1)

theorem look_behind (table : NameTable) (base : String) (attempt : Nat) :
    look table base (behind attempt) =
      if table.isTaken (candidate base attempt) then behind (attempt + 1)
      else .found (candidate base attempt) := by
  cases attempt with
  | zero => rfl
  | succ attempt => rfl

theorem after_succ (table : NameTable) (base : String) (looks : Nat) :
    (after table base (looks + 1) : Search Nat) = look table base (after table base looks) :=
  Function.iterate_succ_apply' ..

/-- As long as the candidates are taken, the search gets past them. -/
theorem after_eq_behind (h : ∀ earlier < looks, table.isTaken (candidate base earlier) = true) :
    (after table base looks : Search Nat) = behind looks := by
  induction looks with
  | zero => rfl
  | succ looks ih =>
      rw [after_succ, ih fun earlier hlt => h earlier (Nat.lt_succ_of_lt hlt), look_behind,
        if_pos (h looks (Nat.lt_succ_self looks))]

theorem after_of_found {later : Nat} (h : (after table base looks : Search Nat) = .found name)
    (hle : looks ≤ later) : (after table base later : Search Nat) = .found name := by
  induction hle with
  | refl => exact h
  | step _ ih => rw [after_succ, ih]; rfl

/-- The search ends with its look at the first candidate that is free. -/
theorem endsAfter_of_first (hfree : table.isTaken (candidate base attempt) = false)
    (htaken : ∀ earlier < attempt, table.isTaken (candidate base earlier) = true) :
    EndsAfter Nat table base (attempt + 1) (candidate base attempt) := by
  constructor
  · rw [after_succ, after_eq_behind htaken, look_behind, hfree]
    rfl
  · intro earlier hlt other
    rw [after_eq_behind fun before hbefore => htaken before (by omega)]
    cases earlier <;> nofun

theorem le_length_of_taken
    (htaken : ∀ earlier < attempt, table.isTaken (candidate base earlier) = true) :
    attempt ≤ table.takenNames.dedup.length :=
  le_length_of_candidates fun earlier hlt =>
    List.mem_dedup.mpr (isTaken_eq_true_iff.mp (htaken earlier hlt))

section Words

variable {state : Search Nat}

def toWords : Search Nat → Search UInt64
  | .begun => .begun
  | .passed counter => .passed (UInt64.ofNat counter)
  | .found name => .found name

def HasRoom (state : Search Nat) : Prop := ∀ counter, state = .passed counter → counter + 1 < 2 ^ 64

theorem numbered_ofNat (base : String) {number : Nat} (h : number < 2 ^ 64) :
    numbered base (UInt64.ofNat number) = numbered base number := by
  have htext : toString (UInt64.ofNat number) = toString number :=
    congrArg Nat.repr (UInt64.toNat_ofNat_of_lt h)
  rw [numbered, htext, numbered]

/-- A look goes on in words as in numbers, if there is room. -/
theorem look_toWords (h : state.HasRoom) :
    look table base state.toWords = (look table base state).toWords := by
  cases state with
  | begun =>
      rw [toWords, look, look]
      split <;> rfl
  | passed counter =>
      have hnext : UInt64.ofNat counter + 1 = UInt64.ofNat (counter + 1) :=
        (UInt64.ofNat_add counter 1).symm
      rw [toWords, look, look, hnext, numbered_ofNat base (h counter rfl)]
      split <;> rfl
  | found => rfl

/-- So does the whole search. -/
theorem after_toWords (h : ∀ looks, (after table base looks : Search Nat).HasRoom) (looks : Nat) :
    (after table base looks : Search UInt64) = (after table base looks : Search Nat).toWords := by
  induction looks with
  | zero => rfl
  | succ looks ih =>
      rw [after_succ, ← look_toWords (h looks), ← ih]
      exact Function.iterate_succ_apply' ..

theorem endsAfter_toWords (hroom : ∀ looks, (after table base looks : Search Nat).HasRoom)
    (h : EndsAfter Nat table base looks name) : EndsAfter UInt64 table base looks name := by
  constructor
  · rw [after_toWords hroom, h.1]
    rfl
  · intro earlier hlt other hfound
    rw [after_toWords hroom] at hfound
    cases hstate : (after table base earlier : Search Nat) with
    | begun | passed => simp [hstate, toWords] at hfound
    | found name => exact h.2 earlier hlt name hstate

/-- A counter with room for the next number counts up to it. -/
theorem toNat_add_one_of_toWords {counter : UInt64} (hroom : state.HasRoom)
    (h : state.toWords = .passed counter) : (counter + 1).toNat = counter.toNat + 1 := by
  cases state with
  | begun => contradiction
  | passed number =>
      obtain rfl := Search.passed.inj h
      have hnext := hroom number rfl
      have hnumber : (UInt64.ofNat number).toNat = number :=
        UInt64.toNat_ofNat_of_lt (Nat.lt_of_succ_lt hnext)
      rw [UInt64.toNat_add, hnumber]
      exact Nat.mod_eq_of_lt hnext
  | found => contradiction

/-- There is room as long as the search ends in time. -/
theorem hasRoom_after (h : EndsAfter Nat table base (attempt + 1) (candidate base attempt))
    (htaken : ∀ earlier < attempt, table.isTaken (candidate base earlier) = true)
    (hfew : attempt + 1 < 2 ^ 64) (looks : Nat) : (after table base looks : Search Nat).HasRoom := by
  intro counter hcounter
  by_cases hlooks : looks ≤ attempt
  · rw [after_eq_behind fun earlier hlt => htaken earlier (by omega)] at hcounter
    cases looks with
    | zero => contradiction
    | succ looks =>
        obtain rfl := Search.passed.inj hcounter
        omega
  · rw [after_of_found h.1 (by omega)] at hcounter
    contradiction

end Words

end Search

/-- A name that is not the base itself is that of the least number that is free. -/
theorem exists_number_of_first {attempt : Nat} {table : NameTable} {base : String}
    (hbase : table.isTaken base = true) (hfree : table.isTaken (candidate base attempt) = false)
    (htaken : ∀ earlier < attempt, table.isTaken (candidate base earlier) = true) :
    ∃ number ≥ 2, candidate base attempt = numbered base number ∧
      table.isTaken (numbered base number) = false ∧
      ∀ less ≥ 2, less < number → table.isTaken (numbered base less) = true := by
  cases attempt with
  | zero => exact absurd (hbase.symm.trans hfree) (by decide)
  | succ attempt =>
      refine ⟨attempt + 2, by omega, rfl, hfree, fun less hleast hless => ?_⟩
      obtain ⟨earlier, rfl⟩ := Nat.exists_eq_add_of_le' hleast
      exact htaken (earlier + 1) (by omega)

/-- The search for a free name ends: with the base if that is free, and otherwise with the least
number from two on whose candidate is neither in the table nor reserved.  It takes at most one look
more than there are names in the table and reserved.  With a counter in a machine word it is the
same, and the counter never wraps around, if there are fewer than `2 ^ 64 - 2` of these names. -/
theorem search_ends (table : NameTable) (base : String) :
    ∃ looks ≤ table.takenNames.dedup.length + 1,
      Search.EndsAfter Nat table base looks (table.freeName base) ∧
      (table.isTaken base = false → table.freeName base = base) ∧
      (table.isTaken base = true → ∃ number ≥ 2, table.freeName base = numbered base number ∧
        table.isTaken (numbered base number) = false ∧
        ∀ less ≥ 2, less < number → table.isTaken (numbered base less) = true) ∧
      (table.takenNames.dedup.length < 2 ^ 64 - 2 →
        Search.EndsAfter UInt64 table base looks (table.freeName base) ∧
        ∀ (reached : Nat) (counter : UInt64), Search.after table base reached = .passed counter →
          (counter + 1).toNat = counter.toNat + 1) := by
  obtain ⟨attempt, hname, hfree, htaken⟩ := table.exists_freeName_eq base
  have hends := Search.endsAfter_of_first hfree htaken
  have hbound := Search.le_length_of_taken htaken
  rw [hname]
  refine ⟨attempt + 1, by omega, hends, fun hbase => ?_,
    fun hbase => exists_number_of_first hbase hfree htaken, fun hfew => ?_⟩
  · cases attempt with
    | zero => rfl
    | succ attempt => exact absurd (hbase.symm.trans (htaken 0 (by omega))) (by decide)
  · have hroom := Search.hasRoom_after hends htaken (by omega)
    refine ⟨Search.endsAfter_toWords hroom hends, fun reached counter hcounter => ?_⟩
    exact Search.toNat_add_one_of_toWords (hroom reached)
      ((Search.after_toWords hroom reached).symm.trans hcounter)

end NameTable

end Firmware
