import Firmware.Proofs.NameTable.Spelling
/-!
Registration of chosen names, whether it succeeds or not.  A slot gets the name it chooses,
or is refused because the name was taken before; either way the name is taken from then on,
no other name is, and no other location gets an identifier.
-/

namespace Firmware

namespace NameTable

variable {table next final : NameTable} {path : Path} {slot : Slot} {found : Path × Slot}
  {slots rest : List (Path × Slot)} {name : String} {id : Identifier}

theorem Gives.isTaken_iff (h : table.Gives path id next) (hsound : table.Sound) :
    next.isTaken name = true ↔ table.isTaken name = true ∨ id.name = name := by
  refine ⟨h.isTaken_cases, ?_⟩
  rintro (hbefore | rfl)
  · exact h.grows.taken hbefore
  · exact (h.sound hsound).isTaken_of_at? h.at?

/-- Whether a name is taken, or one of some slots chooses it. -/
def isClaimed (table : NameTable) (slots : List (Path × Slot)) (name : String) : Bool :=
  table.isTaken name || slots.any (·.2.chosen? == some name)

theorem isClaimed_eq_true_iff :
    table.isClaimed slots name = true ↔
      table.isTaken name = true ∨ ∃ found ∈ slots, found.2.chosen? = some name := by
  simp only [isClaimed, Bool.or_eq_true, List.any_eq_true, beq_iff_eq]

theorem isClaimed_eq_false_iff :
    table.isClaimed slots name = false ↔
      table.isTaken name = false ∧ ∀ found ∈ slots, found.2.chosen? ≠ some name := by
  rw [← Bool.not_eq_true, isClaimed_eq_true_iff, not_or, Bool.not_eq_true, not_exists]
  simp only [not_and, ne_eq]

theorem isClaimed_append (table : NameTable) (slots rest : List (Path × Slot)) (name : String) :
    table.isClaimed (slots ++ rest) name =
      (table.isClaimed slots name || rest.any (·.2.chosen? == some name)) := by
  rw [isClaimed, isClaimed, List.any_append, Bool.or_assoc]

/-- The problem of a slot that chooses a name which is taken. -/
def refusal? (table : NameTable) (found : Path × Slot) : Option Problem :=
  (found.2.chosen?.filter table.isTaken).map (duplicate found.1)

theorem refusal?_of_chosen (h : found.2.chosen? = some name) :
    table.refusal? found =
      if table.isTaken name then some (duplicate found.1 name) else none := by
  rw [refusal?, h, Option.filter_some]
  split <;> rfl

/-- What is left of a table once a slot has got the name it chooses, or has been refused. -/
structure Enters (table : NameTable) (found : Path × Slot) (next : NameTable) : Prop where
  sound : next.Sound
  taken : ∀ name, next.isTaken name = table.isClaimed [found] name
  elsewhere : ∀ {path : Path}, (path = found.1 → found.2.chosen? = none) →
    next.at? path = table.at? path

theorem Enters.of_unchosen (hsound : table.Sound) (h : found.2.chosen? = none) :
    table.Enters found table where
  sound := hsound
  taken name := by simp [isClaimed, h]
  elsewhere _ := rfl

theorem Enters.of_taken (hsound : table.Sound) (h : found.2.chosen? = some name)
    (htaken : table.isTaken name = true) : table.Enters found table where
  sound := hsound
  taken other := by
    by_cases heq : name = other
    · simp [isClaimed, ← heq, htaken]
    · simp [isClaimed, h, heq]
  elsewhere _ := rfl

theorem Enters.of_gives (hsound : table.Sound) (h : found.2.chosen? = some id.name)
    (hgives : table.Gives found.1 id next) : table.Enters found next where
  sound := hgives.sound hsound
  taken other := by
    rw [Bool.eq_iff_iff, hgives.isTaken_iff hsound]
    simp [isClaimed, h]
  elsewhere hother := by
    apply hgives.at?_of_ne
    intro heq
    simp [h] at hother
    exact hother heq.symm

/-- The registration of slots, one step.  A slot at a new location is refused exactly if the
name it chooses is taken. -/
theorem exists_enters (hsound : table.Sound) (found : Path × Slot) (rest : List (Path × Slot)) :
    ∃ next problems, table.Enters found next ∧
      table.registerSlots (found :: rest) =
        ((next.registerSlots rest).1, problems ++ (next.registerSlots rest).2) ∧
      (table.at? found.1 = none → problems = (table.refusal? found).toList) := by
  obtain ⟨path, slot⟩ := found
  rw [registerSlots]
  cases hchosen : slot.chosen? with
  | none =>
      rw [registerSlot_of_unchosen hchosen]
      exact ⟨table, [], .of_unchosen hsound hchosen, rfl, fun _ => by simp [refusal?, hchosen]⟩
  | some name =>
      rw [registerSlot_of_chosen hchosen]
      cases hdeclared : table.declare path name slot.type true with
      | error problem =>
          obtain ⟨_, htaken, rfl⟩ := declare_eq_error_iff.mp hdeclared
          exact ⟨table, [duplicate path name], .of_taken hsound hchosen htaken, rfl,
            fun _ => by rw [refusal?_of_chosen hchosen, if_pos htaken]; rfl⟩
      | ok given =>
          obtain ⟨id, next⟩ := given
          obtain ⟨hgives, rfl⟩ := declare_eq_ok hdeclared
          refine ⟨next, [], .of_gives hsound hchosen hgives, rfl, fun hnew => ?_⟩
          have hfree : table.isTaken id.name = false := by
            cases hgives with
            | again hpresent => simp [hnew] at hpresent
            | fresh hfree => exact hfree
          rw [refusal?_of_chosen hchosen, hfree]
          rfl

theorem Sound.registerSlots (hsound : table.Sound) (slots : List (Path × Slot)) :
    (table.registerSlots slots).1.Sound := by
  induction slots generalizing table with
  | nil => exact hsound
  | cons found rest ih =>
      obtain ⟨next, _, henters, hstep, _⟩ := exists_enters hsound found rest
      rw [hstep]
      exact ih henters.sound

/-- Once chosen names are registered, the names that were taken and the chosen ones are
taken. -/
theorem Sound.isTaken_registerSlots (hsound : table.Sound) (slots : List (Path × Slot))
    (name : String) : (table.registerSlots slots).1.isTaken name = table.isClaimed slots name := by
  induction slots generalizing table with
  | nil => simp [NameTable.registerSlots, isClaimed]
  | cons found rest ih =>
      obtain ⟨next, _, henters, hstep, _⟩ := exists_enters hsound found rest
      rw [hstep, ih henters.sound, isClaimed, henters.taken, ← isClaimed_append]
      rfl

/-- A location at which no name is chosen keeps what it has. -/
theorem Sound.at?_registerSlots (hsound : table.Sound)
    (hunchosen : ∀ found ∈ slots, found.1 = path → found.2.chosen? = none) :
    (table.registerSlots slots).1.at? path = table.at? path := by
  induction slots generalizing table with
  | nil => rfl
  | cons found rest ih =>
      obtain ⟨next, _, henters, hstep, _⟩ := exists_enters hsound found rest
      rw [hstep, ih henters.sound fun other hmem => hunchosen other (.tail _ hmem)]
      exact henters.elsewhere fun heq => hunchosen found List.mem_cons_self heq.symm

end NameTable

end Firmware
