import Firmware.NameTable.Resolution
import Firmware.Proofs.NameTable.Names
import Firmware.Proofs.Results
import Firmware.Proofs.Value.Slots
import Mathlib.Data.List.Pairwise
/-!
Resolution of declarations.  Chosen names are registered before any name is given out,
so every declaration gets a name, and declarations at different locations get different
names.  Declarations share a name only if they share a location.
-/

namespace Firmware

namespace Slot

def chosen? (slot : Slot) : Option String := if slot.declares then slot.name else none

def waits (slot : Slot) : Bool := slot.declares && slot.name.isNone

theorem chosen?_eq_some_iff {slot : Slot} {name : String} :
    slot.chosen? = some name ↔ slot.declares = true ∧ slot.name = some name := by
  simp [chosen?]

theorem waits_eq_true_iff {slot : Slot} :
    slot.waits = true ↔ slot.declares = true ∧ slot.name = none := by
  simp [waits]

theorem waits_or_chosen {slot : Slot} (h : slot.declares = true) :
    slot.waits = true ∨ ∃ name, slot.chosen? = some name := by
  cases hname : slot.name with
  | none => exact .inl (waits_eq_true_iff.mpr ⟨h, hname⟩)
  | some name => exact .inr ⟨name, chosen?_eq_some_iff.mpr ⟨h, hname⟩⟩

theorem chosen?_of_waits {slot : Slot} (h : slot.waits = true) : slot.chosen? = none := by
  obtain ⟨hdeclares, hname⟩ := waits_eq_true_iff.mp h
  rw [chosen?, if_pos hdeclares, hname]

theorem ready_of_chosen {slot : Slot} {name : String} (h : slot.chosen? = some name) :
    slot.waits = false := by
  rw [← Bool.not_eq_true]
  intro hwaits
  rw [chosen?_of_waits hwaits] at h
  contradiction

end Slot

namespace NameTable

variable {table next final : NameTable} {path other : Path} {slot slot' : Slot}
  {slots : List (Path × Slot)} {name : String} {id : Identifier}

/-- The registration of the chosen names of slots, none of which is taken. -/
inductive Registers : NameTable → List (Path × Slot) → NameTable → Prop
  | nil (table : NameTable) : Registers table [] table
  | skip {table final : NameTable} {path : Path} {slot : Slot} {rest : List (Path × Slot)}
      (unchosen : slot.chosen? = none) (later : Registers table rest final) :
      Registers table ((path, slot) :: rest) final
  | declare {table next final : NameTable} {path : Path} {slot : Slot}
      {rest : List (Path × Slot)} {name : String} {id : Identifier}
      (chosen : slot.chosen? = some name)
      (declared : table.declare path name slot.type true = .ok (id, next))
      (later : Registers next rest final) : Registers table ((path, slot) :: rest) final

theorem registerSlot_of_unchosen (h : slot.chosen? = none) :
    table.registerSlot path slot = .ok table := by
  unfold registerSlot
  split
  · next name hdeclares hname =>
      have hchosen := Slot.chosen?_eq_some_iff.mpr ⟨hdeclares, hname⟩
      simp [h] at hchosen
  · rfl

theorem registerSlot_of_chosen (h : slot.chosen? = some name) :
    table.registerSlot path slot = (table.declare path name slot.type true).map (·.2) := by
  obtain ⟨hdeclares, hname⟩ := Slot.chosen?_eq_some_iff.mp h
  simp only [registerSlot, hdeclares, hname]

theorem registers_of_ok (h : (table.registerSlots slots).2 = []) :
    Registers table slots (table.registerSlots slots).1 := by
  induction slots generalizing table with
  | nil => exact .nil table
  | cons found rest ih =>
      obtain ⟨path, slot⟩ := found
      rw [registerSlots] at h ⊢
      cases hchosen : slot.chosen? with
      | none =>
          rw [registerSlot_of_unchosen hchosen] at h ⊢
          exact .skip hchosen (ih h)
      | some name =>
          cases hdeclared : table.declare path name slot.type true with
          | error problem =>
              rw [registerSlot_of_chosen hchosen, hdeclared] at h
              simp [Except.map] at h
          | ok given =>
              rw [registerSlot_of_chosen hchosen, hdeclared] at h ⊢
              exact .declare hchosen hdeclared (ih h)

namespace Registers

theorem sound (h : Registers table slots final) (hsound : table.Sound) : final.Sound := by
  induction h with
  | nil => exact hsound
  | skip _ _ ih => exact ih hsound
  | declare _ hdeclared _ ih => exact ih ((declare_eq_ok hdeclared).1.sound hsound)

theorem grows (h : Registers table slots final) : table.Grows final := by
  induction h with
  | nil => exact .refl _
  | skip _ _ ih => exact ih
  | declare _ hdeclared _ ih => exact (declare_eq_ok hdeclared).1.grows.trans ih

theorem exists_declare (h : Registers table slots final) (hmem : (path, slot) ∈ slots)
    (hchosen : slot.chosen? = some name) :
    ∃ done rest before next id, slots = done ++ (path, slot) :: rest ∧
      Registers table done before ∧
      before.declare path name slot.type true = .ok (id, next) ∧ Registers next rest final := by
  induction h with
  | nil => simp at hmem
  | @skip table _ _ _ rest hunchosen hlater ih =>
      rcases List.mem_cons.mp hmem with heq | hrest
      · obtain ⟨rfl, rfl⟩ := Prod.mk.inj heq
        simp [hchosen] at hunchosen
      · obtain ⟨done, rest, before, next, id, rfl, hdone, hdeclared, hafter⟩ := ih hrest
        exact ⟨_ :: done, rest, before, next, id, rfl, .skip hunchosen hdone, hdeclared, hafter⟩
  | @declare table next _ _ _ rest _ id hname hdeclared hlater ih =>
      rcases List.mem_cons.mp hmem with heq | hrest
      · obtain ⟨rfl, rfl⟩ := Prod.mk.inj heq
        obtain rfl := Option.some.inj (hname.symm.trans hchosen)
        exact ⟨[], rest, table, next, id, rfl, .nil table, hdeclared, hlater⟩
      · obtain ⟨done, rest, before, next', id', rfl, hdone, hdeclared', hafter⟩ := ih hrest
        exact ⟨_ :: done, rest, before, next', id', rfl, .declare hname hdeclared hdone,
          hdeclared', hafter⟩

theorem eq_of_isHeldBy (h : Registers table slots final) (hheld : table.IsHeldBy name path)
    (hmem : (other, slot) ∈ slots) (hchosen : slot.chosen? = some name) : other = path := by
  obtain ⟨_, _, _, _, _, _, hdone, hdeclared, _⟩ := h.exists_declare hmem hchosen
  exact (hheld.grows hdone.grows).eq_of_declare hdeclared

/-- The location that declares a name holds it afterwards. -/
theorem isHeldBy (h : Registers table slots final) (hsound : table.Sound)
    (hmem : (path, slot) ∈ slots) (hchosen : slot.chosen? = some name) :
    final.IsHeldBy name path := by
  obtain ⟨_, _, _, _, _, _, hdone, hdeclared, hlater⟩ := h.exists_declare hmem hchosen
  exact ((hdone.sound hsound).isHeldBy_of_declare hdeclared).grows hlater.grows

/-- A name is chosen at one location only. -/
theorem eq_of_chosen (h : Registers table slots final) (hsound : table.Sound)
    (hmem : (path, slot) ∈ slots) (hother : (other, slot') ∈ slots)
    (hchosen : slot.chosen? = some name) (hchosen' : slot'.chosen? = some name) :
    path = other := by
  obtain ⟨_, _, _, _, _, rfl, hdone, hdeclared, hlater⟩ := h.exists_declare hmem hchosen
  rcases List.mem_append.mp hother with hbefore | hafter
  · exact (hdone.isHeldBy hsound hbefore hchosen').eq_of_declare hdeclared
  · rcases List.mem_cons.mp hafter with heq | hrest
    · exact (Prod.mk.inj heq).1.symm
    · have hheld := (hdone.sound hsound).isHeldBy_of_declare hdeclared
      exact (hlater.eq_of_isHeldBy hheld hrest hchosen').symm

theorem exists_at?_of_exists (h : Registers table slots final)
    (hpresent : ∃ id, table.at? path = some id) : ∃ id, final.at? path = some id := by
  induction h with
  | nil => exact hpresent
  | skip _ _ ih => exact ih hpresent
  | @declare _ _ _ location _ _ _ id _ hdeclared _ ih =>
      obtain ⟨hgives, _⟩ := declare_eq_ok hdeclared
      apply ih
      by_cases heq : location = path
      · exact ⟨id, heq ▸ hgives.at?⟩
      · rwa [hgives.at?_of_ne heq]

theorem at?_cases (h : Registers table slots final) (hat : final.at? path = some id) :
    table.at? path = some id ∨ ∃ slot, (path, slot) ∈ slots ∧ slot.chosen? = some id.name := by
  induction h with
  | nil => exact .inl hat
  | skip _ _ ih =>
      exact (ih hat).imp_right fun ⟨slot, hmem, hchosen⟩ => ⟨slot, .tail _ hmem, hchosen⟩
  | @declare table next _ at' slot _ _ found hchosen hdeclared _ ih =>
      rcases ih hat with hbefore | ⟨other, hmem, hother⟩
      · obtain ⟨hgives, hname⟩ := declare_eq_ok hdeclared
        by_cases heq : at' = path
        · subst heq
          obtain rfl := Option.some.inj (hgives.at?.symm.trans hbefore)
          exact .inr ⟨slot, List.mem_cons_self, hname ▸ hchosen⟩
        · exact .inl (hgives.at?_of_ne heq ▸ hbefore)
      · exact .inr ⟨other, .tail _ hmem, hother⟩

/-- A location that declares a name has an identifier afterwards, of a name chosen there. -/
theorem exists_chosen_at? (h : Registers table slots final) (hmem : (path, slot) ∈ slots)
    (hchosen : slot.chosen? = some name) :
    ∃ id other, final.at? path = some id ∧ (path, other) ∈ slots ∧
      other.chosen? = some id.name := by
  obtain ⟨_, rest, _, next, own, rfl, _, hdeclared, hlater⟩ := h.exists_declare hmem hchosen
  obtain ⟨hgives, hown⟩ := declare_eq_ok hdeclared
  obtain ⟨id, hat⟩ := hlater.exists_at?_of_exists ⟨own, hgives.at?⟩
  rcases hlater.at?_cases hat with hbefore | ⟨other, hother, hname⟩
  · obtain rfl := Option.some.inj (hgives.at?.symm.trans hbefore)
    exact ⟨own, slot, hat, hmem, hown ▸ hchosen⟩
  · exact ⟨id, other, hat, by simp [hother], hname⟩

end Registers

/-- The naming of slots that wait for a name: a location that has an identifier keeps
it. -/
inductive Names : NameTable → List (Path × Slot) → NameTable → Prop
  | nil (table : NameTable) : Names table [] table
  | skip {table final : NameTable} {path : Path} {slot : Slot} {rest : List (Path × Slot)}
      (ready : slot.waits = false) (later : Names table rest final) :
      Names table ((path, slot) :: rest) final
  | give {table next final : NameTable} {path : Path} {slot : Slot}
      {rest : List (Path × Slot)} {id : Identifier} (waits : slot.waits = true)
      (gives : table.Gives path id next)
      (same : ∀ found, table.at? path = some found → id = found)
      (later : Names next rest final) : Names table ((path, slot) :: rest) final

theorem nameSlots_cons (table : NameTable) (path : Path) (slot : Slot)
    (rest : List (Path × Slot)) :
    table.nameSlots ((path, slot) :: rest) =
      (if slot.waits then (table.allocateFor path slot.suggestion slot.type true).2
        else table).nameSlots rest :=
  rfl

theorem names_nameSlots (table : NameTable) (slots : List (Path × Slot)) :
    Names table slots (table.nameSlots slots) := by
  induction slots generalizing table with
  | nil => exact .nil table
  | cons found rest ih =>
      obtain ⟨path, slot⟩ := found
      rw [nameSlots_cons]
      split
      · next hwaits =>
          obtain ⟨hgives, hsame⟩ :=
            table.allocateFor_gives path slot.suggestion slot.type true
          exact .give hwaits hgives hsame (ih _)
      · next hready => exact .skip (by simpa using hready) (ih table)

namespace Names

theorem sound (h : Names table slots final) (hsound : table.Sound) : final.Sound := by
  induction h with
  | nil => exact hsound
  | skip _ _ ih => exact ih hsound
  | give _ hgives _ _ ih => exact ih (hgives.sound hsound)

theorem grows (h : Names table slots final) : table.Grows final := by
  induction h with
  | nil => exact .refl _
  | skip _ _ ih => exact ih
  | give _ hgives _ _ ih => exact hgives.grows.trans ih

theorem at?_eq_some (h : Names table slots final) (hat : table.at? path = some id) :
    final.at? path = some id := by
  induction h with
  | nil => exact hat
  | skip _ _ ih => exact ih hat
  | @give table next _ at' _ _ given _ hgives hsame _ ih =>
      apply ih
      by_cases heq : at' = path
      · subst heq
        rw [hgives.at?, hsame id hat]
      · rwa [hgives.at?_of_ne heq]

/-- A location that waits for a name has an identifier afterwards. -/
theorem exists_at? (h : Names table slots final) (hmem : (path, slot) ∈ slots)
    (hwaits : slot.waits = true) : ∃ id, final.at? path = some id := by
  induction h with
  | nil => simp at hmem
  | skip hready _ ih =>
      rcases List.mem_cons.mp hmem with heq | hrest
      · obtain ⟨rfl, rfl⟩ := Prod.mk.inj heq
        simp [hwaits] at hready
      · exact ih hrest
  | give _ hgives _ hlater ih =>
      rcases List.mem_cons.mp hmem with heq | hrest
      · obtain ⟨rfl, rfl⟩ := Prod.mk.inj heq
        exact ⟨_, hlater.at?_eq_some hgives.at?⟩
      · exact ih hrest

end Names

/-- Whether two declarations are kept apart: if they share a location, they have chosen
different names. -/
def KeptApart (a b : Path × Slot) : Prop :=
  a.1 = b.1 → ∃ name name', a.2.name = some name ∧ b.2.name = some name' ∧ name ≠ name'

/-- What holds of the table once the declarations among some slots are named.  A
chosen name is held by its location, and a location at which names are chosen has the
identifier of one of them. -/
structure Resolved (slots : List (Path × Slot)) (final : NameTable) : Prop where
  sound : final.Sound
  held : ∀ {path : Path} {slot : Slot} {name : String}, (path, slot) ∈ slots →
    slot.chosen? = some name → final.IsHeldBy name path
  unique : ∀ {path other : Path} {slot slot' : Slot} {name : String}, (path, slot) ∈ slots →
    (other, slot') ∈ slots → slot.chosen? = some name → slot'.chosen? = some name → path = other
  placed : ∀ {path : Path} {slot : Slot}, (path, slot) ∈ slots → slot.waits = true →
    ∃ id, final.at? path = some id
  adopted : ∀ {path : Path} {slot : Slot} {name : String}, (path, slot) ∈ slots →
    slot.chosen? = some name → ∃ id other, final.at? path = some id ∧
      (path, other) ∈ slots ∧ other.chosen? = some id.name

/-- Naming the declarations of slots succeeds with a table for them. -/
theorem resolved_of_ok (hsound : table.Sound) (h : (table.registerSlots slots).2 = []) :
    Resolved slots ((table.registerSlots slots).1.nameSlots slots) := by
  have hregisters := registers_of_ok h
  have hregistered := hregisters.sound hsound
  have hnames := names_nameSlots (table.registerSlots slots).1 slots
  refine ⟨hnames.sound hregistered, fun hmem hchosen => ?_, hregisters.eq_of_chosen hsound,
    hnames.exists_at?, fun {path slot name} hmem hchosen => ?_⟩
  · exact (hregisters.isHeldBy hsound hmem hchosen).grows hnames.grows
  · obtain ⟨id, other, hat, hother, hname⟩ := hregisters.exists_chosen_at? hmem hchosen
    exact ⟨id, other, hnames.at?_eq_some hat, hother, hname⟩

theorem declares_fillSlot (table : NameTable) (path : Path) (slot : Slot) :
    (table.fillSlot path slot).declares = slot.declares := by
  unfold fillSlot
  split <;> rfl

theorem type_fillSlot (table : NameTable) (path : Path) (slot : Slot) :
    (table.fillSlot path slot).type = slot.type := by
  unfold fillSlot
  split <;> rfl

theorem slots_resolveDeclarations (table : NameTable) (nodes : List Node) :
    (table.resolveDeclarations nodes).nodes.flatMap Node.slots =
      (nodes.flatMap Node.slots).map fun found =>
        (found.1, (table.resolveDeclarations nodes).table.fillSlot found.1 found.2) :=
  Node.flatMap_slots_mapSlots _ nodes

theorem fillSlot_name_of_chosen (h : slot.chosen? = some name) :
    (table.fillSlot path slot).name = some name := by
  obtain ⟨_, hname⟩ := Slot.chosen?_eq_some_iff.mp h
  simp [fillSlot, hname]

theorem fillSlot_of_waits (h : slot.waits = true) :
    table.fillSlot path slot = { slot with name := (table.at? path).map (·.name) } :=
  if_pos h

/-- Only a declaration that waits is changed by naming. -/
theorem fillSlot_eq_self (h : slot.waits = false) : table.fillSlot path slot = slot :=
  if_neg (by rw [Bool.not_eq_true]; exact h)

theorem fillSlot_name_of_waits (h : slot.waits = true) (hat : table.at? path = some id) :
    (table.fillSlot path slot).name = some id.name := by
  rw [fillSlot_of_waits h, hat]
  rfl

theorem slot_eq_of_nodup (hnodup : (slots.map (·.1)).Nodup) (hmem : (path, slot) ∈ slots)
    {found : Path × Slot} (hfound : found ∈ slots) (heq : found.1 = path) : found.2 = slot :=
  congrArg (·.2) (List.inj_on_of_nodup_map hnodup hfound hmem heq)

namespace Resolved

theorem exists_name (h : Resolved slots final) (hmem : (path, slot) ∈ slots)
    (hdeclares : slot.declares = true) : ∃ name, (final.fillSlot path slot).name = some name := by
  rcases Slot.waits_or_chosen hdeclares with hwaits | ⟨name, hchosen⟩
  · obtain ⟨id, hat⟩ := h.placed hmem hwaits
    exact ⟨id.name, fillSlot_name_of_waits hwaits hat⟩
  · exact ⟨name, fillSlot_name_of_chosen hchosen⟩

/-- Where locations are all different, every declaration gets the name of the identifier of
its location. -/
theorem exists_at?_of_nodup (h : Resolved slots final) (hnodup : (slots.map (·.1)).Nodup)
    (hmem : (path, slot) ∈ slots) (hdeclares : slot.declares = true) :
    ∃ id, final.at? path = some id ∧ (final.fillSlot path slot).name = some id.name := by
  rcases Slot.waits_or_chosen hdeclares with hwaits | ⟨name, hchosen⟩
  · obtain ⟨id, hat⟩ := h.placed hmem hwaits
    exact ⟨id, hat, fillSlot_name_of_waits hwaits hat⟩
  · obtain ⟨id, found, hat, hfound, hname⟩ := h.adopted hmem hchosen
    obtain rfl := slot_eq_of_nodup hnodup hmem hfound rfl
    exact ⟨id, hat, fillSlot_name_of_chosen hname⟩

/-- Declarations that get the same name are at the same location. -/
theorem eq_of_name_eq (h : Resolved slots final) (hmem : (path, slot) ∈ slots)
    (hother : (other, slot') ∈ slots) (hdeclares : slot.declares = true)
    (hdeclares' : slot'.declares = true)
    (hname : (final.fillSlot path slot).name = (final.fillSlot other slot').name) :
    path = other := by
  rcases Slot.waits_or_chosen hdeclares with hwaits | ⟨name, hchosen⟩ <;>
    rcases Slot.waits_or_chosen hdeclares' with hwaits' | ⟨name', hchosen'⟩
  · obtain ⟨id, hat⟩ := h.placed hmem hwaits
    obtain ⟨id', hat'⟩ := h.placed hother hwaits'
    rw [fillSlot_name_of_waits hwaits hat, fillSlot_name_of_waits hwaits' hat'] at hname
    exact h.sound.apart hat hat' (Option.some.inj hname)
  · obtain ⟨id, hat⟩ := h.placed hmem hwaits
    rw [fillSlot_name_of_waits hwaits hat, fillSlot_name_of_chosen hchosen'] at hname
    exact (h.held hother hchosen').2 path id hat (Option.some.inj hname)
  · obtain ⟨id', hat'⟩ := h.placed hother hwaits'
    rw [fillSlot_name_of_chosen hchosen, fillSlot_name_of_waits hwaits' hat'] at hname
    exact ((h.held hmem hchosen).2 other id' hat' (Option.some.inj hname).symm).symm
  · rw [fillSlot_name_of_chosen hchosen, fillSlot_name_of_chosen hchosen'] at hname
    exact h.unique hmem hother hchosen (Option.some.inj hname ▸ hchosen')

theorem exists_chosen (h : Resolved slots final) (hmem : (path, slot') ∈ slots)
    (hwaits : slot.waits = true) (hchosen : slot'.chosen? = some name) :
    ∃ found, (path, found) ∈ slots ∧ found.waits = false ∧ found.declares = true ∧
      (final.fillSlot path slot).name = (final.fillSlot path found).name := by
  obtain ⟨id, found, hat, hfound, hname⟩ := h.adopted hmem hchosen
  obtain ⟨hdeclares, hsome⟩ := Slot.chosen?_eq_some_iff.mp hname
  refine ⟨found, hfound, by simp [Slot.waits, hsome], hdeclares, ?_⟩
  rw [fillSlot_name_of_waits hwaits hat, fillSlot_name_of_chosen hname]

/-- Declarations that wait at the same location get the same name. -/
theorem name_eq_of_waits (h : Resolved slots final) (hmem : (path, slot) ∈ slots)
    (hwaits : slot.waits = true) (hwaits' : slot'.waits = true) :
    (final.fillSlot path slot).name = (final.fillSlot path slot').name := by
  obtain ⟨id, hat⟩ := h.placed hmem hwaits
  rw [fillSlot_name_of_waits hwaits hat, fillSlot_name_of_waits hwaits' hat]

/-- Where names are all different, no declaration waits at a location at which another
has chosen its name. -/
theorem not_waits_of_nodup (h : Resolved slots final)
    (hnodup : ((slots.filter (·.2.declares)).map fun found =>
      (final.fillSlot found.1 found.2).name).Nodup)
    (hmem : (path, slot) ∈ slots) (hother : (path, slot') ∈ slots)
    (hchosen : slot'.chosen? = some name) : slot.waits = false := by
  rw [← Bool.not_eq_true]
  intro hwaits
  obtain ⟨found, hfound, hready, hdeclares, hsame⟩ := h.exists_chosen hother hwaits hchosen
  have hin : (path, slot) ∈ slots.filter (·.2.declares) :=
    List.mem_filter.mpr ⟨hmem, (Slot.waits_eq_true_iff.mp hwaits).1⟩
  have hin' : (path, found) ∈ slots.filter (·.2.declares) :=
    List.mem_filter.mpr ⟨hfound, hdeclares⟩
  obtain rfl := (Prod.mk.inj (List.inj_on_of_nodup_map hnodup hin hin' hsame)).2
  simp [hwaits] at hready

/-- Declarations get different names exactly if those that share a location have chosen
different names. -/
theorem nodup_names_iff (h : Resolved slots final) :
    ((slots.filter (·.2.declares)).map fun found =>
        (final.fillSlot found.1 found.2).name).Nodup ↔
      (slots.filter (·.2.declares)).Pairwise KeptApart := by
  constructor
  · intro hnodup
    have hpairwise := List.pairwise_map.mp hnodup
    apply hpairwise.imp_of_mem
    intro a b ha hb hne
    obtain ⟨path, slot⟩ := a
    obtain ⟨other, slot'⟩ := b
    obtain ⟨hmem, hdeclares⟩ := List.mem_filter.mp ha
    obtain ⟨hmem', hdeclares'⟩ := List.mem_filter.mp hb
    rintro (rfl : path = other)
    rcases Slot.waits_or_chosen hdeclares with hwaits | ⟨name, hchosen⟩ <;>
      rcases Slot.waits_or_chosen hdeclares' with hwaits' | ⟨name', hchosen'⟩
    · exact absurd (h.name_eq_of_waits hmem hwaits hwaits') hne
    · simp [h.not_waits_of_nodup hnodup hmem hmem' hchosen'] at hwaits
    · simp [h.not_waits_of_nodup hnodup hmem' hmem hchosen] at hwaits'
    · refine ⟨name, name', (Slot.chosen?_eq_some_iff.mp hchosen).2,
        (Slot.chosen?_eq_some_iff.mp hchosen').2, ?_⟩
      rintro rfl
      exact hne ((fillSlot_name_of_chosen hchosen).trans (fillSlot_name_of_chosen hchosen').symm)
  · intro happart
    refine List.pairwise_map.mpr (happart.imp_of_mem fun {a b} ha hb hkept hname => ?_)
    obtain ⟨path, slot⟩ := a
    obtain ⟨other, slot'⟩ := b
    obtain ⟨hmem, hdeclares⟩ := List.mem_filter.mp ha
    obtain ⟨hmem', hdeclares'⟩ := List.mem_filter.mp hb
    obtain ⟨chosen, chosen', hchosen, hchosen', hne⟩ :=
      hkept (h.eq_of_name_eq hmem hmem' hdeclares hdeclares' hname)
    rw [fillSlot_name_of_chosen (Slot.chosen?_eq_some_iff.mpr ⟨hdeclares, hchosen⟩),
      fillSlot_name_of_chosen (Slot.chosen?_eq_some_iff.mpr ⟨hdeclares', hchosen'⟩)] at hname
    exact hne (Option.some.inj hname)

theorem map_declarations {nodes : List Node} (h : Resolved (nodes.flatMap Node.slots) final) :
    ((nodes.map (Node.mapSlots final.fillSlot)).flatMap Node.declarations).map some =
      ((nodes.flatMap Node.slots).filter (·.2.declares)).map fun found =>
        (final.fillSlot found.1 found.2).name := by
  have hfill : (nodes.map (Node.mapSlots final.fillSlot)).flatMap Node.declarations =
      ((nodes.flatMap Node.slots).filter (·.2.declares)).filterMap fun found =>
        (final.fillSlot found.1 found.2).name := by
    rw [List.filterMap_filter, List.filterMap_flatMap, List.flatMap_map]
    congr 1
    funext node
    rw [Node.declarations, Node.slots_mapSlots, List.filterMap_map]
    congr 1
    funext found
    simp only [Function.comp_apply, declares_fillSlot]
  rw [hfill, List.map_filterMap_some_eq_filter_map_isSome, List.filter_eq_self]
  rintro _ hname
  obtain ⟨⟨path, slot⟩, hfound, rfl⟩ := List.mem_map.mp hname
  obtain ⟨hmem, hdeclares⟩ := List.mem_filter.mp hfound
  obtain ⟨name, hsome⟩ := h.exists_name hmem hdeclares
  simp [hsome]

/-- The names that nodes declare are all different exactly if the declarations that
share a location have chosen different names. -/
theorem nodup_declarations_iff {nodes : List Node}
    (h : Resolved (nodes.flatMap Node.slots) final) :
    ((nodes.map (Node.mapSlots final.fillSlot)).flatMap Node.declarations).Nodup ↔
      ((nodes.flatMap Node.slots).filter (·.2.declares)).Pairwise KeptApart := by
  rw [← h.nodup_names_iff, ← h.map_declarations, List.nodup_map_iff fun _ _ => Option.some.inj]

end Resolved

end NameTable

end Firmware
