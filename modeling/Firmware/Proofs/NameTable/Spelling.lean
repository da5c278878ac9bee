import Firmware.Proofs.NameTable.Requests
/-!
Spelling out names.  Locations may choose the names that they would be given anyway:
every declaration then gets the same name as before.  A name that is spelled out is taken
early, but only the location that gets it in the end would have been given it; so the
first free candidate of any other location is still the same.
-/

namespace Firmware

def Slot.withoutBase (slot : Slot) : Slot := { slot with base := none }

namespace NameTable

variable {table table' next final : NameTable} {path other : Path} {slot : Slot}
  {slots rest : List (Path × Slot)} {name base type : String} {id : Identifier}
  {isPointer : Bool} {chosen : Path → Bool}

/-- With more names taken, the same name is given out as long as it is still free. -/
theorem freeName_eq_of_taken
    (hmore : ∀ name, table.isTaken name = true → table'.isTaken name = true)
    (hfree : table'.isTaken (table.freeName base) = false) :
    table'.freeName base = table.freeName base := by
  obtain ⟨k, hk, _, hearlier⟩ := table.exists_freeName_eq base
  obtain ⟨k', hk', hfree', hearlier'⟩ := table'.exists_freeName_eq base
  rw [hk] at hfree ⊢
  rw [hk']
  rcases Nat.lt_trichotomy k' k with hlt | rfl | hgt
  · rw [hmore _ (hearlier k' hlt)] at hfree'
    contradiction
  · rfl
  · rw [hearlier' k hgt] at hfree
    contradiction

def nameAt? (table : NameTable) (path : Path) : Option String :=
  (table.at? path).map (·.name)

/-- A declaration that waits, with the name that its location has in a table as its own
choice, if the location is among those that choose. -/
def spellOut (table : NameTable) (chosen : Path → Bool) (path : Path) (slot : Slot) : Slot :=
  if slot.waits && chosen path then
    match table.nameAt? path with
    | some name => .explicit name slot.type
    | none => slot
  else slot

def spellOutAll (table : NameTable) (chosen : Path → Bool) (slots : List (Path × Slot)) :
    List (Path × Slot) :=
  slots.map fun found => (found.1, table.spellOut chosen found.1 found.2)

theorem mem_spellOutAll (table : NameTable) (chosen : Path → Bool)
    (hmem : (path, slot) ∈ slots) :
    (path, table.spellOut chosen path slot) ∈ table.spellOutAll chosen slots :=
  List.mem_map_of_mem (f := fun found => (found.1, table.spellOut chosen found.1 found.2)) hmem

theorem spellOut_of_ready (h : slot.waits = false) : table.spellOut chosen path slot = slot :=
  if_neg (by simp [h])

theorem spellOut_of_unchosen (h : chosen path = false) : table.spellOut chosen path slot = slot :=
  if_neg (by simp [h])

theorem spellOut_of_chosen (hwaits : slot.waits = true) (hchosen : chosen path = true)
    (hname : table.nameAt? path = some name) :
    table.spellOut chosen path slot = .explicit name slot.type := by
  rw [spellOut, if_pos (by simp [hwaits, hchosen]), hname]

theorem nameAt?_of_at? (h : table.at? path = some id) : table.nameAt? path = some id.name := by
  rw [nameAt?, h, Option.map_some]

theorem Sound.eq_of_nameAt? (h : table.Sound) (hname : table.nameAt? path = some name)
    (hother : table.nameAt? other = some name) : path = other := by
  obtain ⟨id, hat, rfl⟩ := Option.map_eq_some_iff.mp hname
  obtain ⟨id', hat', hsame⟩ := Option.map_eq_some_iff.mp hother
  exact h.apart hat hat' hsame.symm

theorem Gives.nameAt?_of_ne (h : table.Gives path id next) (hne : path ≠ other) :
    next.nameAt? other = table.nameAt? other := by
  rw [nameAt?, nameAt?, h.at?_of_ne hne]

theorem Names.nameAt?_eq_some (h : Names table slots final)
    (hname : table.nameAt? path = some name) : final.nameAt? path = some name := by
  obtain ⟨id, hat, rfl⟩ := Option.map_eq_some_iff.mp hname
  exact nameAt?_of_at? (h.at?_eq_some hat)

/-- Whether the names that locations have in a final table are still free, or belong to
these locations already. -/
def Due (table final : NameTable) : Prop :=
  ∀ path name, final.nameAt? path = some name → table.isTaken name = true →
    table.nameAt? path = some name

theorem Grows.due (h : table.Grows final) : table.Due final := by
  intro path name hname htaken
  obtain ⟨id, hat, rfl⟩ := Option.map_eq_some_iff.mp hname
  exact nameAt?_of_at? (h.kept hat htaken)

/-- A location may get the name that it has in the end. -/
theorem Gives.due (h : table.Gives path id next) (hdue : table.Due final)
    (hsound : final.Sound) (hfinal : final.nameAt? path = some id.name) : next.Due final := by
  intro other name hname htaken
  by_cases heq : path = other
  · subst heq
    rw [nameAt?_of_at? h.at?, ← hfinal, hname]
  · rw [h.nameAt?_of_ne heq]
    rcases h.isTaken_cases htaken with hbefore | rfl
    · exact hdue other name hname hbefore
    · exact absurd (hsound.eq_of_nameAt? hfinal hname) heq

theorem Due.exists_declare (h : table.Due final) (hfinal : final.nameAt? path = some name)
    (type : String) (isPointer : Bool) :
    ∃ id next, table.declare path name type isPointer = .ok (id, next) := by
  cases hdeclared : table.declare path name type isPointer with
  | ok given => exact ⟨given.1, given.2, rfl⟩
  | error problem =>
      obtain ⟨hother, htaken, _⟩ := declare_eq_error_iff.mp hdeclared
      obtain ⟨id, hat, hname⟩ := Option.map_eq_some_iff.mp (h path name hfinal htaken)
      exact absurd hname (hother id hat)

/-- Slots may choose the names that their locations have in the end. -/
theorem Due.registerSlots (h : table.Due final) (hsound : final.Sound)
    (hchosen : ∀ found ∈ slots, ∀ name, found.2.chosen? = some name →
      final.nameAt? found.1 = some name) :
    (table.registerSlots slots).2 = [] ∧ (table.registerSlots slots).1.Due final := by
  induction slots generalizing table with
  | nil => exact ⟨rfl, h⟩
  | cons found rest ih =>
      obtain ⟨path, slot⟩ := found
      have hrest := fun other hmem => hchosen other (List.mem_cons_of_mem _ hmem)
      rw [NameTable.registerSlots]
      cases hslot : slot.chosen? with
      | none =>
          rw [registerSlot_of_unchosen hslot]
          exact ih h hrest
      | some name =>
          have hfinal := hchosen _ List.mem_cons_self name hslot
          obtain ⟨id, next, hdeclared⟩ := h.exists_declare hfinal slot.type true
          obtain ⟨hgives, rfl⟩ := declare_eq_ok hdeclared
          rw [registerSlot_of_chosen hslot, hdeclared]
          exact ih (hgives.due h hsound hfinal) hrest

theorem Registers.isTaken_cases (h : Registers table slots final)
    (htaken : final.isTaken name = true) :
    table.isTaken name = true ∨ ∃ found ∈ slots, found.2.chosen? = some name := by
  induction h with
  | nil => exact .inl htaken
  | skip _ _ ih =>
      exact (ih htaken).imp_right fun ⟨found, hmem, hchosen⟩ => ⟨found, .tail _ hmem, hchosen⟩
  | declare hslot hdeclared _ ih =>
      rcases ih htaken with hbefore | ⟨found, hmem, hchosen⟩
      · obtain ⟨hgives, rfl⟩ := declare_eq_ok hdeclared
        rcases hgives.isTaken_cases hbefore with hold | rfl
        · exact .inl hold
        · exact .inr ⟨_, List.mem_cons_self, hslot⟩
      · exact .inr ⟨found, .tail _ hmem, hchosen⟩

/-- A location at which no name is chosen keeps what it has. -/
theorem Registers.at?_eq (h : Registers table slots final)
    (hunchosen : ∀ found ∈ slots, found.1 = path → found.2.chosen? = none) :
    final.at? path = table.at? path := by
  induction h with
  | nil => rfl
  | skip _ _ ih => exact ih fun found hmem => hunchosen found (.tail _ hmem)
  | declare hslot hdeclared _ ih =>
      rw [ih fun found hmem => hunchosen found (.tail _ hmem)]
      apply (declare_eq_ok hdeclared).1.at?_of_ne
      intro heq
      have hnone := hunchosen _ List.mem_cons_self heq
      rw [hslot] at hnone
      contradiction

/-- Two tables before the same slots are named, the second with names spelled out: it has
more names, though none that another location would be given. -/
structure Abreast (chosen : Path → Bool) (final table table' : NameTable)
    (slots : List (Path × Slot)) : Prop where
  sound : table'.Sound
  more : ∀ {name : String}, table.isTaken name = true → table'.isTaken name = true
  due : table'.Due final
  same : ∀ {path : Path} {slot : Slot}, (path, slot) ∈ slots → slot.waits = true →
    chosen path = false → table'.nameAt? path = table.nameAt? path
  spelled : ∀ {path : Path} {slot : Slot} {name : String}, (path, slot) ∈ slots →
    slot.waits = true → chosen path = true → final.nameAt? path = some name →
      table'.isTaken name = true

namespace Abreast

theorem tail (h : Abreast chosen final table table' ((path, slot) :: rest)) :
    Abreast chosen final table table' rest where
  sound := h.sound
  more := h.more
  due := h.due
  same hmem := h.same (.tail _ hmem)
  spelled hmem := h.spelled (.tail _ hmem)

/-- A location whose name is spelled out is passed over the second time. -/
theorem spell (h : Abreast chosen final table table' ((path, slot) :: rest))
    (hwaits : slot.waits = true) (hchosen : chosen path = true)
    (hnew : path ∉ rest.map (·.1)) (hgives : table.Gives path id next)
    (hfinal : final.nameAt? path = some id.name) : Abreast chosen final next table' rest where
  sound := h.sound
  more := by
    intro name htaken
    rcases hgives.isTaken_cases htaken with hbefore | rfl
    · exact h.more hbefore
    · exact h.spelled List.mem_cons_self hwaits hchosen hfinal
  due := h.due
  same := by
    intro other slot' hmem hwaits' hchosen'
    have hne : path ≠ other := fun heq => hnew (heq ▸ List.mem_map_of_mem hmem)
    rw [h.same (.tail _ hmem) hwaits' hchosen', hgives.nameAt?_of_ne hne]
  spelled hmem := h.spelled (.tail _ hmem)

/-- A location that gets the same name both times. -/
theorem give (h : Abreast chosen final table table' ((path, slot) :: rest))
    (hsound : final.Sound) (hnew : path ∉ rest.map (·.1)) {id' : Identifier}
    {next' : NameTable} (hgives : table.Gives path id next)
    (hgives' : table'.Gives path id' next') (hname : id'.name = id.name)
    (hfinal : final.nameAt? path = some id.name) : Abreast chosen final next next' rest where
  sound := hgives'.sound h.sound
  more := by
    intro name htaken
    rcases hgives.isTaken_cases htaken with hbefore | rfl
    · exact hgives'.grows.taken (h.more hbefore)
    · rw [← hname]
      exact (hgives'.sound h.sound).isTaken_of_at? hgives'.at?
  due := hgives'.due h.due hsound (hname ▸ hfinal)
  same := by
    intro other slot' hmem hwaits' hchosen'
    have hne : path ≠ other := fun heq => hnew (heq ▸ List.mem_map_of_mem hmem)
    rw [hgives'.nameAt?_of_ne hne, h.same (.tail _ hmem) hwaits' hchosen',
      hgives.nameAt?_of_ne hne]
  spelled hmem hwaits hchosen hspelled :=
    hgives'.grows.taken (h.spelled (.tail _ hmem) hwaits hchosen hspelled)

/-- A location that chooses no name gets the same name both times. -/
theorem name_eq (h : Abreast chosen final table table' ((path, slot) :: rest))
    (hwaits : slot.waits = true) (hchosen : chosen path = false)
    (hfinal : final.nameAt? path =
      some (table.allocateFor path base type isPointer).1.name) :
    (table'.allocateFor path base type isPointer).1.name =
      (table.allocateFor path base type isPointer).1.name := by
  have hsame := h.same List.mem_cons_self hwaits hchosen
  cases hat : table.at? path with
  | some id =>
      rw [nameAt?_of_at? hat] at hsame
      obtain ⟨id', hat', hname⟩ := Option.map_eq_some_iff.mp hsame
      rw [(table.allocateFor_gives path base type isPointer).2 id hat,
        (table'.allocateFor_gives path base type isPointer).2 id' hat', hname]
  | none =>
      have hnone : table.nameAt? path = none := by rw [nameAt?, hat, Option.map_none]
      have hat' : table'.at? path = none := Option.map_eq_none_iff.mp (hsame.trans hnone)
      rw [allocateFor_of_new hat] at hfinal ⊢
      rw [allocateFor_of_new hat']
      apply freeName_eq_of_taken fun name => h.more
      rw [← Bool.not_eq_true]
      intro htaken
      have hdue := h.due path _ hfinal htaken
      rw [hsame, hnone] at hdue
      contradiction

/-- Slots whose names are not spelled out are given the same names both times. -/
theorem nameAt?_nameSlots (h : Abreast chosen final table table' slots) (hsound : final.Sound)
    (hnodup : (slots.map (·.1)).Nodup) (hfinal : table.nameSlots slots = final)
    (hmem : (path, slot) ∈ slots) (hwaits : slot.waits = true) (hchosen : chosen path = false) :
    (table'.nameSlots (final.spellOutAll chosen slots)).nameAt? path = final.nameAt? path := by
  induction slots generalizing table table' with
  | nil => simp at hmem
  | cons found rest ih =>
      obtain ⟨first, slot'⟩ := found
      obtain ⟨hnew, hrest⟩ := List.nodup_cons.mp hnodup
      rw [nameSlots_cons] at hfinal
      rw [spellOutAll, List.map_cons, nameSlots_cons]
      by_cases hfirst : slot'.waits = true
      · rw [if_pos hfirst] at hfinal
        obtain ⟨hgives, _⟩ := table.allocateFor_gives first slot'.suggestion slot'.type true
        have hlast := (names_nameSlots _ rest).nameAt?_eq_some (nameAt?_of_at? hgives.at?)
        rw [hfinal] at hlast
        cases hspelled : chosen first with
        | true =>
            have hready : (final.spellOut chosen first slot').waits = false := by
              rw [spellOut_of_chosen hfirst hspelled hlast]
              rfl
            rw [hready, if_neg Bool.false_ne_true]
            apply ih (h.spell hfirst hspelled hnew hgives hlast) hrest hfinal
            apply (List.mem_cons.mp hmem).resolve_left
            rintro heq
            rw [(Prod.mk.inj heq).1, hspelled] at hchosen
            contradiction
        | false =>
            rw [spellOut_of_unchosen hspelled, if_pos hfirst]
            obtain ⟨hgives', _⟩ :=
              table'.allocateFor_gives first slot'.suggestion slot'.type true
            have hname := h.name_eq hfirst hspelled hlast
            rcases List.mem_cons.mp hmem with heq | hlater
            · obtain ⟨rfl, rfl⟩ := Prod.mk.inj heq
              rw [hlast, ← hname]
              exact (names_nameSlots _ _).nameAt?_eq_some (nameAt?_of_at? hgives'.at?)
            · exact ih (h.give hsound hnew hgives hgives' hname hlast) hrest hfinal hlater
      · have hready : slot'.waits = false := Bool.eq_false_iff.mpr hfirst
        rw [if_neg hfirst] at hfinal
        rw [spellOut_of_ready hready, if_neg hfirst]
        apply ih h.tail hrest hfinal
        apply (List.mem_cons.mp hmem).resolve_left
        rintro heq
        rw [(Prod.mk.inj heq).2, hready] at hwaits
        contradiction

end Abreast

theorem Resolved.nameAt?_of_chosen (h : Resolved slots final) (hnodup : (slots.map (·.1)).Nodup)
    (hmem : (path, slot) ∈ slots) (hchosen : slot.chosen? = some name) :
    final.nameAt? path = some name := by
  have hdeclares := (Slot.chosen?_eq_some_iff.mp hchosen).1
  obtain ⟨id, hat, hname⟩ := h.exists_at?_of_nodup hnodup hmem hdeclares
  rw [nameAt?_of_at? hat, ← hname, fillSlot_name_of_chosen hchosen]

theorem Resolved.nameAt?_of_spelled (h : Resolved slots final)
    (hnodup : (slots.map (·.1)).Nodup) {found : Path × Slot}
    (hmem : found ∈ final.spellOutAll chosen slots) (hchosen : found.2.chosen? = some name) :
    final.nameAt? found.1 = some name := by
  obtain ⟨⟨path, slot⟩, hslot, rfl⟩ := List.mem_map.mp hmem
  by_cases hwaits : slot.waits = true
  · obtain ⟨id, hat⟩ := h.placed hslot hwaits
    cases hspelled : chosen path with
    | true =>
        rw [spellOut_of_chosen hwaits hspelled (nameAt?_of_at? hat)] at hchosen
        exact (nameAt?_of_at? hat).trans hchosen
    | false =>
        rw [spellOut_of_unchosen hspelled] at hchosen
        exact h.nameAt?_of_chosen hnodup hslot hchosen
  · rw [spellOut_of_ready (Bool.eq_false_iff.mpr hwaits)] at hchosen
    exact h.nameAt?_of_chosen hnodup hslot hchosen

/-- Once chosen names are registered, with names spelled out and without, the two tables
are abreast. -/
theorem Resolved.abreast (h : Resolved slots final) (hsound : table.Sound)
    (hnodup : (slots.map (·.1)).Nodup) (hproblems : (table.registerSlots slots).2 = [])
    (hfinal : (table.registerSlots slots).1.nameSlots slots = final) (chosen : Path → Bool) :
    let again := table.registerSlots (final.spellOutAll chosen slots)
    again.2 = [] ∧ Abreast chosen final (table.registerSlots slots).1 again.1 slots := by
  intro again
  have hregisters := registers_of_ok hproblems
  have hnames := names_nameSlots (table.registerSlots slots).1 slots
  rw [hfinal] at hnames
  have hdue : table.Due final := (hregisters.grows.trans hnames.grows).due
  obtain ⟨hfine, hdue'⟩ := hdue.registerSlots h.sound fun found hmem name hchosen =>
    h.nameAt?_of_spelled hnodup hmem hchosen
  have hregisters' : Registers table (final.spellOutAll chosen slots) again.1 :=
    registers_of_ok hfine
  have hnodup' : ((final.spellOutAll chosen slots).map (·.1)).Nodup := by
    rw [spellOutAll, List.map_map]
    exact hnodup
  refine ⟨hfine, ⟨hregisters'.sound hsound, ?_, hdue', ?_, ?_⟩⟩
  · intro name htaken
    rcases hregisters.isTaken_cases htaken with hbefore | ⟨⟨path, slot⟩, hmem, hchosen⟩
    · exact hregisters'.grows.taken hbefore
    · have hspelled := mem_spellOutAll final chosen hmem
      rw [spellOut_of_ready (Slot.ready_of_chosen hchosen)] at hspelled
      exact (hregisters'.isHeldBy hsound hspelled hchosen).1
  · -- No name is chosen at the location, so it has what it had before the registration.
    intro path slot hmem hwaits hunchosen
    have hspelled := mem_spellOutAll final chosen hmem
    rw [spellOut_of_unchosen hunchosen] at hspelled
    have hnone := Slot.chosen?_of_waits hwaits
    rw [nameAt?, nameAt?, hregisters'.at?_eq, hregisters.at?_eq]
    · intro found hfound heq
      rw [slot_eq_of_nodup hnodup hmem hfound heq, hnone]
    · intro found hfound heq
      rw [slot_eq_of_nodup hnodup' hspelled hfound heq, hnone]
  · intro path slot name hmem hwaits hspelled hname
    have hexplicit := mem_spellOutAll final chosen hmem
    rw [spellOut_of_chosen hwaits hspelled hname] at hexplicit
    exact (hregisters'.isHeldBy hsound hexplicit rfl).1

/-- Spelling out the names of some locations leaves every slot with the name it had. -/
theorem fillSlot_spellOut (h : Resolved slots final) (hmem : (path, slot) ∈ slots)
    (hsame : slot.waits = true → chosen path = false → table.nameAt? path = final.nameAt? path) :
    (table.fillSlot path (final.spellOut chosen path slot)).withoutBase =
      (final.fillSlot path slot).withoutBase := by
  by_cases hwaits : slot.waits = true
  · obtain ⟨id, hat⟩ := h.placed hmem hwaits
    obtain ⟨hdeclares, _⟩ := Slot.waits_eq_true_iff.mp hwaits
    cases hspelled : chosen path with
    | true =>
        rw [spellOut_of_chosen hwaits hspelled (nameAt?_of_at? hat), fillSlot_eq_self rfl,
          fillSlot_of_waits hwaits, hat]
        simp only [Slot.withoutBase, Slot.explicit, hdeclares, Option.map_some]
    | false =>
        rw [spellOut_of_unchosen hspelled, fillSlot_of_waits hwaits, fillSlot_of_waits hwaits]
        exact congrArg (fun name => Slot.withoutBase { slot with name }) (hsame hwaits hspelled)
  · have hready := Bool.eq_false_iff.mpr hwaits
    rw [spellOut_of_ready hready, fillSlot_eq_self hready, fillSlot_eq_self hready]

/-- Names may be spelled out.  If the declarations of nodes, all at different locations,
are named without a problem, then any of them that wait may choose the names they get:
there is no problem again, and every slot of every node gets the name it had. -/
theorem spelled_out_names_same (requests : List Request) (nodes : List Node)
    (chosen : Path → Bool) (hnodup : ((nodes.flatMap Node.slots).map (·.1)).Nodup)
    (hproblems : ((requests.foldl serve empty).resolveDeclarations nodes).problems = []) :
    let table := requests.foldl serve empty
    let first := table.resolveDeclarations nodes
    let again :=
      table.resolveDeclarations (nodes.map (Node.mapSlots (first.table.spellOut chosen)))
    again.problems = [] ∧
      again.nodes.map (fun node => node.slots.map fun found => (found.1, found.2.withoutBase)) =
        first.nodes.map
          (fun node => node.slots.map fun found => (found.1, found.2.withoutBase)) := by
  intro table first again
  have hsound : table.Sound := sound_foldl_serve requests
  have hresolved : Resolved (nodes.flatMap Node.slots) first.table :=
    resolved_of_ok hsound hproblems
  obtain ⟨hfine, habreast⟩ := hresolved.abreast hsound hnodup hproblems rfl chosen
  have hslots : (nodes.map (Node.mapSlots (first.table.spellOut chosen))).flatMap Node.slots =
      first.table.spellOutAll chosen (nodes.flatMap Node.slots) :=
    Node.flatMap_slots_mapSlots _ nodes
  rw [← hslots] at hfine habreast
  have hnames : ∀ {path : Path} {slot : Slot}, (path, slot) ∈ nodes.flatMap Node.slots →
      slot.waits = true → chosen path = false →
        again.table.nameAt? path = first.table.nameAt? path := by
    intro path slot hmem hwaits hunchosen
    rw [← habreast.nameAt?_nameSlots hresolved.sound hnodup rfl hmem hwaits hunchosen, ← hslots]
    rfl
  have hfirst : first.nodes = nodes.map (Node.mapSlots first.table.fillSlot) := rfl
  have hagain : again.nodes = (nodes.map (Node.mapSlots (first.table.spellOut chosen))).map
      (Node.mapSlots again.table.fillSlot) := rfl
  refine ⟨hfine, ?_⟩
  rw [hagain, hfirst, List.map_map, List.map_map, List.map_map]
  apply List.map_congr_left
  intro node hnode
  simp only [Function.comp_apply, Node.slots_mapSlots, List.map_map]
  apply List.map_congr_left
  rintro ⟨path, slot⟩ hmem
  have hin := List.mem_flatMap.mpr ⟨node, hnode, hmem⟩
  exact congrArg (path, ·) (fillSlot_spellOut hresolved hin (hnames hin))

/-- A beacon at a position, with the slot of its name. -/
def beacon (position : Nat) (slot : Slot) : Node :=
  ⟨(Path.root.field "beacon").index position, [("id", .identifier slot)]⟩

/-- Three beacons: the base of the last looks like a name given out for the others. -/
def beacons : List Node :=
  [beacon 0 (.automatic "Beacon" none), beacon 1 (.automatic "Beacon" none),
    beacon 2 (.automatic "Beacon" (some "beacon_2"))]

/-- The second beacon may choose the name that it gets. -/
theorem second_beacon_spelled_out :
    let table := ([.single (.reserve "beacon")] : List Request).foldl serve empty
    let first := table.resolveDeclarations beacons
    let again := table.resolveDeclarations
      (beacons.map (Node.mapSlots (first.table.spellOut fun path => path.contains (.index 1))))
    first.problems = [] ∧
      first.nodes.flatMap Node.declarations = ["beacon_2", "beacon_3", "beacon_2_2"] ∧
      again.problems = [] ∧
      again.nodes.map (fun node => node.slots.map fun found => (found.1, found.2.withoutBase)) =
        first.nodes.map (fun node => node.slots.map fun found => (found.1, found.2.withoutBase)) :=
  ⟨rfl, rfl, spelled_out_names_same [.single (.reserve "beacon")] beacons
    (fun path => path.contains (.index 1)) (by decide) rfl⟩

end NameTable

end Firmware
