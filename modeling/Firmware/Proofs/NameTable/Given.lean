import Firmware.Proofs.NameTable.Registration
import Firmware.Proofs.Value.Rewritten
/-!
The names that are given out.  At a location without an identifier, a declaration that waits
gets the first candidate that is free once all chosen names are registered and all earlier
declarations have got theirs.  Nothing else changes in the nodes.
-/

namespace Firmware

namespace NameTable

variable {table next final : NameTable} {path : Path} {slot : Slot}
  {slots before after : List (Path × Slot)} {name base type : String} {id : Identifier}
  {isPointer : Bool} {taken taken' : String → Prop} {nodes : List Node}

/-- Whether a name is the first of the candidates made from a base that is not taken. -/
def FirstFree (taken : String → Prop) (base name : String) : Prop :=
  ∃ attempt, name = candidate base attempt ∧ ¬ taken name ∧
    ∀ earlier < attempt, taken (candidate base earlier)

theorem FirstFree.of_iff (h : FirstFree taken base name)
    (hsame : ∀ name, taken name ↔ taken' name) : FirstFree taken' base name := by
  obtain ⟨attempt, hname, hfree, hearlier⟩ := h
  exact ⟨attempt, hname, mt (hsame name).mpr hfree,
    fun earlier hlt => (hsame _).mp (hearlier earlier hlt)⟩

theorem firstFree_freeName (table : NameTable) (base : String) :
    FirstFree (fun name => table.isTaken name = true) base (table.freeName base) := by
  obtain ⟨attempt, hname, hfree, hearlier⟩ := table.exists_freeName_eq base
  exact ⟨attempt, hname, by simp [hname, hfree], hearlier⟩

/-- Where locations are all different, a slot is alone at its own. -/
theorem notMem_of_nodup (hnodup : ((before ++ (path, slot) :: after).map (·.1)).Nodup) :
    path ∉ before.map (·.1) ∧ path ∉ after.map (·.1) := by
  rw [List.map_append, List.map_cons, List.nodup_middle, List.nodup_cons, List.mem_append,
    not_or] at hnodup
  exact hnodup.1

/-- Where locations are all different, one without an identifier that chooses a name gets the
identifier that it declares. -/
theorem Registers.at?_of_new (h : Registers table slots final)
    (hnodup : (slots.map (·.1)).Nodup) (hmem : (path, slot) ∈ slots)
    (hchosen : slot.chosen? = some name) (hnew : table.at? path = none) :
    final.at? path = some ⟨name, slot.type, true⟩ ∧ table.isTaken name = false := by
  obtain ⟨done, rest, middle, next, id, rfl, hdone, hdeclared, hlater⟩ :=
    h.exists_declare hmem hchosen
  obtain ⟨hbefore, hafter⟩ := notMem_of_nodup hnodup
  have habsent : ∀ {others : List (Path × Slot)}, path ∉ others.map (·.1) →
      ∀ found ∈ others, found.1 = path → found.2.chosen? = none :=
    fun hnot found hfound heq => absurd (heq ▸ List.mem_map_of_mem hfound) hnot
  rw [← hdone.at?_eq (habsent hbefore)] at hnew
  obtain ⟨rfl, hfree⟩ := declare_of_new hnew hdeclared
  refine ⟨?_, ?_⟩
  · rw [hlater.at?_eq (habsent hafter), (declare_eq_ok hdeclared).1.at?]
  · rw [← Bool.not_eq_true]
    intro htaken
    rw [hdone.grows.taken htaken] at hfree
    contradiction

theorem nameSlots_append (table : NameTable) (before after : List (Path × Slot)) :
    table.nameSlots (before ++ after) = (table.nameSlots before).nameSlots after :=
  List.foldl_append ..

/-- A location at which no slot waits keeps what it has. -/
theorem Names.at?_eq (h : Names table slots final) (hnew : path ∉ slots.map (·.1)) :
    final.at? path = table.at? path := by
  induction h with
  | nil => rfl
  | skip _ _ ih => exact ih fun hmem => hnew (.tail _ hmem)
  | give _ hgives _ _ ih =>
      rw [ih fun hmem => hnew (.tail _ hmem)]
      apply hgives.at?_of_ne
      rintro rfl
      exact hnew List.mem_cons_self

/-- A name that is taken once names are given out was taken before, or belongs to a location
at which a slot waits. -/
theorem Names.isTaken_cases (h : Names table slots final) (htaken : final.isTaken name = true) :
    table.isTaken name = true ∨
      ∃ found ∈ slots, found.2.waits = true ∧ final.nameAt? found.1 = some name := by
  induction h with
  | nil => exact .inl htaken
  | skip _ _ ih =>
      exact (ih htaken).imp_right fun ⟨found, hmem, hgiven⟩ => ⟨found, .tail _ hmem, hgiven⟩
  | give hwaits hgives _ hlater ih =>
      rcases ih htaken with hbefore | ⟨found, hmem, hgiven⟩
      · refine (hgives.isTaken_cases hbefore).imp_right ?_
        rintro rfl
        exact ⟨_, List.mem_cons_self, hwaits,
          hlater.nameAt?_eq_some (nameAt?_of_at? hgives.at?)⟩
      · exact .inr ⟨found, .tail _ hmem, hgiven⟩

theorem Sound.isTaken_of_nameAt? (h : table.Sound) (hname : table.nameAt? path = some name) :
    table.isTaken name = true := by
  obtain ⟨id, hat, rfl⟩ := Option.map_eq_some_iff.mp hname
  exact h.isTaken_of_at? hat

theorem Names.isTaken_iff (h : Names table slots final) (hsound : table.Sound) :
    final.isTaken name = true ↔ table.isTaken name = true ∨
      ∃ found ∈ slots, found.2.waits = true ∧ final.nameAt? found.1 = some name := by
  refine ⟨h.isTaken_cases, ?_⟩
  rintro (hbefore | ⟨_, _, _, hgiven⟩)
  · exact h.grows.taken hbefore
  · exact (h.sound hsound).isTaken_of_nameAt? hgiven

/-- Whether a name is taken when a slot gets its own: it was before, or is chosen by some
slot, or an earlier slot has got it. -/
def IsSpoken (table final : NameTable) (slots before : List (Path × Slot)) (name : String) : Prop :=
  table.isClaimed slots name = true ∨
    ∃ found ∈ before, found.2.waits = true ∧ final.nameAt? found.1 = some name

/-- Where locations are all different, a slot that waits at one without an identifier gets the
first free name. -/
theorem Sound.firstFree_of_waits (hsound : table.Sound)
    (hnodup : ((before ++ (path, slot) :: after).map (·.1)).Nodup)
    (hnew : table.at? path = none) (hwaits : slot.waits = true) :
    let slots := before ++ (path, slot) :: after
    let final := (table.registerSlots slots).1.nameSlots slots
    ∃ name, final.at? path = some ⟨name, slot.type, true⟩ ∧
      FirstFree (table.IsSpoken final slots before) slot.suggestion name := by
  intro slots final
  let registered := (table.registerSlots slots).1
  let middle := registered.nameSlots before
  obtain ⟨hbefore, _⟩ := notMem_of_nodup hnodup
  have hregistered : registered.Sound := hsound.registerSlots slots
  have hnames : Names registered before middle := names_nameSlots registered before
  have hempty : middle.at? path = none := by
    rw [hnames.at?_eq hbefore, hsound.at?_registerSlots, hnew]
    intro found hfound heq
    have hmem : (path, slot) ∈ slots := by simp [slots]
    rw [slot_eq_of_nodup hnodup hmem hfound heq, Slot.chosen?_of_waits hwaits]
  obtain ⟨hgives, _⟩ := middle.allocateFor_gives path slot.suggestion slot.type true
  let given := (middle.allocateFor path slot.suggestion slot.type true).2
  have hfinal : final = given.nameSlots after := by
    rw [show final = middle.nameSlots ((path, slot) :: after) from nameSlots_append ..,
      nameSlots_cons, if_pos hwaits]
  have hlater : Names given after final := hfinal ▸ names_nameSlots given after
  refine ⟨middle.freeName slot.suggestion, ?_, ?_⟩
  · apply hlater.at?_eq_some
    rw [hgives.at?, allocateFor_of_new hempty]
  · -- What is taken at this moment is what is chosen anywhere, or given out before.
    refine (firstFree_freeName middle slot.suggestion).of_iff fun name => ?_
    rw [hnames.isTaken_iff hregistered, hsound.isTaken_registerSlots]
    refine or_congr_right (exists_congr fun found => and_congr_right fun hfound =>
      and_congr_right fun hready => ?_)
    obtain ⟨id, hat⟩ := hnames.exists_at? hfound hready
    have hkept : final.nameAt? found.1 = middle.nameAt? found.1 := by
      rw [nameAt?_of_at? hat]
      apply hlater.nameAt?_eq_some
      by_cases heq : path = found.1
      · exact absurd (heq ▸ List.mem_map_of_mem hfound) hbefore
      · rw [hgives.nameAt?_of_ne heq, nameAt?_of_at? hat]
    rw [hkept]

/-- Where chosen names are registered without a problem, every declaration gets an identifier
of its type, under the name it chooses if it does and always under one that was free. -/
theorem Sound.exists_identifier (hsound : table.Sound) (hnodup : (slots.map (·.1)).Nodup)
    (hok : (table.registerSlots slots).2 = []) (hmem : (path, slot) ∈ slots)
    (hdeclares : slot.declares = true) (hnew : table.at? path = none) :
    ∃ name, ((table.registerSlots slots).1.nameSlots slots).at? path =
        some ⟨name, slot.type, true⟩ ∧
      table.isTaken name = false ∧ ∀ chosen, slot.chosen? = some chosen → name = chosen := by
  rcases Slot.waits_or_chosen hdeclares with hwaits | ⟨name, hchosen⟩
  · obtain ⟨before, after, rfl⟩ := List.append_of_mem hmem
    obtain ⟨name, hat, _, _, hfree, _⟩ := hsound.firstFree_of_waits hnodup hnew hwaits
    refine ⟨name, hat, ?_, fun chosen hchosen => ?_⟩
    · rw [IsSpoken, not_or, Bool.not_eq_true, isClaimed_eq_false_iff] at hfree
      exact hfree.1.1
    · simp [Slot.chosen?_of_waits hwaits] at hchosen
  · obtain ⟨hat, hfree⟩ := (registers_of_ok hok).at?_of_new hnodup hmem hchosen hnew
    exact ⟨name, (names_nameSlots _ slots).at?_eq_some hat, hfree,
      fun chosen hsame => Option.some.inj (hchosen.symm.trans hsame)⟩

/-- Nodes are rewritten slot by slot. -/
theorem rewritten_resolveDeclarations {allowed : Path → Slot → Slot → Prop}
    (h : ∀ found ∈ nodes.flatMap Node.slots, allowed found.1 found.2
      ((table.resolveDeclarations nodes).table.fillSlot found.1 found.2)) :
    List.Forall₂ (Node.Rewritten allowed) nodes (table.resolveDeclarations nodes).nodes := by
  refine List.forall₂_map_right_iff.mpr (List.forall₂_same.mpr fun node hnode => ?_)
  exact Node.rewritten_mapSlots fun found hfound =>
    h found (List.mem_flatMap.mpr ⟨node, hnode, hfound⟩)

/-- What it means that the declarations of nodes have got names, in terms of the names that
locations have. -/
structure Naming (table : NameTable) (nodes : List Node) (names : Path → String) : Prop where
  /-- Only a declaration that waits changes, and only its name does. -/
  rewritten : List.Forall₂ (Node.Rewritten fun path old new =>
      new = if old.waits then { old with name := some (names path) } else old)
    nodes (table.resolveDeclarations nodes).nodes
  /-- Every declaration has the name of its location. -/
  declared : (table.resolveDeclarations nodes).nodes.flatMap Node.declarations =
    ((nodes.flatMap Node.slots).filter (·.2.declares)).map fun found => names found.1
  distinct : ((table.resolveDeclarations nodes).nodes.flatMap Node.declarations).Nodup
  /-- The names are new to the table, and none of them is kept back. -/
  new : ∀ found ∈ nodes.flatMap Node.slots, found.2.declares = true →
    table.isTaken (names found.1) = false
  chosen : ∀ found ∈ nodes.flatMap Node.slots, ∀ name, found.2.chosen? = some name →
    names found.1 = name
  /-- The location and the name of a declaration lead to the same identifier. -/
  listed : ∀ found ∈ nodes.flatMap Node.slots, found.2.declares = true →
    (table.resolveDeclarations nodes).table.at? found.1 =
        some ⟨names found.1, found.2.type, true⟩ ∧
      (table.resolveDeclarations nodes).table.lookup? (names found.1) =
        some ⟨names found.1, found.2.type, true⟩
  /-- A declaration that waits gets the first name that is not taken, not chosen anywhere and
  not given to an earlier one. -/
  first : ∀ before path slot after, nodes.flatMap Node.slots = before ++ (path, slot) :: after →
    slot.waits = true →
      FirstFree
        (fun name => table.isTaken name = true ∨
          (∃ found ∈ nodes.flatMap Node.slots, found.2.chosen? = some name) ∨
          ∃ found ∈ before, found.2.waits = true ∧ names found.1 = name)
        (slot.base.getD (baseName slot.type)) (names path)

/-- The names that locations have; it does not matter what stands for no name. -/
def names (table : NameTable) (path : Path) : String := (table.nameAt? path).getD ""

theorem nameAt?_eq_some_iff (h : table.at? path = some id) :
    table.nameAt? path = some name ↔ table.names path = name := by
  rw [names, nameAt?_of_at? h, Option.some.injEq, Option.getD_some]

theorem fillSlot_eq_of_placed (h : slot.waits = true → ∃ id, table.at? path = some id) :
    table.fillSlot path slot =
      if slot.waits then { slot with name := some (table.names path) } else slot := by
  by_cases hwaits : slot.waits = true
  · obtain ⟨id, hat⟩ := h hwaits
    rw [if_pos hwaits, fillSlot_of_waits hwaits, names, nameAt?_of_at? hat, hat]
    rfl
  · rw [if_neg hwaits, fillSlot_eq_self (Bool.eq_false_iff.mpr hwaits)]

theorem Resolved.declarations_eq (h : Resolved (nodes.flatMap Node.slots) final)
    (hnodup : ((nodes.flatMap Node.slots).map (·.1)).Nodup) :
    (nodes.map (Node.mapSlots final.fillSlot)).flatMap Node.declarations =
      ((nodes.flatMap Node.slots).filter (·.2.declares)).map fun found => final.names found.1 := by
  apply (List.map_inj_right fun _ _ => Option.some.inj).mp
  rw [h.map_declarations, List.map_map]
  refine List.map_congr_left fun found hfound => ?_
  obtain ⟨hmem, hdeclares⟩ := List.mem_filter.mp hfound
  obtain ⟨id, hat, hname⟩ := h.exists_at?_of_nodup hnodup hmem hdeclares
  rw [hname, Function.comp_apply, (nameAt?_eq_some_iff hat).mp (nameAt?_of_at? hat)]

/-- Naming succeeds with names for all declarations, at locations that are all different and
had no identifier before. -/
theorem resolveDeclarations_naming (requests : List Request) (nodes : List Node)
    (hnew : ∀ found ∈ nodes.flatMap Node.slots,
      (requests.foldl serve empty).at? found.1 = none)
    (hnodup : ((nodes.flatMap Node.slots).map (·.1)).Nodup)
    (hok : ((requests.foldl serve empty).resolveDeclarations nodes).problems = []) :
    ∃ names, (requests.foldl serve empty).Naming nodes names := by
  let table := requests.foldl serve empty
  let slots := nodes.flatMap Node.slots
  let final := (table.resolveDeclarations nodes).table
  have hsound : table.Sound := sound_foldl_serve requests
  have hresolved : Resolved slots final := resolved_of_ok hsound hok
  have hapart : (slots.filter (·.2.declares)).Pairwise KeptApart :=
    ((List.pairwise_map.mp hnodup).filter _).imp fun hne heq => absurd heq hne
  have hidentifier : ∀ found ∈ slots, found.2.declares = true →
      final.at? found.1 = some ⟨final.names found.1, found.2.type, true⟩ ∧
        table.isTaken (final.names found.1) = false ∧
        ∀ chosen, found.2.chosen? = some chosen → final.names found.1 = chosen := by
    intro found hmem hdeclares
    obtain ⟨name, hat, hfree, hchosen⟩ :=
      hsound.exists_identifier hnodup hok hmem hdeclares (hnew found hmem)
    obtain rfl : final.names found.1 = name := (nameAt?_eq_some_iff hat).mp (nameAt?_of_at? hat)
    exact ⟨hat, hfree, hchosen⟩
  refine ⟨final.names, ?_, hresolved.declarations_eq hnodup,
    hresolved.nodup_declarations_iff.mpr hapart, ?_, ?_, ?_, ?_⟩
  · exact rewritten_resolveDeclarations fun found hmem =>
      fillSlot_eq_of_placed (hresolved.placed hmem)
  · exact fun found hmem hdeclares => (hidentifier found hmem hdeclares).2.1
  · intro found hmem name hchosen
    have hdeclares := (Slot.chosen?_eq_some_iff.mp hchosen).1
    exact (hidentifier found hmem hdeclares).2.2 name hchosen
  · intro found hmem hdeclares
    obtain ⟨hat, _⟩ := hidentifier found hmem hdeclares
    exact ⟨hat, hresolved.sound.listed hat⟩
  · intro before path slot after hslots hwaits
    have hmem : (path, slot) ∈ slots := by simp [slots, hslots]
    have hsplit : ((before ++ (path, slot) :: after).map (·.1)).Nodup := hslots ▸ hnodup
    obtain ⟨name, hat, hfirst⟩ := hsound.firstFree_of_waits hsplit (hnew _ hmem) hwaits
    rw [← hslots] at hat hfirst
    obtain rfl : final.names path = name := (nameAt?_eq_some_iff hat).mp (nameAt?_of_at? hat)
    refine hfirst.of_iff fun name => ?_
    rw [IsSpoken, isClaimed_eq_true_iff, or_assoc]
    refine or_congr_right (or_congr_right (exists_congr fun found => and_congr_right fun hfound =>
      and_congr_right fun hready => ?_))
    have hearlier : found ∈ slots := by simp [slots, hslots, hfound]
    exact nameAt?_eq_some_iff (hidentifier found hearlier (Slot.waits_eq_true_iff.mp hready).1).1

/-- A mast with lights: one has chosen a name that looks like one given out, and one has that
name as the base of its own. -/
def mast : Node :=
  ⟨Path.root.field "mast", [("id", .identifier (.automatic "Mast" none)),
    ("lights", .sequence [.identifier (.automatic "signal::Light" none),
      .identifier (.explicit "light_2" "Light"), .identifier (.automatic "Light" (some "light_2"))]),
    ("beacon", .identifier (.reference "light" "Light"))]⟩

/-- Where `light` is given out and `mast` is kept back, all lights of a mast and of a beacon
after it get names. -/
theorem mast_naming :
    let table := ([.single (.allocate "light" "Light" true), .single (.reserve "mast")] :
      List Request).foldl serve empty
    let nodes := [mast, beacon 0 (.automatic "Light" none)]
    (table.resolveDeclarations nodes).problems = [] ∧
      (table.resolveDeclarations nodes).nodes.flatMap Node.declarations =
        ["mast_2", "light_3", "light_2", "light_2_2", "light_4"] ∧
      ∃ names, table.Naming nodes names :=
  ⟨rfl, rfl, resolveDeclarations_naming
    [.single (.allocate "light" "Light" true), .single (.reserve "mast")]
    [mast, beacon 0 (.automatic "Light" none)] (by decide) (by decide) rfl⟩

end NameTable

end Firmware
