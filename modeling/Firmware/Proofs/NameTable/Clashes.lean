import Firmware.Proofs.NameTable.Given
/-!
Names that are chosen twice.  A slot is refused the name it chooses exactly if the name was
taken from the start, or an earlier slot chooses it; whoever comes first is never reported.
Declarations that wait get free names in any case.
-/

namespace Firmware

namespace NameTable

variable {table middle final : NameTable} {path : Path} {slot : Slot} {clash : Path × String}
  {slots before after rest : List (Path × Slot)} {name : String} {nodes : List Node}

/-- Where locations are all different, there is one way to split slots at a location. -/
theorem eq_of_append_eq {before' after' : List (Path × Slot)} {slot' : Slot}
    (hnodup : ((before ++ (path, slot) :: after).map (·.1)).Nodup)
    (h : before ++ (path, slot) :: after = before' ++ (path, slot') :: after') :
    before = before' ∧ slot = slot' := by
  have hmem : (path, slot') ∈ before ++ (path, slot) :: after := by simp [h]
  obtain rfl : slot' = slot := slot_eq_of_nodup hnodup (by simp) hmem rfl
  obtain ⟨hbefore, hafter⟩ := notMem_of_nodup hnodup
  have halone : ∀ {others : List (Path × Slot)}, path ∉ others.map (·.1) →
      (path, slot') ∉ others := mt List.mem_map_of_mem
  exact ⟨((List.append_cons_inj_of_notMem (halone hbefore) (halone hafter)).mp h).1, rfl⟩

/-- The slots that choose a name which is taken, or which an earlier one chooses, in order:
their locations with these names. -/
def clashes (table : NameTable) (slots : List (Path × Slot)) : List (Path × String) :=
  slots.zipIdx.filterMap fun (found, position) =>
    (found.2.chosen?.filter (table.isClaimed (slots.take position))).map (found.1, ·)

theorem mem_clashes_iff : clash ∈ table.clashes slots ↔
    ∃ before slot after, slots = before ++ (clash.1, slot) :: after ∧
      slot.chosen? = some clash.2 ∧ table.isClaimed before clash.2 = true := by
  obtain ⟨path, name⟩ := clash
  simp only [clashes, List.mem_filterMap, Option.map_eq_some_iff, Option.filter_eq_some_iff,
    Prod.exists, Prod.mk.injEq, List.mem_zipIdx_iff_getElem?]
  constructor
  · rintro ⟨_, slot, position, hslot, _, ⟨hchosen, hclaimed⟩, rfl, rfl⟩
    refine ⟨slots.take position, slot, slots.drop (position + 1), ?_, hchosen, hclaimed⟩
    obtain ⟨hbound, heq⟩ := List.getElem?_eq_some_iff.mp hslot
    rw [← heq, ← List.drop_eq_getElem_cons, List.take_append_drop]
  · rintro ⟨before, slot, after, rfl, hchosen, hclaimed⟩
    refine ⟨path, slot, before.length, ?_, name, ⟨hchosen, ?_⟩, rfl, rfl⟩
    · simp
    · rwa [List.take_left]

/-- Slots at new locations are refused one by one, as clashes with what is claimed before
them. -/
theorem Sound.problems_registerSlots_after (hsound : middle.Sound)
    (hclaimed : ∀ name, middle.isTaken name = table.isClaimed before name)
    (hnew : ∀ found ∈ rest, middle.at? found.1 = none) (hnodup : (rest.map (·.1)).Nodup) :
    (middle.registerSlots rest).2 = (rest.zipIdx before.length).filterMap fun found =>
      (found.1.2.chosen?.filter (table.isClaimed ((before ++ rest).take found.2))).map
        (duplicate found.1.1) := by
  induction rest generalizing before middle with
  | nil => rfl
  | cons found rest ih =>
      obtain ⟨hfirst, hrest⟩ := List.nodup_cons.mp hnodup
      obtain ⟨next, problems, henters, hstep, hproblems⟩ := exists_enters hsound found rest
      have hnext : ∀ name, next.isTaken name = table.isClaimed (before ++ [found]) name := by
        intro name
        rw [henters.taken, isClaimed, hclaimed, isClaimed_append]
      have hlater : ∀ other ∈ rest, next.at? other.1 = none := by
        intro other hmem
        have hne : other.1 ≠ found.1 := fun heq => hfirst (List.mem_map.mpr ⟨other, hmem, heq⟩)
        rw [henters.elsewhere fun heq => absurd heq hne]
        exact hnew other (.tail _ hmem)
      have htail := ih henters.sound hnext hlater hrest
      rw [List.append_assoc, List.singleton_append, List.length_append, List.length_singleton]
        at htail
      rw [hstep, hproblems (hnew found List.mem_cons_self), htail, List.zipIdx_cons, refusal?,
        show middle.isTaken = table.isClaimed before from funext hclaimed]
      cases hrefused : (found.2.chosen?.filter (table.isClaimed before)).map
        (duplicate found.1) with
      | none =>
          rw [List.filterMap_cons_none (by rw [List.take_left, hrefused])]
          rfl
      | some problem =>
          rw [List.filterMap_cons_some (by rw [List.take_left, hrefused])]
          rfl

/-- The problems of naming are the clashes. -/
theorem Sound.problems_registerSlots (hsound : table.Sound)
    (hnew : ∀ found ∈ slots, table.at? found.1 = none) (hnodup : (slots.map (·.1)).Nodup) :
    (table.registerSlots slots).2 =
      (table.clashes slots).map fun clash => duplicate clash.1 clash.2 := by
  have hnothing : ∀ name, table.isTaken name = table.isClaimed [] name := by simp [isClaimed]
  rw [hsound.problems_registerSlots_after hnothing hnew hnodup, clashes, List.map_filterMap]
  refine List.filterMap_congr fun found _ => ?_
  rw [Option.map_map]
  rfl

/-- Locations at which slots wait get names that are all different, taken by nobody before and
chosen nowhere, whatever else goes wrong. -/
theorem Sound.exists_given (hsound : table.Sound)
    (hnew : ∀ found ∈ nodes.flatMap Node.slots, table.at? found.1 = none)
    (hnodup : ((nodes.flatMap Node.slots).map (·.1)).Nodup) :
    ∃ names : Path → String,
      List.Forall₂ (Node.Rewritten fun path old new =>
          new = if old.waits then { old with name := some (names path) } else old)
        nodes (table.resolveDeclarations nodes).nodes ∧
      (((nodes.flatMap Node.slots).filter (·.2.waits)).map fun found => names found.1).Nodup ∧
      ∀ found ∈ nodes.flatMap Node.slots, found.2.waits = true →
        table.isClaimed (nodes.flatMap Node.slots) (names found.1) = false := by
  let slots := nodes.flatMap Node.slots
  let final := (table.resolveDeclarations nodes).table
  have hfinal : final.Sound :=
    (names_nameSlots _ slots).sound (hsound.registerSlots slots)
  have hgiven : ∀ found ∈ slots, found.2.waits = true →
      (∃ id, final.at? found.1 = some id) ∧
        table.isClaimed slots (final.names found.1) = false := by
    intro found hmem hwaits
    obtain ⟨before, after, hslots⟩ := List.append_of_mem hmem
    have hsplit : ((before ++ found :: after).map (·.1)).Nodup := hslots ▸ hnodup
    obtain ⟨name, hat, _, _, hfree, _⟩ :=
      hsound.firstFree_of_waits hsplit (hnew found hmem) hwaits
    rw [← hslots] at hat hfree
    obtain rfl : final.names found.1 = name := (nameAt?_eq_some_iff hat).mp (nameAt?_of_at? hat)
    rw [IsSpoken, not_or, Bool.not_eq_true] at hfree
    exact ⟨⟨_, hat⟩, hfree.1⟩
  refine ⟨final.names, ?_, ?_, fun found hmem hwaits => (hgiven found hmem hwaits).2⟩
  · exact rewritten_resolveDeclarations fun found hmem =>
      fillSlot_eq_of_placed fun hwaits => (hgiven found hmem hwaits).1
  · have hapart := (List.pairwise_map.mp hnodup).filter fun found => found.2.waits
    refine List.pairwise_map.mpr (hapart.imp_of_mem fun {a b} ha hb hne heq => hne ?_)
    obtain ⟨hmem, hwaits⟩ := List.mem_filter.mp ha
    obtain ⟨hmem', hwaits'⟩ := List.mem_filter.mp hb
    obtain ⟨id, hat⟩ := (hgiven a hmem hwaits).1
    obtain ⟨id', hat'⟩ := (hgiven b hmem' hwaits').1
    exact hfinal.eq_of_nameAt? (nameAt?_of_at? hat)
      ((nameAt?_eq_some_iff hat').mpr
        (heq ▸ (nameAt?_eq_some_iff hat).mp (nameAt?_of_at? hat)))

/-- Naming fails exactly if a name is chosen that is taken or that an earlier declaration
chooses.  Each such choice is reported once, in order and where it is; the first to choose a
free name is not.  Declarations that wait get different names that nobody has chosen, even if
naming fails. -/
theorem resolveDeclarations_clashes (requests : List Request) (nodes : List Node)
    (hnew : ∀ found ∈ nodes.flatMap Node.slots,
      (requests.foldl serve empty).at? found.1 = none)
    (hnodup : ((nodes.flatMap Node.slots).map (·.1)).Nodup) :
    let table := requests.foldl serve empty
    let slots := nodes.flatMap Node.slots
    let done := table.resolveDeclarations nodes
    (done.problems ≠ [] ↔ ∃ before path slot after name,
      slots = before ++ (path, slot) :: after ∧ slot.chosen? = some name ∧
        (table.isTaken name = true ∨ ∃ earlier ∈ before, earlier.2.chosen? = some name)) ∧
    done.problems = (table.clashes slots).map (fun clash => duplicate clash.1 clash.2) ∧
    (∀ before path slot after name, slots = before ++ (path, slot) :: after →
      slot.chosen? = some name → table.isTaken name = false →
        (∀ earlier ∈ before, earlier.2.chosen? ≠ some name) →
          ∀ problem ∈ done.problems, problem.path ≠ some path) ∧
    ∃ names : Path → String,
      List.Forall₂ (Node.Rewritten fun path old new =>
        new = if old.waits then { old with name := some (names path) } else old)
        nodes done.nodes ∧
      ((slots.filter (·.2.waits)).map fun found => names found.1).Nodup ∧
      ∀ found ∈ slots, found.2.waits = true →
        table.isTaken (names found.1) = false ∧
          ∀ other ∈ slots, other.2.chosen? ≠ some (names found.1) := by
  intro table slots done
  have hsound : table.Sound := sound_foldl_serve requests
  have hproblems : done.problems =
      (table.clashes slots).map fun clash => duplicate clash.1 clash.2 :=
    hsound.problems_registerSlots hnew hnodup
  obtain ⟨names, hrewritten, hdistinct, hfree⟩ := hsound.exists_given hnew hnodup
  refine ⟨?_, hproblems, ?_, names, hrewritten, hdistinct,
    fun found hmem hwaits => isClaimed_eq_false_iff.mp (hfree found hmem hwaits)⟩
  · rw [hproblems, ne_eq, List.map_eq_nil_iff, ← ne_eq]
    constructor
    · intro hclashes
      obtain ⟨⟨path, name⟩, hmem⟩ := List.exists_mem_of_ne_nil _ hclashes
      obtain ⟨before, slot, after, hslots, hchosen, hclaimed⟩ := mem_clashes_iff.mp hmem
      exact ⟨before, path, slot, after, name, hslots, hchosen,
        isClaimed_eq_true_iff.mp hclaimed⟩
    · rintro ⟨before, path, slot, after, name, hslots, hchosen, hclaimed⟩
      exact List.ne_nil_of_mem (a := (path, name)) (mem_clashes_iff.mpr
        ⟨before, slot, after, hslots, hchosen, isClaimed_eq_true_iff.mpr hclaimed⟩)
  · intro before path slot after name hslots hchosen htaken hearlier problem hmem hpath
    rw [hproblems] at hmem
    obtain ⟨⟨other, name'⟩, hclash, rfl⟩ := List.mem_map.mp hmem
    obtain rfl : other = path := Option.some.inj hpath
    obtain ⟨before', slot', after', hslots', hchosen', hclaimed⟩ := mem_clashes_iff.mp hclash
    obtain ⟨rfl, rfl⟩ := eq_of_append_eq (hslots ▸ hnodup) (hslots.symm.trans hslots')
    obtain rfl : name = name' := Option.some.inj (hchosen.symm.trans hchosen')
    have hfree := isClaimed_eq_false_iff.mpr ⟨htaken, hearlier⟩
    exact Bool.false_ne_true (hfree.symm.trans hclaimed)

/-- The beacons beside a mast: one chooses a name that a light of the mast has chosen, one a
name that is kept back, one a free name, and one the same again. -/
def crowd : List Node :=
  [mast, beacon 0 (.explicit "light_2" "Light"), beacon 1 (.explicit "mast" "Light"),
    beacon 2 (.explicit "flare" "Light"), beacon 3 (.explicit "flare" "Light")]

/-- Where `mast` is kept back, three of the beacons beside it are refused. -/
theorem crowd_clashes :
    let table := ([.single (.reserve "mast")] : List Request).foldl serve empty
    let done := table.resolveDeclarations crowd
    done.problems =
        [duplicate (((Path.root.field "beacon").index 0).field "id") "light_2",
          duplicate (((Path.root.field "beacon").index 1).field "id") "mast",
          duplicate (((Path.root.field "beacon").index 3).field "id") "flare"] ∧
      ∃ names : Path → String,
        List.Forall₂ (Node.Rewritten fun path old new =>
          new = if old.waits then { old with name := some (names path) } else old)
          crowd done.nodes ∧
        (((crowd.flatMap Node.slots).filter (·.2.waits)).map fun found => names found.1).Nodup :=
  have ⟨_, hproblems, _, names, hrewritten, hdistinct, _⟩ :=
    resolveDeclarations_clashes [.single (.reserve "mast")] crowd (by decide) (by decide)
  ⟨hproblems.trans rfl, names, hrewritten, hdistinct⟩

end NameTable

end Firmware
