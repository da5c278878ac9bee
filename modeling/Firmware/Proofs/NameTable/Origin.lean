import Firmware.Proofs.NameTable.Resolution
/-!
The origin of identifiers.  Every identifier of a resolved table is that of a declaration
among the resolved slots: it has the type that the slot declares, and the slot has its
name.  Where no location is shared, every declaration in turn finds its own identifier under
its name.
-/

namespace Firmware

namespace NameTable

variable {table next final : NameTable} {path : Path} {name base type : String} {id : Identifier}
  {slot : Slot} {slots : List (Path × Slot)} {nodes : List Node} {isPointer : Bool}

/-- A declaration adds at most an identifier of its own name and type. -/
theorem lookup?_of_declare {own : String} {found : Identifier}
    (h : table.declare path own type isPointer = .ok (id, next))
    (hlookup : next.lookup? name = some found) :
    table.lookup? name = some found ∨ own = name ∧ found = ⟨name, type, isPointer⟩ := by
  rw [declare_eq] at h
  split at h
  · obtain ⟨_, rfl⟩ := Prod.mk.inj (Except.ok.inj h)
    exact .inl hlookup
  · split at h
    · simp at h
    · obtain ⟨_, rfl⟩ := Prod.mk.inj (Except.ok.inj h)
      rw [lookup?_entered] at hlookup
      split at hlookup
      · next heq => exact .inr ⟨heq, by rw [← heq, Option.some.inj hlookup]⟩
      · exact .inl hlookup

/-- A location that asks for an identifier adds at most the one it gets, as it asks for
it. -/
theorem lookup?_of_allocateFor
    (hlookup : (table.allocateFor path base type isPointer).2.lookup? name = some id) :
    table.lookup? name = some id ∨
      id = ⟨name, type, isPointer⟩ ∧
        (table.allocateFor path base type isPointer).2.at? path = some id := by
  cases hat : table.at? path with
  | some found =>
      rw [allocateFor_of_at? hat] at hlookup
      exact .inl hlookup
  | none =>
      rw [allocateFor_of_new hat, lookup?_entered] at hlookup
      rw [allocateFor_of_new hat]
      split at hlookup
      · next heq =>
          obtain rfl := Option.some.inj hlookup
          exact .inr ⟨by rw [← heq], by rw [at?_entered, if_pos rfl]⟩
      · exact .inl hlookup

/-- A registered identifier was there before, or a slot has chosen its name. -/
theorem Registers.lookup?_cases (h : Registers table slots final)
    (hlookup : final.lookup? name = some id) :
    table.lookup? name = some id ∨ ∃ found ∈ slots,
      found.2.chosen? = some name ∧ id = ⟨name, found.2.type, true⟩ := by
  induction h with
  | nil => exact .inl hlookup
  | skip _ _ ih =>
      exact (ih hlookup).imp_right fun ⟨found, hmem, horigin⟩ => ⟨found, .tail _ hmem, horigin⟩
  | declare hchosen hdeclared _ ih =>
      rcases ih hlookup with hbefore | ⟨found, hmem, horigin⟩
      · refine (lookup?_of_declare hdeclared hbefore).imp_right ?_
        rintro ⟨rfl, hid⟩
        exact ⟨_, List.mem_cons_self, hchosen, hid⟩
      · exact .inr ⟨found, .tail _ hmem, horigin⟩

/-- An identifier that is given out was there before, or is that of a location at which a
slot waits for it. -/
theorem lookup?_nameSlots_cases (hlookup : (table.nameSlots slots).lookup? name = some id) :
    table.lookup? name = some id ∨ ∃ found ∈ slots, found.2.waits = true ∧
      id = ⟨name, found.2.type, true⟩ ∧ (table.nameSlots slots).at? found.1 = some id := by
  induction slots generalizing table with
  | nil => exact .inl hlookup
  | cons first rest ih =>
      obtain ⟨path, slot⟩ := first
      rw [nameSlots_cons] at hlookup ⊢
      rcases ih hlookup with hbefore | ⟨found, hmem, horigin⟩
      · split at hbefore
        · next hwaits =>
            refine (lookup?_of_allocateFor hbefore).imp_right fun ⟨hid, hat⟩ => ?_
            rw [if_pos hwaits]
            exact ⟨_, List.mem_cons_self, hwaits, hid, (names_nameSlots _ rest).at?_eq_some hat⟩
        · exact .inl hbefore
      · exact .inr ⟨found, .tail _ hmem, horigin⟩

/-- Where there was no identifier before, every identifier is that of a declaration, which
is filled with its name. -/
theorem exists_declaration_of_lookup? (hnew : ∀ name, table.lookup? name = none)
    (h : (table.resolveDeclarations nodes).problems = [])
    (hlookup : (table.resolveDeclarations nodes).table.lookup? name = some id) :
    ∃ found ∈ nodes.flatMap Node.slots, found.2.declares = true ∧
      id = ⟨name, found.2.type, true⟩ ∧
      ((table.resolveDeclarations nodes).table.fillSlot found.1 found.2).name = some name := by
  have hregisters := registers_of_ok h
  rcases lookup?_nameSlots_cases hlookup with hregistered | ⟨found, hmem, hwaits, hid, hat⟩
  · rcases hregisters.lookup?_cases hregistered with hold | ⟨found, hmem, hchosen, hid⟩
    · simp [hnew name] at hold
    · exact ⟨found, hmem, (Slot.chosen?_eq_some_iff.mp hchosen).1, hid,
        fillSlot_name_of_chosen hchosen⟩
  · have hname : id.name = name := by rw [hid]
    exact ⟨found, hmem, (Slot.waits_eq_true_iff.mp hwaits).1, hid,
      hname ▸ fillSlot_name_of_waits hwaits hat⟩

/-- Where no location is shared, a declaration finds its own identifier under its name. -/
theorem lookup?_of_declaration (hsound : table.Sound) (hnew : ∀ name, table.lookup? name = none)
    (h : (table.resolveDeclarations nodes).problems = [])
    (hnodup : ((nodes.flatMap Node.slots).map (·.1)).Nodup)
    (hmem : (path, slot) ∈ nodes.flatMap Node.slots) (hdeclares : slot.declares = true) :
    ∃ name, ((table.resolveDeclarations nodes).table.fillSlot path slot).name = some name ∧
      (table.resolveDeclarations nodes).table.lookup? name = some ⟨name, slot.type, true⟩ := by
  have hresolved : Resolved (nodes.flatMap Node.slots) (table.resolveDeclarations nodes).table :=
    resolved_of_ok hsound h
  obtain ⟨id, hat, hname⟩ := hresolved.exists_at?_of_nodup hnodup hmem hdeclares
  have hlookup := hresolved.sound.listed hat
  obtain ⟨⟨other, found⟩, hfound, hdeclared, hid, hsame⟩ :=
    exists_declaration_of_lookup? hnew h hlookup
  -- The entry is that of a declaration with the same name, hence at the same location.
  have heq := hresolved.eq_of_name_eq hmem hfound hdeclares hdeclared (hname.trans hsame.symm)
  obtain rfl := slot_eq_of_nodup hnodup hmem hfound heq.symm
  refine ⟨id.name, hname, ?_⟩
  rw [hlookup, ← hid]

theorem exists_lookup?_of_reference {node : Node} {found : Path × Slot}
    (h : table.referenceProblems node = []) (hmem : found ∈ node.slots)
    (hrefers : found.2.declares = false) (hname : found.2.name = some name) :
    ∃ id, table.lookup? name = some id ∧ typesMatch id.type found.2.type = true := by
  have hfine := List.filterMap_eq_nil_iff.mp h found hmem
  simp only [referenceProblem?, hrefers, hname] at hfine
  split at hfine
  · simp at hfine
  · next id hlookup => exact ⟨id, hlookup, by simpa using hfine⟩

end NameTable

end Firmware
