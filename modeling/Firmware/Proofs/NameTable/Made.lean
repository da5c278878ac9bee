import Firmware.Proofs.Identifier.SnakeCase
import Firmware.Proofs.NameTable.Origin
import Firmware.Proofs.NameTable.Requests
/-!
What names are made of.  A name in a resolved table has been chosen by a declaration, or is
a candidate made of what a waiting declaration suggests.  It was free when it was given out,
and hence is not reserved; and candidates made of a word are words.
-/

namespace Firmware

open NameTable

/-- Whether a declaration can have got a name: it has chosen it, or waits and the name is a
candidate made of what it suggests. -/
inductive Slot.Yields (slot : Slot) (name : String) : Prop
  | chosen (named : slot.chosen? = some name)
  | made (waits : slot.waits = true) (attempt : Nat)
      (made : name = candidate slot.suggestion attempt)

namespace NameTable

variable {table : NameTable} {path : Path} {name base type : String} {id : Identifier}
  {slots : List (Path × Slot)} {nodes : List Node} {isPointer : Bool}

theorem isWord_candidate (h : isWord base = true) (attempt : Nat) :
    isWord (candidate base attempt) = true := by
  obtain ⟨first, rest, hbase, hstart, hrest⟩ := isWord_eq_true_iff.mp h
  rw [candidate]
  split
  · exact h
  · refine isWord_eq_true_iff.mpr ⟨first, rest ++ '_' :: (attempt + 1).repr.toList, ?_, hstart, ?_⟩
    · rw [String.toList_append, String.toList_append, hbase, List.append_assoc]
      rfl
    · intro c hmem
      rcases List.mem_append.mp hmem with hbefore | hending
      · exact hrest c hbefore
      · rcases List.mem_cons.mp hending with rfl | hdigits
        · rfl
        · have hdigit : c.isDigit = true := Nat.isDigit_of_mem_toDigits (by omega) (by omega)
            (Nat.toList_repr ▸ hdigits)
          rw [isNamePart, Char.isAlphanum, hdigit, Bool.or_true, Bool.true_or]

/-- A location that asks for an identifier adds at most one under a candidate made of its
base. -/
theorem exists_candidate_of_allocateFor
    (hlookup : (table.allocateFor path base type isPointer).2.lookup? name = some id) :
    table.lookup? name = some id ∨ ∃ attempt, name = candidate base attempt := by
  cases hat : table.at? path with
  | some found =>
      rw [allocateFor_of_at? hat] at hlookup
      exact .inl hlookup
  | none =>
      rw [allocateFor_of_new hat, lookup?_entered] at hlookup
      split at hlookup
      · next heq =>
          obtain ⟨attempt, hattempt, _⟩ := table.exists_freeName_eq base
          exact .inr ⟨attempt, heq.symm.trans hattempt⟩
      · exact .inl hlookup

theorem exists_candidate_of_nameSlots (hlookup : (table.nameSlots slots).lookup? name = some id) :
    table.lookup? name = some id ∨ ∃ found ∈ slots, found.2.waits = true ∧
      ∃ attempt, name = candidate found.2.suggestion attempt := by
  induction slots generalizing table with
  | nil => exact .inl hlookup
  | cons first rest ih =>
      obtain ⟨path, slot⟩ := first
      rw [nameSlots_cons] at hlookup
      rcases ih hlookup with hbefore | ⟨found, hmem, horigin⟩
      · split at hbefore
        · next hwaits =>
            apply (exists_candidate_of_allocateFor hbefore).imp_right
            exact fun hmade => ⟨_, List.mem_cons_self, hwaits, hmade⟩
        · exact .inl hbefore
      · exact .inr ⟨found, .tail _ hmem, horigin⟩

/-- Where there was no identifier before, every name is that of a declaration. -/
theorem exists_yields_of_lookup? (hnew : ∀ name, table.lookup? name = none)
    (h : (table.resolveDeclarations nodes).problems = [])
    (hlookup : (table.resolveDeclarations nodes).table.lookup? name = some id) :
    ∃ found ∈ nodes.flatMap Node.slots, found.2.Yields name := by
  have hregisters := registers_of_ok h
  rcases exists_candidate_of_nameSlots hlookup with hregistered | ⟨found, hmem, hwaits, hmade⟩
  · rcases hregisters.lookup?_cases hregistered with hold | ⟨found, hmem, hchosen, _⟩
    · simp [hnew name] at hold
    · exact ⟨found, hmem, .chosen hchosen⟩
  · obtain ⟨attempt, hname⟩ := hmade
    exact ⟨found, hmem, .made hwaits attempt hname⟩

theorem isReserved_of_lookup?_resolveDeclarations (hnew : table.byName = [])
    (hlookup : (table.resolveDeclarations nodes).table.lookup? name = some id) :
    table.isReserved name = false := by
  have hserve : ∃ added, table.Adds added (table.resolveDeclarations nodes).table :=
    exists_adds_foldl_serve table [.resolve nodes]
  obtain ⟨added, hadds⟩ := hserve
  have hmem := Table.mem_of_get?_eq hlookup
  rw [hadds.byName, hnew, List.nil_append] at hmem
  obtain ⟨found, hadded, heq⟩ := List.mem_map.mp hmem
  obtain ⟨rfl, rfl⟩ := Prod.mk.inj heq
  have hfree := hadds.free found hadded
  rw [isTaken, Bool.or_eq_false_iff] at hfree
  exact hfree.2

end NameTable

namespace Slot

variable {slot : Slot} {name : String}

/-- A name that is not reserved may be chosen, unless a declaration has chosen it in spite of a
fault, or it is made of an explicit base that is no word. -/
theorem Yields.nameFault?_cases (h : slot.Yields name) (hfree : name ∉ reservedNames) :
    nameFault? name = none ∨ slot.chosen? = some name ∨
      ∃ base attempt, slot.waits = true ∧ slot.base = some base ∧ isWord base = false ∧
        name = candidate base attempt := by
  cases h with
  | chosen hchosen => exact .inr (.inl hchosen)
  | made hwaits attempt hname =>
      have haccepted : isWord slot.suggestion = true → nameFault? name = none := fun hword =>
        nameFault?_eq_none_iff.mpr ⟨hname ▸ isWord_candidate hword attempt, hfree⟩
      cases hbase : slot.base with
      | none =>
          refine .inl (haccepted ?_)
          rw [suggestion, hbase]
          exact isWord_baseName slot.type
      | some base =>
          have hsuggestion : slot.suggestion = base := by rw [suggestion, hbase, Option.getD_some]
          rw [hsuggestion] at hname haccepted
          cases hword : isWord base with
          | true => exact .inl (haccepted hword)
          | false => exact .inr (.inr ⟨base, attempt, hwaits, rfl, hword, hname⟩)

end Slot

end Firmware
