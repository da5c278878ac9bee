import Firmware.Identifier.Name
/-!
Words.  A word starts with a letter or an underscore and goes on with letters, digits and
underscores.  The names that may be chosen are the words that are not reserved.
-/

namespace Firmware

variable {name : String} {c : Char}

def isWord (name : String) : Bool :=
  name.toList.head?.any isNameStart && name.toList.all isNamePart

theorem isNamePart_of_isNameStart (h : isNameStart c = true) : isNamePart c = true := by
  simp only [isNameStart, isNamePart, Char.isAlphanum, Bool.or_eq_true] at h ⊢
  exact h.imp_left .inl

theorem isNameStart_of_isNamePart (h : isNamePart c = true) (hdigit : c.isDigit = false) :
    isNameStart c = true := by
  simpa [isNameStart, isNamePart, Char.isAlphanum, hdigit] using h

theorem isWord_eq_true_iff : isWord name = true ↔
    ∃ first rest, name.toList = first :: rest ∧ isNameStart first = true ∧
      ∀ c ∈ rest, isNamePart c = true := by
  rw [isWord]
  cases name.toList with
  | nil => simp
  | cons first rest =>
      have hpart : isNameStart first = true → isNamePart first = true := isNamePart_of_isNameStart
      simp only [List.head?_cons, Option.any_some, List.all_cons, Bool.and_eq_true,
        List.all_eq_true, List.cons.injEq]
      constructor
      · rintro ⟨hstart, _, hrest⟩
        exact ⟨first, rest, ⟨rfl, rfl⟩, hstart, hrest⟩
      · rintro ⟨_, _, ⟨rfl, rfl⟩, hstart, hrest⟩
        exact ⟨hstart, hpart hstart, hrest⟩

/-- The names that may be chosen are the words that are not reserved. -/
theorem nameFault?_eq_none_iff : nameFault? name = none ↔
    isWord name = true ∧ name ∉ reservedNames := by
  rw [isWord_eq_true_iff, nameFault?]
  cases name.toList with
  | nil => simp
  | cons first rest =>
      cases hstart : isNameStart first with
      | false => simp [hstart]
      | true =>
          cases hfind : rest.find? fun c => !isNamePart c with
          | some c =>
              have hodd := List.find?_some hfind
              have hmem := List.mem_of_find?_eq_some hfind
              grind
          | none =>
              have hrest := List.find?_eq_none.mp hfind
              grind

end Firmware
