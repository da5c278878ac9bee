import Firmware.Identifier.BaseName
import Firmware.Proofs.Identifier.Words
/-!
Names in snake case.  They are written with lower-case letters, digits and underscores, start with
no digit and have no two underscores in a row.  What a type suggests for its variables is such a
name, whatever characters the type is written with, and a name in snake case suggests itself.
-/

namespace Firmware

/-- A name of lower-case letters, digits and underscores that starts with no digit and has no two
underscores in a row. -/
structure IsSnakeCase (name : String) : Prop where
  ne_empty : name ≠ ""
  characters : ∀ c ∈ name.toList, c.isLower = true ∨ c.isDigit = true ∨ c = '_'
  no_digit_first : ∀ c, name.toList.head? = some c → c.isDigit = false
  no_double_underscore : ¬ ['_', '_'] <:+: name.toList

/-- What may follow in a name in snake case.  The flag tells whether an underscore stands right
before it, which keeps another one from following. -/
inductive SnakeRest : Bool → List Char → Prop
  | nil {separated : Bool} : SnakeRest separated []
  | letter {separated : Bool} {c : Char} {rest : List Char}
      (small : c.isLower = true ∨ c.isDigit = true) (later : SnakeRest false rest) :
      SnakeRest separated (c :: rest)
  | underscore {rest : List Char} (later : SnakeRest true rest) : SnakeRest false ('_' :: rest)

variable {c : Char} {separated : Bool} {text current : List Char} {name : String}

theorem isUpper_eq_true_iff : c.isUpper = true ↔ 65 ≤ c.toNat ∧ c.toNat ≤ 90 := by
  have hclass : c.isUpper = decide (65 ≤ c.toNat ∧ c.toNat ≤ 90) := rfl
  rw [hclass, decide_eq_true_iff]

theorem isLower_eq_true_iff : c.isLower = true ↔ 97 ≤ c.toNat ∧ c.toNat ≤ 122 := by
  have hclass : c.isLower = (decide (97 ≤ c.toNat) && decide (c.toNat ≤ 122)) := rfl
  rw [hclass, Bool.and_eq_true, decide_eq_true_iff, decide_eq_true_iff]

theorem isAlphanum_eq (c : Char) : c.isAlphanum = (c.isUpper || c.isLower || c.isDigit) := rfl

theorem isLower_toLower_of_isUpper (h : c.isUpper = true) : c.toLower.isLower = true := by
  have hlower : c.toLower.val = c.val + 32 := congrArg Char.val (dif_pos (of_decide_eq_true h))
  have hbound := isUpper_eq_true_iff.mp h
  have hnumber : c.toLower.toNat = (c.toNat + 32) % 2 ^ 32 := by
    rw [Char.toNat, hlower, UInt32.toNat_add]
    rfl
  rw [isLower_eq_true_iff, hnumber]
  omega

/-- What is written for a text, whatever stands before it, may follow there. -/
theorem snakeRest_snakeCase (previous : Option Char) (separated : Bool) (text : List Char) :
    SnakeRest separated (snakeCase previous separated text) := by
  induction text generalizing previous separated with
  | nil => exact .nil
  | cons c rest ih =>
      rw [snakeCase]
      cases hupper : c.isUpper with
      | true =>
          have hsmall : c.toLower.isLower = true := isLower_toLower_of_isUpper hupper
          have hletter : ∀ separated,
              SnakeRest separated (c.toLower :: snakeCase (some c) false rest) :=
            fun _ => .letter (.inl hsmall) (ih (some c) false)
          -- An underscore goes before the capital only if none stands there.
          cases separated with
          | true => simpa using hletter true
          | false =>
              rw [if_pos rfl]
              split
              · exact .underscore (hletter true)
              · exact hletter false
      | false =>
          rw [if_neg Bool.false_ne_true]
          cases hkept : c.isAlphanum with
          | true =>
              have hsmall : c.isLower = true ∨ c.isDigit = true := by
                simpa [isAlphanum_eq, hupper] using hkept
              exact .letter hsmall (ih (some c) false)
          | false =>
              cases separated with
              | true => exact ih (some c) true
              | false => exact .underscore (ih (some c) true)

theorem isUpper_eq_false_of_small (h : c.isLower = true ∨ c.isDigit = true) :
    c.isUpper = false := by
  rw [← Bool.not_eq_true, isUpper_eq_true_iff]
  simp only [isLower_eq_true_iff, Char.isDigit_iff_toNat, Char.reduceToNat] at h
  omega

theorem ne_underscore_of_small (h : c.isLower = true ∨ c.isDigit = true) : c ≠ '_' := by
  rintro rfl
  revert h
  decide

/-- What may follow is written as it stands. -/
theorem SnakeRest.snakeCase_eq (h : SnakeRest separated text) (previous : Option Char) :
    snakeCase previous separated text = text := by
  induction h generalizing previous with
  | nil => rfl
  | @letter _ c rest small _ ih =>
      have hupper := isUpper_eq_false_of_small small
      have hkept : c.isAlphanum = true := by
        simpa [isAlphanum_eq, hupper] using small
      rw [snakeCase, hupper, if_neg Bool.false_ne_true, if_pos hkept, ih]
  | underscore _ ih =>
      rw [snakeCase, ih]
      rfl

theorem double_underscore_infix_cons_iff : ['_', '_'] <:+: c :: text ↔
    (c = '_' ∧ text.head? = some '_') ∨ ['_', '_'] <:+: text := by
  rw [List.infix_cons_iff, List.cons_prefix_cons, List.singleton_prefix_iff_head?_eq_some,
    eq_comm (a := c)]

/-- What may follow is told by its characters and by where underscores stand. -/
theorem snakeRest_iff : SnakeRest separated text ↔
    (∀ c ∈ text, c.isLower = true ∨ c.isDigit = true ∨ c = '_') ∧
      ¬ ['_', '_'] <:+: text ∧ (separated = true → text.head? ≠ some '_') := by
  constructor
  · intro h
    induction h with
    | nil => simp
    | letter small _ ih =>
        have hne := ne_underscore_of_small small
        obtain ⟨hsmall, hapart, _⟩ := ih
        refine ⟨List.forall_mem_cons.mpr ⟨small.imp_right .inl, hsmall⟩, ?_, fun _ => ?_⟩
        · rw [double_underscore_infix_cons_iff]
          exact not_or.mpr ⟨fun h => hne h.1, hapart⟩
        · exact fun h => hne (Option.some.inj h)
    | underscore _ ih =>
        obtain ⟨hsmall, hapart, hhead⟩ := ih
        refine ⟨List.forall_mem_cons.mpr ⟨.inr (.inr rfl), hsmall⟩, ?_, nofun⟩
        rw [double_underscore_infix_cons_iff]
        exact not_or.mpr ⟨fun h => hhead rfl h.2, hapart⟩
  · rintro ⟨hsmall, hapart, hhead⟩
    induction text generalizing separated with
    | nil => exact .nil
    | cons c rest ih =>
        obtain ⟨hc, hrest⟩ := List.forall_mem_cons.mp hsmall
        rw [double_underscore_infix_cons_iff, not_or] at hapart
        rcases or_assoc.mpr hc with hletter | rfl
        · exact .letter hletter (ih hrest hapart.2 nofun)
        · cases separated with
          | true => exact absurd rfl (hhead rfl)
          | false => exact .underscore (ih hrest hapart.2 fun _ h => hapart.1 ⟨rfl, h⟩)

theorem isSnakeCase_iff : IsSnakeCase name ↔
    ∃ first rest, name.toList = first :: rest ∧ first.isDigit = false ∧
      SnakeRest false (first :: rest) := by
  constructor
  · intro h
    cases hname : name.toList with
    | nil => exact absurd (String.toList_eq_nil_iff.mp hname) h.ne_empty
    | cons first rest =>
        have hrest : SnakeRest false name.toList :=
          snakeRest_iff.mpr ⟨h.characters, h.no_double_underscore, nofun⟩
        exact ⟨first, rest, rfl, h.no_digit_first first (by rw [hname]; rfl), hname ▸ hrest⟩
  · rintro ⟨first, rest, hname, hdigit, hrest⟩
    obtain ⟨hsmall, hapart, _⟩ := snakeRest_iff.mp hrest
    rw [← hname] at hsmall hapart
    refine ⟨?_, hsmall, fun c hhead => ?_, hapart⟩
    · rintro rfl
      contradiction
    · rw [hname] at hhead
      exact Option.some.inj hhead ▸ hdigit

theorem IsSnakeCase.isWord (h : IsSnakeCase name) : isWord name = true := by
  obtain ⟨first, rest, hname, hdigit, _⟩ := isSnakeCase_iff.mp h
  have hpart : ∀ c ∈ name.toList, isNamePart c = true := by
    intro c hmem
    rcases h.characters c hmem with hlower | hdigit | rfl
    · simp [isNamePart, isAlphanum_eq, hlower]
    · simp [isNamePart, isAlphanum_eq, hdigit]
    · rfl
  rw [hname, List.forall_mem_cons] at hpart
  exact isWord_eq_true_iff.mpr
    ⟨first, rest, hname, isNameStart_of_isNamePart hpart.1 hdigit, hpart.2⟩

theorem isSnakeCase_baseName (type : String) : IsSnakeCase (baseName type) := by
  rw [isSnakeCase_iff, baseName]
  have hrest := snakeRest_snakeCase none false (Text.lastSegment type.toList)
  cases hname : snakeCase none false (Text.lastSegment type.toList) with
  | nil => exact ⟨'_', [], by simp, rfl, .underscore .nil⟩
  | cons first rest =>
      rw [hname] at hrest
      cases hdigit : first.isDigit with
      | false => exact ⟨first, rest, by simp [hdigit], hdigit, hrest⟩
      | true =>
          -- The underscore that goes before a digit has no other one after it.
          have hafter : SnakeRest true (first :: rest) := by
            cases hrest with
            | letter small later => exact .letter small later
            | underscore => contradiction
          exact ⟨'_', first :: rest, by simp [hdigit], rfl, .underscore hafter⟩

theorem isWord_baseName (type : String) : isWord (baseName type) = true :=
  (isSnakeCase_baseName type).isWord

theorem Text.lastSegmentFrom_of_not_mem (h : ':' ∉ text) :
    Text.lastSegmentFrom current text = current := by
  induction text with
  | nil => rfl
  | cons c rest ih =>
      rw [List.mem_cons, not_or] at h
      rw [Text.lastSegmentFrom, ih h.2]
      exact fun _ hc _ => h.1 hc.symm

theorem baseName_eq_self_iff : baseName name = name ↔ IsSnakeCase name := by
  refine ⟨fun h => h ▸ isSnakeCase_baseName name, fun h => ?_⟩
  obtain ⟨first, rest, hname, hdigit, hrest⟩ := isSnakeCase_iff.mp h
  have hcolon : ':' ∉ name.toList := fun hmem => absurd (h.characters ':' hmem) (by decide)
  have hwritten : snakeCase none false (Text.lastSegment name.toList) = first :: rest := by
    rw [Text.lastSegment, Text.lastSegmentFrom_of_not_mem hcolon, hname, hrest.snakeCase_eq]
  have hkept : baseName name = String.ofList (first :: rest) := by
    rw [baseName, hwritten]
    simp [hdigit]
  rw [hkept, ← hname, String.ofList_toList]

/-- What a type suggests for its variables is a name in snake case, which may be chosen unless it
is reserved, and suggests itself, as every name in snake case does. -/
theorem baseName_in_snake_case (type : String) :
    IsSnakeCase (baseName type) ∧
      (nameFault? (baseName type) = none ↔ baseName type ∉ reservedNames) ∧
      baseName (baseName type) = baseName type ∧
      ∀ name, baseName name = name ↔ IsSnakeCase name := by
  have hsnake := isSnakeCase_baseName type
  refine ⟨hsnake, ?_, baseName_eq_self_iff.mpr hsnake, fun _ => baseName_eq_self_iff⟩
  rw [nameFault?_eq_none_iff, isWord_baseName]
  exact and_iff_right rfl

/-- Acronyms, underscores of the type itself and characters beyond ASCII; and a reserved name. -/
example : baseName "ext::2ndHTTPPort__Ünit:x" = "_2nd_http_port_nit_x" ∧
    nameFault? (baseName "ext::Loop") = some .reserved := by decide

end Firmware
