import Firmware.Proofs.Double.Words
import Firmware.Proofs.Insertion
import Firmware.Proofs.Value.Content
import Firmware.Proofs.Value.Json
import Mathlib.Data.List.TakeWhile
/-!
Values that are written as JSON and read back.  The text of a duration is read as a binary64
number, so a duration comes back as the word nearest to the number nearest to it.
-/

namespace Firmware

namespace Text

variable {c : Char} {text : List Char}

theorem digit_bounds (h : c.isDigit = true) : 48 ≤ c.toNat ∧ c.toNat ≤ 57 := by
  simpa [Char.isDigit, UInt32.le_iff_toNat_le] using h

theorem toLower_of_isDigit (h : c.isDigit = true) : c.toLower = c := by
  refine dif_neg fun hupper => ?_
  have hlarge : 65 ≤ c.toNat := UInt32.le_iff_toNat_le.mp hupper.1
  have hbounds := digit_bounds h
  omega

theorem isAlpha_of_isDigit (h : c.isDigit = true) : c.isAlpha = false := by
  have hbounds := digit_bounds h
  refine Bool.or_eq_false_iff.mpr
    ⟨Bool.eq_false_iff.mpr fun hupper => ?_, Bool.eq_false_iff.mpr fun hlower => ?_⟩
  · have hlarge : 65 ≤ c.toNat := UInt32.le_iff_toNat_le.mp (of_decide_eq_true hupper).1
    omega
  · have hlarge : 97 ≤ c.toNat := UInt32.le_iff_toNat_le.mp
      (of_decide_eq_true (Bool.and_eq_true_iff.mp hlower).1)
    omega

theorem isBlank_of_isDigit (h : c.isDigit = true) : isBlank c = false := by
  have hbounds := digit_bounds h
  simp [isBlank, UInt32.le_iff_toNat_le, ← UInt32.toNat_inj]
  omega

theorem trimChars_eq_self (h : ∀ c ∈ text, isBlank c = false) : trimChars text = text := by
  have hdrop : ∀ list : List Char, (∀ c ∈ list, isBlank c = false) →
      list.dropWhile isBlank = list := by
    intro list hlist
    cases list with
    | nil => rfl
    | cons c rest => exact List.dropWhile_cons_of_neg (by simp [hlist c])
  rw [trimChars, hdrop text h, hdrop text.reverse fun c hmem => h c (List.mem_reverse.mp hmem),
    List.reverse_reverse]

theorem splitSign_of_digits (h : ∀ c ∈ text, c.isDigit = true) :
    splitSign text = (false, text) := by
  unfold splitSign
  split
  · exact absurd (h _ List.mem_cons_self) (by decide)
  · exact absurd (h _ List.mem_cons_self) (by decide)
  · rfl

theorem readDecimal?_of_digits (hne : text ≠ []) (h : ∀ c ∈ text, c.isDigit = true) :
    readDecimal? text = some ⟨digitsValue text, 0⟩ := by
  have htake : text.takeWhile Char.isDigit = text := List.takeWhile_eq_self_iff.mpr h
  have hdrop : text.dropWhile Char.isDigit = [] := List.dropWhile_eq_nil_iff.mpr h
  have hempty : text.isEmpty = false := by simpa using hne
  simp [readDecimal?, htake, hdrop, hempty, decimalOf]

/-- Digits are read as the number that is nearest to what they stand for. -/
theorem readDouble?_of_digits (hne : text ≠ []) (h : ∀ c ∈ text, c.isDigit = true) :
    readDouble? (String.ofList text) =
      some ((Decimal.mk (digitsValue text) 0).toDouble false) := by
  have hlower : text.map Char.toLower = text :=
    (List.map_congr_left fun c hmem => toLower_of_isDigit (h c hmem)).trans (List.map_id text)
  have hword : ∀ word : String, (∀ c ∈ word.toList, c.isDigit = false) →
      (text == word.toList) = false := by
    intro word hletters
    obtain ⟨c, rest, rfl⟩ := List.exists_cons_of_ne_nil hne
    rw [beq_eq_false_iff_ne]
    intro hsame
    have hdigit := h c List.mem_cons_self
    rw [hletters c (hsame ▸ List.mem_cons_self)] at hdigit
    contradiction
  rw [readDouble?, String.toList_ofList, splitSign_of_digits h]
  dsimp only
  rw [hlower, hword "inf" (by simp), hword "infinity" (by simp), hword "nan" (by simp),
    readDecimal?_of_digits hne h]
  rfl

end Text

/-- A word is read back from the integer that it is. -/
theorem Text.word?_toInt (word : Int64) : word? word.toInt = some word := by
  rw [word?, if_pos ⟨word.minValue_le_toInt, word.toInt_le⟩, Int64.ofInt_toInt]

/-- A whole number of at most twenty digits is read as the number nearest to it. -/
theorem Decimal.toDouble_of_whole {number : Nat} (h : number < 2 ^ 64) :
    (Decimal.mk number 0).toDouble false = .ofInt number := by
  by_cases hzero : number = 0
  · subst hzero
    decide +kernel
  · have hwidth : width number ≤ 20 :=
      (Nat.length_toDigits_le_iff (by decide) (by decide)).mpr (h.trans (by decide))
    have hnear : ¬ (number = 0 ∨ (width number : Int) + 0 < -400) := by omega
    have hfar : ¬ (400 : Int) < (width number : Int) + 0 := by omega
    rw [toDouble]
    dsimp only
    rw [if_neg hnear, if_neg hfar, if_pos (Int.le_refl 0), Double.ofInt, Int.natAbs_natCast,
      decide_eq_false (by omega)]
    exact congrArg (Double.nearest false · 1) (Nat.mul_one number)

namespace Value

/-- A duration is read back from its text as the word nearest to the number nearest to it. -/
theorem durationOfText_repr (milliseconds : UInt64) :
    durationOfText (toString milliseconds.toNat ++ "ms") =
      .ok (Double.nearestWord milliseconds) := by
  have hdigits : ∀ c ∈ Nat.toDigits 10 milliseconds.toNat, c.isDigit = true := fun c hmem =>
    Nat.isDigit_of_mem_toDigits (by decide) (by decide) hmem
  have htext : (toString milliseconds.toNat ++ "ms").toList =
      Nat.toDigits 10 milliseconds.toNat ++ ['m', 's'] := by
    rw [String.toList_append]
    exact congrArg (· ++ ['m', 's']) Nat.toList_repr
  have hvalue : Text.digitsValue (Nat.toDigits 10 milliseconds.toNat) = milliseconds.toNat :=
    Nat.ofDigitChars_ten_toDigits
  have hne : Nat.toDigits 10 milliseconds.toNat ≠ [] := Nat.toDigits_ne_nil
  obtain ⟨found, hfound, _⟩ := Double.exists_ofInt_word milliseconds
  have hread := Text.readDouble?_of_digits hne hdigits
  rw [hvalue, Decimal.toDouble_of_whole milliseconds.toNat_lt, hfound] at hread
  generalize Nat.toDigits 10 milliseconds.toNat = digits at *
  have hletters : ∀ c ∈ digits, (!c.isAlpha) = true := fun c hmem => by
    rw [Text.isAlpha_of_isDigit (hdigits c hmem)]
    rfl
  have hblanks : ∀ c ∈ digits ++ ['m', 's'], Text.isBlank c = false :=
    List.forall_mem_append.mpr
      ⟨fun c hmem => Text.isBlank_of_isDigit (hdigits c hmem), by simp [Text.isBlank]⟩
  have hpositive : (Double.finite false found).lt (.zero false) = false :=
    decide_eq_false (Int.not_lt.mpr (Int.natCast_nonneg found.val))
  have hunit : Table.get? timeUnits (String.ofList ['m', 's']) = some (.ofInt 1) := by
    rw [timeUnits, Table.get?_cons, if_neg (by decide), Table.get?_cons, if_pos (by decide)]
  rw [durationOfText, htext, Text.trimChars_eq_self hblanks,
    List.takeWhile_append_of_pos hletters, List.dropWhile_append_of_pos hletters,
    List.takeWhile_cons_of_neg (by decide), List.dropWhile_cons_of_neg (by decide),
    List.append_nil, Text.trimChars_eq_self fun c hmem => hblanks c (List.mem_append_left _ hmem),
    Text.trimChars_eq_self (by simp [Text.isBlank]), hread]
  dsimp only
  rw [if_neg (by decide), hpositive, hunit]
  dsimp only
  rw [Double.mul_ofInt_one, Double.nearestWord, hfound]
  rfl

/-- Whether a value has a JSON form of its own: it is without parts, and neither an identifier
nor a duration. -/
def isOwnForm : Value → Bool
  | .mapping _ _ | .sequence _ | .identifier _ | .duration _ => false
  | _ => true

theorem ofJson_toJson {value : Value} (h : value.isOwnForm = true) (path : Path) :
    ofJson path value.toJson = value := by
  cases value with
  | mapping | sequence | identifier | duration => simp [isOwnForm] at h
  | integer word => rw [toJson, ofJson, Text.word?_toInt]
  | null | bool | float | text => rfl

mutual

def durations : Value → List UInt64
  | .mapping _ entries => entryDurations entries
  | .sequence items => itemDurations items
  | .duration milliseconds => [milliseconds]
  | _ => []
termination_by structural value => value

def itemDurations : List Value → List UInt64
  | [] => []
  | item :: rest => item.durations ++ itemDurations rest
termination_by structural items => items

def entryDurations : List (String × Value) → List UInt64
  | [] => []
  | (_, value) :: rest => value.durations ++ entryDurations rest
termination_by structural entries => entries

end

mutual

/-- A value with every duration, at any depth, as it is read back from its text. -/
def recounted : Value → Value
  | .mapping path entries => .mapping path (entriesRecounted entries)
  | .sequence items => .sequence (itemsRecounted items)
  | .duration milliseconds => .duration (Double.nearestWord milliseconds)
  | .null => .null
  | .bool value => .bool value
  | .integer value => .integer value
  | .float value => .float value
  | .text value => .text value
  | .identifier slot => .identifier slot
termination_by structural value => value

def itemsRecounted : List Value → List Value
  | [] => []
  | item :: rest => item.recounted :: itemsRecounted rest
termination_by structural items => items

def entriesRecounted : List (String × Value) → List (String × Value)
  | [] => []
  | (key, value) :: rest => (key, value.recounted) :: entriesRecounted rest
termination_by structural entries => entries

end

theorem recounted_eq_self {value : Value} (h : value.isOwnForm = true) :
    value.recounted = value := by
  cases value with
  | mapping | sequence | identifier | duration => simp [isOwnForm] at h
  | null | bool | integer | float | text => rfl

theorem itemsRecounted_eq_map (items : List Value) :
    itemsRecounted items = items.map recounted := by
  induction items with
  | nil => rfl
  | cons item rest ih => rw [itemsRecounted, ih, List.map_cons]

theorem entriesRecounted_eq_mapValues (entries : List (String × Value)) :
    entriesRecounted entries = Table.mapValues (fun _ => recounted) entries := by
  induction entries with
  | nil => rfl
  | cons entry rest ih =>
      rw [entriesRecounted, ih]
      rfl

mutual

/-- The content of a value is read back exactly if all its durations are. -/
theorem content_recounted_eq_iff : ∀ value : Value, value.recounted.content = value.content ↔
    ∀ milliseconds ∈ value.durations, Double.nearestWord milliseconds = milliseconds
  | .mapping _ entries => by
      simpa [recounted, content, durations] using entriesContent_recounted_eq_iff entries
  | .sequence items => by
      simpa [recounted, content, durations] using itemsContent_recounted_eq_iff items
  | .duration _ => by simp [recounted, content, durations]
  | .null | .bool _ | .integer _ | .float _ | .text _ | .identifier _ => by
      simp [recounted, durations]

theorem itemsContent_recounted_eq_iff : ∀ items : List Value,
    itemsContent (itemsRecounted items) = itemsContent items ↔
      ∀ milliseconds ∈ itemDurations items, Double.nearestWord milliseconds = milliseconds
  | [] => by simp [itemsRecounted, itemDurations]
  | item :: rest => by
      rw [itemsRecounted, itemsContent, itemsContent, itemDurations, List.forall_mem_append,
        List.cons.injEq, content_recounted_eq_iff item, itemsContent_recounted_eq_iff rest]

theorem entriesContent_recounted_eq_iff : ∀ entries : List (String × Value),
    entriesContent (entriesRecounted entries) = entriesContent entries ↔
      ∀ milliseconds ∈ entryDurations entries, Double.nearestWord milliseconds = milliseconds
  | [] => by simp [entriesRecounted, entryDurations]
  | (key, value) :: rest => by
      rw [entriesRecounted, entriesContent, entriesContent, entryDurations,
        List.forall_mem_append, List.cons.injEq, Prod.mk.injEq, content_recounted_eq_iff value,
        entriesContent_recounted_eq_iff rest]
      simp

end

end Value

/-- A node with every duration, at any depth, as it is read back from its text. -/
def Node.recounted (node : Node) : Node := ⟨node.path, Value.entriesRecounted node.entries⟩

theorem Node.keys_recounted (node : Node) : node.recounted.keys = node.keys := by
  rw [keys, recounted, Value.entriesRecounted_eq_mapValues]
  exact Table.keys_mapValues (fun _ => Value.recounted) node.entries

theorem Node.get?_recounted (node : Node) (key : String) :
    node.recounted.get? key = (node.get? key).map Value.recounted := by
  rw [get?, recounted, Value.entriesRecounted_eq_mapValues]
  exact Table.get?_mapValues (fun _ => Value.recounted) node.entries key

end Firmware
