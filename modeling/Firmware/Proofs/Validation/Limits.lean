import Firmware.Proofs.Validation.Idempotence
import Firmware.Proofs.Validation.Places
import Firmware.Value.Json
/-!
Numbers within limits.  Every integer of a validated node is within the limits of its field.
A limit refuses a floating-point number only by a comparison that holds, so one that is no
number passes; every other one is within its limits.
-/

namespace Firmware

open Validation

namespace Double

/-- Numeric order with equality; false as soon as one side is not a number. -/
def le (left right : Double) : Bool :=
  match left.position?, right.position? with
  | some a, some b => decide (a ≤ b)
  | _, _ => false

theorem exists_position {number : Double} (h : number ≠ .nan) :
    ∃ position, number.position? = some position := by
  cases number with
  | nan => exact absurd rfl h
  | infinite negative => exact ⟨_, rfl⟩
  | finite negative rank => exact ⟨_, rfl⟩

/-- Of two numbers, one is at most the other exactly if it is not greater. -/
theorem le_eq_not_lt {left right : Double} (hleft : left ≠ .nan) (hright : right ≠ .nan) :
    left.le right = !right.lt left := by
  obtain ⟨a, ha⟩ := exists_position hleft
  obtain ⟨b, hb⟩ := exists_position hright
  simp only [le, lt, ha, hb]
  by_cases h : a ≤ b
  · simp [h]
  · simp [h, Int.not_le.mp h]

theorem nan_le (number : Double) : nan.le number = false := rfl

end Double

namespace Kind

variable {value : Value}

theorem Normal.exists_convert {kind : Kind} (hsimple : kind.isSimple = true)
    (h : kind.Normal value) : ∃ kept, kind.convert .root "" value = .ok kept ∧
      kept.content = value.content := by
  cases h with
  | simple _ _ hkept => exact Except.map_eq_ok (hkept .root "")
  | sequenceOf | nested => simp [isSimple] at hsimple

theorem Normal.integer_within {min max : Int64} (h : (Kind.integer min max).Normal value) :
    ∃ number, value = .integer number ∧ min ≤ number ∧ number ≤ max := by
  obtain ⟨kept, hconvert, hsame⟩ := h.exists_convert rfl
  obtain ⟨number, rfl, hwithin⟩ := convert_integer_eq_ok hconvert
  exact ⟨number, Value.eq_of_content_eq rfl hsame, hwithin⟩

/-- A normal floating-point number is within its limits exactly if it is a number. -/
theorem Normal.float_within {min max : Double} (h : (Kind.float min max).Normal value)
    (hmin : min ≠ .nan) (hmax : max ≠ .nan) : ∃ number, value = .float number ∧
      (min.le number = true ∧ number.le max = true ↔ number ≠ .nan) := by
  obtain ⟨kept, hconvert, hsame⟩ := h.exists_convert rfl
  obtain ⟨number, rfl, hlower, hupper⟩ := convert_float_eq_ok hconvert
  refine ⟨number, Value.eq_of_content_eq rfl hsame, ?_, fun hnumber => ?_⟩
  · rintro ⟨_, hle⟩ rfl
    rw [Double.nan_le] at hle
    contradiction
  · rw [Double.le_eq_not_lt hmin hnumber, Double.le_eq_not_lt hnumber hmax, hlower, hupper]
    exact ⟨rfl, rfl⟩

end Kind

/-- Every integer of a validated node is within the limits of its kind, and so is every
floating-point number unless it is none: whatever the values it was made of, and at every
depth. -/
theorem Schema.numbers_within_limits {schema : Schema} {path : Path} {raw node : Node}
    (hcomposed : schema.Composed) (hcustom : schema.isCustomFree = true)
    (h : schema.validate path raw = .ok node) :
    (∀ steps min max value,
      (Kind.nested schema).Leads node.toValue steps (.integer min max) value →
        ∃ number, value = .integer number ∧ min ≤ number ∧ number ≤ max) ∧
      ∀ steps min max value,
        (Kind.nested schema).Leads node.toValue steps (.float min max) value →
          min ≠ .nan → max ≠ .nan → ∃ number, value = .float number ∧
            (min.le number = true ∧ number.le max = true ↔ number ≠ .nan) := by
  have hnormal : (Kind.nested schema).Normal node.toValue := by
    refine hcomposed.sound.normal (fun check hmem => ?_) h
    rw [schema.checks_eq_nil hcustom] at hmem
    exact absurd hmem List.not_mem_nil
  exact ⟨fun _ _ _ _ hleads => (hleads.normal hnormal).integer_within,
    fun _ _ _ _ hleads hmin hmax => (hleads.normal hnormal).float_within hmin hmax⟩

def gain : Kind := .float (.zero false) (.limit false)

/-- Speakers with a gain, and with the volumes that they can be switched to. -/
def speakerSchema : Schema :=
  ⟨"speaker", [("gain", .mandatory gain),
    ("volumes", .withDefault (.sequenceOf (.integer 1 10)) (.sequence [.integer 5]))], []⟩

theorem composed_speaker : speakerSchema.Composed := by
  have hmade : (Schema.empty "speaker").extend [("gain", .mandatory gain),
      ("volumes", .withDefault (.sequenceOf (.integer 1 10)) (.text "5"))] =
      .ok speakerSchema := by
    with_unfolding_all rfl
  refine .extend (.empty "speaker") ?_ hmade
  simp only [List.mem_cons, List.not_mem_nil, or_false]
  rintro _ (rfl | rfl)
  · exact .simple rfl
  · exact .sequenceOf (.simple rfl)

/-- The gain of a speaker and the volume it has by default are within their limits. -/
theorem speaker_within_limits :
    ∃ node number volume,
      speakerSchema.validate .root ⟨.root, [("gain", .float (.limit false))]⟩ = .ok node ∧
      (Kind.nested speakerSchema).Leads node.toValue [.key "gain"] gain (.float number) ∧
      (Kind.nested speakerSchema).Leads node.toValue [.key "volumes", .index 0] (.integer 1 10)
        (.integer volume) ∧
      ((Double.zero false).le number = true ∧ number.le (.limit false) = true) ∧
      1 ≤ volume ∧ volume ≤ 10 := by
  have hvalid : speakerSchema.validate .root ⟨.root, [("gain", .float (.limit false))]⟩ =
      .ok ⟨.root, [("gain", .float (.limit false)), ("volumes", .sequence [.integer 5])]⟩ := rfl
  have hgain : (Kind.nested speakerSchema).Leads
      (.mapping .root [("gain", .float (.limit false)), ("volumes", .sequence [.integer 5])])
      [.key "gain"] gain (.float (.limit false)) :=
    .field List.mem_cons_self rfl (.here _ _)
  have hvolume : (Kind.nested speakerSchema).Leads
      (.mapping .root [("gain", .float (.limit false)), ("volumes", .sequence [.integer 5])])
      [.key "volumes", .index 0] (.integer 1 10) (.integer 5) :=
    .field (.tail _ List.mem_cons_self) rfl (.item rfl (.here _ _))
  obtain ⟨hintegers, hfloats⟩ := Schema.numbers_within_limits composed_speaker rfl hvalid
  obtain ⟨volume, hsame, hwithin⟩ := hintegers _ _ _ _ hvolume
  obtain ⟨number, hnumber, hbounds⟩ := hfloats _ _ _ _ hgain (by decide) (by decide)
  obtain rfl := Value.float.inj hnumber
  obtain rfl := Value.integer.inj hsame
  exact ⟨_, _, _, hvalid, hgain, hvolume, hbounds.mpr (by decide), hwithin⟩

/-- A gain that is written as not-a-number is stored, and is not within its limits. -/
theorem speaker_takes_nan :
    speakerSchema.Composed ∧ speakerSchema.isCustomFree = true ∧ ∃ raw node number,
      Node.ofJson? .root (.object [("gain", .text "NaN")]) = some raw ∧
      speakerSchema.validate .root raw = .ok node ∧
      (Kind.nested speakerSchema).Leads node.toValue [.key "gain"] gain (.float number) ∧
      ¬ ((Double.zero false).le number = true ∧ number.le (.limit false) = true) := by
  have hvalid : speakerSchema.validate .root ⟨.root, [("gain", .text "NaN")]⟩ =
      .ok ⟨.root, [("gain", .float .nan), ("volumes", .sequence [.integer 5])]⟩ := by
    with_unfolding_all rfl
  exact ⟨composed_speaker, rfl, _, _, .nan, rfl, hvalid,
    .field List.mem_cons_self rfl (.here _ _), by decide⟩

end Firmware
