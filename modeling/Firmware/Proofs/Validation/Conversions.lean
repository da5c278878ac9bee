import Firmware.Proofs.Double.Nearness
import Firmware.Proofs.Validation.Fields
import Mathlib.Data.List.TakeWhile
/-!
What numbers become when they are converted.  An integer kind takes floating-point numbers, and
a duration is written as an amount and a unit.  Both are stored as words, and a value past all
words is stored as the word at that end of their range.
-/

namespace Firmware

namespace Text

variable {text chars digits whole fraction : List Char} {exact : ℚ}

/-- A list of decimal digits, with or without a point among them, and its value. -/
inductive IsNumeral : List Char → ℚ → Prop
  | whole {digits : List Char} (nonempty : digits ≠ [])
      (digits_all : ∀ c ∈ digits, c.isDigit = true) : IsNumeral digits (digitsValue digits)
  | point {whole fraction : List Char} (nonempty : whole ++ fraction ≠ [])
      (digits_all : ∀ c ∈ whole ++ fraction, c.isDigit = true) :
      IsNumeral (whole ++ '.' :: fraction)
        (digitsValue (whole ++ fraction) / 10 ^ fraction.length)

/-- An amount, which is a numeral with or without a sign, and its value. -/
inductive IsAmount : List Char → ℚ → Prop
  | unsigned {chars : List Char} {value : ℚ} (numeral : IsNumeral chars value) :
      IsAmount chars value
  | plus {chars : List Char} {value : ℚ} (numeral : IsNumeral chars value) :
      IsAmount ('+' :: chars) value
  | minus {chars : List Char} {value : ℚ} (numeral : IsNumeral chars value) :
      IsAmount ('-' :: chars) (-value)

/-- The units of time with their exact lengths in milliseconds. -/
def unitLengths : Table String ℚ :=
  [("us", 1 / 1000), ("ms", 1), ("s", 1000), ("sec", 1000), ("min", 60000), ("h", 3600000),
    ("d", 86400000)]

/-- A duration, which is an amount and a unit with or without blanks around them, and its exact
length in milliseconds. -/
inductive IsDuration (text : String) : ℚ → Prop
  | intro {before amount between after : List Char} {unit : String} {value length : ℚ}
      (written : text.toList = before ++ amount ++ between ++ unit.toList ++ after)
      (blanks : ∀ c ∈ before ++ between ++ after, isBlank c = true)
      (number : IsAmount amount value) (listed : (unit, length) ∈ unitLengths) :
      IsDuration text (value * length)

theorem exists_eq_append_trimChars (text : List Char) :
    ∃ before after, text = before ++ trimChars text ++ after ∧
      ∀ c ∈ before ++ after, isBlank c = true := by
  have hrest := List.takeWhile_append_dropWhile (p := isBlank)
    (l := (text.dropWhile isBlank).reverse)
  refine ⟨text.takeWhile isBlank, ((text.dropWhile isBlank).reverse.takeWhile isBlank).reverse,
    ?_, fun c hmem => ?_⟩
  · rw [trimChars, List.append_assoc, ← List.reverse_append, hrest, List.reverse_reverse,
      List.takeWhile_append_dropWhile]
  · rcases List.mem_append.mp hmem with hfirst | hlast
    · exact List.mem_takeWhile_imp hfirst
    · exact List.mem_takeWhile_imp (List.mem_reverse.mp hlast)

/-- Without letters nothing can follow the digits of a decimal. -/
theorem eq_nil_of_exponent {rest : List Char} {whole fraction : List Char} {decimal : Decimal}
    (h : (match rest with
      | [] => some (decimalOf whole fraction 0)
      | c :: rest =>
          if c == 'e' || c == 'E' then (readInt? rest).map (decimalOf whole fraction)
          else none) = some decimal)
    (hletters : ∀ c ∈ rest, c.isAlpha = false) :
    rest = [] ∧ decimal = decimalOf whole fraction 0 := by
  cases rest with
  | nil => exact ⟨rfl, (Option.some.inj h).symm⟩
  | cons c tail =>
      have halpha := hletters c List.mem_cons_self
      have hnone : (c == 'e' || c == 'E') = false := by
        by_contra hexponent
        rw [Bool.not_eq_false, Bool.or_eq_true, beq_iff_eq, beq_iff_eq] at hexponent
        rcases hexponent with rfl | rfl <;> contradiction
      simp [hnone] at h

/-- A decimal without letters is a numeral. -/
theorem isNumeral_of_readDecimal? {decimal : Decimal} (h : readDecimal? text = some decimal)
    (hletters : ∀ c ∈ text, c.isAlpha = false) :
    ∃ digits places : Nat, decimal = ⟨digits, -places⟩ ∧
      IsNumeral text (digits / 10 ^ places) := by
  have hsplit := List.takeWhile_append_dropWhile (p := Char.isDigit) (l := text)
  have hwhole : ∀ c ∈ text.takeWhile Char.isDigit, c.isDigit = true :=
    fun _ => List.mem_takeWhile_imp
  unfold readDecimal? at h
  generalize text.takeWhile Char.isDigit = whole at *
  generalize text.dropWhile Char.isDigit = rest at *
  subst hsplit
  rw [List.forall_mem_append] at hletters
  dsimp only at h
  split at h
  · next tail =>
      have htail := List.takeWhile_append_dropWhile (p := Char.isDigit) (l := tail)
      have hfraction : ∀ c ∈ tail.takeWhile Char.isDigit, c.isDigit = true :=
        fun _ => List.mem_takeWhile_imp
      dsimp only at h
      generalize tail.takeWhile Char.isDigit = fraction at *
      generalize tail.dropWhile Char.isDigit = last at *
      subst htail
      split at h
      · simp at h
      · next hdigits =>
          obtain ⟨rfl, rfl⟩ := eq_nil_of_exponent h
            fun c hmem => hletters.2 c (.tail _ (List.mem_append_right _ hmem))
          refine ⟨digitsValue (whole ++ fraction), fraction.length, by simp [decimalOf], ?_⟩
          rw [List.append_nil]
          exact .point (by simpa using hdigits)
            (List.forall_mem_append.mpr ⟨hwhole, hfraction⟩)
  · dsimp only at h
    split at h
    · simp at h
    · next hdigits =>
        obtain ⟨rfl, rfl⟩ := eq_nil_of_exponent h hletters.2
        refine ⟨digitsValue (whole ++ []), 0, by simp [decimalOf], ?_⟩
        rw [List.append_nil, pow_zero, div_one]
        exact .whole (by simpa using hdigits) hwhole

theorem IsNumeral.isAmount {negative : Bool} {rest : List Char} (h : IsNumeral rest exact)
    (hsign : splitSign text = (negative, rest)) :
    IsAmount text (if negative then -exact else exact) := by
  unfold splitSign at hsign
  split at hsign <;> cases hsign
  · exact .minus h
  · exact .plus h
  · exact .unsigned h

/-- A finite number that is read from a text without letters is near an amount, but for the
sign. -/
theorem isAmount_of_readDouble? {text : String} {negative : Bool}
    {found : Fin Double.rankCount} (h : readDouble? text = some (.finite negative found))
    (hletters : ∀ c ∈ text.toList, c.isAlpha = false) :
    ∃ magnitude, IsAmount text.toList (if negative then -magnitude else magnitude) ∧
      0 ≤ magnitude ∧ Double.Near found magnitude := by
  obtain ⟨sign, rest, hsign⟩ : ∃ sign rest, splitSign text.toList = (sign, rest) := ⟨_, _, rfl⟩
  rw [readDouble?, hsign] at h
  dsimp only at h
  split at h
  · simp at h
  split at h
  · simp at h
  obtain ⟨decimal, hdecimal, hdouble⟩ := Option.map_eq_some_iff.mp h
  have hrest : ∀ c ∈ rest, c.isAlpha = false := by
    unfold splitSign at hsign
    split at hsign <;> cases hsign <;> intro c hmem
    · exact hletters c (by simp [*])
    · exact hletters c (by simp [*])
    · exact hletters c hmem
  obtain ⟨digits, places, rfl, hnumeral⟩ := isNumeral_of_readDecimal? hdecimal hrest
  obtain ⟨rfl, hnear⟩ := Decimal.near_of_toDouble hdouble
  exact ⟨_, hnumeral.isAmount hsign, by positivity, hnear⟩

end Text

namespace Value

variable {text : String}

/-- The units of time have their exact lengths up to one rounding. -/
theorem near_of_get?_timeUnits {unit : String} {scale : Double}
    (h : Table.get? timeUnits unit = some scale) :
    ∃ length found, (unit, length) ∈ Text.unitLengths ∧ scale = .finite false found ∧
      Double.Near found length ∧ 1 / 1000 ≤ length ∧ length ≤ 86400000 := by
  have hmem := Table.mem_of_get?_eq h
  simp only [timeUnits, List.mem_cons, Prod.mk.injEq, List.not_mem_nil, or_false] at hmem
  have hlength : ∀ (number : Int) (length : Nat), number = length →
      (unit, (length : ℚ)) ∈ Text.unitLengths → 1 ≤ length → length ≤ 86400000 →
      ∃ exact found, (unit, exact) ∈ Text.unitLengths ∧
        Double.ofInt number = .finite false found ∧ Double.Near found exact ∧
        1 / 1000 ≤ exact ∧ exact ≤ 86400000 := by
    rintro _ length rfl hlisted hlow hhigh
    obtain ⟨found, hfound, hnear⟩ := Double.exists_ofInt_eq_finite (hhigh.trans (by decide))
    have hlow : (1 : ℚ) ≤ length := by exact_mod_cast hlow
    exact ⟨length, found, hlisted, hfound, hnear, by linarith, by exact_mod_cast hhigh⟩
  rcases hmem with ⟨rfl, hscale⟩ | ⟨rfl, hscale⟩ | ⟨rfl, hscale⟩ | ⟨rfl, hscale⟩ | ⟨rfl, hscale⟩ |
    ⟨rfl, hscale⟩ | ⟨rfl, hscale⟩ <;> rw [hscale]
  · have hbound : ((1 : Nat) / (1000 : Nat) : ℚ) ≤ 2 ^ 64 := by norm_num
    obtain ⟨found, hfound, hnear⟩ :=
      Double.exists_nearest_eq_finite false (by decide) hbound
    have hthousandth : (Decimal.mk 1 (-3)).toDouble false = .nearest false 1 1000 := by
      decide +kernel
    rw [Nat.cast_one, Nat.cast_ofNat] at hnear
    exact ⟨1 / 1000, found, by simp [Text.unitLengths], hthousandth.trans hfound, hnear, le_rfl,
      by norm_num⟩
  · exact hlength _ 1 rfl (by simp [Text.unitLengths]) (by decide) (by decide)
  · exact hlength _ 1000 rfl (by simp [Text.unitLengths]) (by decide) (by decide)
  · exact hlength _ 1000 rfl (by simp [Text.unitLengths]) (by decide) (by decide)
  · exact hlength _ 60000 rfl (by simp [Text.unitLengths]) (by decide) (by decide)
  · exact hlength _ 3600000 rfl (by simp [Text.unitLengths]) (by decide) (by decide)
  · exact hlength _ 86400000 rfl (by simp [Text.unitLengths]) (by decide) (by decide)

/-- A duration is read from an amount and a unit between blanks. -/
theorem exists_of_durationOfText {stored : UInt64} (h : durationOfText text = .ok stored) :
    ∃ before amount between unit after number scale,
      text.toList = before ++ amount ++ between ++ unit ++ after ∧
      (∀ c ∈ before ++ between ++ after, Text.isBlank c = true) ∧
      (∀ c ∈ amount, c.isAlpha = false) ∧
      Text.readDouble? (String.ofList amount) = some number ∧
      number.lt (.zero false) = false ∧ number.isFinite = true ∧
      Table.get? timeUnits (String.ofList unit) = some scale ∧
      (number.mul scale).toUInt64Nearest = stored := by
  have hsplit := List.takeWhile_append_dropWhile (p := fun c => !c.isAlpha)
    (l := Text.trimChars text.toList)
  have hletters : ∀ c ∈ (Text.trimChars text.toList).takeWhile (fun c => !c.isAlpha),
      c.isAlpha = false := fun c hmem => by simpa using List.mem_takeWhile_imp hmem
  unfold durationOfText at h
  dsimp only at h
  generalize (Text.trimChars text.toList).takeWhile (fun c => !c.isAlpha) = amount at *
  generalize (Text.trimChars text.toList).dropWhile (fun c => !c.isAlpha) = unit at *
  obtain ⟨before, after, htext, hblanks⟩ := Text.exists_eq_append_trimChars text.toList
  obtain ⟨before', after', hamount, hblanks'⟩ := Text.exists_eq_append_trimChars amount
  obtain ⟨before'', after'', hunit, hblanks''⟩ := Text.exists_eq_append_trimChars unit
  split at h
  · simp at h
  split at h
  · simp at h
  next number hnumber =>
  split at h
  · simp at h
  next hfinite =>
  split at h
  · simp at h
  next scale hscale =>
  rw [Bool.or_eq_true, not_or, Bool.not_eq_true, Bool.not_eq_true, Bool.not_eq_eq_eq_not] at hfinite
  rw [← hsplit] at htext
  generalize Text.trimChars amount = core at *
  generalize Text.trimChars unit = core' at *
  subst hamount hunit
  refine ⟨before ++ before', core, after' ++ before'', core', after'' ++ after, number, scale, ?_,
    ?_, fun c hmem => hletters c ?_, hnumber, hfinite.1, hfinite.2, hscale, Except.ok.inj h⟩
  · simpa only [List.append_assoc] using htext
  · simp only [List.forall_mem_append] at hblanks hblanks' hblanks'' ⊢
    exact ⟨⟨⟨hblanks.1, hblanks'.1⟩, hblanks'.2, hblanks''.1⟩, hblanks''.2, hblanks.2⟩
  · exact List.mem_append_left _ (List.mem_append_right _ hmem)

/-- The milliseconds that are stored for a text are nearest to those that are written, up to
rounding, or they are the greatest word and those that are written are past it. -/
theorem isDuration_of_durationOfText {stored : UInt64} (h : durationOfText text = .ok stored) :
    ∃ exact : ℚ, Text.IsDuration text exact ∧
      (|stored.toNat - exact| ≤ 1 / 2 + (|exact| + 1) / 2 ^ 51 ∨
        stored.toNat = 2 ^ 64 - 1 ∧ 2 ^ 64 ≤ exact) := by
  obtain ⟨before, amount, between, unit, after, number, scale, htext, hblanks, hletters, hnumber,
    hsign, hfinite, hscale, hstored⟩ := exists_of_durationOfText h
  obtain ⟨length, factor, hlisted, rfl, hfactor, hlow, hhigh⟩ := near_of_get?_timeUnits hscale
  cases number with
  | nan | infinite => simp [Double.isFinite] at hfinite
  | finite negative found =>
      rw [← String.toList_ofList (l := amount)] at hletters
      obtain ⟨magnitude, hvalue, hnonneg, hnear⟩ := Text.isAmount_of_readDouble? hnumber hletters
      rw [String.toList_ofList] at hvalue
      refine ⟨_, .intro ?_ hblanks hvalue hlisted, ?_⟩
      · rw [String.toList_ofList]
        exact htext
      · exact Double.abs_toUInt64Nearest_mul_sub_le_of_not_lt_zero hnear hfactor hnonneg hlow
          hhigh hsign rfl (congrArg UInt64.toNat hstored)

end Value

namespace Kind

variable {path : Path} {name : String} {value : Value}

/-- An integer kind takes a floating-point number that is whole, as the nearest word. -/
theorem whole_of_convert_integer {min max : Int64} {number : Double}
    (h : (Kind.integer min max).convert path name (.float number) = .ok value) :
    ∃ whole : Int, number.value? = some (whole : ℚ) ∧ value = .integer (Int64.ofIntClamp whole) ∧
      min ≤ Int64.ofIntClamp whole ∧ Int64.ofIntClamp whole ≤ max := by
  obtain ⟨stored, rfl, hlimits⟩ := convert_integer_eq_ok h
  rw [Kind.convert, Value.asInteger?] at h
  cases hwhole : number.toInt? with
  | none => simp [hwhole, Value.expect, Validation.located, Except.bind] at h
  | some whole =>
      obtain ⟨found, hfound, hrange⟩ := Except.bind_eq_ok (Validation.located_eq_ok h)
      rw [hwhole] at hfound
      obtain rfl := Except.ok.inj hfound
      unfold inRange at hrange
      split at hrange
      · simp at hrange
      · obtain rfl := Value.integer.inj (Except.ok.inj hrange)
        exact ⟨whole, Double.toInt?_eq_some_iff.mp hwhole, rfl, hlimits⟩

/-- The nearest word is an integer itself exactly if that is in the range of words, and
otherwise it is an end of this range. -/
theorem toInt_ofIntClamp_cases (whole : Int) :
    ((Int64.ofIntClamp whole).toInt = whole ↔ -2 ^ 63 ≤ whole ∧ whole < 2 ^ 63) ∧
      (2 ^ 63 ≤ whole → Int64.ofIntClamp whole = Int64.maxValue) ∧
      (whole < -2 ^ 63 → Int64.ofIntClamp whole = Int64.minValue) := by
  have hmin := Int64.toInt_minValue
  have hmax := Int64.toInt_maxValue
  unfold Int64.ofIntClamp
  split
  · split
    · rw [Int64.toInt_ofIntLE]
      omega
    · exact ⟨by omega, fun _ => rfl, by omega⟩
  · exact ⟨by omega, by omega, fun _ => rfl⟩

/-- Conversions keep numbers that are in range.  An integer kind takes a floating-point number
only if it is whole, and stores it exactly if it is in the range of words; beyond this range it
stores the end of it, which only a limit at that end lets pass.  A duration is stored to half a
millisecond, up to three roundings, unless it is past the greatest word, which is stored then. -/
theorem convert_keeps_in_range (path : Path) (name : String) :
    (∀ (min max : Int64) (number : Double) value,
      (Kind.integer min max).convert path name (.float number) = .ok value →
      ∃ (stored : Int64) (whole : Int), value = .integer stored ∧
        number.value? = some (whole : ℚ) ∧
        (stored.toInt = whole ↔ -2 ^ 63 ≤ whole ∧ whole < 2 ^ 63) ∧
        (2 ^ 63 ≤ whole → stored = Int64.maxValue ∧ max = Int64.maxValue) ∧
        (whole < -2 ^ 63 → stored = Int64.minValue ∧ min = Int64.minValue)) ∧
    ∀ text value, Kind.duration.convert path name (.text text) = .ok value →
      ∃ (stored : UInt64) (exact : ℚ), value = .duration stored ∧ Text.IsDuration text exact ∧
        (|stored.toNat - exact| ≤ 1 / 2 + (|exact| + 1) / 2 ^ 51 ∨
          stored.toNat = 2 ^ 64 - 1 ∧ 2 ^ 64 ≤ exact) := by
  constructor
  · intro min max number value h
    obtain ⟨whole, hvalue, rfl, hlower, hupper⟩ := whole_of_convert_integer h
    obtain ⟨hsame, hgreatest, hleast⟩ := toInt_ofIntClamp_cases whole
    refine ⟨_, whole, rfl, hvalue, hsame, fun hlarge => ?_, fun hsmall => ?_⟩
    · have hstored := hgreatest hlarge
      exact ⟨hstored, Int64.le_antisymm (Int64.le_maxValue max) (hstored ▸ hupper)⟩
    · have hstored := hleast hsmall
      exact ⟨hstored, Int64.le_antisymm (hstored ▸ hlower) (Int64.minValue_le min)⟩
  · intro text value h
    rw [Kind.convert, Value.asDuration] at h
    obtain ⟨stored, hstored, rfl⟩ := Except.map_eq_ok (Validation.located_eq_ok h)
    obtain ⟨exact, hexact, hnear⟩ := Value.isDuration_of_durationOfText hstored
    exact ⟨stored, exact, rfl, hexact, hnear⟩

/-- Three is stored as three, and one and a half hours as their milliseconds. -/
theorem convert_keeps_three :
    (Kind.integer 0 10).convert .root "count" (.float (.ofInt 3)) = .ok (.integer 3) ∧
      Kind.duration.convert .root "delay" (.text "1.5 h") = .ok (.duration 5400000) ∧
      (∃ whole : Int, (Double.ofInt 3).value? = some (whole : ℚ) ∧
        ((3 : Int64).toInt = whole ↔ -2 ^ 63 ≤ whole ∧ whole < 2 ^ 63)) ∧
      ∃ exact : ℚ, Text.IsDuration "1.5 h" exact ∧
        |((5400000 : Nat) : ℚ) - exact| ≤ 1 / 2 + (|exact| + 1) / 2 ^ 51 := by
  have hthree : (Double.ofInt 3).toInt? = some 3 := by decide +kernel
  have hcount : (Kind.integer 0 10).convert .root "count" (.float (.ofInt 3)) =
      .ok (.integer 3) := by
    rw [Kind.convert, Value.asInteger?, hthree]
    rfl
  have hhours : Value.durationOfText "1.5 h" = .ok 5400000 := by decide +kernel
  have hdelay : Kind.duration.convert .root "delay" (.text "1.5 h") = .ok (.duration 5400000) := by
    rw [Kind.convert, Value.asDuration, hhours]
    rfl
  refine ⟨hcount, hdelay, ?_, ?_⟩
  · obtain ⟨stored, whole, hsame, hvalue, hrange, _⟩ :=
      (convert_keeps_in_range .root "count").1 _ _ _ _ hcount
    obtain rfl := Value.integer.inj hsame
    exact ⟨whole, hvalue, hrange⟩
  · obtain ⟨stored, exact, hsame, hexact, hnear⟩ :=
      (convert_keeps_in_range .root "delay").2 _ _ hdelay
    obtain rfl := Value.duration.inj hsame
    refine ⟨exact, hexact, hnear.resolve_right fun hpast => ?_⟩
    exact absurd hpast.1 (by decide)

/-- Ten to the nineteenth is stored as the greatest word, and so is a duration of a million
million days. -/
theorem convert_clamps :
    (∃ stored : Int64, (Kind.integer Int64.minValue Int64.maxValue).convert .root "count"
        (.float (.ofInt (10 ^ 19))) = .ok (.integer stored) ∧
      (Double.ofInt (10 ^ 19)).value? = some (10 ^ 19) ∧ (stored.toInt : ℚ) ≠ 10 ^ 19) ∧
    ∃ exact : ℚ, Text.IsDuration "1000000000000d" exact ∧ 2 ^ 64 ≤ exact ∧
      Kind.duration.convert .root "delay" (.text "1000000000000d") =
        .ok (.duration 18446744073709551615) := by
  have hlarge : (Double.ofInt (10 ^ 19)).toInt? = some (10 ^ 19) := by decide +kernel
  have hdays : Value.durationOfText "1000000000000d" = .ok 18446744073709551615 := by
    decide +kernel
  constructor
  · refine ⟨Int64.maxValue, ?_, ?_, ?_⟩
    · rw [Kind.convert, Value.asInteger?, hlarge]
      rfl
    · exact_mod_cast Double.toInt?_eq_some_iff.mp hlarge
    · rw [Int64.toInt_maxValue]
      norm_num
  · refine ⟨10 ^ 12 * 86400000, ?_, by norm_num, ?_⟩
    · have hdigits : Text.digitsValue "1000000000000".toList = 10 ^ 12 := by decide
      have hnumeral : Text.IsNumeral "1000000000000".toList
          (Text.digitsValue "1000000000000".toList) := .whole (by decide) (by simp)
      rw [hdigits] at hnumeral
      have hwritten : "1000000000000d".toList =
          [] ++ "1000000000000".toList ++ [] ++ "d".toList ++ [] := by decide
      have hlisted : ("d", (86400000 : ℚ)) ∈ Text.unitLengths := by simp [Text.unitLengths]
      exact_mod_cast Text.IsDuration.intro hwritten (by simp) (.unsigned hnumeral) hlisted
    · rw [Kind.convert, Value.asDuration, hdays]
      rfl

end Kind

end Firmware
