import Firmware.Double.Decimal
import Firmware.Proofs.Double.Rounding
/-!
Numbers near exact values.  Reading a decimal, multiplying and going to a natural number each
round once; a rank is near a value if its magnitude is off by no more than that.
-/

namespace Firmware

namespace Double

variable {number : Double} {negative sign : Bool} {numerator denominator rank : Nat} {exact : ℚ}

/-- The magnitude of a rank is a value up to one rounding. -/
def Near (rank : Nat) (exact : ℚ) : Prop :=
  |magnitude rank - exact| ≤ exact / 2 ^ 53 + 1 / 2 ^ 100

theorem half_quantum_le : (1 / (2 * one) : ℚ) ≤ 1 / 2 ^ 100 := by
  have hone := two_pow_le_one
  generalize one = scale at *
  have hscale : (2 ^ 100 : ℚ) ≤ scale := by exact_mod_cast hone
  apply one_div_le_one_div_of_le (by positivity)
  linarith

theorem near_rankNear (numerator : Nat) (h : 0 < denominator) :
    Near (rankNear numerator denominator) (numerator / denominator) :=
  (abs_magnitude_rankNear_sub_le numerator h).trans (by linarith [half_quantum_le])

@[simp] theorem magnitude_zero : magnitude 0 = 0 := by
  have hquanta : quanta 0 = 0 := if_pos binadeCount_pos
  rw [magnitude, hquanta, Nat.cast_zero, zero_div]

theorem nearest_eq_finite {found : Fin rankCount}
    (h : nearest negative numerator denominator = .finite sign found) :
    sign = negative ∧ found.val = rankNear numerator denominator := by
  unfold nearest at h
  dsimp only at h
  split at h
  · cases h
    exact ⟨rfl, rfl⟩
  · simp at h

/-- Magnitudes past the last finite one are far beyond all words. -/
theorem le_magnitude_of_rankCount_le (h : rankCount ≤ rank) : (2 ^ 100 : ℚ) ≤ magnitude rank := by
  have hpos := binadeCount_pos
  have hbinade : 2047 ≤ rank / binadeCount := (Nat.le_div_iff_mul_le hpos).mpr h
  have hsmall : ¬ rank < binadeCount := fun hlt => by
    rw [Nat.div_eq_of_lt hlt] at hbinade
    simp at hbinade
  have hquanta : Nat.pow 2 100 * one ≤ quanta rank := by
    rw [quanta, if_neg hsmall]
    exact (two_pow_mul_one_le (by omega)).trans
      (Nat.le_mul_of_pos_left _ (Nat.add_pos_left hpos (rank % binadeCount)))
  have hone := one_pos
  unfold magnitude
  generalize quanta rank = found at *
  generalize one = scale at *
  rw [le_div_iff₀ (by exact_mod_cast hone)]
  exact_mod_cast hquanta

/-- A quotient is an integer exactly if the division has no remainder and gives it. -/
theorem div_eq_intCast_iff {dividend divisor : Nat} {whole : Int} (h : 0 < divisor) :
    (dividend / divisor : ℚ) = whole ↔
      dividend % divisor = 0 ∧ ((dividend / divisor : Nat) : Int) = whole := by
  have hdivisor : (divisor : ℚ) ≠ 0 := by exact_mod_cast Nat.ne_of_gt h
  rw [div_eq_iff hdivisor]
  constructor
  · intro heq
    have hint : (dividend : Int) = whole * divisor := by exact_mod_cast heq
    refine ⟨Nat.mod_eq_zero_of_dvd (Int.natCast_dvd_natCast.mp (hint ▸ Int.dvd_mul_left ..)), ?_⟩
    rw [Int.natCast_ediv, hint, Int.mul_ediv_cancel _ (by omega)]
  · rintro ⟨hrest, rfl⟩
    exact_mod_cast (Nat.div_mul_cancel (Nat.dvd_of_mod_eq_zero hrest)).symm

/-- A number is a whole number as an integer exactly if that is its value. -/
theorem toInt?_eq_some_iff {whole : Int} :
    number.toInt? = some whole ↔ number.value? = some (whole : ℚ) := by
  cases number with
  | nan | infinite => simp [toInt?, value?]
  | finite negative rank =>
      have hwhole : magnitude rank = ((if negative then -whole else whole : Int) : ℚ) ↔
          quanta rank % one = 0 ∧
            ((quanta rank / one : Nat) : Int) = if negative then -whole else whole :=
        div_eq_intCast_iff one_pos
      have hsign : (if negative then -magnitude rank else magnitude rank : ℚ) = whole ↔
          magnitude rank = ((if negative then -whole else whole : Int) : ℚ) := by
        cases negative
        · simp
        · rw [if_pos rfl, if_pos rfl, Int.cast_neg, neg_eq_iff_eq_neg]
      rw [value?, Option.some_inj, hsign, hwhole, toInt?]
      generalize quanta rank = dividend
      generalize one = divisor
      rw [Int.natCast_ediv]
      dsimp only
      generalize (dividend : Int) / divisor = quotient
      cases negative
      · simp
      · simp [neg_eq_iff_eq_neg]

/-- What is nearest to a value in the range of words is a finite number. -/
theorem exists_nearest_eq_finite (negative : Bool) {numerator denominator : Nat}
    (h : 0 < denominator) (hsmall : (numerator / denominator : ℚ) ≤ 2 ^ 64) :
    ∃ found, nearest negative numerator denominator = .finite negative found ∧
      Near found (numerator / denominator) := by
  have hnear := near_rankNear numerator h
  have hrank : rankNear numerator denominator < rankCount := by
    by_contra hrank
    have hlarge := le_magnitude_of_rankCount_le (Nat.not_lt.mp hrank)
    have hclose := (abs_le.mp hnear).2
    linarith
  exact ⟨⟨_, hrank⟩, dif_pos hrank, hnear⟩

theorem exists_ofInt_eq_finite {value : Nat} (hsmall : value ≤ 2 ^ 64) :
    ∃ found, ofInt value = .finite false found ∧ Near found value := by
  have hbound : (value / (1 : Nat) : ℚ) ≤ 2 ^ 64 := by
    rw [Nat.cast_one, div_one]
    exact_mod_cast hsmall
  obtain ⟨found, hfound, hnear⟩ := exists_nearest_eq_finite false Nat.one_pos hbound
  refine ⟨found, ?_, by simpa using hnear⟩
  rw [ofInt, Int.natAbs_natCast, decide_eq_false (by omega), hfound]

/-- The magnitude of a rank, rounded to a whole number and cut off at the greatest word. -/
theorem word_near {rank stored : Nat}
    (h : stored = min (2 ^ 64 - 1) ((2 * quanta rank + one) / (2 * one))) :
    |stored - magnitude rank| ≤ 1 / 2 ∨
      stored = 2 ^ 64 - 1 ∧ 2 ^ 64 ≤ magnitude rank + 1 / 2 := by
  have hone := one_pos
  unfold magnitude
  generalize quanta rank = found at *
  generalize one = scale at *
  have hscale : (0 : ℚ) < scale := by exact_mod_cast hone
  have hhalf : (found / scale + 1 / 2 : ℚ) = (2 * found + scale) / (2 * scale) := by field_simp
  rcases Nat.lt_or_ge ((2 * found + scale) / (2 * scale)) (2 ^ 64) with hfits | hlarge
  · left
    rw [Nat.min_eq_right (Nat.le_sub_one_of_lt hfits)] at h
    have hbelow : (stored : ℚ) ≤ found / scale + 1 / 2 := by
      rw [h, hhalf, le_div_iff₀ (by positivity)]
      exact_mod_cast Nat.div_mul_le_self (2 * found + scale) (2 * scale)
    have habove : (found / scale + 1 / 2 : ℚ) < stored + 1 := by
      rw [h, hhalf, div_lt_iff₀ (by positivity), mul_comm (_ + 1)]
      exact_mod_cast Nat.lt_mul_div_succ (2 * found + scale) (Nat.mul_pos Nat.two_pos hone)
    rw [abs_le]
    constructor <;> linarith
  · right
    rw [Nat.min_eq_left ((Nat.sub_le ..).trans hlarge)] at h
    have hwhole : 2 ^ 64 * (2 * scale) ≤ 2 * found + scale :=
      (Nat.le_div_iff_mul_le (Nat.mul_pos Nat.two_pos hone)).mp hlarge
    refine ⟨h, ?_⟩
    rw [hhalf, le_div_iff₀ (by positivity)]
    exact_mod_cast hwhole

/-- The nearest natural number to a nearest number, or the greatest word below it. -/
theorem toUInt64Nearest_nearest (numerator denominator : Nat) :
    |((nearest false numerator denominator).toUInt64Nearest.toNat -
        magnitude (rankNear numerator denominator) : ℚ)| ≤ 1 / 2 ∨
      (nearest false numerator denominator).toUInt64Nearest.toNat = 2 ^ 64 - 1 ∧
        2 ^ 64 ≤ magnitude (rankNear numerator denominator) + 1 / 2 := by
  have hsize : UInt64.size - 1 = 2 ^ 64 - 1 := by decide
  unfold nearest
  dsimp only
  generalize rankNear numerator denominator = rank
  split
  · apply word_near
    rw [toUInt64Nearest, hsize]
    exact UInt64.toNat_ofNat_of_lt' (Nat.lt_of_le_of_lt (Nat.min_le_left ..) (by decide))
  · next hrank =>
      have hlarge := le_magnitude_of_rankCount_le (Nat.not_lt.mp hrank)
      refine .inr ⟨?_, by linarith⟩
      rw [toUInt64Nearest, UInt64.toNat_ofNat_of_lt' (by decide), hsize]

theorem mul_finite (left right : Fin rankCount) :
    (finite negative left).mul (finite sign right) =
      nearest (negative != sign) (quanta left.val * quanta right.val) (one * one) := rfl

/-- The product of two numbers is rounded once. -/
theorem near_mul (left right : Nat) :
    Near (rankNear (quanta left * quanta right) (one * one))
      (magnitude left * magnitude right) := by
  have h := near_rankNear (quanta left * quanta right) (Nat.mul_pos one_pos one_pos)
  rwa [Nat.cast_mul, Nat.cast_mul, ← div_mul_div_comm] at h

/-- Two factors that were rounded once, and their product once more. -/
theorem abs_magnitude_mul_sub_le {left right product : Nat} {amount scale : ℚ}
    (hleft : Near left amount) (hright : Near right scale)
    (hproduct : Near product (magnitude left * magnitude right)) (hamount : 0 ≤ amount)
    (hlow : 1 / 1000 ≤ scale) (hhigh : scale ≤ 86400000) :
    |magnitude product - amount * scale| ≤ (amount * scale + 1) / 2 ^ 51 := by
  have hpositive := magnitude_nonneg right
  unfold Near at hleft hright hproduct
  generalize magnitude left = a at *
  generalize magnitude right = s at *
  have hs : s ≤ scale + (scale / 2 ^ 53 + 1 / 2 ^ 100) := by linarith [(abs_le.mp hright).2]
  have hfactors : |a * s - amount * scale| ≤
      (amount / 2 ^ 53 + 1 / 2 ^ 100) * (scale + (scale / 2 ^ 53 + 1 / 2 ^ 100)) +
        amount * (scale / 2 ^ 53 + 1 / 2 ^ 100) := by
    have hsplit : a * s - amount * scale = (a - amount) * s + amount * (s - scale) := by ring
    rw [hsplit]
    refine (abs_add_le _ _).trans (add_le_add ?_ ?_)
    · rw [abs_mul, abs_of_nonneg hpositive]
      exact mul_le_mul hleft hs hpositive (by positivity)
    · rw [abs_mul, abs_of_nonneg hamount]
      exact mul_le_mul_of_nonneg_left hright hamount
  have hlength : amount * (1 / 1000) ≤ amount * scale := mul_le_mul_of_nonneg_left hlow hamount
  rw [abs_le] at hfactors hproduct ⊢
  constructor <;> linarith

/-- The nearest natural number to a product of numbers, against the exact product. -/
theorem abs_toUInt64Nearest_mul_sub_le {left right : Fin rankCount} {amount scale : ℚ}
    (hleft : Near left amount) (hright : Near right scale) (hamount : 0 ≤ amount)
    (hlow : 1 / 1000 ≤ scale) (hhigh : scale ≤ 86400000) {stored : Nat}
    (hstored : ((finite false left).mul (finite false right)).toUInt64Nearest.toNat = stored) :
    |stored - amount * scale| ≤ 1 / 2 + (amount * scale + 1) / 2 ^ 51 ∨
      stored = 2 ^ 64 - 1 ∧ 2 ^ 64 ≤ amount * scale := by
  have hproduct :=
    abs_magnitude_mul_sub_le hleft hright (near_mul left right) hamount hlow hhigh
  have hword := toUInt64Nearest_nearest (quanta left.val * quanta right.val) (one * one)
  rw [mul_finite, bne_self_eq_false] at hstored
  rw [hstored] at hword
  generalize magnitude (rankNear (quanta left.val * quanta right.val) (one * one)) = rounded at *
  rw [abs_le] at hproduct
  rcases hword with hnear | ⟨hgreatest, hlarge⟩
  · rw [abs_le] at hnear
    refine .inl (abs_le.mpr ⟨?_, ?_⟩) <;> linarith
  · by_cases hexact : 2 ^ 64 ≤ amount * scale
    · exact .inr ⟨hgreatest, hexact⟩
    · have hcast : (stored : ℚ) = 2 ^ 64 - 1 := by
        rw [hgreatest]
        norm_num
      rw [not_le] at hexact
      refine .inl (abs_le.mpr ⟨?_, ?_⟩) <;> linarith

theorem toUInt64Nearest_nearest_true (numerator denominator : Nat) :
    (nearest true numerator denominator).toUInt64Nearest = 0 := by
  unfold nearest
  dsimp only
  split <;> rfl

/-- A negative number that is not less than zero is near nothing but zero. -/
theorem le_of_near_of_not_lt_zero {found : Fin rankCount} (hnear : Near found exact)
    (h : (finite true found).lt (.zero false) = false) : exact ≤ 1 / 2 ^ 99 := by
  have hzero : found.val = 0 := by
    have hposition : ¬ (-(found.val : Int) < 0) := of_decide_eq_false h
    omega
  rw [Near, hzero, magnitude_zero, abs_le] at hnear
  linarith

/-- The same for a number that has a sign but is not less than zero. -/
theorem abs_toUInt64Nearest_mul_sub_le_of_not_lt_zero {left right : Fin rankCount}
    {amount scale : ℚ} (hleft : Near left amount) (hright : Near right scale)
    (hamount : 0 ≤ amount) (hlow : 1 / 1000 ≤ scale) (hhigh : scale ≤ 86400000)
    (hsign : (finite negative left).lt (.zero false) = false)
    (hexact : exact = (if negative then -amount else amount) * scale) {stored : Nat}
    (hstored : ((finite negative left).mul (finite false right)).toUInt64Nearest.toNat = stored) :
    |stored - exact| ≤ 1 / 2 + (|exact| + 1) / 2 ^ 51 ∨ stored = 2 ^ 64 - 1 ∧ 2 ^ 64 ≤ exact := by
  have hnonneg : 0 ≤ amount * scale := mul_nonneg hamount (by linarith)
  cases negative with
  | false =>
      rw [if_neg Bool.false_ne_true] at hexact
      rw [hexact, abs_of_nonneg hnonneg]
      exact abs_toUInt64Nearest_mul_sub_le hleft hright hamount hlow hhigh hstored
  | true =>
      have hzero : stored = 0 := by
        rw [mul_finite, Bool.true_bne, Bool.not_false, toUInt64Nearest_nearest_true] at hstored
        exact hstored.symm
      have hsmall : amount * scale ≤ 1 / 2 ^ 99 * 86400000 :=
        mul_le_mul (le_of_near_of_not_lt_zero hleft hsign) hhigh (by linarith) (by positivity)
      rw [if_pos rfl, neg_mul] at hexact
      rw [hexact, hzero, abs_neg, Nat.cast_zero, zero_sub, neg_neg, abs_of_nonneg hnonneg]
      left
      linarith

end Double

theorem Decimal.lt_ten_pow_width (n : Nat) : n < 10 ^ width n :=
  (Nat.length_toDigits_le_iff (by decide) Nat.length_toDigits_pos).mp (Nat.le_refl _)

theorem Decimal.near_of_toDouble {negative sign : Bool} {digits places : Nat}
    {found : Fin Double.rankCount}
    (h : (Decimal.mk digits (-places)).toDouble negative = .finite sign found) :
    sign = negative ∧ Double.Near found (digits / 10 ^ places) := by
  unfold toDouble at h
  dsimp only at h
  split at h
  · next hsmall =>
      cases h
      refine ⟨rfl, ?_⟩
      have hvalue : digits / 10 ^ places ≤ (1 / 2 ^ 100 : ℚ) := by
        rcases hsmall with rfl | hwidth
        · simp
        · rw [div_le_div_iff₀ (by positivity) (by positivity)]
          have hplaces : digits * 2 ^ 100 ≤ 10 ^ places :=
            calc digits * 2 ^ 100 ≤ 10 ^ width digits * 10 ^ 100 :=
                  Nat.mul_le_mul (lt_ten_pow_width digits).le (by decide)
              _ = 10 ^ (width digits + 100) := (Nat.pow_add ..).symm
              _ ≤ 10 ^ places := Nat.pow_le_pow_right (by decide) (by omega)
          rw [one_mul]
          exact_mod_cast hplaces
      rw [Double.Near, Double.magnitude_zero, zero_sub, abs_neg, abs_of_nonneg (by positivity)]
      have hnonneg : (0 : ℚ) ≤ digits / 10 ^ places / 2 ^ 53 := by positivity
      linarith
  · split at h
    · simp at h
    · split at h
      · next hexponent =>
          obtain rfl : places = 0 := by omega
          obtain ⟨rfl, hrank⟩ := Double.nearest_eq_finite h
          refine ⟨rfl, ?_⟩
          have hnear := Double.near_rankNear digits Nat.one_pos
          simpa [hrank] using hnear
      · obtain ⟨rfl, hrank⟩ := Double.nearest_eq_finite h
        have hnear := Double.near_rankNear digits (Nat.pow_pos (n := places) (by decide : 0 < 10))
        refine ⟨rfl, ?_⟩
        simpa [hrank] using hnear

end Firmware
