import Firmware.Double.Basic
import Mathlib.Algebra.Order.Field.Rat
import Mathlib.Tactic.FieldSimp
import Mathlib.Tactic.Linarith
import Mathlib.Tactic.NormNum
import Mathlib.Tactic.Positivity
import Mathlib.Tactic.Ring
/-!
Rounding to binary64.  A rank that is nearest to a ratio has a magnitude within half a unit
in the last place of it, and a ratio that is the magnitude of a rank is rounded to that rank.
-/

namespace Firmware

namespace Double

variable {dividend divisor numerator denominator bound rank : Nat}

theorem binadeCount_pos : 0 < binadeCount := Nat.pow_pos Nat.two_pos

theorem two_pow_pos (exponent : Nat) : 0 < Nat.pow 2 exponent := Nat.two_pow_pos exponent

theorem two_pow_dvd_total (a b : Nat) : Nat.pow 2 a ∣ Nat.pow 2 b ∨ Nat.pow 2 b ∣ Nat.pow 2 a :=
  (Nat.le_total a b).imp (Nat.pow_dvd_pow 2) (Nat.pow_dvd_pow 2)

theorem two_pow_le {low high : Nat} (h : low ≤ high) : Nat.pow 2 low ≤ Nat.pow 2 high :=
  Nat.pow_le_pow_right Nat.two_pos h

theorem two_pow_mul (a b : Nat) : Nat.pow 2 a * Nat.pow 2 b = Nat.pow 2 (a + b) :=
  (Nat.pow_add 2 a b).symm

theorem two_pow_mul_one_le {low high : Nat} (h : low + 1074 ≤ high) :
    Nat.pow 2 low * one ≤ Nat.pow 2 high := by
  have hsum : Nat.pow 2 low * one = Nat.pow 2 (low + 1074) := by
    unfold one
    apply two_pow_mul
  rw [hsum]
  exact two_pow_le h

theorem one_pos : 0 < one := by
  unfold one
  apply two_pow_pos

theorem two_pow_le_one : 2 ^ 100 ≤ one := by
  unfold one
  apply two_pow_le
  decide

/-- Rounding to a whole number is off by at most a half. -/
theorem roundHalfEven_bounds (dividend : Nat) (h : 0 < divisor) :
    2 * (divisor * roundHalfEven dividend divisor) ≤ 2 * dividend + divisor ∧
      2 * dividend ≤ 2 * (divisor * roundHalfEven dividend divisor) + divisor := by
  have hsplit := Nat.div_add_mod dividend divisor
  have hlt := Nat.mod_lt dividend h
  have hsucc : divisor * (dividend / divisor + 1) = divisor * (dividend / divisor) + divisor :=
    Nat.mul_succ ..
  unfold roundHalfEven
  dsimp only
  split
  · omega
  · split
    · omega
    · rcases Nat.mod_two_eq_zero_or_one (dividend / divisor) with heven | hodd
      · rw [heven, Nat.add_zero]
        omega
      · rw [hodd]
        omega

theorem roundHalfEven_mul (quotient : Nat) (h : 0 < divisor) :
    roundHalfEven (divisor * quotient) divisor = quotient := by
  unfold roundHalfEven
  rw [Nat.mul_mod_right, Nat.mul_div_cancel_left quotient h]
  exact if_pos h

/-- Rounding goes down to the quotient, or up to the next number. -/
theorem roundHalfEven_cases (dividend divisor : Nat) :
    roundHalfEven dividend divisor = dividend / divisor ∨
      roundHalfEven dividend divisor = dividend / divisor + 1 := by
  unfold roundHalfEven
  dsimp only
  split
  · omega
  · split <;> omega

theorem roundHalfEven_le (h : dividend < divisor * bound) :
    roundHalfEven dividend divisor ≤ bound := by
  have hlt : dividend / divisor < bound := Nat.div_lt_of_lt_mul h
  have hcases := roundHalfEven_cases dividend divisor
  omega

theorem le_roundHalfEven (hpos : 0 < divisor) (h : divisor * bound ≤ dividend) :
    bound ≤ roundHalfEven dividend divisor := by
  have hle : bound ≤ dividend / divisor := (Nat.le_div_iff_mul_le hpos).mpr (Nat.mul_comm .. ▸ h)
  have hcases := roundHalfEven_cases dividend divisor
  omega

/-- The magnitudes of a binade are the multiples of a power of two. -/
theorem quanta_binade {binade significand : Nat} (hlow : binade = 0 ∨ binadeCount ≤ significand)
    (hhigh : significand ≤ 2 * binadeCount) :
    quanta (binade * binadeCount + significand) = significand * 2 ^ binade := by
  have hpos := binadeCount_pos
  rcases Nat.lt_or_ge significand binadeCount with hsmall | hlarge
  · obtain rfl : binade = 0 := hlow.resolve_right (Nat.not_le.mpr hsmall)
    simp [quanta, hsmall]
  · rcases Nat.lt_or_eq_of_le hhigh with hinside | rfl
    · obtain ⟨extra, rfl⟩ := Nat.exists_eq_add_of_le hlarge
      have hextra : extra < binadeCount := by omega
      have hrank : binade * binadeCount + (binadeCount + extra) =
          extra + binadeCount * (binade + 1) := by
        rw [Nat.mul_succ, Nat.mul_comm]
        omega
      rw [quanta, if_neg (by omega), hrank, Nat.add_mul_mod_self_left, Nat.mod_eq_of_lt hextra,
        Nat.add_mul_div_left _ _ hpos, Nat.div_eq_of_lt hextra]
      simp
    · have hrank : binade * binadeCount + 2 * binadeCount = binadeCount * (binade + 2) := by
        rw [Nat.mul_add, Nat.mul_comm, Nat.mul_comm 2]
      have hlarge : ¬ binadeCount * (binade + 2) < binadeCount :=
        Nat.not_lt.mpr (Nat.le_mul_of_pos_right _ (Nat.succ_pos _))
      rw [hrank, quanta, if_neg hlarge, Nat.mul_mod_right, Nat.mul_div_cancel_left _ hpos]
      have hpow : Nat.pow 2 (binade + 2 - 1) = 2 ^ binade * 2 := rfl
      rw [hpow, Nat.add_zero, Nat.mul_comm (2 ^ binade), ← Nat.mul_assoc, Nat.mul_comm binadeCount]

/-- The ratio in quanta lies in the binade in which it is rounded. -/
theorem binade_bounds (numerator : Nat) (h : 0 < denominator) :
    let scaled := numerator * one
    let binade := (scaled / denominator).log2 - 52
    scaled < denominator * 2 ^ binade * (2 * binadeCount) ∧
      (binade = 0 ∨ denominator * 2 ^ binade * binadeCount ≤ scaled) := by
  intro scaled binade
  have hbinade : (scaled / denominator).log2 ≤ binade + 52 := by omega
  constructor
  · have hlog : scaled / denominator < 2 ^ (binade + 53) :=
      Nat.lt_log2_self.trans_le (Nat.pow_le_pow_right Nat.two_pos (Nat.succ_le_succ hbinade))
    have hscaled := (Nat.div_lt_iff_lt_mul h).mp hlog
    have hpow : 2 ^ (binade + 53) * denominator = denominator * 2 ^ binade * (2 * binadeCount) := by
      rw [Nat.pow_add, Nat.mul_comm, Nat.mul_assoc]
      rfl
    rwa [hpow] at hscaled
  · by_cases hzero : binade = 0
    · exact .inl hzero
    · have hne : scaled / denominator ≠ 0 := fun hnone => by
        simp [binade, hnone] at hzero
      have hlog : 2 ^ (binade + 52) ≤ scaled / denominator := by
        have heq : binade + 52 = (scaled / denominator).log2 := by omega
        exact heq ▸ Nat.log2_self_le hne
      have hscaled := (Nat.le_div_iff_mul_le h).mp hlog
      have hpow : 2 ^ (binade + 52) * denominator = denominator * 2 ^ binade * binadeCount := by
        rw [Nat.pow_add, Nat.mul_comm, Nat.mul_assoc]
        rfl
      rw [hpow] at hscaled
      exact .inr hscaled

/-- The magnitude of a nearest rank is a rounded number of units of its binade. -/
theorem quanta_rankNear (numerator : Nat) (h : 0 < denominator) :
    let binade := (numerator * one / denominator).log2 - 52
    quanta (rankNear numerator denominator) =
      roundHalfEven (numerator * one) (denominator * 2 ^ binade) * 2 ^ binade := by
  intro binade
  obtain ⟨hupper, hlower⟩ := binade_bounds numerator h
  have hpos : 0 < denominator * 2 ^ binade := Nat.mul_pos h (Nat.two_pow_pos _)
  exact quanta_binade (hlower.imp_right (le_roundHalfEven hpos)) (roundHalfEven_le hupper)

/-- How far the magnitude of a nearest rank is from the ratio, as whole numbers. -/
theorem quanta_rankNear_bounds (numerator : Nat) (h : 0 < denominator) :
    2 ^ 53 * (denominator * quanta (rankNear numerator denominator)) ≤
        2 ^ 53 * (numerator * one) + (numerator * one + 2 ^ 52 * denominator) ∧
      2 ^ 53 * (numerator * one) ≤
        2 ^ 53 * (denominator * quanta (rankNear numerator denominator)) +
          (numerator * one + 2 ^ 52 * denominator) := by
  obtain ⟨_, hlower⟩ := binade_bounds numerator h
  rw [quanta_rankNear numerator h]
  generalize (numerator * one / denominator).log2 - 52 = binade at *
  have hpos : 0 < denominator * 2 ^ binade := Nat.mul_pos h (Nat.two_pow_pos _)
  obtain ⟨habove, hbelow⟩ := roundHalfEven_bounds (numerator * one) hpos
  -- half a unit of the binade is half a quantum, or small beside the ratio
  have hunit : denominator * 2 ^ binade * 2 ^ 52 ≤ denominator * 2 ^ 52 + numerator * one := by
    rcases hlower with rfl | hlower
    · omega
    · exact hlower.trans (Nat.le_add_left ..)
  rw [Nat.mul_comm _ (2 ^ binade), ← Nat.mul_assoc denominator]
  omega

def magnitude (rank : Nat) : ℚ := quanta rank / one

def value? : Double → Option ℚ
  | .finite negative rank => some (if negative then -magnitude rank else magnitude rank)
  | _ => none

theorem magnitude_nonneg (rank : Nat) : 0 ≤ magnitude rank := by
  unfold magnitude
  positivity

/-- How far the magnitude of a nearest rank is from the ratio: half a unit in the last place,
or half a quantum. -/
theorem abs_magnitude_rankNear_sub_le (numerator : Nat) (h : 0 < denominator) :
    |magnitude (rankNear numerator denominator) - numerator / denominator| ≤
      (numerator / denominator : ℚ) / 2 ^ 53 + 1 / (2 * one) := by
  obtain ⟨habove, hbelow⟩ := quanta_rankNear_bounds numerator h
  have hone := one_pos
  unfold magnitude
  generalize quanta (rankNear numerator denominator) = found at *
  generalize one = scale at *
  have hscale : (0 : ℚ) < scale := by exact_mod_cast hone
  have hdenominator : (0 : ℚ) < denominator := by exact_mod_cast h
  have habove : (2 ^ 53 * (denominator * found) : ℚ) ≤
      2 ^ 53 * (numerator * scale) + (numerator * scale + 2 ^ 52 * denominator) := by
    exact_mod_cast habove
  have hbelow : (2 ^ 53 * (numerator * scale) : ℚ) ≤
      2 ^ 53 * (denominator * found) + (numerator * scale + 2 ^ 52 * denominator) := by
    exact_mod_cast hbelow
  have hdistance : (found / scale - numerator / denominator : ℚ) =
      (2 ^ 53 * (denominator * found) - 2 ^ 53 * (numerator * scale)) /
        (2 ^ 53 * (denominator * scale)) := by
    field_simp
  have hlimit : (numerator / denominator / 2 ^ 53 + 1 / (2 * scale) : ℚ) =
      (numerator * scale + 2 ^ 52 * denominator) / (2 ^ 53 * (denominator * scale)) := by
    field_simp
  rw [hdistance, hlimit, abs_div, abs_of_pos (by positivity : (0 : ℚ) < 2 ^ 53 *
    (denominator * scale)), div_le_div_iff_of_pos_right (by positivity), abs_le]
  constructor <;> linarith

theorem rankNear_of_mul_one_eq (h : 0 < denominator)
    (heq : numerator * one = denominator * quanta rank) :
    rankNear numerator denominator = rank := by
  have hpos := binadeCount_pos
  rw [rankNear, heq, Nat.mul_div_cancel_left _ h]
  by_cases hsmall : rank < binadeCount
  · have hquanta : quanta rank = rank := if_pos hsmall
    have hbinade : rank.log2 - 52 = 0 := by
      by_cases hzero : rank = 0
      · simp [hzero]
      · have hlog : rank.log2 < 52 := (Nat.log2_lt hzero).mpr hsmall
        omega
    have hround := roundHalfEven_mul rank h
    simp [hquanta, hbinade, hround]
  · obtain ⟨binade, hbinade⟩ : ∃ binade, rank / binadeCount = binade + 1 :=
      Nat.exists_eq_add_one.mpr (Nat.div_pos (Nat.not_lt.mp hsmall) hpos)
    have hsplit := Nat.div_add_mod rank binadeCount
    have hextra := Nat.mod_lt rank hpos
    generalize rank % binadeCount = extra at *
    have hrank : binade * binadeCount + (binadeCount + extra) = rank := by
      rw [hbinade, Nat.mul_succ, Nat.mul_comm] at hsplit
      omega
    have hquanta : quanta rank = (binadeCount + extra) * 2 ^ binade := by
      rw [← hrank]
      exact quanta_binade (.inr (Nat.le_add_right ..)) (by omega)
    have hlog : (quanta rank).log2 = binade + 52 := by
      have hne : (binadeCount + extra) * 2 ^ binade ≠ 0 :=
        Nat.ne_of_gt (Nat.mul_pos (Nat.add_pos_left hpos extra) (Nat.two_pow_pos binade))
      rw [hquanta, Nat.log2_eq_iff hne, Nat.add_assoc binade, Nat.add_comm binade,
        Nat.add_comm binade, Nat.pow_add, Nat.pow_add]
      exact ⟨Nat.mul_le_mul_right _ (Nat.le_add_right binadeCount extra),
        Nat.mul_lt_mul_of_pos_right (Nat.add_lt_add_left hextra _) (Nat.two_pow_pos binade)⟩
    rw [hlog, Nat.add_sub_cancel, hquanta, Nat.mul_comm (binadeCount + extra), ← Nat.mul_assoc]
    have hround := roundHalfEven_mul (binadeCount + extra) (Nat.mul_pos h (Nat.two_pow_pos binade))
    exact (congrArg (binade * binadeCount + ·) hround).trans hrank

end Double

end Firmware
