import Firmware.Proofs.Double.Nearness
/-!
Words as binary64 numbers.  A word goes to the nearest number and back to itself exactly if it
is a number, or if it is the greatest word, at which everything past it ends.
-/

namespace Firmware

namespace Double

/-- The word that is nearest to the number nearest to a word. -/
def nearestWord (word : UInt64) : UInt64 := (ofInt word.toNat).toUInt64Nearest

/-- A binade has units that divide a whole number, or that a whole number divides. -/
theorem pow_dvd_one_or_one_dvd_pow (binade : Nat) : 2 ^ binade ∣ one ∨ one ∣ 2 ^ binade := by
  have h : Nat.pow 2 binade ∣ one ∨ one ∣ Nat.pow 2 binade := by
    unfold one
    apply two_pow_dvd_total
  exact h

/-- A whole number is rounded to a whole number. -/
theorem one_dvd_quanta_rankNear (number : Nat) : one ∣ quanta (rankNear number 1) := by
  rw [quanta_rankNear number Nat.one_pos]
  generalize (number * one / 1).log2 - 52 = binade
  rcases pow_dvd_one_or_one_dvd_pow binade with hfine | hcoarse
  · obtain ⟨units, hunits⟩ := hfine
    have hmultiple : number * one = 1 * 2 ^ binade * (number * units) := by
      rw [hunits, Nat.one_mul, Nat.mul_left_comm]
    rw [hmultiple, roundHalfEven_mul _ (by positivity), Nat.mul_assoc, Nat.mul_comm units,
      ← hunits]
    exact Nat.dvd_mul_left one number
  · exact hcoarse.trans (Nat.dvd_mul_left ..)

theorem exists_ofInt_word (word : UInt64) :
    ∃ found : Fin rankCount, ofInt word.toNat = .finite false found ∧
      found.val = rankNear word.toNat 1 := by
  obtain ⟨found, hfound, _⟩ := exists_ofInt_eq_finite word.toNat_lt.le
  refine ⟨found, hfound, ?_⟩
  rw [ofInt, decide_eq_false (by omega), Int.natAbs_natCast] at hfound
  exact (nearest_eq_finite hfound).2

/-- A whole magnitude goes to itself, or to the greatest word below it. -/
theorem toUInt64Nearest_of_quanta_eq {found : Fin rankCount} {whole : Nat}
    (h : quanta found.val = whole * one) :
    (finite false found).toUInt64Nearest.toNat = min (2 ^ 64 - 1) whole := by
  have hsize : UInt64.size - 1 = 2 ^ 64 - 1 := by decide
  have hquotient : (2 * (whole * one) + one) / (2 * one) = whole := by
    have hone := one_pos
    have hsplit : 2 * (whole * one) + one = one + 2 * one * whole := by
      rw [Nat.mul_comm whole, ← Nat.mul_assoc, Nat.add_comm]
    rw [hsplit, Nat.add_mul_div_left _ _ (Nat.mul_pos Nat.two_pos hone),
      Nat.div_eq_of_lt (by omega), Nat.zero_add]
  rw [toUInt64Nearest, h, hquotient, hsize]
  exact UInt64.toNat_ofNat_of_lt' (Nat.lt_of_le_of_lt (Nat.min_le_left ..) (by decide))

/-- The value of a number is a natural number exactly if its magnitude is. -/
theorem quanta_of_value?_eq {number : Double} {whole : Nat}
    (h : number.value? = some (whole : ℚ)) : ∃ rank, quanta rank = whole * one := by
  have hone : (one : ℚ) ≠ 0 := by exact_mod_cast Nat.ne_of_gt one_pos
  have hmagnitude : ∃ rank, magnitude rank = whole := by
    cases number with
    | nan | infinite => simp [value?] at h
    | finite negative rank =>
        cases negative with
        | false => exact ⟨rank, Option.some.inj h⟩
        | true =>
            have hnegative : -magnitude rank = whole := Option.some.inj h
            have hnonneg := magnitude_nonneg rank
            have hwhole : (0 : ℚ) ≤ whole := Nat.cast_nonneg whole
            exact ⟨rank, by linarith⟩
  obtain ⟨rank, hrank⟩ := hmagnitude
  refine ⟨rank, ?_⟩
  rw [magnitude, div_eq_iff hone] at hrank
  exact_mod_cast hrank

/-- A word is kept exactly if it is the greatest one or the value of a number. -/
theorem nearestWord_eq_self_iff (word : UInt64) :
    nearestWord word = word ↔
      word.toNat = 2 ^ 64 - 1 ∨ ∃ number : Double, number.value? = some (word.toNat : ℚ) := by
  by_cases hgreatest : word.toNat = 2 ^ 64 - 1
  · obtain rfl : word = 18446744073709551615 := UInt64.toNat_inj.mp hgreatest
    exact iff_of_true (by decide +kernel) (.inl hgreatest)
  obtain ⟨found, hfound, hrank⟩ := exists_ofInt_word word
  obtain ⟨whole, hwhole⟩ : ∃ whole, quanta found.val = whole * one := by
    obtain ⟨whole, hwhole⟩ := one_dvd_quanta_rankNear word.toNat
    exact ⟨whole, by rw [hrank, hwhole, Nat.mul_comm]⟩
  have hword := word.toNat_lt
  rw [or_iff_right hgreatest, nearestWord, hfound, ← UInt64.toNat_inj,
    toUInt64Nearest_of_quanta_eq hwhole]
  constructor
  · intro hsame
    obtain rfl : whole = word.toNat := by omega
    have hone : (one : ℚ) ≠ 0 := by exact_mod_cast Nat.ne_of_gt one_pos
    have hmagnitude : magnitude found = word.toNat := by
      rw [magnitude, hwhole, Nat.cast_mul, mul_div_cancel_right₀ _ hone]
    exact ⟨.finite false found, congrArg some hmagnitude⟩
  · rintro ⟨number, hnumber⟩
    obtain ⟨rank, hquanta⟩ := quanta_of_value?_eq hnumber
    have hsame : rankNear word.toNat 1 = rank :=
      rankNear_of_mul_one_eq Nat.one_pos (by rw [hquanta, Nat.one_mul])
    rw [hrank, hsame, hquanta] at hwhole
    obtain rfl := Nat.eq_of_mul_eq_mul_right one_pos hwhole
    omega

/-- The unit one is a number, by which a product changes nothing. -/
theorem mul_ofInt_one (found : Fin rankCount) :
    (finite false found).mul (ofInt 1) = .finite false found := by
  obtain ⟨unit, hunit, hquanta⟩ : ∃ unit : Fin rankCount, ofInt 1 = .finite false unit ∧
      quanta unit.val = one := ⟨⟨1023 * 2 ^ 52, by decide⟩, by decide +kernel, by decide +kernel⟩
  have hrank : rankNear (quanta found.val * quanta unit.val) (one * one) = found.val := by
    refine rankNear_of_mul_one_eq (Nat.mul_pos one_pos one_pos) ?_
    rw [hquanta, Nat.mul_assoc, Nat.mul_comm]
  rw [hunit, mul_finite, bne_self_eq_false, nearest, hrank, dif_pos found.isLt]

end Double

end Firmware
