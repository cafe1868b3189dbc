import PlaneCalculus.Proofs.Number.LowestTerms

/-! Whole powers of exact numbers. A power is exact wherever its numerator and denominator fit, as long as the exponent is
below `exponentLimit`. Past that nothing is tried, and the powers that would fit there are those of zero, one and minus
one. -/

namespace PlaneCalculus.Number

lemma bound_eq : bound = 2 ^ 127 := by decide

lemma small_of_pow_lt {b : ℤ} {k : ℕ} (hk : 128 ≤ k) (h : b.natAbs ^ k < 2 ^ 127) : b.natAbs < 2 := by
  by_contra hb
  have h2 : 2 ^ k ≤ b.natAbs ^ k := Nat.pow_le_pow_left (by omega) k
  have h127 : 2 ^ 127 < 2 ^ k := Nat.pow_lt_pow_right (by decide) (by omega)
  omega

lemma powFits_eq_some {b : ℤ} {k : ℕ} (h : b.natAbs ^ k < 2 ^ 127) : powFits b k = some (b ^ k) := by
  have hsome : (powFits b k).isSome = true := by
    unfold powFits
    split
    · next hl => exact absurd (small_of_pow_lt hl.1 h) (by omega)
    · split
      · rfl
      · have hfits : fits (Int.pow b k) = true := by
          have habs : (b ^ k).natAbs < 2 ^ 127 := by rwa [Int.natAbs_pow]
          have hpow : Int.pow b k = b ^ k := rfl
          rw [hpow]
          simp only [fits, Bool.and_eq_true, decide_eq_true_eq, bound_eq]
          omega
        rw [if_pos hfits]
        rfl
  obtain ⟨r, hr⟩ := Option.isSome_iff_exists.mp hsome
  rw [hr, powFits_eq hr]

/-- What stands above the line before the power is taken: a negative exponent exchanges the two parts. -/
def powerNum (q : ℚ) (e : ℤ) : ℤ := if e < 0 then q.den else q.num

def powerDen (q : ℚ) (e : ℤ) : ℤ := if e < 0 then q.num else q.den

variable {q : ℚ} {e : ℤ}

lemma powerDen_ne_zero (h : q ≠ 0 ∨ 0 ≤ e) : powerDen q e ≠ 0 := by
  unfold powerDen
  split
  · next he => exact Rat.num_ne_zero.mpr (h.resolve_right (by omega))
  · exact_mod_cast q.den_nz

/-- The parts of a power are the powers of the parts: they have no common factor to be divided by. -/
lemma zpow_parts (h : q ≠ 0 ∨ 0 ≤ e) : (q ^ e).num.natAbs = (powerNum q e).natAbs ^ e.natAbs ∧
    (q ^ e).den = (powerDen q e).natAbs ^ e.natAbs := by
  rcases lt_or_ge e 0 with he | he
  · obtain ⟨k, rfl⟩ : ∃ k : ℕ, e = -(k : ℤ) := ⟨e.natAbs, by omega⟩
    have hq : (q ^ k).num ≠ 0 := Rat.num_ne_zero.mpr (pow_ne_zero k (h.resolve_right (by omega)))
    rw [zpow_neg, zpow_natCast, Rat.num_inv, Rat.den_inv, if_neg hq, Int.natAbs_mul, Int.natAbs_sign_of_ne_zero hq]
    have hk : 0 < k := by omega
    simp [powerNum, powerDen, hk, Int.natAbs_pow]
  · obtain ⟨k, rfl⟩ : ∃ k : ℕ, e = (k : ℤ) := ⟨e.natAbs, by omega⟩
    simp [powerNum, powerDen, not_lt.mpr he, Int.natAbs_pow]

lemma powInt_eq (q : ℚ) (e : ℤ) : (exact q).powInt e =
    if exponentLimit ≤ e.natAbs then
      .approx (Float.pow (Float.ofInt (powerNum q e) / Float.ofInt (powerDen q e)) (Float.ofInt e.natAbs))
    else match powFits (powerNum q e) e.natAbs, powFits (powerDen q e) e.natAbs with
      | some n, some d => ofParts n d
      | _, _ => .approx (Float.pow (Float.ofInt (powerNum q e) / Float.ofInt (powerDen q e)) (Float.ofInt e.natAbs)) :=
  rfl

/-- A power that fits is exact below the limit. -/
lemma powInt_eq_exact (h : q ≠ 0 ∨ 0 ≤ e) (hnum : (q ^ e).num.natAbs < 2 ^ 127) (hden : (q ^ e).den < 2 ^ 127)
    (he : e.natAbs < exponentLimit) : (exact q).powInt e = .exact (q ^ e) := by
  obtain ⟨hn, hd⟩ := zpow_parts h
  rw [hn] at hnum
  rw [hd] at hden
  have hparts : (exact q).powInt e = ofParts (powerNum q e ^ e.natAbs) (powerDen q e ^ e.natAbs) := by
    rw [powInt_eq, if_neg (by omega), powFits_eq_some hnum, powFits_eq_some hden]
  have hexact : ((exact q).powInt e).isExact = true := by
    rw [hparts, ofParts_isExact]
    rw [← Int.natAbs_pow] at hnum hden
    exact ⟨pow_ne_zero _ (powerDen_ne_zero h), by rw [bound_eq]; omega, by rw [bound_eq]; omega⟩
  cases hr : (exact q).powInt e with
  | exact r => rw [(powInt_exact hr).1]
  | approx v =>
    rw [hr] at hexact
    cases hexact

lemma powInt_large (he : exponentLimit ≤ e.natAbs) : ((exact q).powInt e).isExact = false := by
  rw [powInt_eq, if_pos he]
  rfl

/-- Beyond the limit the only powers that fit are those of zero, one and minus one. -/
lemma base_of_large_exponent (h : q ≠ 0 ∨ 0 ≤ e) (hnum : (q ^ e).num.natAbs < 2 ^ 127) (hden : (q ^ e).den < 2 ^ 127)
    (he : exponentLimit ≤ e.natAbs) : q = 0 ∨ q = 1 ∨ q = -1 := by
  obtain ⟨hn, hd⟩ := zpow_parts h
  have hk : 128 ≤ e.natAbs := by
    simp only [exponentLimit] at he
    omega
  have hn2 := small_of_pow_lt hk (hn ▸ hnum)
  have hd2 := small_of_pow_lt hk (hd ▸ hden)
  have hsmall : q.num.natAbs < 2 ∧ q.den < 2 := by
    unfold powerNum at hn2
    unfold powerDen at hd2
    split at hn2
    · next hneg =>
      rw [if_pos hneg] at hd2
      exact ⟨hd2, hn2⟩
    · next hneg =>
      rw [if_neg hneg] at hd2
      exact ⟨hn2, hd2⟩
  have hone : q.den = 1 := by
    have := q.den_pos
    omega
  have hcases : q.num = 0 ∨ q.num = 1 ∨ q.num = -1 := by omega
  rw [← Rat.num_div_den q, hone]
  rcases hcases with hc | hc | hc <;> rw [hc] <;> simp

/-- A power whose numerator and denominator are below `2 ^ 127` is exact if and only if the exponent is below `2 ^ 32` in
magnitude. The powers that fit but are not exact are those of zero, one and minus one. -/
theorem powInt_exact_iff (h : q ≠ 0 ∨ 0 ≤ e) (hnum : (q ^ e).num.natAbs < 2 ^ 127) (hden : (q ^ e).den < 2 ^ 127) :
    ((exact q).powInt e = .exact (q ^ e) ↔ e.natAbs < 2 ^ 32) ∧
      (2 ^ 32 ≤ e.natAbs → ((exact q).powInt e).isExact = false ∧ (q = 0 ∨ q = 1 ∨ q = -1)) := by
  have hlimit : exponentLimit = 2 ^ 32 := by decide
  have hlarge (he : 2 ^ 32 ≤ e.natAbs) : ((exact q).powInt e).isExact = false := powInt_large (hlimit ▸ he)
  refine ⟨⟨fun hr => ?_, fun he => powInt_eq_exact h hnum hden (hlimit ▸ he)⟩,
    fun he => ⟨hlarge he, base_of_large_exponent h hnum hden (hlimit ▸ he)⟩⟩
  by_contra he
  have hfalse := hlarge (not_lt.mp he)
  rw [hr] at hfalse
  cases hfalse

/-- The power of minus two with exponent -126 is exact. That of minus one with exponent `2 ^ 53 + 1` is minus one, but it is
not returned as such. -/
theorem powInt_exact_iff_negative : (exact (-2)).powInt (-126) = .exact ((-2) ^ (-126 : ℤ)) ∧
    (-1 : ℚ) ^ (2 ^ 53 + 1 : ℤ) = -1 ∧ ((exact (-1)).powInt (2 ^ 53 + 1)).isExact = false := by
  have hodd : (-1 : ℚ) ^ (2 ^ 53 + 1 : ℤ) = -1 := Odd.neg_one_zpow (by decide)
  have hparts := zpow_parts (q := -2) (e := -126) (Or.inl (by norm_num))
  have hnum : ((-2 : ℚ) ^ (-126 : ℤ)).num.natAbs < 2 ^ 127 := by
    rw [hparts.1]
    decide
  have hden : ((-2 : ℚ) ^ (-126 : ℤ)).den < 2 ^ 127 := by
    rw [hparts.2]
    decide
  refine ⟨(powInt_exact_iff (Or.inl (by norm_num)) hnum hden).1.mpr (by decide), hodd, ?_⟩
  refine ((powInt_exact_iff (q := -1) (Or.inl (by norm_num)) ?_ ?_).2 (by decide)).1
  · rw [hodd]
    decide
  · rw [hodd]
    decide

end PlaneCalculus.Number
