import Mathlib.Algebra.DualNumber
import Mathlib.Tactic.LinearCombination
import PlaneCalculus.Proofs.Number.WholePower

/-! Whole powers of dual numbers. The second component follows the power rule, for negative exponents as well. -/

namespace PlaneCalculus

open TrivSqZeroExt

variable {R : Type} [CommRing R] [Inv R]

lemma fst_wholePower (x : DualNumber R) (k : Int) : fst (wholePower x k) = wholePower (fst x) k := by
  cases k with
  | ofNat n => exact fst_pow x n
  | negSucc n => rw [wholePower, wholePower, fst_pow, fst_inv]

lemma snd_wholePower (x : DualNumber R) {k : Int} (hk : k ≠ 0) :
    snd (wholePower x k) = k * wholePower (fst x) (k - 1) * snd x := by
  cases k with
  | ofNat n =>
    obtain ⟨m, rfl⟩ : ∃ m, n = m + 1 := Nat.exists_eq_succ_of_ne_zero fun hn => hk (congrArg Int.ofNat hn)
    have hpred : Int.ofNat (m + 1) - 1 = Int.ofNat m := by simp
    rw [wholePower, hpred, wholePower, snd_pow]
    simp [mul_assoc]
  | negSucc n =>
    have hpred : Int.negSucc n - 1 = Int.negSucc (n + 1) := by omega
    rw [wholePower, hpred, wholePower, snd_pow, fst_inv, snd_inv]
    simp only [Nat.pred_eq_sub_one, Nat.add_sub_cancel, smul_eq_mul, MulOpposite.smul_eq_mul_unop,
      MulOpposite.unop_op, nsmul_eq_mul, Int.cast_negSucc]
    push_cast
    ring

instance [HasInverses R] : HasInverses (DualNumber R) where
  mul_inv_of_isUnit x hx := by
    have h := HasInverses.mul_inv_of_isUnit (fst x) (isUnit_iff_isUnit_fst.mp hx)
    ext
    · rw [fst_mul, fst_inv, h, fst_one]
    · rw [DualNumber.snd_mul, fst_inv, snd_inv, snd_one]
      simp only [smul_eq_mul, MulOpposite.smul_eq_mul_unop, MulOpposite.unop_op]
      linear_combination (-(snd x * (fst x)⁻¹)) * h

omit [Inv R] in
lemma raisable_dual {x : DualNumber R} {k : Int} : Raisable x k ↔ Raisable (fst x) k := by
  rw [Raisable, Raisable, isUnit_iff_isUnit_fst]

end PlaneCalculus
