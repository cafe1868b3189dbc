import Mathlib.Algebra.Algebra.Rat
import Mathlib.Algebra.Field.Rat
import Mathlib.Algebra.Group.Commute.Units
import Mathlib.Tactic.Lemma

/-! Whole powers in a commutative ring, negative ones by way of an inversion that is right on the units. -/

namespace PlaneCalculus

class HasInverses (R : Type) [Monoid R] [Inv R] : Prop where
  mul_inv_of_isUnit : ∀ x : R, IsUnit x → x * x⁻¹ = 1

instance : HasInverses ℚ := ⟨fun _ hx => mul_inv_cancel₀ hx.ne_zero⟩

variable {R : Type} [CommRing R]

def Raisable (x : R) (k : Int) : Prop := IsUnit x ∨ 0 ≤ k

@[simp] lemma raisable_zero (x : R) : Raisable x 0 := Or.inr (Int.le_refl 0)

@[simp] lemma raisable_one (x : R) : Raisable x 1 := Or.inr (by decide)

variable [Inv R]

def wholePower (x : R) : Int → R
  | .ofNat n => x ^ n
  | .negSucc n => x⁻¹ ^ (n + 1)

lemma wholePower_natCast (x : R) (n : Nat) : wholePower x (n : Int) = x ^ n := rfl

@[simp] lemma wholePower_zero (x : R) : wholePower x 0 = 1 := pow_zero x

@[simp] lemma wholePower_one (x : R) : wholePower x 1 = x := pow_one x

lemma wholePower_rat (q : ℚ) (k : Int) : wholePower q k = q ^ k := by
  cases k with
  | ofNat n => exact (zpow_natCast q n).symm
  | negSucc n => rw [zpow_negSucc, wholePower, inv_pow]

lemma raisable_rat {q : ℚ} {k : Int} : Raisable q k ↔ q ≠ 0 ∨ 0 ≤ k := by
  rw [Raisable, isUnit_iff_ne_zero]

section Inverses

variable [HasInverses R]

lemma inv_unit (u : Rˣ) : (u : R)⁻¹ = ↑(u⁻¹) := by
  have h := HasInverses.mul_inv_of_isUnit (u : R) u.isUnit
  rw [← Units.mul_right_inj u, h, Units.mul_inv]

lemma wholePower_unit (u : Rˣ) (k : Int) : wholePower (u : R) k = ↑(u ^ k) := by
  cases k with
  | ofNat n => simp [wholePower]
  | negSucc n => simp [wholePower, inv_unit, zpow_negSucc]

@[simp] lemma one_wholePower (k : Int) : wholePower (1 : R) k = 1 := by
  have h := wholePower_unit (1 : Rˣ) k
  simpa using h

lemma wholePower_algebraMap [Algebra ℚ R] {q : ℚ} {k : Int} (h : q ≠ 0 ∨ 0 ≤ k) :
    wholePower (algebraMap ℚ R q) k = algebraMap ℚ R (q ^ k) := by
  rcases h with hq | hk
  · have hu := wholePower_unit (Units.map (algebraMap ℚ R).toMonoidHom (Units.mk0 q hq)) k
    rw [← map_zpow] at hu
    refine hu.trans ?_
    change algebraMap ℚ R ↑(Units.mk0 q hq ^ k) = _
    rw [Units.val_zpow_eq_zpow_val, Units.val_mk0]
  · obtain ⟨n, rfl⟩ := Int.eq_ofNat_of_zero_le hk
    rw [wholePower_natCast, zpow_natCast, map_pow]

variable {x y : R} {a b : Int}

lemma wholePower_add (ha : Raisable x a) (hb : Raisable x b) :
    Raisable x (a + b) ∧ wholePower x (a + b) = wholePower x a * wholePower x b := by
  have hunit (hx : IsUnit x) : wholePower x (a + b) = wholePower x a * wholePower x b := by
    obtain ⟨u, rfl⟩ := hx
    simp only [wholePower_unit, zpow_add, Units.val_mul]
  rcases ha with hx | ha
  · exact ⟨Or.inl hx, hunit hx⟩
  rcases hb with hx | hb
  · exact ⟨Or.inl hx, hunit hx⟩
  obtain ⟨n, rfl⟩ := Int.eq_ofNat_of_zero_le ha
  obtain ⟨m, rfl⟩ := Int.eq_ofNat_of_zero_le hb
  exact ⟨Or.inr (by omega), pow_add x n m⟩

lemma wholePower_wholePower (ha : Raisable x a) (hb : Raisable (wholePower x a) b) :
    Raisable x (a * b) ∧ wholePower x (a * b) = wholePower (wholePower x a) b := by
  have hunit (hx : IsUnit x) : wholePower x (a * b) = wholePower (wholePower x a) b := by
    obtain ⟨u, rfl⟩ := hx
    simp only [wholePower_unit, zpow_mul]
  rcases ha with hx | ha
  · exact ⟨Or.inl hx, hunit hx⟩
  obtain ⟨n, rfl⟩ := Int.eq_ofNat_of_zero_le ha
  rw [wholePower_natCast] at hb
  rcases hb with hx | hb
  · rcases Nat.eq_zero_or_pos n with rfl | hn
    · simp
    · have hx := (isUnit_pow_iff (Nat.pos_iff_ne_zero.mp hn)).mp hx
      exact ⟨Or.inl hx, hunit hx⟩
  · obtain ⟨m, rfl⟩ := Int.eq_ofNat_of_zero_le hb
    refine ⟨Or.inr (Int.mul_nonneg ha hb), ?_⟩
    rw [wholePower_natCast, wholePower_natCast, ← pow_mul]
    rfl

lemma wholePower_mul (h : Raisable (x * y) a) :
    Raisable x a ∧ Raisable y a ∧ wholePower (x * y) a = wholePower x a * wholePower y a := by
  rcases h with h | ha
  · obtain ⟨hx, hy⟩ := IsUnit.mul_iff.mp h
    refine ⟨Or.inl hx, Or.inl hy, ?_⟩
    obtain ⟨u, rfl⟩ := hx
    obtain ⟨v, rfl⟩ := hy
    have h := wholePower_unit (u * v) a
    rw [Units.val_mul] at h
    rw [h, mul_zpow, Units.val_mul, wholePower_unit, wholePower_unit]
  · obtain ⟨n, rfl⟩ := Int.eq_ofNat_of_zero_le ha
    exact ⟨Or.inr ha, Or.inr ha, mul_pow x y n⟩

end Inverses

end PlaneCalculus
