import Mathlib.Algebra.MvPolynomial.PDeriv
import Mathlib.Algebra.Polynomial.Derivative
import Mathlib.Analysis.Calculus.Deriv.Polynomial
import Mathlib.MeasureTheory.Integral.IntervalIntegral.FundThmCalculus
import Mathlib.Topology.Algebra.Polynomial

/-! Polynomials in one symbol, the others having values. Their antiderivatives are polynomials again, and the difference of
two values of an antiderivative is the integral. -/

namespace PlaneCalculus

open Polynomial
open MvPolynomial (pderiv)

variable {v w : String} {κ : String → ℚ}

/-! ### One symbol -/

/-- The polynomial in one symbol that is left when the others have values. -/
noncomputable def along (v : String) (κ : String → ℚ) : MvPolynomial String ℚ →ₐ[ℚ] ℚ[X] :=
  MvPolynomial.aeval fun s => if s = v then X else C (κ s)

lemma eval_along (p : MvPolynomial String ℚ) (t : ℚ) :
    (along v κ p).eval t = MvPolynomial.aeval (Function.update κ v t) p := by
  have hhom : (aeval t).comp (along v κ) = MvPolynomial.aeval (Function.update κ v t) := by
    refine MvPolynomial.algHom_ext fun s => ?_
    by_cases hs : s = v
    · subst hs; simp [along]
    · simp [along, hs]
  exact DFunLike.congr_fun hhom p

lemma derivative_along (p : MvPolynomial String ℚ) : derivative (along v κ p) = along v κ (pderiv v p) := by
  induction p using MvPolynomial.induction_on with
  | C q => simp [along]
  | add p q hp hq => simp [hp, hq]
  | mul_X p s hp =>
    have hs : derivative (along v κ (MvPolynomial.X s)) = along v κ (pderiv v (MvPolynomial.X s)) := by
      by_cases hs : s = v
      · subst hs; simp [along]
      · simp [along, hs, MvPolynomial.pderiv_X_of_ne hs]
    rw [map_mul, derivative_mul, hp, hs, MvPolynomial.pderiv_mul, map_add, map_mul, map_mul]

/-! ### Antiderivatives -/

lemma eq_C_of_derivative_eq_zero {p : ℚ[X]} (h : derivative p = 0) : ∃ c, p = C c :=
  ⟨_, eq_C_of_natDegree_eq_zero (derivative_eq_zero.mp h)⟩

/-- The values of a polynomial, and those of a polynomial it is the derivative of. -/
def IsPrimitive (f F : ℚ → ℚ) : Prop := ∃ P : ℚ[X], (∀ t, f t = P.derivative.eval t) ∧ ∀ t, F t = P.eval t

namespace IsPrimitive

variable {f g F G : ℚ → ℚ}

lemma zero : IsPrimitive 0 0 := ⟨0, by simp, by simp⟩

lemma add (hf : IsPrimitive f F) (hg : IsPrimitive g G) : IsPrimitive (f + g) (F + G) := by
  obtain ⟨P, hf, hF⟩ := hf
  obtain ⟨Q, hg, hG⟩ := hg
  exact ⟨P + Q, fun t => by simp [hf, hg], fun t => by simp [hF, hG]⟩

lemma smul (c : ℚ) (hf : IsPrimitive f F) : IsPrimitive (c • f) (c • F) := by
  obtain ⟨P, hf, hF⟩ := hf
  exact ⟨C c * P, fun t => by simp [hf], fun t => by simp [hF]⟩

/-- Two antiderivatives differ by a constant. -/
lemma sub_eq (hF : IsPrimitive f F) (hG : IsPrimitive f G) (a b : ℚ) : F b - F a = G b - G a := by
  obtain ⟨P, hf, hF⟩ := hF
  obtain ⟨Q, hg, hG⟩ := hG
  have hderivative : derivative (P - Q) = 0 := by
    refine Polynomial.funext fun t => ?_
    rw [derivative_sub, eval_sub, ← hf, ← hg, sub_self, eval_zero]
  obtain ⟨c, hc⟩ := eq_C_of_derivative_eq_zero hderivative
  rw [hF, hF, hG, hG, sub_eq_iff_eq_add.mp hc]
  simp

lemma constant (c : ℚ) : IsPrimitive (fun _ => c) fun t => c * t := ⟨C c * X, by simp, by simp⟩

lemma linear_power {a : ℚ} (c : ℚ) (ha : a ≠ 0) (n : ℕ) :
    IsPrimitive (fun t => (a * t + c) ^ n) fun t => (a * t + c) ^ (n + 1) * ((n + 1) * a)⁻¹ := by
  refine ⟨(C a * X + C c) ^ (n + 1) * C ((n + 1) * a)⁻¹, fun t => ?_, fun t => by simp⟩
  have hn : (n + 1 : ℚ) ≠ 0 := by positivity
  simp [derivative_pow]
  field_simp

end IsPrimitive

/-- A polynomial with a constant derivative is linear. -/
lemma linear_of_slope {p : MvPolynomial String ℚ} {a : ℚ} (h : along v κ (pderiv v p) = C a) :
    ∃ c, ∀ t, (along v κ p).eval t = a * t + c := by
  have hderivative : derivative (along v κ p - C a * X) = 0 := by
    rw [derivative_sub, derivative_along, h]
    simp
  obtain ⟨c, hc⟩ := eq_C_of_derivative_eq_zero hderivative
  refine ⟨c, fun t => ?_⟩
  rw [sub_eq_iff_eq_add.mp hc]
  simp [add_comm]

lemma exists_derivative_eq {R : Type} [CommRing R] [Algebra ℚ R] (p : R[X]) : ∃ q : R[X], derivative q = p := by
  induction p using Polynomial.induction_on' with
  | add p q hp hq =>
    obtain ⟨P, rfl⟩ := hp
    obtain ⟨Q, rfl⟩ := hq
    exact ⟨P + Q, derivative_add⟩
  | monomial n c =>
    refine ⟨monomial (n + 1) ((n + 1 : ℚ)⁻¹ • c), ?_⟩
    have hn : (n + 1 : ℚ) ≠ 0 := by positivity
    rw [derivative_monomial, Nat.add_sub_cancel, Algebra.smul_def, mul_right_comm, ← map_natCast (algebraMap ℚ R), ← map_mul,
      Nat.cast_add, Nat.cast_one, inv_mul_cancel₀ hn, map_one, one_mul]

lemma integral_derivative (P : ℝ[X]) (a b : ℝ) : ∫ t in a..b, P.derivative.eval t = P.eval b - P.eval a :=
  intervalIntegral.integral_eq_sub_of_hasDerivAt (fun t _ => P.hasDerivAt t)
    (P.derivative.continuous.intervalIntegrable a b)

/-! ### Two symbols -/

/-- The point where two symbols have values and the others are zero. -/
def pointAt {R : Type} [Zero R] (v w : String) (t s : R) : String → R :=
  Function.update (Function.update (fun _ => 0) w s) v t

/-- The polynomial in the first symbol, with polynomials in the second for its coefficients. -/
noncomputable def nested (v w : String) : MvPolynomial String ℚ →ₐ[ℚ] ℚ[X][X] :=
  MvPolynomial.aeval (pointAt v w X (C X))

lemma eval_nested {R : Type} [CommRing R] [Algebra ℚ R] (p : MvPolynomial String ℚ) (t s : R) :
    ((nested v w p).map (aeval s : ℚ[X] →ₐ[ℚ] R).toRingHom).eval t = MvPolynomial.aeval (pointAt v w t s) p := by
  induction p using MvPolynomial.induction_on with
  | C q =>
    rw [← MvPolynomial.algebraMap_eq, AlgHom.commutes, AlgHom.commutes, Polynomial.algebraMap_apply, Polynomial.map_C, eval_C]
    exact (aeval s : ℚ[X] →ₐ[ℚ] R).commutes q
  | add p q hp hq => rw [map_add, Polynomial.map_add, eval_add, hp, hq, map_add]
  | mul_X p r hp =>
    rw [map_mul, Polynomial.map_mul, eval_mul, hp, map_mul]
    congr 1
    by_cases hv : r = v
    · subst hv; simp [nested, pointAt]
    · by_cases hw : r = w
      · subst hw; simp [nested, pointAt, hv]
      · simp [nested, pointAt, hv, hw]

/-- The integral of a polynomial over one symbol is a polynomial in the other. -/
lemma exists_integral (p : MvPolynomial String ℚ) (v w : String) (a b : ℚ) : ∃ Q : ℚ[X],
    (∀ s : ℚ, ∃ F, IsPrimitive (fun t => MvPolynomial.aeval (pointAt v w t s) p) F ∧ Q.eval s = F b - F a) ∧
    ∀ s : ℝ, ∫ t in (a : ℝ)..b, MvPolynomial.aeval (pointAt v w t s) p = aeval s Q := by
  obtain ⟨A, hA⟩ := exists_derivative_eq (nested v w p)
  have hmap {R : Type} [CommRing R] [Algebra ℚ R] (t s : R) :
      (A.map (aeval s : ℚ[X] →ₐ[ℚ] R).toRingHom).derivative.eval t = MvPolynomial.aeval (pointAt v w t s) p := by
    rw [Polynomial.derivative_map, hA, eval_nested]
  have hlimit {R : Type} [CommRing R] [Algebra ℚ R] (s : R) (c : ℚ) :
      aeval s (A.eval (C c)) = (A.map (aeval s : ℚ[X] →ₐ[ℚ] R).toRingHom).eval (algebraMap ℚ R c) := by
    have h := Polynomial.eval_map_apply (aeval s : ℚ[X] →ₐ[ℚ] R).toRingHom (C c) (p := A)
    simpa using h.symm
  refine ⟨A.eval (C b) - A.eval (C a), fun s => ?_, fun s => ?_⟩
  · refine ⟨fun t => (A.map (aeval s : ℚ[X] →ₐ[ℚ] ℚ).toRingHom).eval t, ⟨_, fun t => (hmap t s).symm, fun t => rfl⟩, ?_⟩
    have hb := hlimit s b
    have ha := hlimit s a
    simp only [coe_aeval_eq_eval] at ha hb
    simpa using congrArg₂ (· - ·) hb ha
  · simp only [← hmap]
    rw [integral_derivative, map_sub, hlimit, hlimit]
    simp

end PlaneCalculus
