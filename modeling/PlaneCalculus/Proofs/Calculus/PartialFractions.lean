import Mathlib.Analysis.Polynomial.Basic
import Mathlib.LinearAlgebra.Finsupp.LinearCombination
import Mathlib.Topology.Instances.Rat
import PlaneCalculus.Proofs.Calculus.OneSymbol

/-! Partial fractions over the rationals, integrated part by part. Where the integrand turns out to be a polynomial, the
fractions cancel in the antiderivative too. The inverse of zero counts as zero, so that an antiderivative has a value at its
poles as well, that of its other parts. -/

namespace PlaneCalculus

open Filter Polynomial
open scoped Topology

/-- Small far out, and nowhere with more than a simple pole. -/
structure Vanishes (n : ℚ → ℚ) : Prop where
  far : Tendsto n atTop (𝓝 0)
  near : ∀ s, Tendsto (fun y => (y - s) ^ 2 * n y) (𝓝[≠] s) (𝓝 0)

namespace Vanishes

variable {m n : ℚ → ℚ}

lemma zero : Vanishes 0 := ⟨tendsto_const_nhds, fun s => by simp⟩

lemma add (hm : Vanishes m) (hn : Vanishes n) : Vanishes (m + n) where
  far := add_zero (0 : ℚ) ▸ hm.far.add hn.far
  near s := by simpa [mul_add] using (hm.near s).add (hn.near s)

lemma smul (c : ℚ) (hn : Vanishes n) : Vanishes (c • n) where
  far := mul_zero c ▸ hn.far.const_mul c
  near s := by simpa [mul_left_comm] using (hn.near s).const_mul c

end Vanishes

/-- A pole of order two or more. -/
def pole (i : ℚ × ℕ) (y : ℚ) : ℚ := (y - i.1)⁻¹ ^ (i.2 + 2)

/-- What the pole is the derivative of. -/
def poleIntegral (i : ℚ × ℕ) (y : ℚ) : ℚ := -(y - i.1)⁻¹ ^ (i.2 + 1) / (i.2 + 1)

/-- A polynomial, poles of order two or more and something that vanishes make up the one function but for finitely many
points; the other one consists of antiderivatives of the polynomial and the poles. -/
structure Fractions (f F : ℚ → ℚ) (P : ℚ[X]) (a : ℚ × ℕ →₀ ℚ) (n : ℚ → ℚ) : Prop where
  vanishes : Vanishes n
  integrand : f =ᶠ[cofinite] fun y => P.derivative.eval y + Finsupp.linearCombination ℚ pole a y + n y
  integral : ∀ b, F b = P.eval b + Finsupp.linearCombination ℚ poleIntegral a b

def HasFractions (f F : ℚ → ℚ) : Prop := ∃ P a n, Fractions f F P a n

variable {f g F G : ℚ → ℚ}

lemma IsPrimitive.hasFractions (h : IsPrimitive f F) : HasFractions f F := by
  obtain ⟨P, hf, hF⟩ := h
  exact ⟨P, 0, 0, .zero, .of_forall fun y => by simp [hf], fun b => by simp [hF]⟩

namespace HasFractions

lemma congr (h : HasFractions f F) (hfg : f =ᶠ[cofinite] g) : HasFractions g F := by
  obtain ⟨P, a, n, h⟩ := h
  exact ⟨P, a, n, h.vanishes, hfg.symm.trans h.integrand, h.integral⟩

lemma add (hf : HasFractions f F) (hg : HasFractions g G) : HasFractions (f + g) (F + G) := by
  obtain ⟨P, a, m, hf⟩ := hf
  obtain ⟨Q, b, n, hg⟩ := hg
  refine ⟨P + Q, a + b, m + n, hf.vanishes.add hg.vanishes, ?_, fun b => ?_⟩
  · filter_upwards [hf.integrand, hg.integrand] with y hfy hgy
    simp only [Pi.add_apply, hfy, hgy, eval_add, map_add]
    ring
  · simp only [Pi.add_apply, hf.integral, hg.integral, eval_add, map_add]
    ring

lemma smul (c : ℚ) (hf : HasFractions f F) : HasFractions (c • f) (c • F) := by
  obtain ⟨P, a, n, hf⟩ := hf
  refine ⟨c • P, c • a, c • n, hf.vanishes.smul c, ?_, fun b => ?_⟩
  · filter_upwards [hf.integrand] with y hfy
    simp only [Pi.smul_apply, hfy, eval_smul, map_smul, smul_eq_mul]
    ring
  · simp only [Pi.smul_apply, hf.integral, eval_smul, map_smul, smul_eq_mul]
    ring

lemma of_vanishes (h : Vanishes f) : HasFractions f 0 :=
  ⟨0, 0, f, h, .of_forall fun y => by simp, fun b => by simp⟩

/-! ### Powers of linear functions -/

section Linear

variable {a : ℚ} (c : ℚ) (ha : a ≠ 0)
include ha

lemma linear_eq (y : ℚ) : a * y + c = a * (y - -c / a) := by
  field_simp
  ring

lemma linear_pole (k : ℕ) : HasFractions (fun y => (a * y + c)⁻¹ ^ (k + 2))
    fun y => (a * y + c)⁻¹ ^ (k + 1) * (-(k + 1) * a)⁻¹ := by
  have hk : (k + 1 : ℚ) ≠ 0 := by positivity
  refine ⟨0, Finsupp.single (-c / a, k) (a⁻¹ ^ (k + 2)), 0, .zero, .of_forall fun y => ?_, fun b => ?_⟩
  · simp [linear_eq c ha y, pole, mul_pow, mul_comm]
  · simp only [linear_eq c ha b, mul_inv, mul_pow, Finsupp.linearCombination_single, Pi.smul_apply, smul_eq_mul,
      poleIntegral, eval_zero, zero_add, pow_succ a⁻¹, neg_mul, inv_neg]
    field_simp

lemma logarithm : HasFractions (fun y => (a * y + c)⁻¹) 0 := by
  have hsimple : Vanishes fun y => (y - -c / a)⁻¹ := by
    have hfar : Tendsto (fun y => y - -c / a) atTop atTop := by
      simpa only [sub_eq_add_neg, id] using tendsto_atTop_add_const_right atTop (-(-c / a)) tendsto_id
    refine ⟨tendsto_inv_atTop_zero.comp hfar, fun s => ?_⟩
    by_cases hs : s = -c / a
    · have hlimit : Tendsto (fun y => y - s) (𝓝[≠] s) (𝓝 0) :=
        sub_self s ▸ (tendsto_id.sub_const s).mono_left nhdsWithin_le_nhds
      refine hlimit.congr' (eventually_mem_nhdsWithin.mono fun y hy => ?_)
      show y - s = (y - s) ^ 2 * (y - -c / a)⁻¹
      rw [← hs, pow_two, mul_assoc, mul_inv_cancel₀ (sub_ne_zero.mpr hy), mul_one]
    · have hcont : ContinuousAt (fun y => (y - s) ^ 2 * (y - -c / a)⁻¹) s :=
        ((continuousAt_id.sub continuousAt_const).pow 2).mul
          ((continuousAt_id.sub continuousAt_const).inv₀ (sub_ne_zero.mpr hs))
      simpa using hcont.tendsto.mono_left nhdsWithin_le_nhds
  refine (of_vanishes (hsimple.smul a⁻¹)).congr (.of_forall fun y => ?_)
  simp [linear_eq c ha y, mul_comm]

end Linear

lemma arctangent {c : ℚ} (hc : 0 < c) : HasFractions (fun y => (y ^ 2 + c)⁻¹) 0 := by
  have hpos (y : ℚ) : y ^ 2 + c ≠ 0 := by positivity
  refine of_vanishes ⟨?_, fun s => ?_⟩
  · exact tendsto_inv_atTop_zero.comp (tendsto_atTop_add_const_right _ _ (tendsto_pow_atTop two_ne_zero))
  · have hcont : ContinuousAt (fun y => (y - s) ^ 2 * (y ^ 2 + c)⁻¹) s :=
      ((continuousAt_id.sub continuousAt_const).pow 2).mul
        (((continuousAt_id.pow 2).add continuousAt_const).inv₀ (hpos s))
    simpa using hcont.tendsto.mono_left nhdsWithin_le_nhds

end HasFractions

/-! ### Uniqueness -/

section Unique

variable {P : ℚ[X]} {a : ℚ × ℕ →₀ ℚ} {n : ℚ → ℚ}

lemma tendsto_sub_pow (s : ℚ) (k : ℕ) : Tendsto (fun y => (y - s) ^ k) (𝓝[≠] s) (𝓝 (0 ^ k)) :=
  sub_self s ▸ ((tendsto_id.sub_const s).pow k).mono_left nhdsWithin_le_nhds

/-- Near a point only the highest power of its pole is left. -/
lemma tendsto_pole {s : ℚ} {k : ℕ} (i : ℚ × ℕ) (hi : i.2 ≤ k) :
    Tendsto (fun y => (y - s) ^ (k + 2) * pole i y) (𝓝[≠] s) (𝓝 (if i = (s, k) then 1 else 0)) := by
  obtain ⟨r, j⟩ := i
  by_cases hr : r = s
  · subst hr
    have hlimit : (0 : ℚ) ^ (k - j) = if (r, j) = (r, k) then 1 else 0 := by
      rw [zero_pow_eq]
      exact if_congr (by simp only [Prod.mk.injEq, true_and]; omega) rfl rfl
    rw [← hlimit]
    refine (tendsto_sub_pow r (k - j)).congr' (eventually_mem_nhdsWithin.mono fun y hy => ?_)
    have hne : (y - r) ^ (j + 2) ≠ 0 := pow_ne_zero _ (sub_ne_zero.mpr hy)
    show (y - r) ^ (k - j) = (y - r) ^ (k + 2) * (y - r)⁻¹ ^ (j + 2)
    rw [inv_pow, eq_mul_inv_iff_mul_eq₀ hne, ← pow_add]
    congr 1
    simp only at hi ⊢
    omega
  · have hcont : ContinuousAt (fun y => (y - s) ^ (k + 2) * (y - r)⁻¹ ^ (j + 2)) s :=
      ((continuousAt_id.sub continuousAt_const).pow _).mul
        (((continuousAt_id.sub continuousAt_const).inv₀ (sub_ne_zero.mpr (Ne.symm hr))).pow _)
    simpa [hr, pole] using hcont.tendsto.mono_left nhdsWithin_le_nhds

lemma poles_eq_zero (hn : Vanishes n)
    (h : (fun y => P.eval y) =ᶠ[cofinite] fun y => Finsupp.linearCombination ℚ pole a y + n y) : a = 0 := by
  by_contra ha
  obtain ⟨⟨s, k⟩, hi, hmax⟩ := a.support.exists_max_image (·.2) (Finsupp.support_nonempty_iff.mpr ha)
  have hleft : Tendsto (fun y => (y - s) ^ (k + 2) * P.eval y) (𝓝[≠] s) (𝓝 0) := by
    simpa using (tendsto_sub_pow s (k + 2)).mul (P.continuous.continuousAt.tendsto.mono_left nhdsWithin_le_nhds)
  have hsmall : Tendsto (fun y => (y - s) ^ (k + 2) * n y) (𝓝[≠] s) (𝓝 0) := by
    simpa [pow_add, mul_assoc] using (tendsto_sub_pow s k).mul (hn.near s)
  have hpoles : Tendsto (fun y => (y - s) ^ (k + 2) * Finsupp.linearCombination ℚ pole a y) (𝓝[≠] s) (𝓝 (a (s, k))) := by
    have hsum := tendsto_finsetSum a.support fun i hi => (tendsto_pole (s := s) i (hmax i hi)).const_mul (a i)
    have hlimit : ∑ i ∈ a.support, a i * (if i = (s, k) then 1 else 0) = a (s, k) := by
      simp [eq_comm]
    rw [hlimit] at hsum
    refine hsum.congr fun y => ?_
    rw [Finsupp.linearCombination_apply, Finsupp.sum, Finset.sum_apply, Finset.mul_sum]
    exact Finset.sum_congr rfl fun i _ => by simp [mul_left_comm]
  have hright := hpoles.add hsmall
  rw [add_zero] at hright
  have heq : (fun y => (y - s) ^ (k + 2) * P.eval y) =ᶠ[𝓝[≠] s] fun y =>
      (y - s) ^ (k + 2) * Finsupp.linearCombination ℚ pole a y + (y - s) ^ (k + 2) * n y := by
    filter_upwards [h.filter_mono (nhdsNE_le_cofinite s)] with y hy
    rw [hy, mul_add]
  exact Finsupp.mem_support_iff.mp hi (tendsto_nhds_unique (hright.congr' heq.symm) hleft)

lemma fractions_unique (hn : Vanishes n)
    (h : (fun y => P.eval y) =ᶠ[cofinite] fun y => Finsupp.linearCombination ℚ pole a y + n y) : P = 0 ∧ a = 0 := by
  have ha := poles_eq_zero hn h
  refine ⟨?_, ha⟩
  subst ha
  have hfar : Tendsto (fun y => P.eval y) atTop (𝓝 0) := by
    refine hn.far.congr' ?_
    filter_upwards [h.filter_mono atTop_le_cofinite] with y hy
    simpa using hy.symm
  exact leadingCoeff_eq_zero.mp ((P.tendsto_nhds_iff).mp hfar).1

end Unique

/-- If the fractions come to a polynomial but for finitely many points, their antiderivative is one of the polynomial. -/
theorem HasFractions.sub_eq (h : HasFractions f F) (hfg : f =ᶠ[cofinite] g) (hG : IsPrimitive g G) (a b : ℚ) :
    F b - F a = G b - G a := by
  obtain ⟨P, c, n, h⟩ := h
  obtain ⟨Q, hg, hQ⟩ := hG
  have heq : (fun y => (derivative (Q - P)).eval y) =ᶠ[cofinite] fun y => Finsupp.linearCombination ℚ pole c y + n y := by
    filter_upwards [hfg.symm.trans h.integrand] with y hy
    rw [derivative_sub, eval_sub, ← hg, hy]
    ring
  obtain ⟨hzero, rfl⟩ := fractions_unique h.vanishes heq
  refine IsPrimitive.sub_eq (f := g) ⟨P, fun t => ?_, fun t => by simp [h.integral]⟩ ⟨Q, hg, hQ⟩ a b
  rw [hg, ← sub_eq_zero, ← eval_sub, ← derivative_sub, hzero, eval_zero]

end PlaneCalculus
