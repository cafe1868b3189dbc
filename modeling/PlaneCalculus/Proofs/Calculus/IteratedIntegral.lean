import Mathlib.MeasureTheory.Integral.Prod
import Mathlib.Topology.Algebra.MvPolynomial
import PlaneCalculus.Proofs.Calculus.SecondIntegral
import PlaneCalculus.Proofs.Calculus.SteadyIntegral

/-! Integrals over a rectangle. The two orders of integration use different rules and pass through different fractions and
logarithms, but the numbers they end with are the same. -/

namespace PlaneCalculus.Expr

open Calc hiding Steady
open Attempt Filter Polynomial

-- Where the exact range ends does not matter here.
attribute [local irreducible] Number.fits

variable {e : Expr} {v w : String}

/-- A fraction in one symbol with the values of a polynomial: where the integral between two numbers is a number, it is that of
the polynomial. -/
theorem definiteIntegral_second {Q : ℚ[X]} (h : IsFractional w e) (hQ : ∀ᶠ y : ℚ in cofinite, value (fun _ => y) e = Q.eval y)
    (a b : ℚ) : Meets anyHalt (definiteIntegral .refuse w e (.num (.exact a)) (.num (.exact b))) fun r => ∀ D, r = some D →
      ∀ n, D = .num n → ∃ q : ℚ, n = .exact q ∧ q = ∫ s in (a : ℝ)..b, aeval s Q := by
  obtain ⟨P, rfl⟩ := exists_derivative_eq Q
  refine definiteIntegral_meets (fractional_second _ h) fun F hF => ?_
  refine (substitute_parts hF.parts b).bind fun r hr => (substitute_parts hF.parts a).bind fun s hs => ?_
  refine (sub_parts hr.1 hs.1).mono ?_
  rintro _ ⟨hparts, hv⟩ n rfl
  obtain ⟨q, rfl⟩ := hparts.number
  have hq : q = P.eval b - P.eval a := by
    have hvalue := hv fun _ => 0
    rw [hr.2, hs.2, hF.fractions.sub_eq hQ ⟨P, fun t => rfl, fun t => rfl⟩ a b] at hvalue
    simpa using hvalue
  refine ⟨q, rfl, ?_⟩
  have hreal (s : ℝ) : aeval s (Polynomial.derivative P) = (P.map (algebraMap ℚ ℝ)).derivative.eval s := by
    rw [derivative_map, eval_map_algebraMap]
  have hlimit (c : ℚ) : aeval (c : ℝ) P = P.eval c := by simpa using aeval_algebraMap_apply ℝ c P
  simp only [hreal, integral_derivative, eval_map_algebraMap, hlimit, hq]
  push_cast
  rfl

/-- The integral over one symbol and then over another. -/
def iteratedIntegral (o : Overflow) (v w : String) (e : Expr) (vlo vhi wlo whi : Expr) : Calc (Option Expr) := do
  match ← e.definiteIntegral o v vlo vhi with
  | none => return none
  | some inner => inner.definiteIntegral o w wlo whi

lemma definiteIntegral_steady (v : String) (e lo hi : Expr) : Calc.Steady fun o => definiteIntegral o v e lo hi :=
  (antiderivative_steady v e).bind fun r => by
    cases r with
    | none => exact fun _ => rfl
    | some F =>
      exact ((substitute_consistent v hi F).bind fun _ => (substitute_consistent v lo F).bind fun _ =>
        (sub_consistent _ _).bind fun _ => .pure _).steady

lemma iteratedIntegral_steady (v w : String) (e vlo vhi wlo whi : Expr) :
    Calc.Steady fun o => iteratedIntegral o v w e vlo vhi wlo whi :=
  (definiteIntegral_steady v e vlo vhi).bind fun r => by
    cases r with
    | none => exact fun _ => rfl
    | some inner => exact definiteIntegral_steady w inner wlo whi

/-- One order of integration. -/
lemma iteratedIntegral_number (hvw : v ≠ w) (h : IsPlanar v w e) (a b c d : ℚ) :
    Meets anyHalt (iteratedIntegral .refuse v w e (.num (.exact a)) (.num (.exact b)) (.num (.exact c)) (.num (.exact d)))
      fun r => ∀ n, r = some (.num n) → ∃ q : ℚ, n = .exact q ∧
        q = ∫ s in (c : ℝ)..d, ∫ t in (a : ℝ)..b, MvPolynomial.aeval (pointAt v w t s) (polynomial e) := by
  refine (definiteIntegral_first hvw h a b).bind fun r hr => ?_
  cases r with
  | none => nofun
  | some inner =>
    obtain ⟨hinner, Q, hQ, hreal⟩ := hr inner rfl
    simp only [hreal]
    exact (definiteIntegral_second hinner hQ c d).mono fun r hr n hn => hr _ hn n rfl

lemma pointAt_comm {R : Type} [Zero R] (hvw : v ≠ w) (t s : R) : pointAt v w t s = pointAt w v s t :=
  Function.update_comm hvw.symm _ _ _

lemma integral_rectangle_swap (p : MvPolynomial String ℚ) (a b c d : ℝ) :
    ∫ t in a..b, ∫ s in c..d, MvPolynomial.aeval (pointAt v w t s) p =
      ∫ s in c..d, ∫ t in a..b, MvPolynomial.aeval (pointAt v w t s) p := by
  have hpoint : Continuous fun z : ℝ × ℝ => pointAt v w z.1 z.2 :=
    Continuous.update (A := fun _ => ℝ) (Continuous.update (A := fun _ => ℝ) continuous_const w continuous_snd) v continuous_fst
  have hcontinuous : Continuous (Function.uncurry fun t s : ℝ => MvPolynomial.aeval (pointAt v w t s) p) := by
    simp only [MvPolynomial.aeval_def, MvPolynomial.eval₂_eq_eval_map]
    exact (MvPolynomial.continuous_eval _).comp hpoint
  have hcompact : IsCompact (Set.uIcc a b ×ˢ Set.uIcc c d) := isCompact_uIcc.prod isCompact_uIcc
  exact MeasureTheory.intervalIntegral_intervalIntegral_swap ((hcontinuous.continuousOn.integrableOn_compact hcompact).mono_set
    (Set.prod_mono Set.uIoc_subset_uIcc Set.uIoc_subset_uIcc))

/-- A polynomial in two symbols is integrated over a rectangle in both orders. Where both end with a number and the exact range is
not left, both end with the integral. -/
theorem iteratedIntegral_swap (hvw : v ≠ w) (hv : IsPlanar v w e) (hw : IsPlanar w v e) {a b c d : ℚ} {m n : Number}
    (hexact : iteratedIntegral .refuse v w e (.num (.exact a)) (.num (.exact b)) (.num (.exact c)) (.num (.exact d)) ≠
      .error .overflow)
    (hexact' : iteratedIntegral .refuse w v e (.num (.exact c)) (.num (.exact d)) (.num (.exact a)) (.num (.exact b)) ≠
      .error .overflow)
    (hm : iteratedIntegral .approximate v w e (.num (.exact a)) (.num (.exact b)) (.num (.exact c)) (.num (.exact d)) =
      .ok (some (.num m)))
    (hn : iteratedIntegral .approximate w v e (.num (.exact c)) (.num (.exact d)) (.num (.exact a)) (.num (.exact b)) =
      .ok (some (.num n))) :
    ∃ q : ℚ, m = .exact q ∧ n = .exact q ∧
      q = ∫ t in (a : ℝ)..b, ∫ s in (c : ℝ)..d, MvPolynomial.aeval (pointAt v w t s) (polynomial e) := by
  have hm := (iteratedIntegral_steady _ _ _ _ _ _ _ hexact).symm.trans hm
  have hn := (iteratedIntegral_steady _ _ _ _ _ _ _ hexact').symm.trans hn
  obtain ⟨p, rfl, hp⟩ := (iteratedIntegral_number hvw hv a b c d).value hm m rfl
  obtain ⟨q, rfl, hq⟩ := (iteratedIntegral_number hvw.symm hw c d a b).value hn n rfl
  simp only [← pointAt_comm hvw] at hq
  rw [← integral_rectangle_swap, ← hq] at hp
  exact ⟨q, congrArg Number.exact (by exact_mod_cast hp), rfl, hq⟩

/-- The square of the sum of two symbols. -/
def squaredSum : Expr := .power (.plus [.symbol "x", .symbol "y"]) (int 2)

lemma squaredSum_planar (h : InPlane v w "x" ∧ InPlane v w "y") : IsPlanar v w squaredSum := by
  have hsum : sum .refuse [.symbol "x", .symbol "y"] = .ok (.plus [.symbol "x", .symbol "y"]) := by cbv
  have hsymbol (s : String) : IsNormal (.symbol s) := (isBase_symbol (S := anySymbol) trivial).normal
  have hbase : IsBase (InPlane v w) (.plus [.symbol "x", .symbol "y"]) :=
    ⟨(sum_of_normal (by simpa using ⟨hsymbol "x", hsymbol "y"⟩)).value hsum, ⟨trivial, h.1, h.2, trivial⟩, rfl⟩
  have hring : squaredSum.IsRing := ⟨⟨2, rfl⟩, ⟨trivial, trivial, trivial, trivial⟩, rfl⟩
  refine ⟨hring, List.forall_mem_singleton.mpr (Or.inr ⟨hring, ?_, ?_, fun h => ?_⟩)⟩
  · exact ⟨⟨rfl, rfl, fun _ _ => trivial⟩, ⟨trivial, trivial, trivial, trivial⟩, trivial⟩
  · exact carries_nil (List.forall_mem_singleton.mpr (.power hbase rfl (isExponent_int 2) rfl))
  · exact absurd (h.trans (List.length_filter_le _ _)) (by decide : ¬2 ≤ [squaredSum].length)

/-- The integral of `(x + y) ^ 2` over the unit square. -/
theorem iteratedIntegral_swap_square : ∃ q : ℚ,
    iteratedIntegral .approximate "x" "y" squaredSum (int 0) (int 1) (int 0) (int 1) = .ok (some (.num (.exact q))) ∧
    iteratedIntegral .approximate "y" "x" squaredSum (int 0) (int 1) (int 0) (int 1) = .ok (some (.num (.exact q))) ∧
    q = ∫ t in (0 : ℝ)..1, ∫ s in (0 : ℝ)..1, MvPolynomial.aeval (pointAt "x" "y" t s) (polynomial squaredSum) := by
  obtain ⟨m, hm⟩ : ∃ m, iteratedIntegral .refuse "x" "y" squaredSum (int 0) (int 1) (int 0) (int 1) =
      .ok (some (.num m)) := ⟨_, by cbv⟩
  obtain ⟨n, hn⟩ : ∃ n, iteratedIntegral .refuse "y" "x" squaredSum (int 0) (int 1) (int 0) (int 1) =
      .ok (some (.num n)) := ⟨_, by cbv⟩
  have hexact : iteratedIntegral .refuse "x" "y" squaredSum (int 0) (int 1) (int 0) (int 1) ≠ .error .overflow := by
    simp [hm]
  have hexact' : iteratedIntegral .refuse "y" "x" squaredSum (int 0) (int 1) (int 0) (int 1) ≠ .error .overflow := by
    simp [hn]
  have hm' := (iteratedIntegral_steady _ _ _ _ _ _ _ hexact).trans hm
  have hn' := (iteratedIntegral_steady _ _ _ _ _ _ _ hexact').trans hn
  obtain ⟨q, rfl, rfl, hq⟩ := iteratedIntegral_swap (a := 0) (b := 1) (c := 0) (d := 1) (by decide)
    (squaredSum_planar ⟨Or.inl rfl, Or.inr rfl⟩) (squaredSum_planar ⟨Or.inr rfl, Or.inl rfl⟩) hexact hexact' hm' hn'
  exact ⟨q, hm', hn', by simpa using hq⟩

end PlaneCalculus.Expr
