import Mathlib.Algebra.Polynomial.Roots
import PlaneCalculus.Proofs.Calculus.OneSymbol
import PlaneCalculus.Proofs.Calculus.PolynomialIntegral
import PlaneCalculus.Proofs.Calculus.SoundRules
import PlaneCalculus.Proofs.Expr.Factored

/-! The rule for powers of linear bases, in values. A base in normal form whose derivative does not contain the symbol is
linear in it, and the slope that is divided by is the coefficient; it is other than zero but at finitely many points. -/

namespace PlaneCalculus.Expr

open Calc Attempt Filter
open MvPolynomial (pderiv)

-- Where the exact range ends does not matter here.
attribute [local irreducible] Number.fits

variable {S T : String → Prop} {a b e f : Expr} {v w : String} {q : ℚ} {k : Int} {fs : List Expr}

/-! ### Values -/

variable {κ : String → ℚ}

lemma value_update (h : e.isConstantIn v = true) (t : ℚ) : value (Function.update κ v t) e = value κ e ∧
    (Defined (Function.update κ v t) e ↔ Defined κ e) :=
  value_congr (symbolsIn_ne_iff.mpr h) fun _ hs => Function.update_of_ne hs t κ

lemma value_along (h : e.IsRing) (t : ℚ) : value (Function.update κ v t) e = (along v κ (polynomial e)).eval t := by
  rw [value_of_ring _ e h, eval_along]

/-! ### Slopes -/

/-- The slope of a base. -/
structure IsSlope (v : String) (b a : Expr) : Prop where
  base : IsBase (· ≠ v) a
  derivative : polynomial a = pderiv v (polynomial b)
  symbols : ∀ S, SymbolsIn S b → SymbolsIn S a

lemma slope_of_normal (hb : IsNormal b) : Yields (IsSlope v b) (slope .refuse v b) := by
  have hsymbols : Meets anyHalt (derivative .refuse v b) fun a => ∀ S : {S // SymbolsIn S b}, SymbolsIn S.1 a :=
    meets_forall fun S => derivative_kept symbols_kept b S.2
  refine (yields_lift ((derivative_normal hb).and hsymbols)).bind fun a ⟨⟨hn, hd⟩, hs⟩ => (yields_guard _).bind fun _ hg =>
    yields_pure ?_
  rw [Bool.and_eq_true, Bool.not_eq_true'] at hg
  exact ⟨⟨hn, symbolsIn_ne_iff.mpr hg.2, hg.1⟩, hd, fun S hS => hs ⟨S, hS⟩⟩

lemma IsSlope.linear (h : IsSlope v b a) (hb : IsNormal b) (κ : String → ℚ) : ∃ c, ∀ t,
    value (Function.update κ v t) b = value κ a * t + c ∧ value (Function.update κ v t) a = value κ a := by
  have hconst (t : ℚ) : value (Function.update κ v t) a = value κ a := (value_update (symbolsIn_ne_iff.mp h.base.symbols) t).1
  have hslope : along v κ (pderiv v (polynomial b)) = Polynomial.C (value κ a) := by
    refine Polynomial.funext fun t => ?_
    rw [← h.derivative, ← value_along h.base.normal.isRing, hconst, Polynomial.eval_C]
  obtain ⟨c, hc⟩ := linear_of_slope hslope
  exact ⟨c, fun t => ⟨(value_along hb.isRing t).trans (hc t), hconst t⟩⟩

/-- A polynomial in one symbol, other than zero, vanishes at finitely many points only. -/
lemma IsBase.eventually_ne (h : IsBase (· = w) a) (κ : String → ℚ) :
    ∀ᶠ y in cofinite, value (Function.update κ w y) a ≠ 0 := by
  have hring := h.normal.isRing
  have hne : along w κ (polynomial a) ≠ 0 := by
    intro hzero
    refine Bool.eq_false_iff.mp h.nonzero (h.normal.isZero_iff.mpr (hring.polynomial_eq fun ρ => ?_))
    have hagree : ∀ s, s = w → ρ s = Function.update κ w (ρ w) s := by
      rintro s rfl
      exact (Function.update_self s (ρ s) κ).symm
    rw [(value_congr h.symbols hagree).1, value_along hring, hzero, Polynomial.eval_zero, map_zero]
  refine (Polynomial.finite_setOfPred_isRoot hne).subset fun y hy => ?_
  rw [Set.mem_compl_iff, Set.mem_ofPred_eq, not_not, value_along hring] at hy
  exact hy

/-! ### The rule -/

/-- A number times a polynomial in normal form is in normal form. -/
lemma product_scaled_normal (q : ℚ) (h : IsNormal e) : Meets anyHalt (Expr.product .refuse [.num (.exact q), e]) IsNormal := by
  have hterms := h.terms
  have hscaled (n : ℕ) {t : Expr} (ht : IsTerm t) : Meets anyHalt (productAt .refuse n [.num (.exact q), t]) IsTerm :=
    (keepsTerms_at n).product_terms _ (by simpa [factors] using ⟨Or.inl ⟨q, rfl⟩, ht.factors⟩)
  cases e with
  | plus ts =>
    refine productAt_sum (q := q) _ rfl (fun m hm => ?_) (by simp [factors, scale]) (fun _ => isNormal_term (Or.inl ⟨0, rfl⟩))
      (fun _ => h) fun m _ => ?_
    · obtain rfl : m = .exact q := by simpa [factors] using hm
      rfl
    · exact (meets_mapM_forall fun t ht => hscaled m (hterms t ht)).bind fun us hus =>
        sumAt_normal m fun u hu => isNormal_term (hus u hu)
  | num | symbol | constant | times | power | call =>
    exact (hscaled _ (hterms _ (List.mem_singleton_self _))).mono fun r hr => isNormal_term hr

/-- What the rule comes to for a whole exponent other than `-1`. -/
def powerIntegral (b a : Expr) (k : Int) : Calc Expr := do
  let raised ← Expr.pow .refuse b (int (k + 1))
  let divisor ← Expr.product .refuse [int (k + 1), a]
  div .refuse raised divisor

lemma linearPowerRule_yields {post : Expr → Prop} (hb : IsNormal b)
    (hlog : k = -1 → ∀ a, IsSlope v b a → Meets anyHalt (div .refuse (Func.log.of b) a) post)
    (hpower : k ≠ -1 → ∀ a, IsSlope v b a → Meets anyHalt (powerIntegral b a k) post) :
    Yields post (linearPowerRule .refuse v b (int k)) := by
  refine (slope_of_normal hb).bind fun a ha => ?_
  have hminus : (int k).isInt (-1) = true ↔ k = -1 := by simp [isInt]
  split
  · next hk => exact yields_lift (hlog (hminus.mp hk) a ha)
  · next hk =>
    have hne : k ≠ -1 := fun h => hk (hminus.mpr h)
    refine (yields_lift (sum_ints k 1)).bind fun r hr => ?_
    subst hr
    have h := hpower hne a ha
    refine (yields_lift (meets_anyHalt_true (Expr.pow .refuse b (int (k + 1)))).self).bind fun p hp => ?_
    refine (yields_lift (meets_anyHalt_true (Expr.product .refuse [int (k + 1), a])).self).bind fun d hd => ?_
    exact yields_lift ((h.of_bind hp).of_bind hd)

lemma powerIntegral_value {ρ : String → ℚ} (hb : Defined ρ b) (ha : Defined ρ a) (hk : k + 1 ≠ 0) (hne : value ρ a ≠ 0)
    (hr : Raisable (value ρ b) (k + 1)) : Meets anyHalt (powerIntegral b a k)
      (HasValue ρ · (value ρ b ^ (k + 1) * ((k + 1) * value ρ a)⁻¹)) := by
  refine (pow_value hb hr).bind fun p hp => ?_
  have hfactors : ∀ e ∈ [int (k + 1), a], Defined ρ e := by simpa using ha
  refine (product_value hfactors).bind fun d hd => ?_
  have hdivisor : value ρ d = (k + 1) * value ρ a := by simpa using hd.2
  have hnonzero : value ρ d ≠ 0 := by
    rw [hdivisor]
    exact mul_ne_zero (by exact_mod_cast hk) hne
  refine (div_value hp.1 hd.1 hnonzero).mono fun F hF => ⟨hF.1, ?_⟩
  rw [hF.2, hp.2, hdivisor, wholePower_rat, div_eq_mul_inv]

lemma powerIntegral_values (hb : IsNormal b) (ha : IsNormal a) (hk : k + 1 ≠ 0) :
    Meets anyHalt (powerIntegral b a k) fun F => ∀ ρ : String → ℚ, value ρ a ≠ 0 → Raisable (value ρ b) (k + 1) →
      HasValue ρ F (value ρ b ^ (k + 1) * ((k + 1) * value ρ a)⁻¹) :=
  meets_anyHalt_iff.mpr fun _ hF _ hne hr =>
    (powerIntegral_value (defined_of_ring _ b hb.isRing) (defined_of_ring _ a ha.isRing) hk hne hr).value hF

lemma powerIntegral_carries (hb : IsBase S b) (ha : IsBase S a) (hk : k + 1 ≠ 0) :
    Meets anyHalt (powerIntegral b a k) fun F => Carries S T [] F.factors := by
  refine (pow_carries (T := T) hb (isExponent_int (k + 1))).bind fun p hp => ?_
  have hnormal := product_scaled_normal ((k + 1 : Int) : ℚ) ha.normal
  have hsymbols := (symbols_kept (S := S) (o := .refuse)).product_pair (symbolsIn_num (.ofInt (k + 1))) ha.symbols
  have hfactors : ∀ e ∈ [int (k + 1), a], Defined (MvPolynomial.X : String → MvPolynomial String ℚ) e := by
    simpa using ha.normal.defined
  refine ((hnormal.and hsymbols).and (product_value hfactors)).bind fun d ⟨⟨hn, hs⟩, _, hvalue⟩ => ?_
  have hd : IsBase S d := by
    refine ⟨hn, hs, Bool.eq_false_iff.mpr fun hz => ?_⟩
    rw [hn.isZero_iff, polynomial, hvalue] at hz
    have hproduct : ((k + 1 : Int) : MvPolynomial String ℚ) * polynomial a = 0 := by simpa [polynomial] using hz
    refine Bool.eq_false_iff.mp ha.nonzero (ha.normal.isZero_iff.mpr ?_)
    exact (mul_eq_zero.mp hproduct).resolve_left (by exact_mod_cast hk)
  exact (pow_carries hd (isExponent_int (-1))).bind fun r hr => product_pair_carries cargo_nil hp hr

/-! ### Attempts that lead nowhere -/

/-- What is multiplied out already is not tried once more. -/
lemma expandedRule_self {post : Expr → Prop} {integrate : Expr → Attempt Expr} (hr : e.IsRational)
    (h : Meets anyHalt (expand .refuse e) (· = e)) : Yields post (expandedRule .refuse integrate e) := by
  refine (yields_lift h).bind ?_
  rintro r rfl
  refine (yields_guard _).bind fun _ hg => ?_
  rw [show (r == r) = true from same_self r hr] at hg
  cases hg

lemma expandedRule_normal {post : Expr → Prop} {integrate : Expr → Attempt Expr} (h : IsNormal e) :
    Yields post (expandedRule .refuse integrate e) :=
  expandedRule_self (isRational_of_defined _ e h.defined) h.expand_self

/-- Without calls among the factors there are no parts to integrate. -/
lemma innerRule_yields {post : Expr → Prop} {integrate : Expr → Attempt Expr} {d : Expr}
    (halone : Yields post (aloneRule .refuse v fs)) (hexpanded : Yields post (expandedRule .refuse integrate d))
    (hcalls : ∀ f ∈ fs, ∀ g u, f ≠ .call g u) : Yields post (innerRule .refuse v integrate fs d) :=
  halone.orElse (hexpanded.orElse (partsRule_declines hcalls).yields)

/-- A whole exponent other than `-1` leaves the rule for linear bases. -/
lemma powerRule_yields {post : Expr → Prop} (hb : ∀ g u, b ≠ .call g u)
    (hquadratic : k = -1 → Yields post (inverseQuadraticRule .refuse v b (int k)))
    (h : Yields post (linearPowerRule .refuse v b (int k))) : Yields post (powerRule .refuse v b (int k)) := by
  unfold powerRule
  rw [if_pos (show (int k).isConstantIn v = true from rfl)]
  refine (squaredCallRule_declines hb).yields.orElse (Yields.orElse ?_ h)
  by_cases hk : k = -1
  · exact hquadratic hk
  · exact (inverseQuadraticRule_declines (Or.inl (by simpa [isInt] using hk))).yields

lemma value_partition (ρ : String → ℚ) (fs : List Expr) : value ρ (.times fs) =
    value ρ (.times (fs.filter (·.isConstantIn v))) * value ρ (.times (dependents v fs)) := by
  induction fs with
  | nil => simp [dependents]
  | cons f fs ih =>
    rw [value_times, value_times, value_times] at ih ⊢
    rw [List.map_cons, List.prod_cons, ih]
    cases hf : f.isConstantIn v <;> simp [dependents, hf] <;> ring

end PlaneCalculus.Expr
