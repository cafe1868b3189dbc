import PlaneCalculus.Proofs.Calculus.LinearPower

/-! Integrals of polynomials in two symbols over the first of them. The second symbol is a number that is not named: the
rules divide by polynomials in it, which vanish at finitely many numbers only. -/

namespace PlaneCalculus.Expr

open Calc Attempt Filter
open MvPolynomial (X pderiv)

-- Where the exact range ends does not matter here.
attribute [local irreducible] Number.fits

variable {T : String → Prop} {b d e f t F : Expr} {v w : String} {fs : List Expr}

/-- One of the two symbols. -/
def InPlane (v w s : String) : Prop := s = v ∨ s = w

/-- At almost every value of the second symbol, the one is an antiderivative of the other. -/
def Integrates (v w : String) (e F : Expr) : Prop := ∀ᶠ y in cofinite, (∀ t, Defined (pointAt v w t y) F) ∧
  IsPrimitive (fun t => value (pointAt v w t y) e) fun t => value (pointAt v w t y) F

namespace Integrates

lemma congr (h : Integrates v w e F) (he : ∀ ρ : String → ℚ, value ρ d = value ρ e) : Integrates v w d F := by
  simpa only [Integrates, he] using h

/-- What is true everywhere. -/
lemma of_values {g : (String → ℚ) → ℚ} (hF : ∀ ρ : String → ℚ, HasValue ρ F (g ρ))
    (hp : ∀ y, IsPrimitive (fun t => value (pointAt v w t y) e) fun t => g (pointAt v w t y)) : Integrates v w e F :=
  .of_forall fun y => ⟨fun t => (hF _).1, by simpa only [(hF _).2] using hp y⟩

end Integrates

/-! ### Constants -/

lemma constant_values (he : e.IsRing) (x : String) : Meets anyHalt (Expr.product .refuse [e, .symbol x]) fun F =>
    ∀ ρ : String → ℚ, HasValue ρ F (value ρ e * ρ x) := by
  refine meets_forall fun ρ => ?_
  have hdefined : ∀ a ∈ [e, .symbol x], Defined ρ a := by simpa using defined_of_ring ρ e he
  simpa using product_value hdefined

lemma integrates_constant (hc : e.isConstantIn v = true) (hF : ∀ ρ : String → ℚ, HasValue ρ F (value ρ e * ρ v)) :
    Integrates v w e F := by
  refine .of_values hF fun y => ?_
  simp only [pointAt, (value_update hc _).1, Function.update_self]
  exact .constant _

lemma constant_first (he : IsFactored (InPlane v w) T e) (hr : e.IsRing) (hc : e.isConstantIn v = true) :
    Meets anyHalt (Expr.product .refuse [e, .symbol v]) fun F => IsFactored (InPlane v w) T F ∧ Integrates v w e F := by
  have hsymbol : IsFactored (InPlane v w) T (.symbol v) := (isBase_symbol (Or.inl rfl)).carries.factored
  have hfactored : Meets anyHalt (Expr.product .refuse [e, .symbol v]) (IsFactored (InPlane v w) T) :=
    productAt_factored _ (by simpa using ⟨he, hsymbol⟩)
  exact (hfactored.and (constant_values hr v)).mono fun F hF => ⟨hF.1, integrates_constant hc hF.2⟩

/-! ### Symbols -/

lemma div_term {p : Expr} {q : ℚ} (hp : IsTerm p) (hq : q ≠ 0) :
    Meets anyHalt (div .refuse p (.num (.exact q))) IsTerm := by
  refine (pow_rational hq (-1)).bind ?_
  rintro r rfl
  exact product_of_terms (by simpa using ⟨hp, Or.inl ⟨_, rfl⟩⟩)

lemma symbolRule_first : Yields (fun F => IsTerm F ∧ Integrates v w (.symbol v) F) (factorRule .refuse v (.symbol v)) := by
  have hterm : Meets anyHalt (do div .refuse (← Expr.pow .refuse (.symbol v) (int 2)) (int 2)) IsTerm :=
    ((keepsTerms_at _).pow_term (.symbol v) 2 (isTerm_raised (p := (v, 1)) Nat.one_pos) (by decide)).bind fun p hp =>
      div_term hp (by norm_num)
  have hvalue : Meets anyHalt (do div .refuse (← Expr.pow .refuse (.symbol v) (int 2)) (int 2)) fun F =>
      ∀ ρ : String → ℚ, HasValue ρ F (ρ v ^ 2 / 2) := by
    refine meets_forall fun ρ => ?_
    refine (pow_value (defined_symbol ρ v) (Or.inr (by decide : (0 : ℤ) ≤ 2))).bind fun p hp => ?_
    refine (div_value hp.1 (defined_int ρ 2) (by simp)).mono fun F hF => ⟨hF.1, ?_⟩
    rw [hF.2, hp.2]
    simp [wholePower_rat]
  refine (yields_lift (meets_anyHalt_true _).self).bind fun p hp => yields_lift ?_
  refine ((hterm.of_bind hp).and (hvalue.of_bind hp)).mono fun F ⟨hF, hv⟩ => ⟨hF, .of_values hv fun y => ?_⟩
  have hlinear := IsPrimitive.linear_power (a := 1) 0 one_ne_zero 1
  simpa [pointAt, div_eq_mul_inv, one_add_one_eq_two] using hlinear

/-! ### Powers -/

/-- A slope in the second symbol alone vanishes at finitely many numbers. -/
lemma IsSlope.eventually_ne {a : Expr} (h : IsSlope v b a) (hb : SymbolsIn (InPlane v w) b) (κ : String → ℚ) :
    ∀ᶠ y in cofinite, value (Function.update κ w y) a ≠ 0 := by
  have hplane := h.symbols _ hb
  refine IsBase.eventually_ne ⟨h.base.normal, ?_, h.base.nonzero⟩ κ
  refine (everywhere_symbolNode a).mpr fun s hs => ?_
  exact ((everywhere_symbolNode a).mp hplane s hs).resolve_left ((everywhere_symbolNode a).mp h.base.symbols s hs)

lemma IsSlope.integrates {a : Expr} (h : IsSlope v b a) (hb : IsBase (InPlane v w) b) (n : ℕ)
    (hF : ∀ ρ : String → ℚ, value ρ a ≠ 0 → Raisable (value ρ b) (n + 1) →
      HasValue ρ F (value ρ b ^ (n + 1 : ℤ) * (((n : ℤ) + 1) * value ρ a)⁻¹)) : Integrates v w (.power b (int n)) F := by
  refine (h.eventually_ne hb.symbols fun _ => 0).mono fun y hy => ?_
  obtain ⟨c, hc⟩ := h.linear hb.normal (Function.update (fun _ => 0) w y)
  have hvalue (t : ℚ) := hF (pointAt v w t y) (by rw [pointAt, (hc t).2]; exact hy) (Or.inr (by omega))
  refine ⟨fun t => (hvalue t).1, ?_⟩
  have hlinear := IsPrimitive.linear_power c hy n
  simp only [(hvalue _).2, value_power, wholePower_natCast]
  simpa only [pointAt, (hc _).1, (hc _).2, Int.cast_natCast, zpow_natCast, ← Nat.cast_succ] using hlinear

lemma linearRule_first (hb : IsBase (InPlane v w) b) (n : ℕ) :
    Yields (fun F => IsFactored (InPlane v w) T F ∧ Integrates v w (.power b (int n)) F)
      (linearPowerRule .refuse v b (int n)) := by
  refine linearPowerRule_yields hb.normal (fun hk => by omega) fun _ a ha => ?_
  have hbase : IsBase (InPlane v w) a := ⟨ha.base.normal, ha.symbols _ hb.symbols, ha.base.nonzero⟩
  have hcarries := powerIntegral_carries (T := T) hb hbase (show (n : ℤ) + 1 ≠ 0 by omega)
  have hvalues := powerIntegral_values hb.normal ha.base.normal (show (n : ℤ) + 1 ≠ 0 by omega)
  exact (hcarries.and hvalues).mono fun F hF => ⟨hF.1.factored, ha.integrates hb n hF.2⟩

lemma linearRule_term {n : ℕ} (hn : 0 < n) : Yields IsTerm (linearPowerRule .refuse v (.symbol v) (int n)) := by
  have hsymbol : IsTerm (.symbol v) := isTerm_raised (p := (v, 1)) Nat.one_pos
  refine linearPowerRule_yields (isNormal_term hsymbol) (fun hk => by omega) fun _ a ha => ?_
  have hone : polynomial a = MvPolynomial.C (1 : ℚ) := by
    rw [ha.derivative, polynomial, value_symbol, MvPolynomial.pderiv_X_self, map_one]
  obtain rfl : a = .num (.exact 1) := ha.base.normal.eq_exact hone
  refine ((keepsTerms_at _).pow_term _ _ hsymbol (by omega)).bind fun p hp => ?_
  refine (product_rationals ((n + 1 : Int) : ℚ) 1).bind ?_
  rintro d rfl
  refine div_term hp ?_
  simp
  positivity

lemma plainFactor_first (hf : IsPlainFactor f) (hv : f.isConstantIn v = false) :
    Yields (fun F => IsTerm F ∧ Integrates v w f F) (factorRule .refuse v f) := by
  rcases hf with ⟨q, rfl⟩ | ⟨p, hp, rfl⟩
  · cases hv
  · rcases raised_cases p with ⟨h, -⟩ | h <;> rw [h] at hv ⊢
    · obtain rfl : p.1 = v := by simpa [isConstantIn] using hv
      exact symbolRule_first
    · obtain rfl : p.1 = v := by simpa [isConstantIn, int] using hv
      have hbase : IsBase (InPlane p.1 w) (.symbol p.1) := isBase_symbol (Or.inl rfl)
      refine powerRule_yields nofun (fun hk => by omega) ?_
      exact ((linearRule_term hp).and (linearRule_first (T := anySymbol) hbase p.2)).mono fun F hF => ⟨hF.1, hF.2.2⟩

/-! ### Products -/

section Product

variable {A B R : Expr → Prop} {integrate : Expr → Attempt Expr}

/-- The constant factors are multiplied by the integral of the others. -/
lemma productIntegral_first (hring : ∀ f ∈ fs, f.IsRing)
    (hconstants : Meets anyHalt (Expr.product .refuse (fs.filter (·.isConstantIn v))) A)
    (hinner : ∀ d, Expr.product .refuse (dependents v fs) = .ok d →
      Yields (fun F => B F ∧ Integrates v w (.times (dependents v fs)) F) (innerRule .refuse v integrate (dependents v fs) d))
    (hproduct : ∀ c G, A c → B G → Meets anyHalt (Expr.product .refuse [c, G]) R) :
    Yields (fun F => R F ∧ Integrates v w (.times fs) F) (productIntegral .refuse v integrate fs) := by
  have hvalues : Meets anyHalt (Expr.product .refuse (fs.filter (·.isConstantIn v))) fun c => ∀ ρ : String → ℚ,
      HasValue ρ c (value ρ (.times (fs.filter (·.isConstantIn v)))) := by
    refine meets_forall fun ρ => ?_
    rw [value_times]
    exact product_value fun f hf => defined_of_ring ρ f (hring f (List.mem_filter.mp hf).1)
  rw [productIntegral_eq]
  refine (yields_lift (hconstants.and hvalues)).bind fun c ⟨hc, hcv⟩ => ?_
  refine (yields_lift (meets_anyHalt_true _).self).bind fun d hd => (hinner d hd).bind fun G ⟨hG, hGv⟩ => ?_
  have hpair : Meets anyHalt (Expr.product .refuse [c, G]) fun F => ∀ ρ : {ρ : String → ℚ // Defined ρ G},
      HasValue ρ.1 F (value ρ.1 c * value ρ.1 G) := by
    refine meets_forall fun ρ => ?_
    have hdefined : ∀ e ∈ [c, G], Defined ρ.1 e := by simpa using ⟨(hcv ρ.1).1, ρ.2⟩
    simpa using product_value hdefined
  refine yields_lift (((hproduct c G hc hG).and hpair).mono fun F ⟨hF, hFv⟩ => ⟨hF, hGv.mono fun y ⟨hdefined, hy⟩ => ?_⟩)
  have hF (t : ℚ) := hFv ⟨pointAt v w t y, hdefined t⟩
  have hconst : (Expr.times (fs.filter (·.isConstantIn v))).isConstantIn v = true := by
    refine symbolsIn_ne_iff.mp ((everywhere_times _).mpr ⟨trivial, fun f hf => symbolsIn_ne_iff.mpr ?_⟩)
    exact (List.mem_filter.mp hf).2
  have hconstant (t : ℚ) : value (pointAt v w t y) (.times (fs.filter (·.isConstantIn v))) = _ := (value_update hconst t).1
  refine ⟨fun t => (hF t).1, ?_⟩
  simp only [(hF _).2, (hcv _).2, value_partition (v := v) _ fs, hconstant]
  exact hy.smul _

end Product

/-! ### Polynomials in normal form -/

lemma aloneRule_first {B : Expr → Prop} (h : ∀ f ∈ fs, Yields (fun F => B F ∧ Integrates v w f F) (factorRule .refuse v f)) :
    Yields (fun F => B F ∧ Integrates v w (.times fs) F) (aloneRule .refuse v fs) := by
  rcases fs with _ | ⟨f, _ | ⟨g, fs⟩⟩
  · exact yields_failure
  · exact (h f (List.mem_singleton_self f)).mono fun F hF => ⟨hF.1, hF.2.congr fun ρ => by simp⟩
  · exact yields_failure

lemma term_first (n : ℕ) (ht : IsTerm t) :
    Yields (fun F => IsTerm F ∧ Integrates v w t F) (antiderivativeAt .refuse v n t) := by
  cases n with
  | zero => exact trivial
  | succ n =>
    have hfactors := ht.factors
    unfold antiderivativeAt
    split
    · next hc =>
      have hsymbol : IsTerm (.symbol v) := isTerm_raised (p := (v, 1)) Nat.one_pos
      have hterm : Meets anyHalt (Expr.product .refuse [t, .symbol v]) IsTerm := product_of_terms (by simpa using ⟨ht, hsymbol⟩)
      exact yields_lift ((hterm.and (constant_values ht.isRing v)).mono fun F hF => ⟨hF.1, integrates_constant hc hF.2⟩)
    · next hmoves =>
      have hsingle (hfactors : IsPlainFactor t) : Yields (fun F => IsTerm F ∧ Integrates v w t F)
          (factorRule .refuse v t <|> expandedRule .refuse (antiderivativeAt .refuse v n) t) :=
        (plainFactor_first hfactors (Bool.eq_false_iff.mpr hmoves)).orElse (expandedRule_normal (isNormal_term ht))
      cases t with
      | times fs =>
        have hpart {gs : List Expr} (hgs : ∀ g ∈ gs, IsPlainFactor g) : Meets anyHalt (Expr.product .refuse gs) IsTerm :=
          product_of_terms fun g hg => (hgs g hg).isTerm
        have hdependents : ∀ f ∈ dependents v fs, IsPlainFactor f ∧ f.isConstantIn v = false := fun f hf => by
          obtain ⟨hmem, hmoves⟩ := List.mem_filter.mp hf
          exact ⟨hfactors f hmem, by simpa using hmoves⟩
        refine productIntegral_first (fun f hf => (hfactors f hf).isTerm.isRing)
          (hpart fun f hf => hfactors f (List.mem_filter.mp hf).1) (fun d hd => ?_)
          fun c G hc hG => product_of_terms (by simpa using ⟨hc, hG⟩)
        refine innerRule_yields ?_ ?_ fun f hf g u heq => ?_
        · exact aloneRule_first fun f hf => plainFactor_first (hdependents f hf).1 (hdependents f hf).2
        · exact expandedRule_normal (isNormal_term ((hpart fun f hf => (hdependents f hf).1).value hd))
        · subst heq
          exact (hdependents _ hf).1.isTerm.isRing.1
      | plus ts =>
        obtain ⟨q, h⟩ | ⟨p, -, h⟩ := hfactors _ (List.mem_singleton_self _)
        · cases h
        · cases h ▸ raised_isSymbolPower p
      | num | symbol | constant | power | call => exact hsingle (hfactors _ (List.mem_singleton_self _))

lemma integrates_sum {ts Fs : List Expr} (h : List.Forall₂ (Integrates v w) ts Fs)
    (hF : ∀ ρ : String → ℚ, (∀ G ∈ Fs, Defined ρ G) → HasValue ρ F (Fs.map (value ρ)).sum) : Integrates v w (.plus ts) F := by
  have hall : ∀ᶠ y in cofinite, (∀ G ∈ Fs, ∀ t, Defined (pointAt v w t y) G) ∧
      IsPrimitive (fun t => (ts.map (value (pointAt v w t y))).sum) fun t => (Fs.map (value (pointAt v w t y))).sum := by
    clear hF
    induction h with
    | nil => exact .of_forall fun y => ⟨List.forall_mem_nil _, .zero⟩
    | cons h _ ih =>
      filter_upwards [h, ih] with y hy hys
      exact ⟨List.forall_mem_cons.mpr ⟨hy.1, hys.1⟩, hy.2.add hys.2⟩
  refine hall.mono fun y ⟨hdefined, hy⟩ => ?_
  have hvalue (t : ℚ) := hF (pointAt v w t y) fun G hG => hdefined G hG t
  exact ⟨fun t => (hvalue t).1, by simpa only [value_plus, (hvalue _).2] using hy⟩

/-- Term by term. -/
lemma sum_first {R : Expr → Prop} {ts : List Expr} {integrate : Expr → Attempt Expr} {Q : Expr → Prop}
    (h : ∀ t ∈ ts, Yields (fun F => Q F ∧ Integrates v w t F) (integrate t))
    (hsum : ∀ Fs, (∀ F ∈ Fs, Q F) → Meets anyHalt (Expr.sum .refuse Fs) R) :
    Yields (fun F => R F ∧ Integrates v w (.plus ts) F) (do Expr.sum .refuse (← ts.mapM integrate) : Attempt Expr) := by
  have hQ := yields_mapM fun t ht => (h t ht).mono fun _ hF => hF.1
  have hI := yields_mapM_forall₂ fun t ht => (h t ht).mono fun _ hF => hF.2
  refine (hQ.and hI).bind fun Fs ⟨hQ, hFs⟩ => yields_lift ?_
  have hvalues : Meets anyHalt (Expr.sum .refuse Fs) fun F => ∀ ρ : {ρ : String → ℚ // ∀ G ∈ Fs, Defined ρ G},
      HasValue ρ.1 F (Fs.map (value ρ.1)).sum := meets_forall fun ρ => sum_value ρ.2
  exact ((hsum Fs hQ).and hvalues).mono fun F hF => ⟨hF.1, integrates_sum hFs fun ρ hρ => hF.2 ⟨ρ, hρ⟩⟩

/-- The integral of a polynomial in normal form is zero or a product of polynomials in normal form. -/
lemma normal_first (n : ℕ) (he : IsNormal e) (hs : SymbolsIn (InPlane v w) e) :
    Yields (fun F => IsFactored (InPlane v w) T F ∧ Integrates v w e F) (antiderivativeAt .refuse v n e) := by
  cases hc : e.isConstantIn v with
  | true =>
    cases n with
    | zero => exact trivial
    | succ n =>
      unfold antiderivativeAt
      rw [if_pos hc]
      exact yields_lift (constant_first (he.factored hs) he.isRing hc)
  | false =>
    have hnormal : Yields (fun F => IsNormal F ∧ Integrates v w e F) (antiderivativeAt .refuse v n e) := by
      have hterms := he.terms
      have hterm {t : Expr} (n : ℕ) (ht : IsTerm t) : Yields (fun F => IsNormal F ∧ Integrates v w t F)
          (antiderivativeAt .refuse v n t) := (term_first n ht).mono fun F hF => ⟨isNormal_term hF.1, hF.2⟩
      cases e with
      | plus ts =>
        cases n with
        | zero => exact trivial
        | succ n =>
          unfold antiderivativeAt
          rw [if_neg (by simp [hc])]
          exact sum_first (fun t ht => hterm n (hterms t ht)) fun Fs hFs => sum_of_normal hFs
      | num | symbol | constant | times | power | call => exact hterm n (hterms _ (List.mem_singleton_self _))
    have hsymbols : Yields (SymbolsIn (InPlane v w)) (antiderivativeAt .refuse v n e) :=
      antiderivativeAt_kept symbols_kept (show SymbolsIn (InPlane v w) (.symbol v) from Or.inl rfl) n hs
    exact (hnormal.and hsymbols).mono fun F hF => ⟨hF.1.1.factored hF.2, hF.1.2⟩

/-! ### Multiplied out -/

lemma isRing_of_expandable {d : Expr} (h : Everywhere ExpandableNode d) : d.IsRing := by
  refine Everywhere.mono (fun e he => ?_) d h
  cases e with
  | power b x =>
    obtain ⟨k, rfl, hk, -⟩ := he
    obtain ⟨n, rfl⟩ := Int.eq_ofNat_of_zero_le hk.le
    exact ⟨n, rfl⟩
  | num | symbol | constant | plus | times | call => exact he

lemma expandedRule_first (n : ℕ) (hd : Everywhere ExpandableNode d) (hs : SymbolsIn (InPlane v w) d) :
    Yields (fun F => IsFactored (InPlane v w) T F ∧ Integrates v w d F)
      (expandedRule .refuse (antiderivativeAt .refuse v n) d) := by
  have hvalues : Meets anyHalt (expand .refuse d) fun r => ∀ ρ : String → ℚ, HasValue ρ r (value ρ d) :=
    meets_forall fun ρ => expand_value d (defined_of_ring ρ d (isRing_of_expandable hd))
  have hnormal := (expand_normal d hd).and (expand_kept (symbols_kept (o := .refuse)) d hs)
  refine (yields_lift (hnormal.and hvalues)).bind fun r ⟨⟨hr, hrs⟩, hv⟩ => (yields_guard _).bind fun _ _ => ?_
  exact (normal_first n hr hrs).mono fun F hF => ⟨hF.1, hF.2.congr fun ρ => (hv ρ).2.symm⟩

/-! ### Powers of polynomials -/

/-- Products and powers as the constructors leave them; of numbers nothing is said. -/
def BuiltNode : Expr → Prop
  | .times fs => ProductShape fs
  | .power b x => x.isZero = false ∧ x.isInt 1 = false ∧ ∀ k, x.integer? = some k → b.KeepsExponent k
  | _ => True

lemma built_nodeLaw : NodeLaw BuiltNode where
  real _ := trivial
  parts _ _ _ _ := trivial
  abs _ _ := trivial
  constant _ := trivial
  call _ _ _ := trivial
  plus _ _ := trivial
  times _ h _ := h
  shape _ h := h
  power _ _ hz hone hk _ := ⟨hz, hone, hk⟩

abbrev IsBuilt (e : Expr) : Prop := Everywhere BuiltNode e

lemma IsBuilt.power {k : Int} (h : IsBuilt (.power b (int k))) : k ≠ 0 ∧ k ≠ 1 ∧ b.KeepsExponent k := by
  obtain ⟨hz, hone, hk⟩ := h.node
  refine ⟨?_, ?_, hk k rfl⟩
  · rintro rfl
    cases hz
  · rintro rfl
    cases hone

lemma PowerFactor.not_call {S : String → Prop} (h : PowerFactor S T f) (g : Func) (u : Expr) : f ≠ .call g u := by
  rintro rfl
  cases h.carriesCall

/-- A factor that stands as it is comes out of a product of it alone. -/
lemma product_alone {S : String → Prop} (h : PowerFactor S T f) (hb : IsBuilt f) (hr : f.IsRational)
    (hn : f.isNumber = false) (hflat : ∀ gs, f ≠ .times gs) : Meets anyHalt (Expr.product .refuse [f]) (· = f) := by
  have hplain : f.isExponential = false := by
    have hcall := h.not_call
    cases f with
    | call g u => exact absurd rfl (hcall g u)
    | num | symbol | constant | plus | times | power => rfl
  have hdistinct : DistinctFactors [f] :=
    ⟨by simpa using hn, by simpa using hflat, by simpa using hplain, List.pairwise_singleton _ f⟩
  have hraised (n : ℕ) : Meets anyHalt (powerAt .refuse n f.baseExponent.1 f.baseExponent.2) (· = f) := by
    cases f with
    | power b x =>
      cases n with
      | zero => trivial
      | succ n =>
        obtain ⟨-, k, hk⟩ := hr
        obtain rfl := eq_int_of_integer? hk
        obtain ⟨h0, h1, hkeeps⟩ := hb.power
        rw [baseExponent, powerAt, powerStep_kept h0 h1 hkeeps]
        rfl
    | num | symbol | constant | plus | times | call => exact powerAt_one _ n _
  have hfactors : [f].flatMap factors = [f] := flatMap_factors hdistinct.flat
  show Meets anyHalt (productAt .refuse (callDepth (productSize [f])) [f]) _
  cases callDepth (productSize [f]) with
  | zero => trivial
  | succ n =>
    have hargs : nonNumbers ([f].flatMap factors) = [f] := by rw [hfactors, nonNumbers_eq hdistinct.number]
    refine meets_anyHalt_iff.mpr fun r hr => ?_
    obtain ⟨c, hc, hone⟩ := (productStep_distinct hargs hdistinct (by simpa using hraised n)).value hr
    rw [hone hfactors] at hc
    obtain ⟨gs, hgs, rfl⟩ := finishProduct_one.value hc
    rw [List.perm_singleton.mp hgs]
    rfl

section Factors

variable (hf : PowerFactor (InPlane v w) T f) (hring : f.IsRing)
include hf hring

lemma powerFactor_first (hv : f.isConstantIn v = false) :
    Yields (fun F => IsFactored (InPlane v w) T F ∧ Integrates v w f F) (factorRule .refuse v f) := by
  cases hf with
  | base hb =>
    cases f with
    | symbol x =>
      obtain rfl : x = v := by simpa [isConstantIn] using hv
      have hsymbols : Yields (SymbolsIn (InPlane x w)) (factorRule .refuse x (.symbol x)) :=
        factorRule_kept symbols_kept (show InPlane x w x from Or.inl rfl) (show InPlane x w x from Or.inl rfl)
      exact (symbolRule_first.and hsymbols).mono fun F hF => ⟨(isNormal_term hF.1.1).factored hF.2, hF.1.2⟩
    | power b x =>
      obtain ⟨s, n, rfl, rfl⟩ := hb.normal.power
      exact powerRule_yields nofun (fun hk => by omega) (linearRule_first (isBase_symbol hb.symbols.2.1) n)
    | call => exact absurd hb.normal IsNormal.not_call
    | num => cases hv
    | constant | plus | times => exact yields_failure
  | power hb =>
    obtain ⟨n, rfl⟩ := hring.1
    refine powerRule_yields ?_ (fun hk => by omega) (linearRule_first hb n)
    rintro g u rfl
    exact hb.normal.not_call

/-- A power of a sum is multiplied out, or it is too large and stays as it is. -/
lemma expanded_powerFactor (n : ℕ) (hbuilt : IsBuilt f) (hs : SymbolsIn (InPlane v w) f) :
    Yields (fun F => IsFactored (InPlane v w) T F ∧ Integrates v w f F)
      (expandedRule .refuse (antiderivativeAt .refuse v n) f) := by
  cases hf with
  | base hb => exact expandedRule_normal hb.normal
  | @power b x hb =>
    obtain ⟨m, rfl⟩ := hring.1
    obtain ⟨h0, h1, hkeeps⟩ := hbuilt.power
    by_cases hlimit : (m : ℤ) ≤ expansionLimit
    · refine expandedRule_first n ⟨⟨m, rfl, by omega, fun _ _ => hlimit⟩, ?_, rfl⟩ hs
      exact hb.normal.everywhere normalLaw_expandable
    · refine expandedRule_self (isRational_of_defined (fun _ => (0 : ℚ)) _ (defined_of_ring _ _ hring)) ?_
      rw [expand]
      refine hb.normal.expand_self.bind ?_
      rintro r rfl
      have hpow : Expr.pow .refuse r (int m) = .ok (.power r (int m)) := powerStep_kept h0 h1 hkeeps
      have hexpand : expandPower .refuse r (int m) = Expr.pow .refuse r (int m) := by
        unfold expandPower
        split
        · next k hk _ =>
          obtain rfl : (m : ℤ) = k := by simpa using hk
          exact if_neg fun h => hlimit h.2
        · rfl
      rw [hexpand, hpow]
      rfl

end Factors

/-! ### Polynomials -/

/-- If several factors depend on the symbol, powers of sums in their product are small enough to be multiplied out. -/
def SmallProduct (v : String) (t : Expr) : Prop := 2 ≤ (dependents v t.factors).length →
  ∀ d, Expr.product .approximate (dependents v t.factors) = .ok d → Everywhere ExpandableNode d

/-- A product of powers of polynomials in two symbols. -/
structure IsSummandIn (v w : String) (t : Expr) : Prop where
  ring : t.IsRing
  built : IsBuilt t
  carries : Carries (InPlane v w) anySymbol [] t.factors
  small : SmallProduct v t

lemma factors_nodes {P : Expr → Prop} (h : Everywhere P e) : ∀ f ∈ e.factors, Everywhere P f := by
  cases e with
  | times fs => exact ((everywhere_times fs).mp h).2
  | num | symbol | constant | plus | power | call => exact List.forall_mem_singleton.mpr h

lemma PowerFactor.symbols {S : String → Prop} (h : PowerFactor S T f) (hring : f.IsRing) : SymbolsIn S f := by
  cases h with
  | base hb => exact hb.symbols
  | power hb =>
    obtain ⟨n, rfl⟩ := hring.1
    exact ⟨trivial, hb.symbols, trivial⟩

lemma IsSummandIn.factor (h : IsSummandIn v w t) : ∀ f ∈ t.factors, PowerFactor (InPlane v w) anySymbol f ∧ f.IsRing ∧
    IsBuilt f ∧ ∀ gs, f ≠ .times gs := fun f hf =>
  ⟨h.carries.all f hf, factors_nodes h.ring f hf, built_nodeLaw.factors h.built f hf⟩

lemma IsSummandIn.symbols (h : IsSummandIn v w t) : SymbolsIn (InPlane v w) t := by
  have hfactors : ∀ f ∈ t.factors, SymbolsIn (InPlane v w) f := fun f hf => (h.factor f hf).1.symbols (h.factor f hf).2.1
  cases t with
  | times fs => exact (everywhere_times fs).mpr ⟨trivial, hfactors⟩
  | num | symbol | constant | plus | power | call => exact hfactors _ (List.mem_singleton_self _)

lemma times_first (n : ℕ) (h : IsSummandIn v w (.times fs)) (hv : allConstantIn v fs = false) :
    Yields (fun F => IsFactored (InPlane v w) anySymbol F ∧ Integrates v w (.times fs) F)
      (productIntegral .refuse v (antiderivativeAt .refuse v n) fs) := by
  have hfactor := h.factor
  have hdependents : ∀ f ∈ dependents v fs, f ∈ fs ∧ f.isConstantIn v = false := fun f hf => by
    obtain ⟨hmem, hmoves⟩ := List.mem_filter.mp hf
    exact ⟨hmem, by simpa using hmoves⟩
  have hpart {gs : List Expr} (hgs : ∀ g ∈ gs, g ∈ fs) :
      Meets anyHalt (Expr.product .refuse gs) (IsFactored (InPlane v w) anySymbol) :=
    productAt_factored _ fun g hg => (carries_nil ((hfactor g (hgs g hg)).1.factors)).factored
  refine productIntegral_first (fun f hf => (hfactor f hf).2.1) (hpart fun f hf => (List.mem_filter.mp hf).1) (fun d hd => ?_)
    fun c G hc hG => productAt_factored _ (by simpa using ⟨hc, hG⟩)
  refine innerRule_yields ?_ ?_ fun f hf => (hfactor f (hdependents f hf).1).1.not_call
  · refine aloneRule_first fun f hf => ?_
    obtain ⟨hmem, hmoves⟩ := hdependents f hf
    exact powerFactor_first (hfactor f hmem).1 (hfactor f hmem).2.1 hmoves
  · have hsymbols : ∀ f ∈ dependents v fs, SymbolsIn (InPlane v w) f := fun f hf => by
      obtain ⟨hf, hring, -⟩ := hfactor f (hdependents f hf).1
      exact hf.symbols hring
    rcases hlist : dependents v fs with _ | ⟨f, _ | ⟨g, gs⟩⟩
    · rw [dependents_eq_nil.mp hlist] at hv
      cases hv
    · obtain ⟨hmem, hmoves⟩ := hdependents f (hlist ▸ List.mem_singleton_self f)
      obtain ⟨hf, hring, hbuilt, hflat⟩ := hfactor f hmem
      have hn : f.isNumber = false := by
        cases f with
        | num => cases hmoves
        | symbol | constant | plus | times | power | call => rfl
      have hrational := isRational_of_defined (fun _ => (0 : ℚ)) f (defined_of_ring _ f hring)
      rw [hlist] at hd
      obtain rfl : d = f := (product_alone hf hbuilt hrational hn hflat).value hd
      refine (expanded_powerFactor hf hring n hbuilt (hsymbols d (hlist ▸ List.mem_singleton_self d))).mono fun F hF => ?_
      exact ⟨hF.1, hF.2.congr fun ρ => by simp⟩
    · rw [← hlist]
      have hagrees := (product_consistent (dependents v fs)).agrees d hd
      have hexpandable := h.small (by rw [show (Expr.times fs).factors = fs from rfl, hlist]; simp) d hagrees
      have hds := (symbols_kept.product hsymbols).value hd
      refine (expandedRule_first n hexpandable hds).mono fun F hF => ⟨hF.1, hF.2.congr fun ρ => ?_⟩
      rw [value_times]
      exact ((product_value fun f hf => defined_of_ring ρ f (hfactor f (hdependents f hf).1).2.1).value hd).2.symm

/-- What is found for a product is a product again. -/
lemma summand_first (n : ℕ) (h : IsSummandIn v w t) :
    Yields (fun F => IsFactored (InPlane v w) anySymbol F ∧ Integrates v w t F) (antiderivativeAt .refuse v n t) := by
  have hs := h.symbols
  cases n with
  | zero => exact trivial
  | succ n =>
    cases hc : t.isConstantIn v with
    | true =>
      unfold antiderivativeAt
      rw [if_pos hc]
      exact yields_lift (constant_first h.carries.factored h.ring hc)
    | false =>
      have hfactor := h.factor
      have hsingle (hfactors : t.factors = [t]) : Yields
          (fun F => IsFactored (InPlane v w) anySymbol F ∧ Integrates v w t F)
          (factorRule .refuse v t <|> expandedRule .refuse (antiderivativeAt .refuse v n) t) := by
        obtain ⟨hf, hring, hbuilt, -⟩ := hfactor t (hfactors ▸ List.mem_singleton_self t)
        exact (powerFactor_first hf hring hc).orElse (expanded_powerFactor hf hring n hbuilt hs)
      cases t with
      | plus ts =>
        have hf := (hfactor _ (List.mem_singleton_self _)).1
        have hbase := (hf.entry (T := anySymbol)).1
        exact normal_first (n + 1) hbase.normal hs
      | times fs =>
        unfold antiderivativeAt
        rw [if_neg (by simp [hc])]
        exact times_first n h hc
      | num | symbol | constant | power | call =>
        unfold antiderivativeAt
        rw [if_neg (by simp [hc])]
        exact hsingle rfl

/-- A sum of numbers and products of powers of polynomials. -/
structure IsPlanar (v w : String) (e : Expr) : Prop where
  ring : e.IsRing
  summands : ∀ t ∈ e.terms, IsExact t ∨ IsSummandIn v w t

lemma IsPlanar.termsCarry (h : IsPlanar v w e) : TermsCarry (InPlane v w) anySymbol [] e :=
  fun t ht => (h.summands t ht).imp_right IsSummandIn.carries

lemma exact_first (n : ℕ) (q : ℚ) : Yields (fun F => IsFactored (InPlane v w) T F ∧ Integrates v w (.num (.exact q)) F)
    (antiderivativeAt .refuse v n (.num (.exact q))) :=
  normal_first n (isNormal_term (Or.inl ⟨q, rfl⟩)) (symbolsIn_num _)

/-- A sum that does not contain the symbol is multiplied by it as a whole. -/
lemma product_whole (ts : List Expr) (x : String) : Meets anyHalt (Expr.product .refuse [.plus ts, .symbol x]) fun F =>
    ∃ gs, IsPair x ts gs ∧ F = .times gs := by
  have hpair : IsPair x ts [.plus ts, .symbol x] := Or.inr rfl
  show Meets anyHalt (productAt .refuse (callDepth (productSize [.plus ts, .symbol x])) [.plus ts, .symbol x]) _
  cases callDepth (productSize [.plus ts, .symbol x]) with
  | zero => trivial
  | succ n =>
    have hraised : ∀ f ∈ [.plus ts, .symbol x], Meets anyHalt (powerAt .refuse n f.baseExponent.1 f.baseExponent.2) (· = f) :=
      fun f hf => hpair.baseExponent f hf ▸ powerAt_one .refuse n f
    have hargs : nonNumbers ([.plus ts, .symbol x].flatMap factors) = [.plus ts, .symbol x] := rfl
    refine meets_anyHalt_iff.mpr fun r hr => ?_
    obtain ⟨c, hc, hone⟩ := (productStep_distinct hargs hpair.distinct hraised).value hr
    rw [hone rfl] at hc
    obtain ⟨gs, hgs, rfl⟩ := finishProduct_one.value hc
    have hgs : IsPair x ts gs := .of_perm (hgs.trans (.swap _ _ _))
    refine ⟨gs, hgs, ?_⟩
    rcases hgs with rfl | rfl <;> rfl

lemma planar_first (n : ℕ) (h : IsPlanar v w e) :
    Yields (fun F => (TermsCarry (InPlane v w) anySymbol [] F ∨ ∃ ts gs, e = .plus ts ∧ IsPair v ts gs ∧ F = .times gs) ∧
      Integrates v w e F) (antiderivativeAt .refuse v n e) := by
  have hterm (n : ℕ) {t : Expr} (ht : t ∈ e.terms) :
      Yields (fun F => IsFactored (InPlane v w) anySymbol F ∧ Integrates v w t F) (antiderivativeAt .refuse v n t) := by
    obtain ⟨q, rfl⟩ | ht := h.summands t ht
    · exact exact_first n q
    · exact summand_first n ht
  cases e with
  | plus ts =>
    cases n with
    | zero => exact trivial
    | succ n =>
      unfold antiderivativeAt
      split
      · next hc =>
        refine yields_lift (((product_whole ts v).and (constant_values h.ring v)).mono ?_)
        rintro F ⟨⟨gs, hgs, rfl⟩, hF⟩
        exact ⟨Or.inr ⟨ts, gs, rfl, hgs, rfl⟩, integrates_constant hc hF⟩
      · exact (sum_first (Q := IsFactored (InPlane v w) anySymbol) (R := TermsCarry (InPlane v w) anySymbol [])
          (fun t ht => hterm n ht) fun Fs hFs => sum_carries cargo_nil fun F hF => (hFs F hF).termsCarry).mono
            fun F hF => ⟨Or.inl hF.1, hF.2⟩
  | num | symbol | constant | times | power | call =>
    exact (hterm n (List.mem_singleton_self _)).mono fun F hF => ⟨Or.inl hF.1.termsCarry, hF.2⟩

end PlaneCalculus.Expr
