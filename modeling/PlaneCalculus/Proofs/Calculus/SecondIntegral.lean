import PlaneCalculus.Proofs.Calculus.BetweenLimits
import PlaneCalculus.Proofs.Calculus.PartialFractions
import PlaneCalculus.Proofs.Expr.PoleSum

/-! Integrals of fractions in one symbol. Besides polynomials the rules bring in poles, logarithms and arctangents, which can only
be added and scaled; so an antiderivative is one of the partial fractions of the integrand. -/

namespace PlaneCalculus.Expr

open Calc Attempt Filter Polynomial

-- Where the exact range ends does not matter here.
attribute [local irreducible] Number.fits

variable {S T : String → Prop} {a b d e f F G : Expr} {v w : String} {q : ℚ} {k : Int} {fs : List Expr}

/-- A sum of parts whose values are those of an antiderivative of the partial fractions. -/
structure IntegratesInParts (w : String) (e F : Expr) : Prop where
  parts : IsPartSum (· = w) (HasLimits w) F
  fractions : HasFractions (fun y => value (fun _ => y) e) fun y => value (fun _ => y) F

/-! ### Antiderivatives with values everywhere -/

lemma integratesInParts_of_regular (he : SymbolsIn (· = w) e) (hs : SymbolsIn (· = w) F) (h : Integrates w v e F) :
    IntegratesInParts w e F := by
  obtain ⟨y, hdefined, hy⟩ := h.exists
  have hpoint (ρ : String → ℚ) : ∀ s, s = w → ρ s = pointAt w v (ρ w) y s := by
    rintro s rfl
    simp [pointAt]
  have hvalue {e : Expr} (he : SymbolsIn (· = w) e) (t : ℚ) : value (pointAt w v t y) e = value (fun _ => t) e :=
    (value_congr he (hpoint fun _ => t)).1.symm
  refine ⟨IsPart.partSum (.regular (fun ρ => (value_congr hs (hpoint ρ)).2.mpr (hdefined _)) hs), ?_⟩
  simpa only [hvalue he, hvalue hs] using hy.hasFractions

lemma closed_of_constant (hs : SymbolsIn (· = w) e) (hc : e.isConstantIn w = true) : SymbolsIn noSymbol e := by
  have hne := (everywhere_symbolNode e).mp (symbolsIn_ne_iff.mpr hc)
  exact (everywhere_symbolNode e).mpr fun s hmem => hne s hmem ((everywhere_symbolNode e).mp hs s hmem)

lemma constant_second (hc : e.isConstantIn w = true) (hs : SymbolsIn (· = w) e) (hd : ∃ y : ℚ, Defined (fun _ => y) e) :
    Meets anyHalt (Expr.product .refuse [e, .symbol w]) (IntegratesInParts w e) := by
  obtain ⟨y, hd⟩ := hd
  have hsame (ρ : String → ℚ) : value ρ e = value (fun _ => y) e ∧ (Defined ρ e ↔ Defined (fun _ => y) e) :=
    value_congr (closed_of_constant hs hc) nofun
  have hvalues : Meets anyHalt (Expr.product .refuse [e, .symbol w]) fun F =>
      ∀ ρ : String → ℚ, HasValue ρ F (value (fun _ => y) e * ρ w) := by
    refine meets_forall fun ρ => ?_
    have hdefined : ∀ a ∈ [e, .symbol w], Defined ρ a := by simpa using (hsame ρ).2.mpr hd
    simpa [(hsame ρ).1] using product_value hdefined
  have hw : SymbolsIn (· = w) (.symbol w) := rfl
  refine (hvalues.and (symbols_kept.product_pair hs hw)).mono fun F ⟨hF, hsF⟩ => ⟨IsPart.partSum (.regular (fun ρ => (hF ρ).1) hsF), ?_⟩
  simp only [(hsame _).1, (hF _).2]
  exact (IsPrimitive.constant _).hasFractions

/-! ### Linear bases -/

/-- A base in one symbol with a constant slope is a linear function of it. -/
structure IsLinearIn (w : String) (b : Expr) (α c : ℚ) : Prop where
  slope : α ≠ 0
  values : ∀ y : ℚ, value (fun _ => y) b = α * y + c

lemma IsSlope.linearIn (h : IsSlope w b a) (hb : IsBase (· = w) b) : ∃ α c, a = .num (.exact α) ∧ IsLinearIn w b α c := by
  have hs := h.symbols _ hb.symbols
  obtain ⟨α, rfl⟩ := closed_normal h.base.normal (closed_of_constant hs (symbolsIn_ne_iff.mp h.base.symbols))
  obtain ⟨c, hc⟩ := h.linear hb.normal fun _ => 0
  refine ⟨α, c, rfl, ?_, fun y => ?_⟩
  · rintro rfl
    exact absurd h.base.nonzero (by simp [isZero])
  · have hagree : value (fun _ => y) b = value (Function.update (fun _ => 0) w y) b := (value_congr hb.symbols (by simp)).1
    simpa using hagree.trans (hc y).1

lemma keepsExponent_any {j : Int} (h : b.KeepsExponent k) (hz : b.isZero = false) : b.KeepsExponent j := by
  cases b with
  | num n =>
    obtain ⟨rfl, -⟩ := h
    cases hz
  | symbol | plus => trivial
  | constant c =>
    cases c with
    | pi => trivial
    | e => exact h
  | call f a =>
    cases f with
    | exp => exact h
    | _ => trivial
  | times | power => exact h

/-! ### Calls -/

/-- A root is a product of numbers and of powers of numbers, and so are its powers. -/
lemma powerAt_closed (n : ℕ) (h : Carries noSymbol noSymbol [] e.factors) (h0 : k ≠ 0) (h1 : k ≠ 1) :
    Meets anyHalt (powerAt .refuse n e (int k)) fun r => Carries noSymbol noSymbol [] r.factors := by
  have hfactor (n : ℕ) {f : Expr} (hf : PowerFactor noSymbol noSymbol f) :
      Meets anyHalt (powerAt .refuse n f (int k)) fun r => Carries noSymbol noSymbol [] r.factors := by
    cases hf with
    | base hb => exact (keepsCargo_at n).raised hb (isExponent_int k)
    | @power b x hb _ hx =>
      cases n with
      | zero => trivial
      | succ n =>
        obtain ⟨y, rfl⟩ := closed_normal hx.normal hx.symbols
        obtain ⟨hz, hone⟩ := int_exponent h0 h1
        show Meets anyHalt (powerStep .refuse (productAt .refuse n) (powerAt .refuse n) _ _) _
        unfold powerStep
        rw [if_neg (by simp [hz]), if_neg (by simp [hone])]
        refine (productAt_rationals n y k).bind ?_
        rintro z rfl
        exact (keepsCargo_at n).raised hb ⟨isNormal_term (Or.inl ⟨_, rfl⟩), symbolsIn_num _⟩
  cases e with
  | times fs =>
    cases n with
    | zero => trivial
    | succ n =>
      obtain ⟨hz, hone⟩ := int_exponent h0 h1
      show Meets anyHalt (powerStep .refuse (productAt .refuse n) (powerAt .refuse n) _ _) _
      unfold powerStep
      rw [if_neg (by simp [hz]), if_neg (by simp [hone])]
      refine (meets_mapM_forall fun f hf => hfactor n (h.all f hf)).bind fun gs hgs => ?_
      refine (keepsCargo_at n).carried cargo_nil (carries_nil fun f hf => ?_)
      obtain ⟨g, hg, hf⟩ := List.mem_flatMap.mp hf
      exact (hgs g hg).all f hf
  | num | symbol | constant | plus | power | call => exact hfactor n (h.all _ (List.mem_singleton_self _))

lemma div_closed {S : String → Prop} {cs : List Expr} (hcs : Cargo cs) (ha : Carries S noSymbol cs a.factors)
    (h : Carries noSymbol noSymbol [] e.factors) :
    Meets anyHalt (div .refuse a e) fun r => Carries S noSymbol cs r.factors := by
  refine (powerAt_closed _ h (by decide) (by decide)).bind fun r hr => ?_
  exact product_carries hcs (by simpa using ha.append (hr.mono nofun))

/-- No number is rounded when a number is put for the symbol. -/
lemma substitute_exactTree (h : Carries S T [] e.factors) (q : ℚ) :
    Meets anyHalt (substitute .refuse e w (.num (.exact q))) ExactTree := by
  have hfactor {f : Expr} (hf : PowerFactor S T f) : Meets anyHalt (substitute .refuse f w (.num (.exact q))) ExactTree := by
    have hnormal {b : Expr} (hb : IsNormal b) : Meets anyHalt (substitute .refuse b w (.num (.exact q))) ExactTree :=
      (substitute_normal q hb).mono fun r hr => SoundIn.exact (T := anySymbol) hr.sound
    cases hf with
    | base hb => exact hnormal hb.normal
    | power hb _ hx =>
      simp only [substitute]
      exact (hnormal hb.normal).bind fun b hb => (hnormal hx.normal).bind fun x hx => (keepsExact_at _).pow_exact b x hb hx
  cases e with
  | times fs =>
    simp only [substitute]
    exact (substituteAll_all fun f hf => hfactor (h.all f hf)).bind fun gs hgs => (keepsExact_at _).product_exact gs hgs
  | num | symbol | constant | plus | power | call => exact hfactor (h.all _ (List.mem_singleton_self _))

lemma isCallOf_call {f : Func} (hf : f ≠ .exp) {C : Expr → Prop} (hc : C (.call f a)) : IsCallOf C (.call f a) :=
  ⟨rfl, standing_call (by rintro _ ⟨⟩; exact absurd rfl hf), hc⟩

lemma log_number (p : ℚ) : Func.log.of (.num (.exact p)) = int 0 ∨ Func.log.of (.num (.exact p)) = .call .log (.num (.exact p)) := by
  cases hone : (Expr.num (.exact p)).isInt 1 <;> cases hz : (Expr.num (.exact p)).isZero <;>
    simp [Func.of, Func.exactValue?, hz, hone, Func.atZero?, Func.multipleOfPi?, Func.inverse?]

lemma atan_of (ha : ExactTree a) : Func.atan.of a = if a.isZero then int 0 else .call .atan a := by
  have hpi : (Func.multipleOfPi? a).bind Func.atan.atMultipleOfPi? = none := by
    cases Func.multipleOfPi? a <;> rfl
  cases hz : a.isZero with
  | true => simp [Func.of, Func.exactValue?, hz, Func.atZero?]
  | false =>
    simp only [Func.of, Func.exactValue?, hz, hpi, Func.inverse?]
    cases a with
    | num n =>
      obtain ⟨q, rfl⟩ := Number.exists_exact ha
      rfl
    | symbol | constant | plus | times | power | call => rfl

lemma hasLimits_log (hb : IsBase (· = w) b) : HasLimits w (.call .log b) := by
  intro q
  have hs : SymbolsIn (fun s => s = w ∨ noSymbol s) b := SymbolsIn.mono hb.symbols fun _ => Or.inl
  simp only [substitute]
  refine ((substitute_normal q hb.normal).and (substitute_symbols hs (symbolsIn_num _))).bind fun r ⟨hr, hrs⟩ => ?_
  obtain ⟨p, rfl⟩ := closed_normal hr hrs
  refine (log_number p).imp_right fun (h : Func.log.of (.num (.exact p)) = _) => ?_
  rw [h]
  exact isCallOf_call (by decide) trivial

lemma hasLimits_atan (h : Carries S T [] a.factors) : HasLimits w (.call .atan a) := by
  intro q
  simp only [substitute]
  refine (substitute_exactTree h q).bind fun r hr => ?_
  rw [meets_pure, atan_of hr]
  split
  · exact Or.inl rfl
  · exact Or.inr (isCallOf_call (by decide) trivial)

/-! ### Negative powers -/

section Negative

variable {α c : ℚ} (hb : IsBase (· = w) b) (hl : IsLinearIn w b α c)
include hb hl

lemma poleRule_second (hk : k ≤ -2) (hkeeps : b.KeepsExponent k) :
    Meets anyHalt (powerIntegral b (.num (.exact α)) k) (IntegratesInParts w (.power b (int k))) := by
  have hkeeps' : b.KeepsExponent (k + 1) := keepsExponent_any hkeeps hb.nonzero
  have hpole : IsPole (· = w) (.power b (int (k + 1))) := ⟨b, k + 1, rfl, by omega, hkeeps', hb.normal, hb.symbols⟩
  have hpow : Expr.pow .refuse b (int (k + 1)) = .ok (.power b (int (k + 1))) := powerStep_kept (by omega) (by omega) hkeeps'
  have hslope : ((k + 1 : Int) : ℚ) * α ≠ 0 := mul_ne_zero (by exact_mod_cast (by omega : k + 1 ≠ 0)) hl.slope
  unfold powerIntegral
  rw [hpow]
  refine (product_rationals ((k + 1 : Int) : ℚ) α).bind ?_
  rintro d rfl
  refine (pow_rational hslope (-1)).bind ?_
  rintro r rfl
  refine (IsPart.scaled _ (.pole hpole) (.swap _ _ _)).mono fun F ⟨hF, hv⟩ => ⟨hF.partSum, ?_⟩
  obtain ⟨m, rfl⟩ : ∃ m : ℕ, k = -(m + 2 : ℕ) := ⟨(-k - 2).toNat, by omega⟩
  have hraised : (-(m + 2 : ℕ) : Int) + 1 = -((m + 1 : ℕ) : Int) := by push_cast; ring
  simp only [hv, value_power, wholePower_rat, hl.values, hraised, zpow_neg, zpow_natCast, zpow_one, ← inv_pow]
  have hdivisor : ((-((m + 1 : ℕ) : Int) : Int) : ℚ) * α = -(m + 1) * α := by push_cast; ring
  simp only [hdivisor, mul_comm (-((m : ℚ) + 1) * α)⁻¹]
  exact .linear_pole c hl.slope m

lemma logRule_second (hmoves : b.isConstantIn w = false) :
    Meets anyHalt (div .refuse (Func.log.of b) (.num (.exact α))) (IntegratesInParts w (.power b (int (-1)))) := by
  have hdepends : DependsOn w b := ⟨hb.normal, hmoves⟩
  have hcall : IsCallOf (HasLimits w) (.call .log b) := isCallOf_call (by decide) (hasLimits_log hb)
  rw [hdepends.of_eq]
  refine (pow_rational hl.slope (-1)).bind ?_
  rintro r rfl
  refine (IsPart.scaled _ (.call hcall (carries_call rfl)) (.swap _ _ _)).mono fun F ⟨hF, hv⟩ => ⟨hF.partSum, ?_⟩
  have hzero (ρ : String → ℚ) : value ρ (.call .log b) = 0 := rfl
  simp only [hv, hzero, mul_zero, value_power, wholePower_rat, hl.values, zpow_neg_one]
  exact .logarithm c hl.slope

omit hb hl

lemma arctangentRule_second (hb : IsBase (· = w) b) :
    Yields (IntegratesInParts w (.power b (int (-1)))) (inverseQuadraticRule .refuse w b (int (-1))) := by
  refine (yields_guard _).bind fun _ _ => ?_
  split
  · next first c =>
    have hc : (Number.isExact c) = true := ((everywhere_plus _).mp hb.normal.isRing).2 (.num c) (by simp)
    obtain ⟨c, rfl⟩ := Number.exists_exact hc
    have hsquare : Meets anyHalt (Expr.pow .refuse (.symbol w) (int 2)) fun p => ∀ y : ℚ, value (fun _ => y) p = y ^ 2 := by
      refine meets_forall fun y => ?_
      refine (pow_value (defined_symbol (fun _ => y) w) (Or.inr (by decide : (0 : ℤ) ≤ 2))).mono fun p hp => ?_
      simpa [wholePower_rat] using hp.2
    refine (yields_lift hsquare).bind fun p hp => (yields_guard _).bind fun _ hfirst => (yields_guard _).bind fun _ hpos => ?_
    have hpositive : 0 < c := by
      simp only [Bool.and_eq_true, Bool.not_eq_true', Number.isNegative, decide_eq_false_iff_not, not_lt] at hpos
      refine lt_of_le_of_ne (Rat.num_nonneg.mp hpos.1) fun h => ?_
      rw [← h] at hpos
      exact absurd hpos.2 (by decide)
    have hvalue (y : ℚ) : value (fun _ => y) (.plus [first, .num (.exact c)]) = y ^ 2 + c := by
      have hsame := (value_same (fun _ => y) first p hfirst).1
      simp [hsame, hp]
    have hbase : IsBase noSymbol (.num (.exact c)) := isBase_exact hpositive.ne'
    have hhalf : IsExponent noSymbol half := ⟨isNormal_term (Or.inl ⟨_, rfl⟩), symbolsIn_num _⟩
    refine (yields_lift (pow_carries hbase hhalf)).bind fun root hroot => ?_
    have hsymbol : IsBase (· = w) (.symbol w) := isBase_symbol rfl
    refine (yields_lift (div_closed cargo_nil hsymbol.carries hroot)).bind fun d hd => ?_
    have hcall : IsCallOf (HasLimits w) (.call .atan d) := isCallOf_call (by decide) (hasLimits_atan hd)
    rw [atan_of (SoundIn.exact (hd.sound (List.forall_mem_nil _))), hd.nonzero]
    have hself : Carries noSymbol noSymbol [.call .atan d] (Expr.call .atan d).factors := carries_call rfl
    refine yields_lift ((div_closed (cargo_singleton hcall.standing) hself hroot).mono fun F hF => ?_)
    refine ⟨IsPart.partSum (.call hcall hF), ?_⟩
    simp only [value_of_call hcall hF, value_power, wholePower_rat, hvalue, zpow_neg_one]
    exact .arctangent hpositive
  · exact yields_failure

end Negative

/-! ### Factors -/

lemma negativePower_second (hb : IsBase (· = w) b) (hk : k < 0) (hkeeps : b.KeepsExponent k) (hmoves : b.isConstantIn w = false) :
    Yields (IntegratesInParts w (.power b (int k))) (powerRule .refuse w b (int k)) := by
  refine powerRule_yields ?_ (fun h => ?_) (linearPowerRule_yields hb.normal (fun h a ha => ?_) fun h a ha => ?_)
  · rintro g u rfl
    exact hb.normal.not_call
  · subst h
    exact arctangentRule_second hb
  · obtain ⟨α, c, rfl, hl⟩ := ha.linearIn hb
    subst h
    exact logRule_second hb hl hmoves
  · obtain ⟨α, c, rfl, hl⟩ := ha.linearIn hb
    exact poleRule_second hb hl (by omega) hkeeps

/-- A factor of a fraction. -/
structure IsFractionFactor (w : String) (f : Expr) : Prop where
  built : IsBuilt f
  power : PowerFactor (· = w) anySymbol f
  symbols : SymbolsIn (· = w) f
  defined : ∃ y : ℚ, Defined (fun _ => y) f

lemma IsFractionFactor.cases (h : IsFractionFactor w f) : f.IsRing ∨
    ∃ b k, f = .power b (int k) ∧ IsBase (· = w) b ∧ k < 0 ∧ b.KeepsExponent k := by
  obtain ⟨y, hd⟩ := h.defined
  have hbuilt := h.built
  cases h.power with
  | base hb => exact Or.inl hb.normal.isRing
  | @power b x hb =>
    obtain ⟨k, rfl⟩ := exists_int_of_defined_power _ hd
    rcases lt_or_ge k 0 with hk | hk
    · exact Or.inr ⟨b, k, rfl, hb, hk, hbuilt.power.2.2⟩
    · obtain ⟨n, rfl⟩ := Int.eq_ofNat_of_zero_le hk
      exact Or.inl ⟨⟨n, rfl⟩, hb.normal.isRing, rfl⟩

lemma factorRule_second (h : IsFractionFactor w f) (hmoves : f.isConstantIn w = false) :
    Yields (IntegratesInParts w f) (factorRule .refuse w f) := by
  obtain hring | ⟨b, k, rfl, hb, hk, hkeeps⟩ := h.cases
  · have hplane : PowerFactor (InPlane w "") anySymbol f := h.power.mono fun _ => Or.inl
    have hw : SymbolsIn (· = w) (.symbol w) := rfl
    refine ((powerFactor_first hplane hring hmoves).and (factorRule_kept symbols_kept hw h.symbols)).mono fun F hF => ?_
    exact integratesInParts_of_regular h.symbols hF.2 hF.1.2
  · exact negativePower_second hb hk hkeeps (by simpa [isConstantIn, int] using hmoves)

lemma IsFractionFactor.constant (h : IsFractionFactor w f) (hc : f.isConstantIn w = true) : f.isNumber = true := by
  have hclosed := closed_of_constant h.symbols hc
  obtain ⟨y, hd⟩ := h.defined
  have hbuilt := h.built
  cases h.power with
  | base hb =>
    obtain ⟨q, rfl⟩ := closed_normal hb.normal hclosed
    rfl
  | @power b x hb =>
    -- a power of a number other than zero would have been computed
    obtain ⟨k, rfl⟩ := exists_int_of_defined_power _ hd
    obtain ⟨q, rfl⟩ := closed_normal hb.normal hclosed.2.1
    obtain ⟨hzero, -⟩ := hbuilt.power.2.2
    rw [hzero] at hb
    cases hb.nonzero

/-! ### Products and sums -/

lemma expandedRule_second (h : IsFractional w e) (hcarries : Carries (· = w) anySymbol [] e.factors)
    {integrate : Expr → Attempt Expr} (hi : ∀ r, IsFractional w r → Yields (IntegratesInParts w r) (integrate r)) :
    Yields (IntegratesInParts w e) (expandedRule .refuse integrate e) := by
  have hvalues : Meets anyHalt (expand .refuse e) fun r =>
      ∀ y : {y : ℚ // Defined (fun _ => y) e}, HasValue (fun _ => y.1) r (value (fun _ => y.1) e) :=
    meets_forall fun y => expand_value e y.2
  have hkept := (expand_kept (o := .refuse) built_nodeLaw.kept e h.built).and (expand_kept symbols_kept e h.symbols)
  have hcarried := expand_carries cargo_nil (List.forall_mem_nil _) hcarries
  refine (yields_lift (hcarried.and (hkept.and hvalues))).bind fun r ⟨hr, ⟨hbuilt, hs⟩, hv⟩ => (yields_guard _).bind fun _ _ => ?_
  have hfractional : IsFractional w r := ⟨hbuilt, hr, hs, h.defined.mono fun y hy => (hv ⟨y, hy⟩).1⟩
  refine (hi r hfractional).mono fun F hF => ⟨hF.parts, hF.fractions.congr ?_⟩
  exact h.defined.mono fun y hy => (hv ⟨y, hy⟩).2

lemma IsFractional.terms (h : IsFractional w e) : ∀ t ∈ e.terms, IsFractional w t := fun t ht =>
  ⟨terms_nodes h.built t ht, (h.carries.factored t ht).termsCarry, terms_symbols h.symbols t ht,
    h.defined.mono fun _ hy => (terms_value hy).1 t ht⟩

lemma IsFractional.factors (h : IsFractional w e) (hcarries : Carries (· = w) anySymbol [] e.factors) :
    ∀ f ∈ e.factors, IsFractionFactor w f := fun f hf =>
  ⟨factors_nodes h.built f hf, hcarries.all f hf, factors_symbols h.symbols f hf,
    h.defined.exists.imp fun _ hy => (factors_value hy).1 f hf⟩

/-- The factors that do not contain the symbol are numbers. -/
lemma constants_second (h : ∀ f ∈ fs, IsFractionFactor w f) :
    Meets anyHalt (Expr.product .refuse (fs.filter (·.isConstantIn w))) fun c => ∃ q, c = .num (.exact q) ∧
      ∀ y : ℚ, value (fun _ => y) (.times (fs.filter (·.isConstantIn w))) = q := by
  have hnumber : ∀ f ∈ fs.filter (·.isConstantIn w), f.isNumber = true := fun f hf => by
    obtain ⟨hmem, hc⟩ := List.mem_filter.mp hf
    exact (h f hmem).constant hc
  have hdefined (y : ℚ) : ∀ f ∈ fs.filter (·.isConstantIn w), Defined (fun _ => y) f := fun f hf => by
    obtain ⟨n, rfl⟩ := exists_num_of_isNumber (hnumber f hf)
    obtain ⟨z, hz⟩ := (h _ (List.mem_filter.mp hf).1).defined
    exact hz
  have hvalues : Meets anyHalt (Expr.product .refuse (fs.filter (·.isConstantIn w))) fun c => ∀ y : ℚ,
      HasValue (fun _ => y) c (value (fun _ => y) (.times (fs.filter (·.isConstantIn w)))) := by
    refine meets_forall fun y => ?_
    rw [value_times]
    exact product_value (hdefined y)
  refine ((product_numbers hnumber).and hvalues).mono fun c ⟨hc, hv⟩ => ⟨_, eq_exact_of_number hc (hv 0), fun y => ?_⟩
  obtain rfl := eq_exact_of_number hc (hv y)
  simpa using (hv 0).2

lemma productIntegral_second (h : ∀ f ∈ fs, IsFractionFactor w f) {integrate : Expr → Attempt Expr}
    (hinner : ∀ d, Expr.product .refuse (dependents w fs) = .ok d →
      Yields (IntegratesInParts w (.times (dependents w fs))) (innerRule .refuse w integrate (dependents w fs) d)) :
    Yields (IntegratesInParts w (.times fs)) (productIntegral .refuse w integrate fs) := by
  rw [productIntegral_eq]
  refine (yields_lift (constants_second h)).bind ?_
  rintro _ ⟨q, rfl, hq⟩
  refine (yields_lift (meets_anyHalt_true _).self).bind fun d hd => (hinner d hd).bind fun G hG => ?_
  refine yields_lift ((product_parts (.refl _) hG.parts).mono fun F hF => ⟨hF.1, ?_⟩)
  simp only [hF.2, value_partition (v := w) _ fs, hq]
  exact hG.fractions.smul q

lemma times_second (h : IsFractional w (.times fs)) (hcarries : Carries (· = w) anySymbol [] fs)
    {integrate : Expr → Attempt Expr} (hi : ∀ r, IsFractional w r → Yields (IntegratesInParts w r) (integrate r)) :
    Yields (IntegratesInParts w (.times fs)) (productIntegral .refuse w integrate fs) := by
  have hfactors : ∀ f ∈ fs, IsFractionFactor w f := h.factors hcarries
  have hdependents : ∀ f ∈ dependents w fs, IsFractionFactor w f ∧ f.isConstantIn w = false := fun f hf => by
    obtain ⟨hmem, hmoves⟩ := List.mem_filter.mp hf
    exact ⟨hfactors f hmem, by simpa using hmoves⟩
  refine productIntegral_second hfactors fun d hd => innerRule_yields ?_ ?_ fun f hf => (hdependents f hf).1.power.not_call
  · rcases hlist : dependents w fs with _ | ⟨f, _ | ⟨g, gs⟩⟩
    · exact yields_failure
    · obtain ⟨hf, hmoves⟩ := hdependents f (hlist ▸ List.mem_singleton_self f)
      exact (factorRule_second hf hmoves).mono fun F hF => ⟨hF.parts, by simpa using hF.fractions⟩
    · exact yields_failure
  · have hall : ∀ᶠ y : ℚ in cofinite, ∀ f ∈ dependents w fs, Defined (fun _ => y) f := h.defined.mono fun y hy f hf =>
      (factors_value hy).1 f (List.mem_filter.mp hf).1
    have hcarried : Meets anyHalt (Expr.product .refuse (dependents w fs)) fun d => Carries (· = w) anySymbol [] d.factors :=
      product_carries cargo_nil (carries_nil fun f hf => by
        obtain ⟨g, hg, hf⟩ := List.mem_flatMap.mp hf
        exact (hdependents g hg).1.power.factors f hf)
    have hvalues : Meets anyHalt (Expr.product .refuse (dependents w fs)) fun d =>
        ∀ y : {y : ℚ // ∀ f ∈ dependents w fs, Defined (fun _ => y) f}, HasValue (fun _ => y.1) d (value (fun _ => y.1) (.times (dependents w fs))) := by
      refine meets_forall fun y => ?_
      rw [value_times]
      exact product_value y.2
    have hcarries := hcarried.value hd
    have hv := hvalues.value hd
    have hbuilt := (built_nodeLaw.kept.product fun f hf => (hdependents f hf).1.built).value hd
    have hs := (symbols_kept.product fun f hf => (hdependents f hf).1.symbols).value hd
    have hfractional : IsFractional w d := ⟨hbuilt, hcarries.termsCarry, hs, hall.mono fun y hy => (hv ⟨y, hy⟩).1⟩
    refine (expandedRule_second hfractional hcarries hi).mono fun F hF => ⟨hF.parts, hF.fractions.congr ?_⟩
    exact hall.mono fun y hy => (hv ⟨y, hy⟩).2

lemma sum_second {ts : List Expr} {integrate : Expr → Attempt Expr}
    (h : ∀ t ∈ ts, Yields (IntegratesInParts w t) (integrate t)) :
    Yields (IntegratesInParts w (.plus ts)) (do Expr.sum .refuse (← ts.mapM integrate) : Attempt Expr) := by
  refine (yields_mapM_forall₂ h).bind fun Fs hFs => yields_lift ?_
  have hparts : ∀ F ∈ Fs, IsPartSum (· = w) (HasLimits w) F := by
    induction hFs with
    | nil => exact List.forall_mem_nil _
    | cons hF _ ih => exact List.forall_mem_cons.mpr ⟨hF.parts, ih fun t ht => h t (List.mem_cons_of_mem _ ht)⟩
  refine (sum_parts hparts).mono fun F hF => ⟨hF.1, ?_⟩
  simp only [hF.2, value_plus]
  clear hparts hF h
  induction hFs with
  | nil => exact IsPrimitive.zero.hasFractions
  | cons hF _ ih =>
    simp only [List.map_cons, List.sum_cons]
    exact hF.fractions.add ih

/-- A fraction in one symbol is integrated in parts. -/
theorem fractional_second (n : ℕ) (h : IsFractional w e) :
    Yields (IntegratesInParts w e) (antiderivativeAt .refuse w n e) := by
  induction n generalizing e with
  | zero => exact trivial
  | succ n ih =>
    have hi (r : Expr) (hr : IsFractional w r) : Yields (IntegratesInParts w r) (antiderivativeAt .refuse w n r) := ih hr
    unfold antiderivativeAt
    split
    · next hc => exact yields_lift (constant_second hc h.symbols h.defined.exists)
    · next hmoves =>
      have hmoves := Bool.eq_false_iff.mpr hmoves
      have hterm (he : e.terms = [e]) : Carries (· = w) anySymbol [] e.factors := by
        obtain ⟨q, rfl⟩ | hcarries := h.carries e (he ▸ List.mem_singleton_self e)
        · cases hmoves
        · exact hcarries
      have hsingle (he : e.terms = [e]) (hf : e.factors = [e]) : Yields (IntegratesInParts w e)
          (factorRule .refuse w e <|> expandedRule .refuse (antiderivativeAt .refuse w n) e) :=
        (factorRule_second (h.factors (hterm he) e (hf ▸ List.mem_singleton_self e)) hmoves).orElse
          (expandedRule_second h (hterm he) hi)
      cases e with
      | plus ts => exact sum_second fun t ht => ih (h.terms t ht)
      | times fs => exact times_second h (hterm rfl) hi
      | num | symbol | constant | power | call => exact hsingle rfl rfl

end PlaneCalculus.Expr
