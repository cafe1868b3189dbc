import PlaneCalculus.Proofs.Calculus.Kept
import PlaneCalculus.Proofs.Calculus.NormalDerivative
import PlaneCalculus.Proofs.Expr.PowerSum

/-! What the rules of integration divide by is not zero: neither the slope of a linear argument, nor the exponent plus one,
nor the logarithm of a base other than one, nor the root of a positive number. So the rules lead from powers of polynomials
and calls on polynomials to sound results. -/

namespace PlaneCalculus.Expr

open Calc Attempt
open MvPolynomial (X C)

-- Where the exact range ends does not matter here.
attribute [local irreducible] Number.fits

variable {S T : String → Prop} {v : String} {a b e u x : Expr} {f : Func}

/-! ### Closed expressions -/

lemma symbolsIn_ne_iff : SymbolsIn (· ≠ v) e ↔ e.isConstantIn v = true := by
  refine (everywhere_symbolNode e).trans ?_
  rw [isConstantIn_iff]
  exact ⟨fun h hv => h v hv rfl, fun h s hs hsv => h (hsv ▸ hs)⟩

mutual

/-- Calls and exponents free of the symbol leave no logarithm in a derivative, so that nothing is raised but what was raised
before. -/
lemma derivative_sound : (e : Expr) → SoundIn (· ≠ v) e → Meets anyHalt (derivative .refuse v e) (SoundIn (· ≠ v))
  | .num _, _ => sound_int 0
  | .symbol x, _ => by
    show SoundIn _ (if x == v then int 1 else int 0)
    split <;> exact sound_int _
  | .constant _, _ => sound_int 0
  | .plus ts, h => by
    simp only [derivative]
    split
    · exact sound_int 0
    · exact (derivatives_sound ts h.2).bind fun ds hds => sum_sound hds
  | .times fs, h => by
    simp only [derivative]
    split
    · exact sound_int 0
    · refine (derivatives_sound fs h.2).bind fun ds hds => ?_
      exact (productRule_all (fun _ => product_sound) (List.forall_mem_nil _) ((everywhere_times fs).mp h).2 hds).bind fun ps hps => sum_sound hps
  | .power b x, ⟨⟨hz, hsymbols⟩, hb, hx⟩ => by
    simp only [derivative, symbolsIn_ne_iff.mp hsymbols, Bool.and_true, if_true]
    split
    · exact sound_int 0
    · have hone : ∀ y ∈ [x, int (-1)], SoundArgument (· ≠ v) y := by
        simpa using ⟨⟨hx, hsymbols⟩, soundArgument_int (-1)⟩
      refine ((keepsSound_at _).sum_arguments hone).bind fun y hy => (pow_sound hb hz hy).bind fun l hl => ?_
      exact (derivative_sound b hb).bind fun d hd => product_sound (by simpa using ⟨hx, hl, hd⟩)
  | .call f a, ⟨⟨_, hsymbols⟩, _⟩ => by
    simp only [derivative, symbolsIn_ne_iff.mp hsymbols, if_true]
    exact sound_int 0

lemma derivatives_sound : (es : List Expr) → EverywhereAll (SoundNode (· ≠ v)) es →
    Meets anyHalt (derivatives .refuse v es) fun ds => ∀ d ∈ ds, SoundIn (· ≠ v) d
  | [], _ => List.forall_mem_nil _
  | e :: es, ⟨he, hes⟩ => by
    simp only [derivatives]
    exact (derivative_sound e he).bind fun d hd => (derivatives_sound es hes).bind fun ds hds =>
      List.forall_mem_cons.mpr ⟨hd, hds⟩

end

mutual

lemma isPolynomialIn_of_constant : (e : Expr) → e.isConstantIn v = true → e.isPolynomialIn v = true
  | .num _, _ | .symbol _, _ | .constant _, _ => rfl
  | .plus ts, h => allPolynomialIn_of_constant ts h
  | .times fs, h => allPolynomialIn_of_constant fs h
  | .power b x, h => by
    simp only [isConstantIn] at h
    simp [isPolynomialIn, h]
  | .call _ _, h => h

lemma allPolynomialIn_of_constant : (es : List Expr) → allConstantIn v es = true → allPolynomialIn v es = true
  | [], _ => rfl
  | e :: es, h => by
    simp only [allConstantIn, Bool.and_eq_true] at h
    simp [allPolynomialIn, isPolynomialIn_of_constant e h.1, allPolynomialIn_of_constant es h.2]

end

mutual

lemma sound_of_polynomial : (e : Expr) → Sound e → e.isPolynomialIn v = true → SoundIn (· ≠ v) e
  | .num _, h, _ => h
  | .symbol _, h, _ => h
  | .constant _, h, _ => h
  | .plus ts, h, hp => ⟨trivial, sounds_of_polynomials ts h.2 hp⟩
  | .times fs, h, hp => ⟨h.1, sounds_of_polynomials fs h.2 hp⟩
  | .power b x, ⟨⟨hz, _⟩, hb, hx⟩, hp => by
    simp only [isPolynomialIn, Bool.or_eq_true, Bool.and_eq_true] at hp
    obtain ⟨hcb, hcx⟩ | ⟨hpos, hpb⟩ := hp
    · exact ⟨⟨hz, symbolsIn_ne_iff.mpr hcx⟩, sound_of_polynomial b hb (isPolynomialIn_of_constant b hcb),
        sound_of_polynomial x hx (isPolynomialIn_of_constant x hcx)⟩
    · cases x with
      | num n => exact ⟨⟨hz, symbolsIn_num n⟩, sound_of_polynomial b hb hpb, hx⟩
      | symbol | constant | plus | times | power | call => cases hpos
  | .call f a, ⟨⟨hlog, _⟩, ha⟩, hp =>
    ⟨⟨hlog, symbolsIn_ne_iff.mpr hp⟩, sound_of_polynomial a ha (isPolynomialIn_of_constant a hp)⟩

lemma sounds_of_polynomials : (es : List Expr) → EverywhereAll (SoundNode anySymbol) es → allPolynomialIn v es = true →
    EverywhereAll (SoundNode (· ≠ v)) es
  | [], _, _ => trivial
  | e :: es, ⟨he, hes⟩, hp => by
    simp only [allPolynomialIn, Bool.and_eq_true] at hp
    exact ⟨sound_of_polynomial e he hp.1, sounds_of_polynomials es hes hp.2⟩

end

/-! ### Slopes -/

lemma slope_base (hu : IsNormal u) : Yields (IsBase (· ≠ v)) (slope .refuse v u) := by
  refine (yields_lift (derivative_normal hu)).bind fun a ha => (yields_guard _).bind fun _ hg => yields_pure ?_
  rw [Bool.and_eq_true, Bool.not_eq_true'] at hg
  exact ⟨ha.1, symbolsIn_ne_iff.mpr hg.2, hg.1⟩

/-- The derivative is neither zero nor dependent on the symbol. -/
def HasSlope (v : String) (u : Expr) : Prop := ∃ a, (slope .refuse v u).run = .ok (some a)

lemma HasSlope.gives (h : HasSlope v u) (hu : IsNormal u) : Gives (IsBase (· ≠ v)) (slope .refuse v u) := by
  obtain ⟨a, ha⟩ := h
  have hbase := slope_base (v := v) hu
  unfold Yields at hbase
  unfold Gives
  rw [ha] at hbase ⊢
  exact ⟨a, rfl, hbase a rfl⟩

/-! ### Calls on polynomials -/

lemma exactValue?_normal (hu : IsNormal u) (hz : u.isZero = false) (hone : u.isInt 1 = false)
    (habs : f ≠ .abs ∨ u.isNumber = false) : f.exactValue? u = none := by
  have hring := hu.isRing
  have hpi : Func.multipleOfPi? u = none := by
    unfold Func.multipleOfPi?
    split
    · exact hring.elim
    · exact (((everywhere_times _).mp hring).2 (.constant .pi) (by simp)).elim
    · rfl
  unfold Func.exactValue?
  rw [hz, hpi]
  simp only [Bool.false_eq_true, if_false, Option.bind_none]
  unfold Func.inverse?
  split
  · exact hring.elim
  · exact hring.1.elim
  · exact hring.1.elim
  · rw [hone]; rfl
  · rw [hone]; rfl
  · cases u with
    | num => simp [isNumber] at habs
    | constant => exact hring.elim
    | symbol | plus | times | power | call => rfl
  · rfl

/-- Such a call is not evaluated. -/
lemma of_normal (hu : IsNormal u) (hz : u.isZero = false) (hone : u.isInt 1 = false)
    (habs : f ≠ .abs ∨ u.isNumber = false) : f.of u = .call f u := by
  unfold Func.of
  rw [exactValue?_normal hu hz hone habs]
  dsimp only
  split
  · cases hu.isRing
  · rfl

/-- A polynomial in normal form in which the symbol occurs. -/
structure DependsOn (v : String) (u : Expr) : Prop where
  normal : IsNormal u
  moves : u.isConstantIn v = false

namespace DependsOn

variable (hu : DependsOn v u)
include hu

lemma not_number : u.isNumber = false := by
  cases u with
  | num => cases hu.moves
  | symbol | constant | plus | times | power | call => rfl

lemma nonzero : u.isZero = false := isZero_of_not_number hu.not_number

lemma argument : SoundArgument anySymbol u := ⟨hu.normal.sound, symbolsIn_any u⟩

lemma of_eq (f : Func) : f.of u = .call f u := by
  have hone : u.isInt 1 = false := by
    have hn := hu.not_number
    cases u with
    | num => cases hn
    | symbol | constant | plus | times | power | call => rfl
  exact of_normal hu.normal hu.nonzero hone (Or.inr hu.not_number)

lemma call_sound (f : Func) : Sound (.call f u) := ⟨⟨fun _ => hu.nonzero, symbolsIn_any u⟩, hu.normal.sound⟩

end DependsOn

/-! ### Rules for powers of polynomials -/

lemma IsBase.sound (h : IsBase S b) : Sound b := h.normal.sound

lemma product_pair_carries {cs : List Expr} (hcs : Cargo cs) (ha : Carries S T [] a.factors) (hb : Carries S T cs b.factors) :
    Meets anyHalt (Expr.product .refuse [a, b]) fun r => Carries S T cs r.factors :=
  product_carries hcs (by simpa using ha.append hb)

lemma linearPowerRule_sound (hb : IsBase anySymbol b) (hx : IsExponent anySymbol x) :
    Yields Sound (linearPowerRule .refuse v b x) := by
  refine (slope_base hb.normal).bind fun a ha => ?_
  have ha := ha.any
  split
  · have hlog : Sound (Func.log.of b) := SoundIn.of (by decide) ⟨hb.sound, symbolsIn_any b⟩ fun _ => hb.nonzero
    exact yields_lift (div_sound hlog ha.sound ha.nonzero)
  · next hminus =>
    have hraised : Meets anyHalt (Expr.sum .refuse [x, int 1]) (IsBase anySymbol) := by
      have hdefined : ∀ e ∈ [x, int 1], Defined (X : String → MvPolynomial String ℚ) e := by simpa using hx.normal.defined
      have hvalue := sum_value hdefined
      refine ((exponents_at _ hx (isExponent_int 1)).and hvalue).mono fun r ⟨hr, hv⟩ => ⟨hr.normal, hr.symbols, ?_⟩
      -- the exponent plus one vanishes for the exponent minus one only
      refine Bool.eq_false_iff.mpr fun hzero => hminus ?_
      rw [hr.normal.isZero_iff, polynomial, hv.2] at hzero
      have hx1 : polynomial x = C (-1 : ℚ) := by
        have hsum : value (X : String → MvPolynomial String ℚ) x + 1 = 0 := by simpa using hzero
        rw [polynomial, eq_neg_of_add_eq_zero_left hsum, map_neg, map_one]
      rw [hx.normal.eq_exact hx1]
      rfl
    refine (yields_lift hraised).bind fun r hr => ?_
    refine (yields_lift (pow_sound hb.sound hb.nonzero ⟨hr.sound, hr.symbols⟩)).bind fun p hp => ?_
    refine (yields_lift (product_pair_carries (T := anySymbol) cargo_nil hr.carries ha.carries)).bind fun d hd => ?_
    exact yields_lift (div_sound hp (hd.sound (List.forall_mem_nil _)) hd.nonzero)

lemma inverseQuadraticRule_sound (hb : IsNormal b) : Yields Sound (inverseQuadraticRule .refuse v b x) := by
  refine (yields_guard _).bind fun _ _ => ?_
  split
  · next first c =>
    have hc : Sound (.num c) := sound_terms hb.sound _ (by simp [terms])
    refine (yields_lift (meets_anyHalt_true _)).bind fun _ _ => (yields_guard _).bind fun _ _ => ?_
    refine (yields_guard _).bind fun _ hsign => ?_
    rw [Bool.and_eq_true, Bool.not_eq_true', Bool.not_eq_true'] at hsign
    have hbase : IsBase anySymbol (.num c) := by
      obtain ⟨q, hq, rfl⟩ := exists_ne_zero_of_sound hc hsign.2
      exact isBase_exact hq
    have hhalf : IsExponent anySymbol half := ⟨isNormal_term (Or.inl ⟨_, rfl⟩), symbolsIn_num _⟩
    refine (yields_lift (pow_carries hbase hhalf)).bind fun root hroot => ?_
    have hsound : Sound root := hroot.sound (List.forall_mem_nil _)
    have hsymbol : Sound (.symbol v) := trivial
    refine (yields_lift (div_sound hsymbol hsound hroot.nonzero)).bind fun d hd => ?_
    have hatan : Sound (Func.atan.of d) := SoundIn.of (by decide) ⟨hd, symbolsIn_any d⟩ (absurd · (by decide))
    exact yields_lift (div_sound hatan hsound hroot.nonzero)
  · exact yields_failure

lemma standing_call {g : Func} (h : ∀ a, Expr.call g u = .call .exp a → Func.exp.of a = .call g u) : StandingCall (.call g u) where
  call := rfl
  raised _ _ := rfl
  exp := h

lemma exponentialRule_sound (hb : IsBase anySymbol b) (hone : b.isInt 1 = false) (hx : IsExponent anySymbol x) :
    Yields Sound (exponentialRule .refuse v b x) := by
  refine (slope_base hx.normal).bind fun a ha => ?_
  have ha := ha.any
  rw [of_normal hb.normal hb.nonzero hone (Or.inl (by decide))]
  have hlog : StandingCall (.call .log b) := standing_call nofun
  have hcall : Carries anySymbol anySymbol [.call .log b] (Expr.call .log b).factors := carries_call rfl
  refine (yields_lift (product_pair_carries (cargo_singleton hlog) ha.carries hcall)).bind fun d hd => ?_
  have hpower : Sound (.power b x) := ⟨⟨hb.nonzero, hx.symbols⟩, hb.sound, hx.normal.sound⟩
  have hsound : Sound (.call .log b) := ⟨⟨fun _ => hb.nonzero, symbolsIn_any b⟩, hb.sound⟩
  exact yields_lift (div_sound hpower (hd.sound (by simpa using hsound)) hd.nonzero)

lemma powerRule_sound (hb : IsBase anySymbol b) (hone : b.isInt 1 = false) (hx : IsExponent anySymbol x) :
    Yields Sound (powerRule .refuse v b x) := by
  have hsquare : Yields Sound (squaredCallRule .refuse v b x) := by
    refine (yields_guard _).bind fun _ _ => ?_
    cases b with
    | call => exact absurd hb.normal IsNormal.not_call
    | num | symbol | constant | plus | times | power => exact yields_failure
  unfold powerRule
  split
  · exact hsquare.orElse ((inverseQuadraticRule_sound hb.normal).orElse (linearPowerRule_sound hb hx))
  · split
    · exact exponentialRule_sound hb hone hx
    · exact yields_failure

lemma powerFactorRule_sound (h : PowerFactor anySymbol anySymbol e) : Yields Sound (factorRule .refuse v e) := by
  have hsquare (s : String) : Meets anyHalt (Expr.pow .refuse (.symbol s) (int 2)) Sound :=
    pow_sound (b := .symbol s) trivial rfl (soundArgument_int 2)
  cases h with
  | power hb hone hx => exact powerRule_sound hb hone hx
  | base hb =>
    cases e with
    | symbol s => exact (yields_lift (hsquare s)).bind fun p hp => yields_lift (div_sound hp (sound_int 2) rfl)
    | power b x =>
      obtain ⟨s, n, rfl, rfl⟩ := hb.normal.power
      exact powerRule_sound (isBase_symbol trivial) rfl (isExponent_int n)
    | call => exact absurd hb.normal IsNormal.not_call
    | num | constant | plus | times => exact yields_failure

end PlaneCalculus.Expr
