import PlaneCalculus.Proofs.Calculus.PolynomialIntegral
import PlaneCalculus.Proofs.Calculus.SoundRules
import PlaneCalculus.Proofs.Calculus.SteadyIntegral

/-! Where antiderivatives are sound. Each term of the integrand may have polynomials, powers of polynomials and one call on
a polynomial among the factors that contain the symbol; the rules, multiplying out and integration by parts stay with such
integrands. -/

namespace PlaneCalculus.Expr

open Calc hiding Steady
open Attempt Formula

-- Where the exact range ends does not matter here.
attribute [local irreducible] Number.fits

variable {S T : String → Prop} {v : String} {c d e g u : Expr} {f : Func} {cs fs : List Expr}

/-! ### Calls -/

/-- A call on a polynomial in which the symbol occurs, or a square with an antiderivative of its own. -/
inductive OpenCall (v : String) : Expr → Prop
  | call {f : Func} {u : Expr} : DependsOn v u → OpenCall v (.call f u)
  | square {f : Func} {u : Expr} : f ∈ [.sin, .cos, .sec, .csc] → DependsOn v u → HasSlope v u →
      OpenCall v (.power (.call f u) (int 2))

lemma DependsOn.standing (hu : DependsOn v u) (f : Func) : StandingCall (.call f u) :=
  standing_call fun a ha => by
    cases ha
    exact hu.of_eq .exp

namespace OpenCall

lemma standing (h : OpenCall v c) : StandingCall c := by
  cases h with
  | call hu => exact hu.standing _
  | @square f u hf hu hs =>
    refine ⟨rfl, fun product pow => ?_, nofun⟩
    simp only [List.mem_cons, List.not_mem_nil, or_false] at hf
    rcases hf with rfl | rfl | rfl | rfl <;> rfl

lemma moves (h : OpenCall v c) : c.isConstantIn v = false := by
  cases h with
  | call hu => exact hu.moves
  | square _ hu => simp [isConstantIn, hu.moves]

lemma sound (h : OpenCall v c) : Sound c := by
  cases h with
  | call hu => exact hu.call_sound _
  | square _ hu => exact ⟨⟨rfl, symbolsIn_any _⟩, hu.call_sound _, sound_int 2⟩

/-- Multiplying out leaves the call as it is. -/
lemma expand_self (h : OpenCall v c) : Meets anyHalt (expand .refuse c) (· = c) := by
  have hcall {f : Func} {u : Expr} (hu : DependsOn v u) : Meets anyHalt (expand .refuse (.call f u)) (· = .call f u) := by
    refine hu.normal.expand_self.bind ?_
    rintro r rfl
    exact hu.of_eq f
  cases h with
  | call hu => exact hcall hu
  | @square f u hf hu hs =>
    have hpow := pow_standing (OpenCall.square hf hu hs).standing
    rw [baseExponent] at hpow
    have hself : expandPower .refuse (.call f u) (int 2) = Expr.pow .refuse (.call f u) (int 2) := by
      unfold expandPower
      rfl
    rw [← hself] at hpow
    rw [expand]
    exact (hcall hu).bind fun r hr => hr ▸ hpow

end OpenCall

lemma callTable_sound (hu : DependsOn v u) (f : Func) : Yields Sound (callTable .refuse u f) := by
  have hof {f : Func} (hf : f ≠ .abs) : Sound (f.of u) := SoundIn.of hf hu.argument fun _ => hu.nonzero
  have hlog (g : Func) : Sound (Func.log.of (g.of u)) := by
    rw [hu.of_eq g]
    exact SoundIn.of (by decide) ⟨hu.call_sound g, symbolsIn_any _⟩ fun _ => rfl
  cases f with
  | sin => exact yields_lift (neg_sound (hof (by decide)))
  | tan => exact yields_lift (neg_sound (hlog .cos))
  | cot => exact yields_pure (hlog .sin)
  | tanh => exact yields_pure (hlog .cosh)
  | cos | sinh | cosh | exp => exact yields_pure (hof (by decide))
  | log => exact (yields_lift (product_sound (by simpa using ⟨hu.argument.sound, hof (by decide)⟩))).bind fun p hp =>
      yields_lift (sub_sound hp hu.argument.sound)
  | _ => exact yields_failure

lemma callRule_sound (hu : DependsOn v u) (f : Func) : Yields Sound (callRule .refuse v f u) :=
  (slope_base hu.normal).bind fun _ ha => (callTable_sound hu f).bind fun _ ht =>
    yields_lift (div_sound ht ha.sound.sound ha.nonzero)

lemma doubledSine_sound (hu : DependsOn v u) {a : Expr} (ha : IsBase (· ≠ v) a) :
    Meets anyHalt (doubledSine .refuse u a) Sound := by
  have hdouble : Meets anyHalt (Expr.product .refuse [int 2, u]) Sound :=
    product_sound (by simpa using ⟨sound_int 2, hu.argument.sound⟩)
  have hfour : Carries (· ≠ v) (· ≠ v) [] (int 4).factors := (isBase_exact (q := 4) (by norm_num)).carries
  refine hdouble.bind fun d hd => (product_pair_carries cargo_nil hfour ha.carries).bind fun q hq => ?_
  exact div_sound (SoundIn.of (by decide) ⟨hd, symbolsIn_any d⟩ nofun) (hq.sound (List.forall_mem_nil _)).sound hq.nonzero

/-- These squares are integrated by the table, so that none is taken for a power of a linear base. -/
lemma squareRule_sound (hf : f ∈ [.sin, .cos, .sec, .csc]) (hu : DependsOn v u) (hs : HasSlope v u) :
    Gives Sound (squaredCallRule .refuse v (.call f u) (int 2)) := by
  have hhalf : Meets anyHalt (div .refuse (.symbol v) (int 2)) Sound :=
    div_sound (a := .symbol v) trivial (sound_int 2) rfl
  have hof {g : Func} (hg : g ≠ .abs) : Sound (g.of u) := SoundIn.of hg hu.argument fun _ => hu.nonzero
  refine (hs.gives hu.normal).bind fun a ha => ?_
  have hsound : Sound a := ha.sound.sound
  have hsine := doubledSine_sound hu ha
  simp only [List.mem_cons, List.not_mem_nil, or_false] at hf
  rcases hf with rfl | rfl | rfl | rfl
  · exact (gives_lift hhalf).bind fun h hh => (gives_lift hsine).bind fun s hs => gives_lift (sub_sound hh hs)
  · exact (gives_lift hhalf).bind fun h hh => (gives_lift hsine).bind fun s hs =>
      gives_lift (sum_sound (by simpa using ⟨hh, hs⟩))
  · exact gives_lift (div_sound (hof (by decide)) hsound ha.nonzero)
  · exact (gives_lift (div_sound (hof (by decide)) hsound ha.nonzero)).bind fun d hd => gives_lift (neg_sound hd)

lemma OpenCall.rule_sound (h : OpenCall v c) : Yields Sound (factorRule .refuse v c) := by
  cases h with
  | call hu => exact callRule_sound hu _
  | square hf hu hs => exact ((squareRule_sound hf hu hs).orElse _).yields

/-! ### Integration by parts -/

/-- A multiple of a call with a linear argument that can be integrated again and again. -/
def IsRepeating (v : String) (g : Expr) : Prop :=
  ∃ f u, isRepeatable f = true ∧ DependsOn v u ∧ HasSlope v u ∧ Carries (· ≠ v) (· ≠ v) [.call f u] g.factors

lemma IsRepeating.sound (h : IsRepeating v g) : Sound g := by
  obtain ⟨f, u, -, hu, -, hg⟩ := h
  exact hg.any.sound (by simpa using hu.call_sound f)

lemma callTable_repeating (hf : isRepeatable f = true) (hu : DependsOn v u) :
    Gives (fun r => ∃ g, isRepeatable g = true ∧ Carries (· ≠ v) (· ≠ v) [.call g u] r.factors)
      (callTable .refuse u f) := by
  have hof (g : Func) : Carries (· ≠ v) (· ≠ v) [.call g u] (g.of u).factors := by
    rw [hu.of_eq g]
    exact carries_call rfl
  have hminus : Carries (· ≠ v) (· ≠ v) [] (int (-1)).factors := (isBase_exact (q := -1) (by norm_num)).carries
  cases f with
  | sin =>
    refine gives_lift ((product_pair_carries (cargo_singleton (hu.standing .cos)) hminus (hof .cos)).mono fun r hr => ?_)
    exact ⟨.cos, rfl, hr⟩
  | cos => exact gives_pure ⟨.sin, rfl, hof .sin⟩
  | sinh => exact gives_pure ⟨.cosh, rfl, hof .cosh⟩
  | cosh => exact gives_pure ⟨.sinh, rfl, hof .sinh⟩
  | exp => exact gives_pure ⟨.exp, rfl, hof .exp⟩
  | _ => cases hf

lemma callRule_repeating (hf : isRepeatable f = true) (hu : DependsOn v u) (hs : HasSlope v u) :
    Gives (IsRepeating v) (callRule .refuse v f u) := by
  refine (hs.gives hu.normal).bind fun a ha => (callTable_repeating hf hu).bind ?_
  rintro t ⟨g, hg, ht⟩
  refine gives_lift ((pow_carries (T := (· ≠ v)) ha (isExponent_int (-1))).bind fun i hi => ?_)
  have hall : Carries (· ≠ v) (· ≠ v) [.call g u] ([t, i].flatMap factors) := by simpa using ht.append hi
  exact (product_carries (cargo_singleton (hu.standing g)) hall).mono fun r hr => ⟨g, u, hg, hu, hs, hr⟩

lemma isConstantIn_factors (h : e.isConstantIn v = true) : ∀ f ∈ e.factors, f.isConstantIn v = true :=
  fun f hf => symbolsIn_ne_iff.mp (factors_symbols (symbolsIn_ne_iff.mpr h) f hf)

lemma PowerFactor.constant (h : PowerFactor (· ≠ v) (· ≠ v) e) : e.isConstantIn v = true := by
  cases h with
  | base hb => exact symbolsIn_ne_iff.mp hb.symbols
  | power hb _ hx => simp [isConstantIn, symbolsIn_ne_iff.mp hb.symbols, symbolsIn_ne_iff.mp hx.symbols]

/-- The call is the only factor in which the symbol occurs. -/
lemma dependents_repeating (hc : c.isConstantIn v = false) (h : Carries (· ≠ v) (· ≠ v) [c] fs) :
    dependents v fs = [c] ∧ Carries (· ≠ v) (· ≠ v) [] (fs.filter (·.isConstantIn v)) := by
  have hpart (p : Expr → Bool) := h.filter p
  constructor
  · have hdep : dependents v fs = fs.filter carriesCall := by
      refine List.filter_congr fun f hf => ?_
      obtain hmem | hpower := h.factor hf
      · obtain rfl := List.mem_singleton.mp hmem
        have hcall : f.carriesCall = true := (List.mem_filter.mp (h.calls ▸ hmem : f ∈ fs.filter carriesCall)).2
        rw [hc, hcall]
        rfl
      · rw [hpower.constant, hpower.carriesCall]
        rfl
    rw [hdep, h.calls]
  · have hclosed := h.filter (·.isConstantIn v)
    rwa [List.filter_cons_of_neg (by simp [hc]), List.filter_nil] at hclosed

lemma antiderivativeAt_repeating (n : Nat) (hg : IsRepeating v g) :
    Yields (IsRepeating v) (antiderivativeAt .refuse v n g) := by
  cases n with
  | zero => exact trivial
  | succ n =>
    obtain ⟨f, u, hf, hu, hs, hc⟩ := hg
    have hmoves : (Expr.call f u).isConstantIn v = false := hu.moves
    have hrule := callRule_repeating hf hu hs
    have hopen : g.isConstantIn v = false := by
      refine Bool.eq_false_iff.mpr fun hconst => ?_
      rw [isConstantIn_factors hconst _ (hc.mem _ (List.mem_singleton_self _))] at hmoves
      cases hmoves
    unfold antiderivativeAt
    rw [if_neg (by simp [hopen])]
    cases g with
    | times fs =>
      obtain ⟨hdep, hclosed⟩ : dependents v fs = [.call f u] ∧ _ := dependents_repeating hmoves hc
      show Yields _ (productIntegral .refuse v (antiderivativeAt .refuse v n) fs)
      rw [productIntegral_eq, hdep]
      refine (yields_lift (product_carries cargo_nil (hclosed.flatten (List.forall_mem_nil _)))).bind fun k hk => ?_
      refine (yields_lift (meets_anyHalt_true _)).bind fun d _ => (hrule.orElse _).yields.bind ?_
      rintro r ⟨f', u', hf', hu', hs', hr⟩
      exact yields_lift ((product_pair_carries (cargo_singleton (hu'.standing f')) hk hr).mono fun p hp =>
        ⟨f', u', hf', hu', hs', hp⟩)
    | call f' u' =>
      obtain ⟨rfl, rfl⟩ := Expr.call.inj (List.mem_singleton.mp (hc.mem _ (List.mem_singleton_self _)))
      exact (hrule.orElse _).yields
    | num | symbol | constant | plus | power => cases List.mem_singleton.mp (hc.mem _ (List.mem_singleton_self _))

section

variable {integrate : Expr → Attempt Expr}

lemma partsLoop_sound (hi : ∀ g, IsRepeating v g → Yields (IsRepeating v) (integrate g)) (n : Nat) {sign : Int} {p : Expr}
    {terms : List Expr} (hp : SoundIn (· ≠ v) p) (hg : IsRepeating v g) (ht : ∀ t ∈ terms, Sound t) :
    Yields Sound (partsLoop .refuse v integrate n sign p g terms) := by
  induction n generalizing sign p g terms with
  | zero => exact yields_failure
  | succ n ih =>
    have hterm : Meets anyHalt (Expr.product .refuse [int sign, p, g]) Sound :=
      product_sound (by simpa using ⟨sound_int sign, hp.sound, hg.sound⟩)
    refine (yields_lift hterm).bind fun t hnew => (yields_lift (derivative_sound p hp)).bind fun q hq => ?_
    have hall : ∀ t' ∈ terms ++ [t], Sound t' := List.forall_mem_append.mpr ⟨ht, by simpa using hnew⟩
    split
    · exact yields_lift (sum_sound hall)
    · exact (hi g hg).bind fun h hh => ih hq hh hall

lemma isRepeatableFactor_cases (f : Expr) : Meets anyHalt (isRepeatableFactor .refuse v f) fun r =>
    r = true → ∃ h u, f = .call h u ∧ isRepeatable h = true ∧ HasSlope v u := by
  cases f with
  | call h u =>
    by_cases hh : isRepeatable h = true
    · simp only [isRepeatableFactor, if_pos hh]
      refine Meets.bind (meets_anyHalt_true _).self fun r hr hsome => ?_
      obtain ⟨a, rfl⟩ := Option.isSome_iff_exists.mp hsome
      exact ⟨h, u, rfl, hh, a, hr⟩
    · simp only [isRepeatableFactor, if_neg hh]
      exact (absurd · Bool.false_ne_true)
  | num | symbol | constant | plus | times | power => exact (absurd · Bool.false_ne_true)

lemma splitRepeatable_cases (before fs : List Expr) : Yields (fun r => r.1 ++ r.2.1 :: r.2.2 = before ++ fs ∧
    ∃ h u, r.2.1 = .call h u ∧ isRepeatable h = true ∧ HasSlope v u) (splitRepeatable .refuse v before fs) := by
  induction fs generalizing before with
  | nil => exact yields_failure
  | cons f fs ih =>
    refine (yields_lift (isRepeatableFactor_cases f)).bind fun r hr => ?_
    split
    · next hrep => exact yields_pure ⟨rfl, hr hrep⟩
    · have hrest := ih (before ++ [f])
      rwa [List.append_assoc, List.singleton_append] at hrest

lemma partsRule_sound (hi : ∀ g, IsRepeating v g → Yields (IsRepeating v) (integrate g)) (hsound : ∀ f ∈ fs, Sound f)
    (hcall : ∀ f u, .call f u ∈ fs → DependsOn v u) : Yields Sound (partsRule .refuse v integrate fs) := by
  refine (splitRepeatable_cases [] fs).bind ?_
  rintro ⟨before, f, after⟩ ⟨hsplit, h, u, rfl, hh, hs⟩
  obtain rfl : before ++ .call h u :: after = fs := hsplit
  have hrest : ∀ e ∈ before ++ after, Sound e := fun e he => hsound e (by
    rw [List.mem_append] at he ⊢
    exact he.imp_right (List.mem_cons_of_mem _))
  refine (yields_lift (product_sound hrest)).bind fun p hp => (yields_guard _).bind fun _ hpoly => ?_
  refine (callRule_repeating hh (hcall h u (by simp)) hs).yields.bind fun g hg => ?_
  exact partsLoop_sound hi _ (sound_of_polynomial p hp hpoly) hg nofun

end

/-! ### Integrands -/

/-- The factors in which the symbol occurs are polynomials and powers of polynomials, and at most one call. -/
def IsSummand (v : String) (t : Expr) : Prop :=
  ∃ cs, (∀ c ∈ cs, OpenCall v c) ∧ cs.length ≤ 1 ∧ Carries anySymbol anySymbol cs (dependents v t.factors)

/-- A sum of such products, with nothing raised or taken the logarithm of that is zero. The factors in which the symbol does
not occur are not restricted otherwise. -/
structure IsIntegrand (v : String) (e : Expr) : Prop where
  sound : Sound e
  summands : ∀ t ∈ e.terms, IsSummand v t

lemma isSummand_constant (h : e.isConstantIn v = true) : IsSummand v e := by
  have hnone : dependents v e.factors = [] :=
    List.filter_eq_nil_iff.mpr fun f hf => by simp [isConstantIn_factors h f hf]
  exact ⟨[], nofun, Nat.zero_le 1, by rw [hnone]; exact carries_nil nofun⟩

section

variable (hopen : ∀ c ∈ cs, OpenCall v c) (hone : cs.length ≤ 1)
include hopen hone

lemma cargo_open : Cargo cs := ⟨fun c hc => (hopen c hc).standing, hone⟩

lemma Carries.isSummand (h : Carries anySymbol anySymbol cs e.factors) : IsSummand v e := by
  refine ⟨cs, hopen, hone, ?_⟩
  have hdep := h.filter (! ·.isConstantIn v)
  rwa [List.filter_eq_self.mpr fun c hc => by simp [(hopen c hc).moves]] at hdep

/-- What is multiplied out is an integrand again. -/
lemma TermsCarry.isIntegrand (h : TermsCarry anySymbol anySymbol cs e) : IsIntegrand v e := by
  have hterms : ∀ t ∈ e.terms, Sound t ∧ IsSummand v t := by
    intro t ht
    obtain ⟨q, rfl⟩ | hc := h t ht
    · exact ⟨sound_exact q, isSummand_constant rfl⟩
    · exact ⟨hc.sound fun c hmem => (hopen c hmem).sound, hc.isSummand hopen hone⟩
  refine ⟨?_, fun t ht => (hterms t ht).2⟩
  cases e with
  | plus ts => exact (everywhere_plus ts).mpr ⟨trivial, fun t ht => (hterms t ht).1⟩
  | num | symbol | constant | times | power | call => exact (hterms _ (List.mem_singleton_self _)).1

end

lemma IsSummand.terms (h : IsSummand v e) : ∀ t ∈ e.terms, IsSummand v t := by
  cases e with
  | plus ts =>
    obtain ⟨cs, hopen, hone, hc⟩ := h
    cases hconst : (Expr.plus ts).isConstantIn v with
    | true =>
      have hts := terms_symbols (symbolsIn_ne_iff.mpr hconst)
      exact fun t ht => isSummand_constant (symbolsIn_ne_iff.mp (hts t ht))
    | false =>
      rw [show dependents v (Expr.plus ts).factors = [.plus ts] by simp [dependents, factors, hconst]] at hc
      exact fun t ht => ((Carries.terms (e := .plus ts) hc) t ht).isSummand hopen hone
  | num | symbol | constant | times | power | call => exact List.forall_mem_singleton.mpr h

section

variable {integrate : Expr → Attempt Expr} (hi : ∀ e, IsIntegrand v e → Yields Sound (integrate e))
variable (hopen : ∀ c ∈ cs, OpenCall v c) (hone : cs.length ≤ 1)
include hopen

lemma factorRule_sound (h : Carries anySymbol anySymbol cs fs) (hd : d ∈ fs) : Yields Sound (factorRule .refuse v d) :=
  (h.factor hd).elim (fun hc => (hopen d hc).rule_sound) powerFactorRule_sound

include hi hone

lemma expandedRule_sound (h : Carries anySymbol anySymbol cs d.factors) : Yields Sound (expandedRule .refuse integrate d) := by
  have hinert : Inert cs := fun c hc => (hopen c hc).expand_self
  refine (yields_lift (expand_carries (cargo_open hopen hone) hinert h)).bind fun e he => ?_
  exact (yields_guard _).bind fun _ _ => hi e (he.isIntegrand hopen hone)

lemma innerRule_sound (hrep : ∀ g, IsRepeating v g → Yields (IsRepeating v) (integrate g))
    (h : Carries anySymbol anySymbol cs fs) (hd : Carries anySymbol anySymbol cs d.factors) :
    Yields Sound (innerRule .refuse v integrate fs d) := by
  have halone : Yields Sound (aloneRule .refuse v fs) := by
    rcases fs with _ | ⟨f, _ | ⟨f', fs⟩⟩
    · exact yields_failure
    · exact factorRule_sound hopen h (List.mem_singleton_self f)
    · exact yields_failure
  have hsound : ∀ f ∈ fs, Sound f := fun f hf =>
    (h.factor hf).elim (fun hc => (hopen f hc).sound) PowerFactor.sound
  refine halone.orElse ((expandedRule_sound hi hopen hone hd).orElse (partsRule_sound hrep hsound fun f u hu => ?_))
  obtain hc | hpower := h.factor hu
  · cases hopen _ hc with
    | call hdep => exact hdep
  · cases hpower.carriesCall

end

/-- The antiderivatives of these integrands are sound, by induction on the depth. -/
lemma antiderivativeAt_sound (n : Nat) (he : IsIntegrand v e) : Yields Sound (antiderivativeAt .refuse v n e) := by
  induction n generalizing e with
  | zero => exact trivial
  | succ n ih =>
    obtain ⟨hsound, hsummands⟩ := he
    have hi (e : Expr) (he : IsIntegrand v e) : Yields Sound (antiderivativeAt .refuse v n e) := ih he
    unfold antiderivativeAt
    split
    · exact yields_lift (product_sound (by simpa using ⟨hsound, (trivial : Sound (.symbol v))⟩))
    · next hmoves =>
      have hsingle (hfactors : e.factors = [e]) (hterms : e.terms = [e]) : Yields Sound
          (factorRule .refuse v e <|> expandedRule .refuse (antiderivativeAt .refuse v n) e) := by
        obtain ⟨cs, hopen, hone, hc⟩ := hsummands e (by rw [hterms]; exact List.mem_singleton_self e)
        have hself : dependents v e.factors = e.factors := by simp [dependents, hfactors, hmoves]
        rw [hself] at hc
        refine (factorRule_sound hopen hc ?_).orElse (expandedRule_sound hi hopen hone hc)
        rw [hfactors]
        exact List.mem_singleton_self e
      cases e with
      | plus ts =>
        have hts := ((everywhere_plus ts).mp hsound).2
        exact (yields_mapM fun t ht => ih ⟨hts t ht, (hsummands t ht).terms⟩).bind fun us hus => yields_lift (sum_sound hus)
      | times fs =>
        have hfs := ((everywhere_times fs).mp hsound).2
        obtain ⟨cs, hopen, hone, hc⟩ := hsummands _ (List.mem_singleton_self _)
        have hcargo := cargo_open hopen hone
        show Yields Sound (productIntegral .refuse v (antiderivativeAt .refuse v n) fs)
        rw [productIntegral_eq]
        have hconstants : ∀ f ∈ fs.filter (·.isConstantIn v), Sound f := fun f hf => hfs f (List.mem_filter.mp hf).1
        refine (yields_lift (product_sound hconstants)).bind fun k hk => ?_
        refine (yields_lift (product_carries hcargo (hc.flatten hcargo.standing))).bind fun d hd => ?_
        refine (innerRule_sound hi hopen hone (fun g => antiderivativeAt_repeating n) hc hd).bind fun r hr => ?_
        exact yields_lift (product_sound (by simpa using ⟨hk, hr⟩))
      | num | symbol | constant | power | call => exact hsingle rfl rfl

/-- An antiderivative of such an integrand, found without leaving the exact range, has a value somewhere: there is no
division by zero and no logarithm of zero in it. -/
theorem antiderivative_sound {F : Expr} (he : IsIntegrand v e) (hexact : antiderivative .refuse v e ≠ .error .overflow)
    (hF : antiderivative .approximate v e = .ok (some F)) : F.isDegenerate = false := by
  have hsound : Yields Sound (antiderivativeAt .refuse v (integrationDepth e.weight) e) := antiderivativeAt_sound _ he
  have hrun : antiderivative .refuse v e = .ok (some F) := (antiderivative_steady v e hexact).symm.trans hF
  exact (hsound.value hrun F rfl).not_degenerate

/-- The antiderivative of `π * 3 ^ x` is divided by the logarithm of three. -/
theorem antiderivative_sound_power : ∃ e F, read .approximate "pi*3**x" = .ok e ∧
    e.antiderivative .approximate "x" = .ok (some F) ∧ F.isDegenerate = false := by
  have hread : read .approximate "pi*3**x" = .ok (.times [.power (int 3) (.symbol "x"), .constant .pi]) := by cbv
  obtain ⟨F, hF⟩ : ∃ F, antiderivative .refuse "x" (.times [.power (int 3) (.symbol "x"), .constant .pi]) =
      .ok (some F) := ⟨_, by cbv⟩
  have hpower : PowerFactor anySymbol anySymbol (.power (int 3) (.symbol "x")) :=
    .power (isBase_exact (q := 3) (by norm_num)) rfl (isBase_symbol trivial).exponent rfl
  have hintegrand : IsIntegrand "x" (.times [.power (int 3) (.symbol "x"), .constant .pi]) := by
    have hnonzero : ∀ f ∈ [Expr.power (int 3) (.symbol "x"), .constant .pi], f.isZero = false :=
      List.forall_mem_cons.mpr ⟨rfl, List.forall_mem_singleton.mpr rfl⟩
    refine ⟨⟨hnonzero, hpower.sound, trivial, trivial⟩, List.forall_mem_singleton.mpr ?_⟩
    exact ⟨[], List.forall_mem_nil _, Nat.zero_le 1, carries_nil (List.forall_mem_singleton.mpr hpower)⟩
  have hexact : antiderivative .refuse "x" (.times [.power (int 3) (.symbol "x"), .constant .pi]) ≠
      .error .overflow := by simp [hF]
  have hF := (antiderivative_steady "x" _ hexact).trans hF
  exact ⟨_, F, hread, hF, antiderivative_sound hintegrand hexact hF⟩

end PlaneCalculus.Expr
