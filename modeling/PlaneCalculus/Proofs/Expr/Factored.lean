import PlaneCalculus.Proofs.Calculus.FreeSymbols
import PlaneCalculus.Proofs.Calculus.ScaledSum
import PlaneCalculus.Proofs.Expr.PowerSum
import PlaneCalculus.Proofs.Expr.Substitution

/-! Numbers put into products of powers of polynomials, and into sums of such products. A symbol may be replaced by a number
in them wherever no base of a negative power vanishes there; then the result is of the same kind. -/

namespace PlaneCalculus.Expr

open Calc
open MvPolynomial (X)

-- Where the exact range ends does not matter here.
attribute [local irreducible] Number.fits

variable {S T : String → Prop} {e f : Expr} {v : String} {q : ℚ} {fs : List Expr}
variable {sum product : List Expr → Calc Expr} {pow : Expr → Expr → Calc Expr} {text : Expr → Calc String}

/-! ### Numbers -/

lemma productAt_rationals (n : ℕ) (p q : ℚ) :
    Meets anyHalt (productAt .refuse n [.num (.exact p), .num (.exact q)]) (· = .num (.exact (p * q))) := by
  have hdefined : ∀ e ∈ [Expr.num (.exact p), .num (.exact q)], Defined (fun _ => (0 : ℚ)) e := by simp
  have hnumber := (keepsMonomials_at .refuse n).product_numbers [.num (.exact p), .num (.exact q)] (by simp [isNumber])
  refine (hnumber.and ((keepsValues_at _ n).product_value _ hdefined)).mono ?_
  rintro r ⟨hr, hv⟩
  rw [eq_exact_of_number hr hv]
  simp

lemma product_rationals (p q : ℚ) :
    Meets anyHalt (Expr.product .refuse [.num (.exact p), .num (.exact q)]) (· = .num (.exact (p * q))) :=
  productAt_rationals _ p q

lemma pow_rational (hq : q ≠ 0) (k : Int) : Meets anyHalt (Expr.pow .refuse (.num (.exact q)) (int k)) (· = .num (.exact (q ^ k))) := by
  have hnumber : Meets anyHalt (Expr.pow .refuse (.num (.exact q)) (int k)) (·.isNumber = true) :=
    pow_number rfl (Or.inl fun h => hq (by simpa [int, Number.ofInt] using h))
  have hvalue : Meets anyHalt (Expr.pow .refuse (.num (.exact q)) (int k)) _ :=
    pow_value (defined_exact (fun _ => (0 : ℚ)) q) (Or.inl (by simpa using hq))
  refine (hnumber.and hvalue).mono ?_
  rintro r ⟨hr, hv⟩
  rw [eq_exact_of_number hr hv, wholePower_rat]
  simp

/-! ### Coefficients of products -/

/-- What a factor contributes to the coefficient of a product. -/
def scale : Expr → ℚ
  | .num n => n.value
  | _ => 1

lemma gathered_scale (sum : List Expr → Calc Expr) {es : List Expr} (h : ∀ n, .num n ∈ es → n.isExact = true) :
    Meets anyHalt (es.foldlM (Gathered.push .refuse sum) ⟨.ofInt 1, [], []⟩) (·.coeff = .exact (es.map scale).prod) := by
  refine (meets_foldlM (fun rest s => (∀ n, .num n ∈ rest → n.isExact = true) ∧
    ∃ q, s.coeff = .exact q ∧ q * (rest.map scale).prod = (es.map scale).prod) ?_ ⟨h, 1, rfl, one_mul _⟩).mono ?_
  · rintro e rest s ⟨hexact, q, hq, hprod⟩
    have hrest : ∀ n, .num n ∈ rest → n.isExact = true := fun n hn => hexact n (List.mem_cons_of_mem _ hn)
    have hother (he : e.isNumber = false) (hone : e.scale = 1) : Meets anyHalt (s.push .refuse sum e) fun t =>
        (∀ n, .num n ∈ rest → n.isExact = true) ∧ ∃ q, t.coeff = .exact q ∧ q * (rest.map scale).prod = (es.map scale).prod := by
      rw [List.map_cons, List.prod_cons, hone, one_mul] at hprod
      exact (push_coeff he).mono fun t ht => ⟨hrest, q, ht.trans hq, hprod⟩
    cases e with
    | num n =>
      obtain ⟨p, rfl⟩ := Number.exists_exact (hexact n List.mem_cons_self)
      show Meets anyHalt (do return { s with coeff := ← Overflow.refuse.mul s.coeff (.exact p) } : Calc Gathered) _
      rw [hq]
      refine (Overflow.meets_refuse_mul q p).bind fun m hm => ⟨hrest, q * p, hm, ?_⟩
      rw [← hprod, List.map_cons, List.prod_cons, mul_assoc]
      rfl
    | symbol | constant | plus | times | power | call => exact hother rfl rfl
  · rintro s ⟨-, q, hq, hprod⟩
    rw [hq, ← hprod, List.map_nil, List.prod_nil, mul_one]

lemma productAt_zero (n : ℕ) {args : List Expr} (h : ∀ m, .num m ∈ args.flatMap factors → m.isExact = true)
    (hz : ((args.flatMap factors).map scale).prod = 0) : Meets anyHalt (productAt .refuse n args) (· = .num (.exact 0)) := by
  cases n with
  | zero => trivial
  | succ n =>
    refine (gathered_scale _ h).bind fun g hg => ?_
    rw [hg, hz]
    rfl

/-- A number times a sum: the number goes to the terms. -/
lemma productAt_sum {post : Expr → Prop} (n : ℕ) {args ts : List Expr} (hargs : nonNumbers (args.flatMap factors) = [.plus ts])
    (hexact : ∀ m, .num m ∈ args.flatMap factors → m.isExact = true) (hq : ((args.flatMap factors).map scale).prod = q)
    (hzero : q = 0 → post (.num (.exact 0))) (hone : q = 1 → post (.plus ts))
    (hscaled : ∀ m, q ≠ 0 →
      Meets anyHalt (do sumAt .refuse m (← ts.mapM fun t => productAt .refuse m [.num (.exact q), t])) post) :
    Meets anyHalt (productAt .refuse n args) post := by
  cases n with
  | zero => trivial
  | succ n =>
    have hdistinct : DistinctFactors [.plus ts] :=
      ⟨by simp [isNumber], by simp, by simp [isExponential], List.pairwise_singleton _ _⟩
    have hpow : ∀ f ∈ [Expr.plus ts], Meets anyHalt (powerAt .refuse n f.baseExponent.1 f.baseExponent.2) (· = f) := by
      simpa [baseExponent] using powerAt_one .refuse n (.plus ts)
    have hcoeff := gathered_scale (sumAt .refuse n) hexact
    refine meets_anyHalt_iff.mpr fun r hr => ?_
    obtain ⟨c, hfinish, hc⟩ := (productStep_rebuilt (P := (· = .exact q)) hargs hdistinct hpow (hq ▸ hcoeff)).value hr
    subst hc
    by_cases h1 : q = 1
    · subst h1
      obtain ⟨gs, hperm, rfl⟩ := finishProduct_one.value (show finishProduct _ _ _ (.ofInt 1, [.plus ts]) = .ok r from hfinish)
      rw [List.perm_singleton.mp hperm]
      exact hone rfl
    · unfold finishProduct at hfinish
      split at hfinish
      · next hz =>
        obtain rfl : q = 0 := by simpa using hz
        exact Except.ok.inj hfinish ▸ hzero rfl
      · next hz =>
        simp only [isOne_exact_of_ne h1] at hfinish
        exact (hscaled n (by simpa using hz)).value hfinish

/-! ### Factored expressions -/

/-- Zero, or a product of powers of polynomials. -/
def IsFactored (S T : String → Prop) (e : Expr) : Prop := e = .num (.exact 0) ∨ Carries S T [] e.factors

lemma Carries.factored (h : Carries S T [] e.factors) : IsFactored S T e := Or.inr h

lemma IsNormal.factored (h : IsNormal e) (hs : SymbolsIn S e) : IsFactored S T e := by
  cases hz : e.isZero with
  | true => exact Or.inl (h.eq_exact (by rw [h.isZero_iff.mp hz, map_zero]))
  | false => exact (IsBase.carries ⟨h, hs, hz⟩).factored

lemma IsFactored.termsCarry (h : IsFactored S T e) : TermsCarry S T [] e := by
  rcases h with rfl | h
  · exact List.forall_mem_singleton.mpr (Or.inl ⟨0, rfl⟩)
  · exact h.termsCarry

lemma PowerFactor.exact {n : Number} (h : PowerFactor S T (.num n)) : n.isExact = true := by
  obtain ⟨q, -, rfl⟩ := (h.entry (T := T)).1.exact
  rfl

lemma IsFactored.exact (h : IsFactored S T e) : ∀ n, .num n ∈ e.factors → n.isExact = true := by
  rcases h with rfl | h
  · intro n hn
    obtain rfl := Expr.num.inj (List.mem_singleton.mp hn)
    rfl
  · exact fun n hn => (h.all _ hn).exact

lemma isFactored_exact (q : ℚ) : IsFactored S T (.num (.exact q)) :=
  (isNormal_term (Or.inl ⟨q, rfl⟩)).factored (symbolsIn_num _)

lemma TermsCarry.factored (h : TermsCarry S T [] e) : ∀ t ∈ e.terms, IsFactored S T t := by
  intro t ht
  obtain ⟨q, rfl⟩ | h := h t ht
  · exact isFactored_exact q
  · exact h.factored

lemma productAt_factored (n : ℕ) {args : List Expr} (h : ∀ e ∈ args, IsFactored S T e) :
    Meets anyHalt (productAt .refuse n args) (IsFactored S T) := by
  by_cases hzero : .num (.exact 0) ∈ args
  · refine (productAt_zero n (fun n hn => ?_) ?_).mono fun r hr => Or.inl hr
    · obtain ⟨e, he, hn⟩ := List.mem_flatMap.mp hn
      exact (h e he).exact n hn
    · refine List.prod_eq_zero (List.mem_map.mpr ⟨.num (.exact 0), List.mem_flatMap.mpr ⟨_, hzero, ?_⟩, rfl⟩)
      exact List.mem_singleton_self _
  · refine ((keepsCargo_at n).carried cargo_nil (carries_nil fun f hf => ?_)).mono fun r hr => hr.factored
    obtain ⟨e, he, hf⟩ := List.mem_flatMap.mp hf
    exact ((h e he).resolve_left fun heq => hzero (heq ▸ he)).all f hf

/-! ### Differences -/

/-- A number times a sum of products is such a sum. -/
lemma product_scaled {args : List Expr} (hargs : args.Perm [.num (.exact q), e]) (h : TermsCarry S T [] e) :
    Meets anyHalt (Expr.product .refuse args) (TermsCarry S T []) := by
  have hsingle (he : e.terms = [e]) : Meets anyHalt (Expr.product .refuse args) (TermsCarry S T []) := by
    have hfactored : IsFactored S T e := h.factored e (he ▸ List.mem_singleton_self e)
    refine (productAt_factored _ fun a ha => ?_).mono fun r hr => hr.termsCarry
    rcases List.mem_cons.mp (hargs.mem_iff.mp ha) with rfl | ha
    · exact isFactored_exact q
    · exact List.mem_singleton.mp ha ▸ hfactored
  cases e with
  | plus ts =>
    have hfactors : (args.flatMap factors).Perm [.num (.exact q), .plus ts] := hargs.flatMap_right factors
    refine productAt_sum (q := q) _ ?_ (fun m hm => ?_) ?_ (fun _ => (isFactored_exact 0).termsCarry) (fun _ => h) fun m _ => ?_
    · exact List.perm_singleton.mp (hfactors.filter _)
    · obtain rfl : m = .exact q := by simpa using hfactors.mem_iff.mp hm
      rfl
    · simpa [scale] using (hfactors.map scale).prod_eq
    · refine (meets_mapM_forall fun t ht => productAt_factored m ?_).bind fun us hus => sumAt_carries m cargo_nil fun u hu =>
        (hus u hu).termsCarry
      simpa using ⟨isFactored_exact q, h.factored t ht⟩
  | num | symbol | constant | times | power | call => exact hsingle rfl

lemma sub_termsCarry {a b : Expr} (ha : TermsCarry S T [] a) (hb : TermsCarry S T [] b) :
    Meets anyHalt (Expr.sub .refuse a b) (TermsCarry S T []) :=
  (product_scaled (.refl [.num (.exact (-1)), b]) hb).bind fun _ hn => sum_carries cargo_nil (by simpa using ⟨ha, hn⟩)

/-! ### Values and symbols -/

section Agreement

variable {ρ σ : String → ℚ}

mutual

/-- The values depend on no other symbols than those that occur. -/
lemma value_agree : (e : Expr) → SymbolsIn (fun s => ρ s = σ s) e →
    value ρ e = value σ e ∧ (Defined ρ e ↔ Defined σ e)
  | .num _, _ | .constant _, _ | .call _ _, _ => ⟨rfl, Iff.rfl⟩
  | .symbol _, h => ⟨h, Iff.rfl⟩
  | .plus ts, ⟨_, h⟩ => by
    obtain ⟨hsum, -, hdefined⟩ := values_agree ts h
    exact ⟨hsum, hdefined⟩
  | .times fs, ⟨_, h⟩ => by
    obtain ⟨-, hproduct, hdefined⟩ := values_agree fs h
    exact ⟨hproduct, hdefined⟩
  | .power b x, ⟨_, hb, _⟩ => by
    obtain ⟨hvalue, hdefined⟩ := value_agree b hb
    simp only [value, Defined, hvalue, hdefined, and_self]

lemma values_agree : (es : List Expr) → EverywhereAll (SymbolNode fun s => ρ s = σ s) es →
    sumValue ρ es = sumValue σ es ∧ productValue ρ es = productValue σ es ∧ (AllDefined ρ es ↔ AllDefined σ es)
  | [], _ => ⟨rfl, rfl, Iff.rfl⟩
  | e :: es, ⟨h, hs⟩ => by
    obtain ⟨hvalue, hdefined⟩ := value_agree e h
    obtain ⟨hsum, hproduct, hall⟩ := values_agree es hs
    simp only [sumValue, productValue, AllDefined, hvalue, hdefined, hsum, hproduct, hall, and_self]

end

lemma SymbolsIn.mono (h : SymbolsIn S e) (hst : ∀ s, S s → T s) : SymbolsIn T e :=
  (everywhere_symbolNode e).mpr fun s hs => hst s ((everywhere_symbolNode e).mp h s hs)

lemma value_congr (h : SymbolsIn S e) (hagree : ∀ s, S s → ρ s = σ s) : value ρ e = value σ e ∧ (Defined ρ e ↔ Defined σ e) :=
  value_agree e (SymbolsIn.mono h hagree)

end Agreement

section Mono

variable {U : String → Prop} {cs : List Expr} (hst : ∀ s, S s → U s)
include hst

lemma IsBase.mono {b : Expr} (h : IsBase S b) : IsBase U b := ⟨h.normal, SymbolsIn.mono h.symbols hst, h.nonzero⟩

lemma PowerFactor.mono (h : PowerFactor S T f) : PowerFactor U T f := by
  cases h with
  | base hb => exact .base (hb.mono hst)
  | power hb hone hx hz => exact .power (hb.mono hst) hone hx hz

lemma Carries.mono (h : Carries S T cs fs) : Carries U T cs fs :=
  ⟨h.calls, fun f hf hcall => (h.powers f hf hcall).mono hst⟩

end Mono

/-! ### Numbers for symbols -/

lemma substituteAll_forall {R : Expr → Expr → Prop} {t : Expr} {es : List Expr}
    (h : ∀ e ∈ es, Meets anyHalt (substitute .refuse e v t) (R e)) :
    Meets anyHalt (substituteAll .refuse es v t) (List.Forall₂ R es) := by
  induction es with
  | nil => exact List.Forall₂.nil
  | cons e es ih =>
    rw [List.forall_mem_cons] at h
    simp only [substituteAll]
    exact h.1.bind fun r hr => (ih h.2).bind fun rs hrs => List.Forall₂.cons hr hrs

lemma substituteAll_all {P : Expr → Prop} {t : Expr} {es : List Expr}
    (h : ∀ e ∈ es, Meets anyHalt (substitute .refuse e v t) P) :
    Meets anyHalt (substituteAll .refuse es v t) fun rs => ∀ r ∈ rs, P r := by
  induction es with
  | nil => exact List.forall_mem_nil _
  | cons e es ih =>
    rw [List.forall_mem_cons] at h
    simp only [substituteAll]
    exact h.1.bind fun r hr => (ih h.2).bind fun rs hrs => List.forall_mem_cons.mpr ⟨hr, hrs⟩

lemma substituteAll_pair {t c d : Expr} {A B : Expr → Prop} (hc : Meets anyHalt (substitute .refuse c v t) A)
    (hd : Meets anyHalt (substitute .refuse d v t) B) :
    Meets anyHalt (substituteAll .refuse [c, d] v t) fun rs => ∃ a b, rs = [a, b] ∧ A a ∧ B b := by
  have hrest : Meets anyHalt (substituteAll .refuse [d] v t) fun rs => ∃ b, rs = [b] ∧ B b := by
    simp only [substituteAll]
    exact hd.bind fun b hb => ⟨b, rfl, hb⟩
  rw [substituteAll]
  refine hc.bind fun a ha => hrest.bind ?_
  rintro rs ⟨b, rfl, hb⟩
  exact ⟨a, b, rfl, ha, hb⟩

lemma substitute_plainFactor (q : ℚ) (h : IsPlainFactor f) :
    Meets anyHalt (substitute .refuse f v (.num (.exact q))) IsTerm := by
  have hsymbol (s : String) : Meets anyHalt (substitute .refuse (.symbol s) v (.num (.exact q))) IsTerm := by
    show IsTerm (if s == v then _ else _)
    split
    · exact Or.inl ⟨q, rfl⟩
    · exact isTerm_raised (p := (s, 1)) Nat.one_pos
  rcases h with ⟨p, rfl⟩ | ⟨p, hp, rfl⟩
  · exact Or.inl ⟨p, rfl⟩
  · rcases raised_cases p with ⟨h, -⟩ | h <;> rw [h]
    · exact hsymbol p.1
    · simp only [substitute]
      exact (hsymbol p.1).bind fun b hb => (keepsTerms_at _).pow_term b _ hb (by exact_mod_cast hp)

lemma substitute_term (q : ℚ) (h : IsTerm e) : Meets anyHalt (substitute .refuse e v (.num (.exact q))) IsTerm := by
  have hfactors := h.factors
  cases e with
  | times fs =>
    simp only [substitute]
    exact (substituteAll_all fun f hf => substitute_plainFactor q (hfactors f hf)).bind fun gs hgs => product_of_terms hgs
  | num | symbol | constant | plus | power | call =>
    exact substitute_plainFactor q (hfactors _ (List.mem_singleton_self _))

lemma substitute_normal (q : ℚ) (h : IsNormal e) : Meets anyHalt (substitute .refuse e v (.num (.exact q))) IsNormal := by
  have hterms := h.terms
  cases e with
  | plus ts =>
    simp only [substitute]
    exact (substituteAll_all fun t ht => substitute_term q (hterms t ht)).bind fun us hus => sum_of_terms hus
  | num | symbol | constant | times | power | call =>
    exact (substitute_term q (hterms _ (List.mem_singleton_self _))).mono fun r hr => isNormal_term hr

section

variable {U : String → Prop} {ρ : String → ℚ} (hv : ρ v = q) (hsub : ∀ s, S s → s = v ∨ U s)
include hv hsub

/-- A base that becomes zero has no negative exponent, since the expression is defined at a point with this value. -/
lemma substitute_powerFactor (h : PowerFactor S T f) (hd : Defined ρ f) :
    Meets anyHalt (substitute .refuse f v (.num (.exact q))) (IsFactored U T) := by
  have hbase {b : Expr} (hb : IsBase S b) : Meets anyHalt (substitute .refuse b v (.num (.exact q))) fun r =>
      IsNormal r ∧ SymbolsIn U r :=
    (substitute_normal q hb.normal).and (substitute_symbols (SymbolsIn.mono hb.symbols hsub) (symbolsIn_num _))
  cases h with
  | base hb => exact (hbase hb).mono fun r hr => hr.1.factored hr.2
  | @power b x hb hone hx hz =>
    obtain ⟨k, rfl⟩ := exists_int_of_defined_power ρ hd
    obtain ⟨hdb, hk⟩ := (defined_power ρ b k).mp hd
    have hk0 : k ≠ 0 := by
      rintro rfl
      cases hz
    have hlimit : HasValue ρ (.num (.exact q)) (ρ v) := ⟨rfl, hv.symm⟩
    simp only [substitute]
    refine ((hbase hb).and (substitute_value hlimit b hdb)).bind fun r ⟨⟨hn, hs⟩, _, hvalue⟩ => ?_
    cases hzero : r.isZero with
    | true =>
      obtain rfl : r = int 0 := hn.eq_exact (by rw [hn.isZero_iff.mp hzero, Int.cast_zero, map_zero])
      have hzero : value ρ b = 0 := hvalue.symm.trans (by simp)
      have hpos : 0 ≤ k := hk.resolve_left (by simp [hzero])
      have hpow : Expr.pow .refuse (int 0) (int k) = .ok (int 0) := powerStep_zero (lt_of_le_of_ne hpos hk0.symm)
      show Meets anyHalt (Expr.pow .refuse (int 0) (int k)) _
      rw [hpow]
      exact Or.inl rfl
    | false => exact (pow_carries ⟨hn, hs, hzero⟩ (isExponent_int k)).mono fun p hp => hp.factored

lemma substitute_factored (h : Carries S T [] e.factors) (hd : Defined ρ e) :
    Meets anyHalt (substitute .refuse e v (.num (.exact q))) (IsFactored U T) := by
  cases e with
  | times fs =>
    simp only [substitute]
    have hall := (defined_times ρ fs).mp hd
    exact (substituteAll_all fun f hf => substitute_powerFactor hv hsub (h.all f hf) (hall f hf)).bind fun gs hgs =>
      productAt_factored _ hgs
  | num | symbol | constant | plus | power | call =>
    exact substitute_powerFactor hv hsub (h.all _ (List.mem_singleton_self _)) hd

lemma substitute_termsCarry (h : TermsCarry S T [] e) (hd : Defined ρ e) :
    Meets anyHalt (substitute .refuse e v (.num (.exact q))) (TermsCarry U T []) := by
  have hterm {t : Expr} (ht : IsExact t ∨ Carries S T [] t.factors) (hd : Defined ρ t) :
      Meets anyHalt (substitute .refuse t v (.num (.exact q))) (TermsCarry U T []) := by
    obtain ⟨p, rfl⟩ | ht := ht
    · exact (isFactored_exact p).termsCarry
    · exact (substitute_factored hv hsub ht hd).mono fun r hr => hr.termsCarry
  cases e with
  | plus ts =>
    simp only [substitute]
    have hall := (defined_plus ρ ts).mp hd
    exact (substituteAll_all fun t ht => hterm (h t ht) (hall t ht)).bind fun us hus => sum_carries cargo_nil hus
  | num | symbol | constant | times | power | call => exact hterm (h _ (List.mem_singleton_self _)) hd

end

end PlaneCalculus.Expr
