import PlaneCalculus.Proofs.Expr.ExactTree
import PlaneCalculus.Proofs.Expr.Factored

/-! Sums in which not every term has a value everywhere: besides terms that have one there are powers with negative exponents and
products with a call. They are only added and multiplied by numbers, and then the values behave as they should even where they
mean nothing, the inverse of zero and a call counting as zero. -/

namespace PlaneCalculus.Expr

open Calc

-- Where the exact range ends does not matter here.
attribute [local irreducible] Number.fits

variable {S : String → Prop} {C : Expr → Prop} {e p t : Expr} {q : ℚ} {args : List Expr}

/-! ### Terms -/

def noSymbol : String → Prop := fun _ => False

/-- A negative power of a polynomial. -/
def IsPole (S : String → Prop) (p : Expr) : Prop :=
  ∃ b k, p = .power b (int k) ∧ k < 0 ∧ b.KeepsExponent k ∧ IsNormal b ∧ SymbolsIn S b

/-- A call that stays what it is, of the given kind. -/
structure IsCallOf (C : Expr → Prop) (c : Expr) : Prop where
  call : c.isCall = true
  standing : StandingCall c
  kind : C c

/-- A term with a value everywhere, a multiple of a pole, or a call with a coefficient free of symbols. -/
inductive IsPart (S : String → Prop) (C : Expr → Prop) : Expr → Prop
  | regular {t : Expr} : (∀ ρ : String → ℚ, Defined ρ t) → SymbolsIn S t → IsPart S C t
  | pole {p : Expr} : IsPole S p → IsPart S C p
  | scaledPole (q : ℚ) {p : Expr} : IsPole S p → IsPart S C (.times [.num (.exact q), p])
  | call {c t : Expr} : IsCallOf C c → Carries noSymbol noSymbol [c] t.factors → IsPart S C t

lemma isPart_exact (q : ℚ) : IsPart S C (.num (.exact q)) := .regular (fun ρ => defined_exact ρ q) (symbolsIn_num _)

lemma IsCallOf.value {c : Expr} (h : IsCallOf C c) (ρ : String → ℚ) : Expr.value ρ c = 0 := by
  have hcall := h.call
  cases c with
  | call => rfl
  | num | symbol | constant | plus | times | power => cases hcall

lemma value_of_call {c : Expr} (hc : IsCallOf C c) (h : Carries noSymbol noSymbol [c] t.factors) (ρ : String → ℚ) :
    value ρ t = 0 := by
  have hmem := h.mem c (List.mem_singleton_self c)
  cases t with
  | times fs =>
    rw [value_times]
    exact List.prod_eq_zero (List.mem_map.mpr ⟨c, hmem, hc.value ρ⟩)
  | num | symbol | constant | plus | power | call => exact List.mem_singleton.mp hmem ▸ hc.value ρ

lemma IsPart.terms (h : IsPart S C t) : ∀ u ∈ t.terms, IsPart S C u := by
  cases h with
  | regular hd hs => exact fun u hu => .regular (fun ρ => (terms_value (hd ρ)).1 u hu) (terms_symbols hs u hu)
  | pole hp =>
    obtain ⟨b, k, rfl, -⟩ := id hp
    exact List.forall_mem_singleton.mpr (.pole hp)
  | scaledPole q hp => exact List.forall_mem_singleton.mpr (.scaledPole q hp)
  | call hc h => exact fun u hu => .call hc (h.terms u hu)

lemma IsPart.exact (h : IsPart S C t) : ∀ n, .num n ∈ t.factors → n.isExact = true := by
  cases h with
  | regular hd => exact fun n hn => (factors_value (hd fun _ => 0)).1 (.num n) hn
  | pole hp =>
    obtain ⟨b, k, rfl, -⟩ := hp
    simp [factors]
  | scaledPole q hp =>
    obtain ⟨b, k, rfl, -⟩ := hp
    simp [factors, Number.isExact]
  | call hc h =>
    intro n hn
    rcases h.factor hn with hcall | hf
    · obtain rfl := List.mem_singleton.mp hcall
      cases hc.call
    · exact hf.exact

lemma IsPart.multiple (h : IsPart S C t) : IsMultipleOf (IsPart S C) t := by
  cases hn : t.isNumber with
  | true =>
    obtain ⟨n, rfl⟩ := exists_num_of_isNumber hn
    exact Or.inl ((Number.exists_exact (h.exact n (List.mem_singleton_self _))).imp fun _ hq => congrArg _ hq)
  | false =>
    refine Or.inr ⟨hn, ?_⟩
    cases h with
    | regular hd hs =>
      obtain ⟨c, hc, -⟩ := coeffRest_value (hd fun _ => 0)
      refine ⟨⟨c, hc⟩, .regular (fun ρ => ?_) (coeffRest_symbols hs)⟩
      obtain ⟨-, -, hrest, -⟩ := coeffRest_value (hd ρ)
      exact hrest
    | pole hp =>
      obtain ⟨b, k, rfl, -⟩ := id hp
      exact ⟨⟨1, rfl⟩, .pole hp⟩
    | scaledPole q hp => exact ⟨⟨q, rfl⟩, .pole hp⟩
    | call hc h => exact (coeffRest_carries (by simpa using hc.standing) h hn).imp_right (.call hc)

/-! ### Multiples -/

lemma finishProduct_single {sum product : List Expr → Calc Expr} {text : Expr → Calc String} (hq : q ≠ 0)
    (hp : ∀ ts, p ≠ .plus ts) : Meets anyHalt (finishProduct sum product text (.exact q, [p])) (· = assembled (.exact q) [p]) := by
  unfold finishProduct
  rw [if_neg (by simp [isZero_exact_of_ne hq])]
  split
  · next hts _ => exact absurd (List.singleton_inj.mp hts) (hp _)
  · refine (meets_sortFactors_perm text [p]).bind fun gs hgs => ?_
    rw [List.perm_singleton.mp hgs]
    rfl

/-- Products of numbers and one pole. -/
lemma productAt_pole (n : ℕ) (hp : IsPole S p) (hargs : nonNumbers (args.flatMap factors) = [p])
    (hexact : ∀ m, .num m ∈ args.flatMap factors → m.isExact = true) :
    Meets anyHalt (productAt .refuse n args) fun r => IsPart S C r ∧ ∀ ρ : String → ℚ,
      value ρ r = ((args.flatMap factors).map scale).prod * value ρ p := by
  cases n with
  | zero => trivial
  | succ n =>
    obtain ⟨b, k, rfl, hk, hkeeps, -⟩ := id hp
    have hdistinct : DistinctFactors [.power b (int k)] :=
      ⟨by simp [isNumber], by simp, by simp [isExponential], List.pairwise_singleton _ _⟩
    have hpow : ∀ f ∈ [Expr.power b (int k)], Meets anyHalt (powerAt .refuse n f.baseExponent.1 f.baseExponent.2) (· = f) := by
      refine List.forall_mem_singleton.mpr ?_
      cases n with
      | zero => trivial
      | succ n =>
        rw [baseExponent, powerAt, powerStep_kept (by omega) (by omega) hkeeps]
        rfl
    refine meets_anyHalt_iff.mpr fun r hr => ?_
    obtain ⟨c, hfinish, rfl⟩ := (productStep_rebuilt (P := (· = .exact _)) hargs hdistinct hpow (gathered_scale _ hexact)).value hr
    generalize ((args.flatMap factors).map scale).prod = q at hfinish ⊢
    by_cases hq : q = 0
    · subst hq
      obtain rfl : .num (.exact 0) = r := Except.ok.inj hfinish
      exact ⟨isPart_exact 0, fun ρ => by simp⟩
    · obtain rfl := (finishProduct_single hq (by simp)).value hfinish
      unfold assembled
      split
      · next hone =>
        obtain rfl := Number.isOne_exact hone
        exact ⟨.pole hp, fun ρ => (one_mul _).symm⟩
      · exact ⟨.scaledPole q hp, fun ρ => by simp [collapse]⟩

/-- A number times a term. -/
lemma IsPart.scaled (n : ℕ) (h : IsPart S C t) (hargs : args.Perm [.num (.exact q), t]) :
    Meets anyHalt (productAt .refuse n args) fun r => IsPart S C r ∧ ∀ ρ : String → ℚ, value ρ r = q * value ρ t := by
  have hfactors : (args.flatMap factors).Perm (.num (.exact q) :: t.factors) := by
    simpa [factors] using hargs.flatMap_right factors
  have hexact : ∀ m, .num m ∈ args.flatMap factors → m.isExact = true := by
    intro m hm
    rcases List.mem_cons.mp (hfactors.mem_iff.mp hm) with hm | hm
    · obtain rfl := Expr.num.inj hm
      rfl
    · exact h.exact m hm
  have hscale : ((args.flatMap factors).map scale).prod = q * (t.factors.map scale).prod := by
    simpa [scale] using (hfactors.map scale).prod_eq
  have hothers : (nonNumbers (args.flatMap factors)).Perm (nonNumbers t.factors) := hfactors.filter _
  cases h with
  | regular hd hs =>
    have hall {P : Expr → Prop} (hq : P (.num (.exact q))) (ht : P t) : ∀ e ∈ args, P e := by
      intro e he
      rcases List.mem_cons.mp (hargs.mem_iff.mp he) with rfl | he
      · exact hq
      · exact List.mem_singleton.mp he ▸ ht
    have hvalues : Meets anyHalt (productAt .refuse n args) fun r => ∀ ρ : String → ℚ, HasValue ρ r (q * value ρ t) := by
      refine meets_forall fun ρ => ?_
      have hproduct := (keepsValues_at ρ n).product_value args (hall (defined_exact ρ q) (hd ρ))
      rw [(hargs.map (value ρ)).prod_eq] at hproduct
      simpa using hproduct
    have hsymbols := (keepsSymbols_at .refuse n).product_symbols args (hall (symbolsIn_num (.exact q)) hs)
    exact (hvalues.and hsymbols).mono fun r hr => ⟨.regular (fun ρ => (hr.1 ρ).1) hr.2, fun ρ => (hr.1 ρ).2⟩
  | pole hp =>
    obtain ⟨b, k, rfl, -⟩ := id hp
    refine (productAt_pole n hp (List.perm_singleton.mp hothers) hexact).mono fun r hr => ⟨hr.1, fun ρ => ?_⟩
    rw [hr.2, hscale]
    simp [factors, scale]
  | scaledPole c hp =>
    obtain ⟨b, k, rfl, -⟩ := id hp
    refine (productAt_pole n hp (List.perm_singleton.mp hothers) hexact).mono fun r hr => ⟨hr.1, fun ρ => ?_⟩
    rw [hr.2, hscale]
    simp [factors, scale, mul_assoc]
  | @call c t hc h =>
    by_cases hq : q = 0
    · subst hq
      refine (productAt_zero n hexact (by rw [hscale, zero_mul])).mono ?_
      rintro r rfl
      exact ⟨isPart_exact 0, fun ρ => by simp⟩
    · have hnumber : Carries noSymbol noSymbol [] [.num (.exact q)] := carries_nil (by simpa using .base (isBase_exact hq))
      have hcarries : Carries noSymbol noSymbol [c] (args.flatMap factors) := (hnumber.append h).perm le_rfl hfactors
      refine ((keepsCargo_at n).carried (cargo_singleton hc.standing) hcarries).mono fun r hr => ⟨.call hc hr, fun ρ => ?_⟩
      rw [value_of_call hc hr, value_of_call hc h, mul_zero]

/-! ### Sums -/

section Sum

variable (ρ : String → ℚ) {Q : Expr → Prop} {sum product : List Expr → Calc Expr} {text : Expr → Calc String}

lemma value_terms (e : Expr) : (e.terms.map (value ρ)).sum = value ρ e := by
  cases e with
  | plus ts => exact (value_plus ρ ts).symm
  | num | symbol | constant | times | power | call => exact add_zero _

lemma value_coeffRest (e : Expr) : e.coeffRest.1.value * value ρ e.coeffRest.2 = value ρ e := by
  unfold coeffRest
  split <;> simp [value, Number.ofInt, productValue_eq]

lemma sum_of_forall₂ {α : Type} {l : List α} {ts : List Expr} {g : α → ℚ}
    (h : List.Forall₂ (fun a t => value ρ t = g a) l ts) : (ts.map (value ρ)).sum = (l.map g).sum := by
  induction h with
  | nil => rfl
  | cons h _ ih => rw [List.map_cons, List.map_cons, List.sum_cons, List.sum_cons, h, ih]

lemma addCoefficient_total {rest : Expr} (c : ℚ) {entries : List (Expr × Number)} (h : ∀ p ∈ entries, ∃ d, p.2 = .exact d) :
    Meets anyHalt (addCoefficient .refuse rest (.exact c) entries) fun es =>
      entriesValue ρ es = entriesValue ρ entries + c * value ρ rest := by
  induction entries with
  | nil => simp [addCoefficient, entriesValue]
  | cons p entries ih =>
    obtain ⟨e, d⟩ := p
    rw [List.forall_mem_cons] at h
    obtain ⟨⟨d, rfl⟩, hes⟩ := h
    simp only [addCoefficient]
    split
    · next hsame =>
      refine (Overflow.meets_refuse_add d c).bind fun s hs => ?_
      have hv := (value_same ρ e rest hsame).1
      simp only [meets_pure, entriesValue, List.map_cons, List.sum_cons, hs, hv, Number.value_exact, map_add]
      simp
      ring
    · refine (ih hes).bind fun es hv => ?_
      simp only [entriesValue] at hv
      simp only [meets_pure, entriesValue, List.map_cons, List.sum_cons, hv, add_assoc]

lemma push_collected_total {s : Collected} (hs : s.Exact Q) (he : IsMultipleOf Q e) :
    Meets anyHalt (s.push .refuse e) fun t => t.value ρ = s.value ρ + value ρ e := by
  obtain ⟨q, rfl⟩ | ⟨hn, ⟨c, hc⟩, -⟩ := he
  · obtain ⟨p, hp⟩ := Number.exists_exact hs.number
    have hadd := Overflow.meets_refuse_add p q
    rw [← hp] at hadd
    refine hadd.bind fun m hm => ?_
    simp only [meets_pure, Collected.value, hm, hp, Number.value_exact, map_add, value_exact]
    ring
  · rw [push_collected_eq hn, hc]
    refine (addCoefficient_total ρ c fun p hp => (hs.entries p hp).1).bind fun out hout => ?_
    have hvalue := value_coeffRest ρ e
    rw [hc] at hvalue
    simp only [meets_pure, Collected.value, hout, ← hvalue, Number.value_exact]
    ring

lemma collected_total {es : List Expr} (h : ∀ e ∈ es, IsMultipleOf Q e) :
    Meets anyHalt (es.foldlM (Collected.push .refuse) ⟨.ofInt 0, []⟩) fun s =>
      s.Exact Q ∧ s.value ρ = (es.map (value ρ)).sum := by
  refine (meets_foldlM (fun rest s => (∀ e ∈ rest, IsMultipleOf Q e) ∧ s.Exact Q ∧
    s.value ρ + (rest.map (value ρ)).sum = (es.map (value ρ)).sum) ?_ ⟨h, ⟨rfl, List.forall_mem_nil _⟩, ?_⟩).mono ?_
  · rintro e rest s ⟨hrest, hs, hv⟩
    rw [List.forall_mem_cons] at hrest
    refine ((push_collected_exact hs hrest.1).and (push_collected_total ρ hs hrest.1)).mono ?_
    rintro t ⟨ht, htv⟩
    refine ⟨hrest.2, ht, ?_⟩
    rw [← hv, htv, List.map_cons, List.sum_cons, add_assoc]
  · simp [Collected.value, entriesValue, Number.ofInt]
  · rintro s ⟨-, hs, hv⟩
    exact ⟨hs, by simpa using hv⟩

lemma collapse_total (es : List Expr) : value ρ (collapse 0 .plus es) = (es.map (value ρ)).sum := by
  rcases es with _ | ⟨e, _ | ⟨f, es⟩⟩
  · simp [collapse]
  · simp [collapse]
  · exact value_plus ρ _

/-- The value of a sum is the sum of the values wherever the scaled rests have the values they should have. -/
lemma sumStep_total (h : ∀ t ∈ args.flatMap terms, IsMultipleOf Q t)
    (hscaled : ∀ q, ∀ r, Q r → Meets anyHalt (product [.num (.exact q), r]) fun t => value ρ t = q * value ρ r) :
    Meets anyHalt (sumStep .refuse product text args) fun e => value ρ e = (args.map (value ρ)).sum := by
  have hflat : ((args.flatMap terms).map (value ρ)).sum = (args.map (value ρ)).sum := by
    induction args with
    | nil => rfl
    | cons e args ih =>
      rw [List.flatMap_cons, List.forall_mem_append] at h
      rw [List.flatMap_cons, List.map_append, List.sum_append, List.map_cons, List.sum_cons, value_terms, ih h.2]
  rw [← hflat]
  refine (collected_total ρ h).bind fun s ⟨hs, hv⟩ => ?_
  rw [← hv]
  have hbuilt : Meets anyHalt ((s.entries.filter fun p => !p.2.isZero).mapM fun p => product [.num p.2, p.1])
      (List.Forall₂ (fun p t => value ρ t = p.2.value * value ρ p.1) (s.entries.filter fun p => !p.2.isZero)) := by
    refine meets_mapM fun p hp => ?_
    obtain ⟨⟨q, hq⟩, hrest⟩ := hs.entries p (List.mem_of_mem_filter hp)
    rw [hq]
    exact hscaled q p.1 hrest
  refine hbuilt.bind fun ts hts => (meets_sortTerms_perm text ts).bind fun us hperm => ?_
  have hts : (ts.map (value ρ)).sum = entriesValue ρ (s.entries.filter fun p => !p.2.isZero) := by
    simpa [entriesValue] using sum_of_forall₂ ρ hts
  have hus := (hperm.map (value ρ)).sum_eq.trans (hts.trans (entriesValue_filter fun p hp => (hs.entries p hp).1))
  obtain ⟨c, hc⟩ := Number.exists_exact hs.number
  rw [meets_pure, collapse_total, Collected.value, ← hus, hc]
  split
  · simp [add_comm]
  · next hz =>
    obtain rfl : c = 0 := by
      simp only [Bool.or_eq_true, not_or, Bool.not_eq_true, Bool.not_eq_false', Number.isZero_exact] at hz
      exact hz.1
    simp

end Sum

/-- Every term has a value, is a multiple of a pole or has a call. -/
def IsPartSum (S : String → Prop) (C : Expr → Prop) (e : Expr) : Prop := ∀ t ∈ e.terms, IsPart S C t

lemma IsPart.partSum (h : IsPart S C t) : IsPartSum S C t := h.terms

lemma sumAt_parts (n : ℕ) (h : ∀ e ∈ args, IsPartSum S C e) : Meets anyHalt (sumAt .refuse n args) fun r =>
    IsPartSum S C r ∧ ∀ ρ : String → ℚ, value ρ r = (args.map (value ρ)).sum := by
  cases n with
  | zero => trivial
  | succ n =>
    have hterms : ∀ t ∈ args.flatMap terms, IsMultipleOf (IsPart S C) t := by
      intro t ht
      obtain ⟨e, he, ht⟩ := List.mem_flatMap.mp ht
      exact (h e he t ht).multiple
    have hscaled (q : ℚ) {r : Expr} (hr : IsPart S C r) := hr.scaled n (.refl [.num (.exact q), r])
    have hvalues : Meets anyHalt (sumAt .refuse (n + 1) args) fun e => ∀ ρ : String → ℚ, value ρ e = (args.map (value ρ)).sum :=
      meets_forall fun ρ => sumStep_total ρ hterms fun q r hr => (hscaled q hr).mono fun t ht => ht.2 ρ
    have hparts : Meets anyHalt (sumAt .refuse (n + 1) args) _ :=
      sumStep_multiples hterms fun q _ r hr => (hscaled q hr).mono fun t ht => ht.1
    refine (hparts.and hvalues).mono ?_
    rintro r ⟨⟨ts, hts, rfl⟩, hv⟩
    have hall : ∀ t ∈ ts, IsPart S C t := fun t ht => (hts t ht).elim (fun ⟨q, hq⟩ => hq ▸ isPart_exact q) id
    refine ⟨?_, hv⟩
    rcases ts with _ | ⟨t, _ | ⟨u, ts⟩⟩
    · exact (isPart_exact _).partSum
    · exact (hall t List.mem_cons_self).partSum
    · exact hall

lemma sum_parts (h : ∀ e ∈ args, IsPartSum S C e) : Meets anyHalt (Expr.sum .refuse args) fun r =>
    IsPartSum S C r ∧ ∀ ρ : String → ℚ, value ρ r = (args.map (value ρ)).sum := sumAt_parts _ h

/-- A number times a sum. -/
lemma product_parts (hargs : args.Perm [.num (.exact q), e]) (h : IsPartSum S C e) :
    Meets anyHalt (Expr.product .refuse args) fun r => IsPartSum S C r ∧ ∀ ρ : String → ℚ, value ρ r = q * value ρ e := by
  have hsingle (he : e.terms = [e]) : Meets anyHalt (Expr.product .refuse args) fun r =>
      IsPartSum S C r ∧ ∀ ρ : String → ℚ, value ρ r = q * value ρ e := by
    have hpart : IsPart S C e := h e (he ▸ List.mem_singleton_self e)
    exact (hpart.scaled _ hargs).mono fun r hr => ⟨hr.1.partSum, hr.2⟩
  cases e with
  | plus ts =>
    have hfactors : (args.flatMap factors).Perm [.num (.exact q), .plus ts] := hargs.flatMap_right factors
    refine productAt_sum (q := q) _ ?_ (fun m hm => ?_) ?_ (fun hq => ?_) (fun hq => ⟨h, fun ρ => ?_⟩) fun m _ => ?_
    · exact List.perm_singleton.mp (hfactors.filter _)
    · obtain rfl : m = .exact q := by simpa using hfactors.mem_iff.mp hm
      rfl
    · simpa [scale] using (hfactors.map scale).prod_eq
    · exact ⟨(isPart_exact 0).partSum, fun ρ => by simp [hq]⟩
    · rw [hq, one_mul]
    · have hscaled {t : Expr} (ht : t ∈ ts) := (h t ht).scaled m (.refl [.num (.exact q), t])
      have hparts : Meets anyHalt (ts.mapM fun t => productAt .refuse m [.num (.exact q), t]) fun us =>
          ∀ u ∈ us, IsPartSum S C u := meets_mapM_forall fun t ht => (hscaled ht).mono fun r hr => hr.1.partSum
      have hvalues : Meets anyHalt (ts.mapM fun t => productAt .refuse m [.num (.exact q), t])
          (List.Forall₂ (fun t r => ∀ ρ : String → ℚ, value ρ r = q * value ρ t) ts) :=
        meets_mapM fun t ht => (hscaled ht).mono fun r hr => hr.2
      refine (hparts.and hvalues).bind ?_
      rintro us ⟨hus, hv⟩
      refine (sumAt_parts m hus).mono fun r hr => ⟨hr.1, fun ρ => ?_⟩
      rw [hr.2, value_plus, ← List.sum_map_mul_left]
      exact sum_of_forall₂ ρ (hv.imp fun _ _ h => h ρ)
  | num | symbol | constant | times | power | call => exact hsingle rfl

lemma sub_parts {a b : Expr} (ha : IsPartSum S C a) (hb : IsPartSum S C b) : Meets anyHalt (Expr.sub .refuse a b) fun r =>
    IsPartSum S C r ∧ ∀ ρ : String → ℚ, value ρ r = value ρ a - value ρ b := by
  refine (product_parts (.refl [.num (.exact (-1)), b]) hb).bind fun n ⟨hn, hv⟩ => ?_
  refine (sum_parts (by simpa using ⟨ha, hn⟩)).mono fun r hr => ⟨hr.1, fun ρ => ?_⟩
  simp [hr.2, hv, sub_eq_add_neg]

/-- A number in such a sum is exact, since nothing else has been added. -/
lemma IsPartSum.number {n : Number} (h : IsPartSum S C (.num n)) : ∃ q, n = .exact q :=
  Number.exists_exact ((h _ (List.mem_singleton_self _)).exact n (List.mem_singleton_self _))

/-! ### The last symbol -/

lemma closed_normal (h : IsNormal e) (hs : SymbolsIn noSymbol e) : ∃ q, e = .num (.exact q) := by
  refine ⟨value (fun _ => 0) e, h.eq_exact (h.isRing.polynomial_eq fun ρ => ?_)⟩
  have hvalue : value ρ e = value (fun _ => 0) e := (value_congr hs nofun).1
  simpa using hvalue

def anyCall : Expr → Prop := fun _ => True

/-- Any number for the symbol makes a call of it that stands again, or zero. -/
def HasLimits (w : String) (c : Expr) : Prop := ∀ q : ℚ,
  Meets anyHalt (substitute .refuse c w (.num (.exact q))) fun r => r = int 0 ∨ IsCallOf anyCall r

section Last

variable {w : String} {f c : Expr} {cs fs : List Expr}

lemma substitute_closed (h : PowerFactor noSymbol noSymbol f) (q : ℚ) :
    Meets anyHalt (substitute .refuse f w (.num (.exact q))) fun r => Carries noSymbol noSymbol [] r.factors := by
  have hnumber {e : Expr} (h : IsNormal e) (hs : SymbolsIn noSymbol e) :
      Meets anyHalt (substitute .refuse e w (.num (.exact q))) (· = e) := by
    obtain ⟨p, rfl⟩ := closed_normal h hs
    rfl
  cases h with
  | base hb =>
    refine (hnumber hb.normal hb.symbols).mono ?_
    rintro r rfl
    exact hb.carries
  | power hb _ hx =>
    refine (hnumber hb.normal hb.symbols).bind ?_
    rintro b rfl
    refine (hnumber hx.normal hx.symbols).bind ?_
    rintro x rfl
    exact pow_carries hb hx

lemma substituteAll_closed (hcs : ∀ c ∈ cs, HasLimits w c) (h : Carries noSymbol noSymbol cs fs) (q : ℚ) :
    Meets anyHalt (substituteAll .refuse fs w (.num (.exact q))) fun rs =>
      (∀ n, .num n ∈ rs.flatMap factors → n.isExact = true) ∧ (int 0 ∈ rs ∨ ∃ ds : List Expr, ds.length = cs.length ∧
        (∀ d ∈ ds, IsCallOf anyCall d) ∧ Carries noSymbol noSymbol ds (rs.flatMap factors)) := by
  induction fs generalizing cs with
  | nil =>
    obtain rfl : [] = cs := h.calls
    exact ⟨by simp, Or.inr ⟨[], rfl, List.forall_mem_nil _, h⟩⟩
  | cons f fs ih =>
    simp only [substituteAll]
    obtain ⟨ds, rfl, hcall, hrest⟩ | ⟨hf, hrest⟩ := h.uncons
    · rw [List.forall_mem_cons] at hcs
      refine (hcs.1 q).bind fun r hr => (ih hcs.2 hrest).bind fun rs ⟨hexact, hrs⟩ => ?_
      rw [meets_pure, List.flatMap_cons]
      rcases hr with rfl | hr
      · refine ⟨fun n hn => ?_, Or.inl List.mem_cons_self⟩
        rcases List.mem_append.mp hn with hn | hn
        · obtain rfl := Expr.num.inj (List.mem_singleton.mp hn)
          rfl
        · exact hexact n hn
      · have hshape := hr.standing.shape
        rw [hshape.1]
        refine ⟨fun n hn => ?_, ?_⟩
        · rcases List.mem_append.mp hn with hn | hn
          · obtain rfl := List.mem_singleton.mp hn
            cases hshape.2.1
          · exact hexact n hn
        · refine hrs.imp (List.mem_cons_of_mem _) fun ⟨es, hlen, hes, hcarries⟩ => ⟨r :: es, by simp [hlen], ?_, ?_⟩
          · exact List.forall_mem_cons.mpr ⟨hr, hes⟩
          · exact (carries_call hr.standing.call).append hcarries
    · refine (substitute_closed hf q).bind fun r hr => (ih hcs hrest).bind fun rs ⟨hexact, hrs⟩ => ?_
      rw [meets_pure, List.flatMap_cons]
      refine ⟨fun n hn => ?_, hrs.imp (List.mem_cons_of_mem _) fun ⟨ds, hlen, hds, hcarries⟩ => ⟨ds, hlen, hds, hr.append hcarries⟩⟩
      rcases List.mem_append.mp hn with hn | hn
      · exact (hr.all _ hn).exact
      · exact hexact n hn

lemma substitute_call (hc : IsCallOf (HasLimits w) c) (h : Carries noSymbol noSymbol [c] t.factors) (q : ℚ) :
    Meets anyHalt (substitute .refuse t w (.num (.exact q))) fun r => IsPart noSymbol anyCall r ∧
      ∀ ρ : String → ℚ, value ρ r = 0 := by
  have hsingle (ht : t.factors = [t]) : Meets anyHalt (substitute .refuse t w (.num (.exact q))) fun r =>
      IsPart noSymbol anyCall r ∧ ∀ ρ : String → ℚ, value ρ r = 0 := by
    obtain rfl : c = t := List.mem_singleton.mp (ht ▸ h.mem c (List.mem_singleton_self c))
    refine (hc.kind q).mono fun r hr => ?_
    rcases hr with rfl | hr
    · exact ⟨isPart_exact _, fun ρ => by simp⟩
    · have hself : Carries noSymbol noSymbol [r] r.factors := by
        rw [hr.standing.shape.1]
        exact carries_call hr.standing.call
      exact ⟨.call hr hself, hr.value⟩
  cases t with
  | times fs =>
    simp only [substitute]
    refine (substituteAll_closed (List.forall_mem_singleton.mpr hc.kind) h q).bind fun rs ⟨hexact, hrs⟩ => ?_
    rcases hrs with hzero | ⟨ds, hlen, hds, hcarries⟩
    · refine (productAt_zero _ hexact ?_).mono ?_
      · refine List.prod_eq_zero (List.mem_map.mpr ⟨int 0, List.mem_flatMap.mpr ⟨_, hzero, List.mem_singleton_self _⟩, ?_⟩)
        simp [scale, int, Number.ofInt]
      · rintro r rfl
        exact ⟨isPart_exact 0, fun ρ => by simp⟩
    · obtain ⟨d, rfl⟩ := List.length_eq_one_iff.mp hlen
      have hd := hds d (List.mem_singleton_self d)
      exact (product_carries (cargo_singleton hd.standing) hcarries).mono fun r hr => ⟨.call hd hr, value_of_call hd hr⟩
  | num | symbol | constant | plus | power | call => exact hsingle rfl

lemma substitute_pole (hp : IsPole (· = w) p) (q : ℚ) :
    Meets anyHalt (substitute .refuse p w (.num (.exact q))) fun r => IsPart noSymbol anyCall r ∧
      ∀ ρ : String → ℚ, value ρ r = value (fun _ => q) p := by
  obtain ⟨b, k, rfl, hk, -, hb, hs⟩ := hp
  have hlimit : HasValue (fun _ => q) (.num (.exact q)) q := ⟨defined_exact _ q, by simp⟩
  have hvalue := substitute_value (v := w) hlimit b (defined_of_ring _ b hb.isRing)
  have hsymbols := substitute_symbols (o := .refuse) (v := w) (S := noSymbol) (SymbolsIn.mono hs fun s => Or.inl) (symbolsIn_num (.exact q))
  simp only [substitute]
  refine ((substitute_normal q hb).and (hsymbols.and hvalue)).bind fun r ⟨hr, hrs, _, hv⟩ => ?_
  obtain ⟨c, rfl⟩ := closed_normal hr hrs
  obtain rfl : c = value (fun _ => q) b := by simpa using hv
  show Meets anyHalt (Expr.pow .refuse (.num (.exact _)) (int k)) _
  rw [value_power]
  by_cases hz : value (fun _ => q) b = 0
  · rw [hz]
    have hpow : Expr.pow .refuse (int 0) (int k) = .ok (.power (int 0) (int k)) := powerStep_kept (by omega) (by omega) ⟨rfl, hk⟩
    show Meets anyHalt (Expr.pow .refuse (int 0) (int k)) _
    rw [hpow]
    exact ⟨.pole ⟨int 0, k, rfl, hk, ⟨rfl, hk⟩, isNormal_term (isTerm_int 0), symbolsIn_num _⟩, fun ρ => by simp⟩
  · refine (pow_rational hz k).mono ?_
    rintro r rfl
    exact ⟨isPart_exact _, fun ρ => by simp [wholePower_rat]⟩

lemma substitute_part (h : IsPart (· = w) (HasLimits w) t) (q : ℚ) :
    Meets anyHalt (substitute .refuse t w (.num (.exact q))) fun r => IsPart noSymbol anyCall r ∧
      ∀ ρ : String → ℚ, value ρ r = value (fun _ => q) t := by
  cases h with
  | regular hd hs =>
    have hlimit : HasValue (fun _ => q) (.num (.exact q)) q := ⟨defined_exact _ q, by simp⟩
    have hnumber := substitute_number (v := w) hlimit rfl t (hd _) ((everywhere_symbolNode t).mp hs)
    refine (hnumber.and (substitute_value (v := w) hlimit t (hd _))).mono fun r ⟨hr, hv⟩ => ?_
    rw [eq_exact_of_number hr hv]
    exact ⟨isPart_exact _, fun ρ => by simp⟩
  | pole hp => exact substitute_pole hp q
  | scaledPole c hp =>
    have hnumber : Meets anyHalt (substitute .refuse (.num (.exact c)) w (.num (.exact q))) (· = .num (.exact c)) := rfl
    simp only [substitute]
    refine (substituteAll_pair hnumber (substitute_pole hp q)).bind ?_
    rintro rs ⟨_, r, rfl, rfl, hr, hv⟩
    refine (hr.scaled _ (.refl _)).mono fun u hu => ⟨hu.1, fun ρ => ?_⟩
    rw [hu.2, hv]
    simp
  | call hc h =>
    refine (substitute_call hc h q).mono fun r hr => ⟨hr.1, fun ρ => ?_⟩
    rw [hr.2, value_of_call hc h]

lemma substitute_parts (h : IsPartSum (· = w) (HasLimits w) e) (q : ℚ) :
    Meets anyHalt (substitute .refuse e w (.num (.exact q))) fun r => IsPartSum noSymbol anyCall r ∧
      ∀ ρ : String → ℚ, value ρ r = value (fun _ => q) e := by
  have hterm {t : Expr} (ht : t ∈ e.terms) := substitute_part (h t ht) q
  cases e with
  | plus ts =>
    have hparts : Meets anyHalt (substituteAll .refuse ts w (.num (.exact q))) fun us => ∀ u ∈ us, IsPartSum noSymbol anyCall u :=
      substituteAll_all fun t ht => (hterm ht).mono fun r hr => hr.1.partSum
    have hvalues : Meets anyHalt (substituteAll .refuse ts w (.num (.exact q)))
        (List.Forall₂ (fun t r => ∀ ρ : String → ℚ, value ρ r = value (fun _ => q) t) ts) :=
      substituteAll_forall fun t ht => (hterm ht).mono fun r hr => hr.2
    simp only [substitute]
    refine (hparts.and hvalues).bind fun us ⟨hus, hv⟩ => (sum_parts hus).mono fun r hr => ⟨hr.1, fun ρ => ?_⟩
    rw [hr.2, value_plus]
    exact sum_of_forall₂ ρ (hv.imp fun _ _ h => h ρ)
  | num | symbol | constant | times | power | call =>
    exact (hterm (List.mem_singleton_self _)).mono fun r hr => ⟨hr.1.partSum, hr.2⟩

end Last

end PlaneCalculus.Expr
