import PlaneCalculus.Proofs.Expr.Kept
import PlaneCalculus.Proofs.Expr.PowerProduct

/-! Sums of products of powers of polynomials, with the same call in each product or none. Collecting and multiplying out
lead to such sums again. -/

namespace PlaneCalculus.Expr

open Calc
open MvPolynomial (X)

-- Where the exact range ends does not matter here.
attribute [local irreducible] Number.fits

variable {S T : String → Prop} {b c e x : Expr} {cs ds fs : List Expr}

/-! ### Terms -/

lemma IsNormal.terms_nonzero (h : IsNormal e) (hz : e.isZero = false) : ∀ t ∈ e.terms, t.isZero = false := by
  have hterms := h.terms
  obtain ⟨ts, q, hts, rfl⟩ := h
  have hproper : ∀ t ∈ ts, t.isZero = false := by
    intro t ht
    obtain ⟨c, l, -, hne, -, rfl⟩ := hts.proper t ht
    exact isZero_of_not_number (monomialTree_isNumber c hne)
  unfold withConstant at hz hterms ⊢
  split at hz
  · next hq =>
    rw [if_pos hq] at hterms ⊢
    rcases ts with _ | ⟨t, _ | ⟨u, ts⟩⟩
    · exact List.forall_mem_singleton.mpr hz
    all_goals
      have hq' : (num (.exact q)).isZero = false := isZero_exact_of_ne (hq.resolve_right (List.cons_ne_nil _ _))
      exact List.forall_mem_append.mpr ⟨hproper, List.forall_mem_singleton.mpr hq'⟩
  · next hq =>
    rw [if_neg hq] at hterms ⊢
    rcases ts with _ | ⟨t, _ | ⟨u, ts⟩⟩
    · exact absurd (Or.inr rfl) hq
    · have ht : IsTerm t := Or.inr (hts.proper t List.mem_cons_self)
      rw [collapse, ht.terms_eq]
      exact hproper
    · exact hproper

lemma IsBase.terms (h : IsBase S b) : ∀ t ∈ b.terms, IsBase S t := fun t ht =>
  ⟨isNormal_term (h.normal.terms t ht), terms_symbols h.symbols t ht, h.normal.terms_nonzero h.nonzero t ht⟩

lemma Carries.terms (h : Carries S T cs e.factors) : ∀ t ∈ e.terms, Carries S T cs t.factors := by
  cases e with
  | plus ts =>
    obtain ⟨-, -, hcall, -⟩ | ⟨hf, hnone⟩ := h.uncons
    · cases hcall
    · obtain rfl : [] = cs := hnone.calls
      have hbase : IsBase S (.plus ts) := (hf.entry (T := T)).1
      exact fun t ht => (hbase.terms t ht).carries
  | num | symbol | constant | times | power | call => exact List.forall_mem_singleton.mpr h

/-- Every term is a number or a product of powers with the given calls. -/
def TermsCarry (S T : String → Prop) (cs : List Expr) (e : Expr) : Prop :=
  ∀ t ∈ e.terms, IsExact t ∨ Carries S T cs t.factors

lemma Carries.termsCarry (h : Carries S T cs e.factors) : TermsCarry S T cs e := fun t ht => Or.inr (h.terms t ht)

/-! ### Sums -/

lemma coeffRest_carries (hcs : ∀ c ∈ cs, StandingCall c) (h : Carries S T cs e.factors) (hn : e.isNumber = false) :
    (∃ q, e.coeffRest.1 = .exact q) ∧ Carries S T cs e.coeffRest.2.factors := by
  have hcons {n : Number} {rest : List Expr} (h : Carries S T cs (.num n :: rest)) :
      (∃ q, n = .exact q) ∧ Carries S T cs rest := by
    obtain ⟨-, -, hcall, -⟩ | ⟨hf, hrest⟩ := h.uncons
    · cases hcall
    · obtain ⟨q, -, hq⟩ := (hf.entry (T := T)).1.exact
      exact ⟨⟨q, hq⟩, hrest⟩
  unfold coeffRest
  split
  · next n f => exact (hcons h).imp_right (collapse_carries hcs)
  · exact hcons h
  · cases hn
  · exact ⟨⟨1, rfl⟩, h⟩

lemma carries_multiple (hcs : ∀ c ∈ cs, StandingCall c) (h : IsExact e ∨ Carries S T cs e.factors) :
    IsMultipleOf (fun rest => Carries S T cs rest.factors) e := by
  refine h.elim Or.inl fun h => ?_
  cases e with
  | num n =>
    obtain ⟨-, -, hcall, -⟩ | ⟨hf, -⟩ := h.uncons
    · cases hcall
    · obtain ⟨q, -, rfl⟩ := (hf.entry (T := T)).1.exact
      exact Or.inl ⟨q, rfl⟩
  | symbol | constant | plus | times | power | call => exact Or.inr ⟨rfl, coeffRest_carries hcs h rfl⟩

lemma scaled_carries {product : List Expr → Calc Expr}
    (hp : ∀ {args}, Carries S T cs (args.flatMap factors) → Meets anyHalt (product args) fun r => Carries S T cs r.factors)
    {q : ℚ} (hq : q ≠ 0) (h : Carries S T cs e.factors) :
    Meets anyHalt (product [.num (.exact q), e]) fun r => Carries S T cs r.factors := by
  have hall := (carries_nil (T := T) (List.forall_mem_singleton.mpr (.base (isBase_exact (S := S) hq)))).append h
  refine hp ?_
  simpa [factors] using hall

lemma sumAt_carries (n : ℕ) {args : List Expr} (hcs : Cargo cs) (h : ∀ e ∈ args, TermsCarry S T cs e) :
    Meets anyHalt (sumAt .refuse n args) (TermsCarry S T cs) := by
  cases n with
  | zero => trivial
  | succ n =>
    have hterms : ∀ t ∈ args.flatMap terms, IsMultipleOf (fun rest => Carries S T cs rest.factors) t := by
      intro t ht
      obtain ⟨e, he, ht⟩ := List.mem_flatMap.mp ht
      exact carries_multiple hcs.standing (h e he t ht)
    refine (sumStep_multiples hterms fun q hq r hr => scaled_carries ((keepsCargo_at _).carried hcs) hq hr).mono ?_
    rintro r ⟨ts, hts, rfl⟩
    rcases ts with _ | ⟨t, _ | ⟨u, ts⟩⟩
    · exact List.forall_mem_singleton.mpr (Or.inl ⟨0, rfl⟩)
    · obtain ⟨q, rfl⟩ | h := hts t List.mem_cons_self
      · exact List.forall_mem_singleton.mpr (Or.inl ⟨q, rfl⟩)
      · exact h.termsCarry
    · exact hts

lemma sum_carries {args : List Expr} (hcs : Cargo cs) (h : ∀ e ∈ args, TermsCarry S T cs e) :
    Meets anyHalt (Expr.sum .refuse args) (TermsCarry S T cs) := sumAt_carries _ hcs h

/-! ### Multiplying out -/

lemma normalLaw_expandable : NormalLaw ExpandableNode where
  exact _ := rfl
  symbol _ := trivial
  power _ n hn := ⟨n, rfl, by exact_mod_cast hn, nofun⟩
  times _ _ := trivial
  plus _ := trivial

/-- What is in normal form stays as it is. -/
lemma IsNormal.expand_self (h : IsNormal e) : Meets anyHalt (expand .refuse e) (· = e) := by
  have hvalue := expand_value e h.defined
  exact ((expand_normal e (h.everywhere normalLaw_expandable)).and hvalue).mono fun r hr => hr.1.eq_of_value h hr.2.2

lemma expandPower_base {k : Int} (hb : IsBase S b) (h2 : 2 ≤ k) (hk : k ≤ expansionLimit) :
    Meets anyHalt (expandPower .refuse b (int k)) (IsBase S) := by
  have hnormal := expandPower_normal hb.normal (by omega) fun _ _ => hk
  have hsymbols := expandPower_kept (symbols_kept (o := .refuse)) hb.symbols (symbolsIn_num (.ofInt k))
  have hvalue := expandPower_value hb.normal.defined (Or.inr (show 0 ≤ k by omega))
  refine ((hnormal.and hsymbols).and hvalue).mono fun r ⟨⟨hn, hs⟩, hv⟩ => ⟨hn, hs, ?_⟩
  refine Bool.eq_false_iff.mpr fun hzero => Bool.eq_false_iff.mp hb.nonzero (hb.normal.isZero_iff.mpr ?_)
  obtain ⟨n, rfl⟩ := Int.eq_ofNat_of_zero_le (show 0 ≤ k by omega)
  rw [hn.isZero_iff, polynomial, hv.2, wholePower_natCast] at hzero
  exact eq_zero_of_pow_eq_zero hzero

lemma expandPower_carries (hb : IsBase S b) (hx : IsExponent T x) :
    Meets anyHalt (expandPower .refuse b x) fun r => ∀ t ∈ r.terms, Carries S T [] t.factors := by
  have hpow : Meets anyHalt (Expr.pow .refuse b x) fun r => ∀ t ∈ r.terms, Carries S T [] t.factors :=
    (pow_carries hb hx).mono fun r hr => hr.terms
  by_cases hsmall : ∃ ts k, b = .plus ts ∧ x.integer? = some k ∧ 2 ≤ k ∧ k ≤ expansionLimit
  · obtain ⟨ts, k, rfl, hk, h2, hlimit⟩ := hsmall
    rw [eq_int_of_integer? hk]
    exact (expandPower_base hb h2 hlimit).mono fun r hr t ht => (hr.terms t ht).carries
  · unfold expandPower
    split
    · next ts k hk =>
      rw [if_neg fun h => hsmall ⟨ts, k, rfl, hk, h⟩]
      exact hpow
    · exact hpow

lemma expand_powerFactor (h : PowerFactor S T e) :
    Meets anyHalt (expand .refuse e) fun r => ∀ t ∈ r.terms, Carries S T [] t.factors := by
  cases h with
  | base hb =>
    refine hb.normal.expand_self.mono ?_
    rintro r rfl t ht
    exact (hb.terms t ht).carries
  | power hb _ hx =>
    refine hb.normal.expand_self.bind ?_
    rintro c rfl
    exact expandPower_carries hb hx

lemma Cargo.left (h : Cargo (cs ++ ds)) : Cargo cs :=
  ⟨fun c hc => h.standing c (List.mem_append_left _ hc), le_of_add_le_left (List.length_append ▸ h.one)⟩

lemma multiplyOut_carries {as bs : List Expr} (hcs : Cargo (cs ++ ds)) (ha : ∀ a ∈ as, Carries S T cs a.factors)
    (hb : ∀ b ∈ bs, Carries S T ds b.factors) :
    Meets anyHalt (multiplyOut .refuse as bs) fun rs => ∀ r ∈ rs, Carries S T (cs ++ ds) r.factors := by
  refine meets_mapM_forall fun p hp => ?_
  obtain ⟨a, hmem, hp⟩ := List.mem_flatMap.mp hp
  obtain ⟨b, hmem', rfl⟩ := List.mem_map.mp hp
  refine product_carries hcs ?_
  simpa using (ha a hmem).append (hb b hmem')

/-- The calls are left alone when multiplied out. -/
def Inert (cs : List Expr) : Prop := ∀ c ∈ cs, Meets anyHalt (expand .refuse c) (· = c)

lemma expandProduct_carries (hinert : Inert cs) {acc : List Expr} (hcs : Cargo (ds ++ cs))
    (hacc : ∀ a ∈ acc, Carries S T ds a.factors) (h : Carries S T cs fs) :
    Meets anyHalt (expandProduct .refuse acc fs) fun rs => ∀ r ∈ rs, Carries S T (ds ++ cs) r.factors := by
  induction fs generalizing acc cs ds with
  | nil =>
    obtain rfl : [] = cs := h.calls
    rw [List.append_nil]
    exact hacc
  | cons f fs ih =>
    rw [expandProduct]
    obtain ⟨es, rfl, hcall, hrest⟩ | ⟨hf, hrest⟩ := h.uncons
    · rw [List.append_cons] at hcs ⊢
      have hself : Carries S T [f] f.factors := by
        rw [(hcs.standing f (by simp)).shape.1]
        exact carries_call hcall
      refine (hinert f List.mem_cons_self).bind ?_
      rintro g rfl
      refine (multiplyOut_carries hcs.left hacc hself.terms).bind fun rs hrs => ?_
      exact ih (fun c hc => hinert c (List.mem_cons_of_mem _ hc)) hcs hrs hrest
    · refine (expand_powerFactor hf).bind fun g hg => ?_
      have hcargo : Cargo (ds ++ []) := by
        rw [List.append_nil]
        exact hcs.left
      refine (multiplyOut_carries hcargo hacc hg).bind fun rs hrs => ?_
      rw [List.append_nil] at hrs
      exact ih hinert hcs hrs hrest

lemma expand_carries (hcs : Cargo cs) (hinert : Inert cs) (h : Carries S T cs e.factors) :
    Meets anyHalt (expand .refuse e) (TermsCarry S T cs) := by
  have hsingle (hfactors : e.factors = [e]) : Meets anyHalt (expand .refuse e) (TermsCarry S T cs) := by
    have hself := h
    rw [hfactors] at h
    obtain ⟨ds, rfl, -, -⟩ | ⟨hf, hnone⟩ := h.uncons
    · refine (hinert e List.mem_cons_self).mono ?_
      rintro r rfl
      exact hself.termsCarry
    · obtain rfl : [] = cs := hnone.calls
      exact (expand_powerFactor hf).mono fun r hr t ht => Or.inr (hr t ht)
  cases e with
  | times fs =>
    rw [expand]
    have hone : ∀ a ∈ [int 1], Carries S T [] a.factors := List.forall_mem_singleton.mpr carries_one
    have hcargo : Cargo ([] ++ cs) := hcs
    exact (expandProduct_carries hinert hcargo hone h).bind fun rs hrs =>
      sum_carries hcs fun r hr => (hrs r hr).termsCarry
  | num | symbol | constant | plus | power | call => exact hsingle rfl

end PlaneCalculus.Expr
