import Mathlib.Algebra.MvPolynomial.PDeriv
import PlaneCalculus.Proofs.Calculus.Derivative
import PlaneCalculus.Proofs.Expr.NormalForm
import PlaneCalculus.Proofs.Expr.Symbols

/-! Expressions built by the operations of a ring. Such an expression is defined everywhere, its value is that of the
polynomial it denotes, and its formal derivative is the partial derivative of that polynomial. -/

namespace PlaneCalculus.Expr

open Calc TrivSqZeroExt
open MvPolynomial (X C aeval pderiv)

/-- Exact numbers, symbols, sums, products and powers with exponents zero, one, two and so on. -/
def RingNode : Expr → Prop
  | .num n => n.isExact = true
  | .constant _ => False
  | .call _ _ => False
  | .power _ e => ∃ n : ℕ, e = int n
  | _ => True

abbrev IsRing (e : Expr) : Prop := Everywhere RingNode e

section Value

variable {R : Type} [CommRing R] [Algebra ℚ R] [Inv R] (ρ : String → R)

mutual

lemma defined_of_ring : (e : Expr) → e.IsRing → Defined ρ e
  | .num _, h => h
  | .symbol _, _ => trivial
  | .constant _, h => h.elim
  | .plus ts, ⟨_, h⟩ => allDefined_of_ring ts h
  | .times fs, ⟨_, h⟩ => allDefined_of_ring fs h
  | .power b _, ⟨⟨n, he⟩, hb, _⟩ => ⟨defined_of_ring b hb, n, he ▸ rfl, Or.inr (Int.natCast_nonneg n)⟩
  | .call _ _, h => h.1.elim

lemma allDefined_of_ring : (es : List Expr) → EverywhereAll RingNode es → AllDefined ρ es
  | [], _ => trivial
  | e :: es, ⟨h, hs⟩ => ⟨defined_of_ring e h, allDefined_of_ring es hs⟩

end

mutual

lemma value_of_ring : (e : Expr) → e.IsRing → value ρ e = aeval ρ (polynomial e)
  | .num n, _ => (MvPolynomial.aeval_C ρ n.value).symm
  | .symbol s, _ => (MvPolynomial.aeval_X ρ s).symm
  | .constant _, h => h.elim
  | .plus ts, ⟨_, h⟩ => (values_of_ring ts h).1
  | .times fs, ⟨_, h⟩ => (values_of_ring fs h).2
  | .power b _, ⟨⟨n, he⟩, hb, _⟩ => by
    subst he
    rw [polynomial, value_power, value_power, wholePower_natCast, wholePower_natCast, map_pow, value_of_ring b hb]
    rfl
  | .call _ _, h => h.1.elim

lemma values_of_ring : (es : List Expr) → EverywhereAll RingNode es →
    sumValue ρ es = aeval ρ (sumValue (X : String → MvPolynomial String ℚ) es) ∧
      productValue ρ es = aeval ρ (productValue (X : String → MvPolynomial String ℚ) es)
  | [], _ => ⟨(map_zero _).symm, (map_one _).symm⟩
  | e :: es, ⟨h, hs⟩ => by
    obtain ⟨hsum, hprod⟩ := values_of_ring es hs
    rw [sumValue, sumValue, productValue, productValue, map_add, map_mul, value_of_ring e h, hsum, hprod]
    exact ⟨rfl, rfl⟩

end

omit [Inv R] in
/-- The infinitesimal part of a polynomial at a dual point. -/
lemma snd_aeval_dualPoint (v : String) (p : MvPolynomial String ℚ) :
    snd (aeval (dualPoint ρ v) p) = aeval ρ (pderiv v p) := by
  have hfst (p : MvPolynomial String ℚ) : fst (aeval (dualPoint ρ v) p) = aeval ρ p := by
    induction p using MvPolynomial.induction_on with
    | C q => rw [MvPolynomial.aeval_C, MvPolynomial.aeval_C, algebraMap_dual, fst_inl]
    | add p q hp hq => rw [map_add, map_add, fst_add, hp, hq]
    | mul_X p s hp => rw [map_mul, map_mul, fst_mul, hp, MvPolynomial.aeval_X, MvPolynomial.aeval_X, fst_dualPoint]
  induction p using MvPolynomial.induction_on with
  | C q => rw [MvPolynomial.aeval_C, algebraMap_dual, snd_inl, MvPolynomial.pderiv_C, map_zero]
  | add p q hp hq => rw [map_add, map_add, map_add, snd_add, hp, hq]
  | mul_X p s hp =>
    have hs : snd (dualPoint ρ v s) = aeval ρ (pderiv v (X s : MvPolynomial String ℚ)) := by
      rw [MvPolynomial.pderiv_X, dualPoint]
      by_cases hs : s = v
      · simp [hs]
      · simp [hs]
    rw [map_mul, MvPolynomial.aeval_X, DualNumber.snd_mul, hp, hfst, hs, fst_dualPoint, MvPolynomial.pderiv_mul, map_add,
      map_mul, map_mul, MvPolynomial.aeval_X]
    ring

lemma dualPart_of_ring (v : String) {e : Expr} (h : e.IsRing) : dualPart ρ v e = aeval ρ (pderiv v (polynomial e)) := by
  rw [dualPart, value_of_ring _ e h, snd_aeval_dualPoint]

end Value

lemma derivative_polynomial {v : String} {e : Expr} (h : e.IsRing) :
    Meets anyHalt (derivative .refuse v e) (HasValue X · (pderiv v (polynomial e))) := by
  have hd := derivative_value (R := MvPolynomial String ℚ) v e (defined_of_ring X e h)
  rwa [dualPart_of_ring X v h, MvPolynomial.aeval_X_left_apply] at hd

/-! ### Normal forms -/

lemma monomialTree_factors_nonzero {c : ℚ} (hc : c ≠ 0) {l : List (String × ℕ)} (hl : l ≠ []) :
    ∀ f ∈ (monomialTree c l).factors, f.isZero = false := by
  have hraised : ∀ f ∈ l.map raised, f.isZero = false := by
    rw [List.forall_mem_map]
    intro p _
    rcases raised_cases p with ⟨h, -⟩ | h <;> rw [h] <;> rfl
  rcases factors_monomialTree c hl with h | h <;> rw [h]
  · exact hraised
  · exact List.forall_mem_cons.mpr ⟨(exact_isZero c).trans (decide_eq_false hc), hraised⟩

/-- What holds of all the nodes that normal forms are made of. -/
structure NormalLaw (P : Expr → Prop) : Prop where
  exact : ∀ q, P (.num (.exact q))
  symbol : ∀ s, P (.symbol s)
  power : ∀ s (n : ℕ), 0 < n → P (.power (.symbol s) (int n))
  times : ∀ fs, (∀ f ∈ fs, f.isZero = false) → P (.times fs)
  plus : ∀ ts, P (.plus ts)

section

variable {P : Expr → Prop} (L : NormalLaw P) {e : Expr}
include L

lemma IsPlainFactor.everywhere (h : IsPlainFactor e) : Everywhere P e := by
  rcases h with ⟨q, rfl⟩ | ⟨p, hp, rfl⟩
  · exact L.exact q
  · rcases raised_cases p with ⟨h, -⟩ | h <;> rw [h]
    · exact L.symbol p.1
    · exact ⟨L.power p.1 p.2 hp, L.symbol p.1, L.exact _⟩

lemma IsTerm.everywhere (h : IsTerm e) : Everywhere P e := by
  have hfactors := h.factors
  cases e with
  | times fs =>
    refine (everywhere_times fs).mpr ⟨L.times fs ?_, fun f hf => (hfactors f hf).everywhere L⟩
    obtain ⟨q, hq⟩ | ⟨c, l, hc, hne, -, heq⟩ := h
    · cases hq
    · have hnonzero := monomialTree_factors_nonzero hc hne
      rwa [← heq] at hnonzero
  | num | symbol | constant | plus | power | call => exact (hfactors _ (List.mem_singleton_self _)).everywhere L

lemma IsNormal.everywhere (h : IsNormal e) : Everywhere P e := by
  have hterms := h.terms
  cases e with
  | plus ts => exact (everywhere_plus ts).mpr ⟨L.plus ts, fun t ht => (hterms t ht).everywhere L⟩
  | num | symbol | constant | times | power | call => exact (hterms _ (List.mem_singleton_self _)).everywhere L

end

lemma normalLaw_ring : NormalLaw RingNode where
  exact _ := rfl
  symbol _ := trivial
  power _ n _ := ⟨n, rfl⟩
  times _ _ := trivial
  plus _ := trivial

lemma IsTerm.isRing {e : Expr} (h : IsTerm e) : e.IsRing := h.everywhere normalLaw_ring

lemma IsNormal.isRing {e : Expr} (h : IsNormal e) : e.IsRing := h.everywhere normalLaw_ring

lemma IsNormal.defined {e : Expr} (h : IsNormal e) : Defined (X : String → MvPolynomial String ℚ) e :=
  defined_of_ring X e h.isRing

/-- A normal form with a constant value is a number. -/
lemma IsNormal.eq_exact {e : Expr} (h : IsNormal e) {q : ℚ} (hv : polynomial e = C q) : e = .num (.exact q) :=
  h.eq_of_value (isNormal_term (Or.inl ⟨q, rfl⟩)) hv

lemma monomialTree_symbols {S : String → Prop} (c : ℚ) {l : List (String × ℕ)} (h : ∀ p ∈ l, S p.1) :
    SymbolsIn S (monomialTree c l) := by
  have hraised : ∀ f ∈ l.map raised, SymbolsIn S f := by
    rw [List.forall_mem_map]
    intro p hp
    rcases raised_cases p with ⟨hr, -⟩ | hr <;> rw [hr]
    · exact h p hp
    · exact ⟨trivial, h p hp, trivial⟩
  have hall : ∀ f ∈ if (Number.exact c).isOne then l.map raised else .num (.exact c) :: l.map raised, SymbolsIn S f := by
    split
    · exact hraised
    · exact List.forall_mem_cons.mpr ⟨symbolsIn_num _, hraised⟩
  exact collapse_symbols hall ((everywhere_times _).mpr ⟨trivial, hall⟩)

/-- In a normal form no other symbols occur than those of the polynomial. -/
lemma IsNormal.symbols {e : Expr} (h : IsNormal e) : SymbolsIn (· ∈ (polynomial e).vars) e := by
  obtain ⟨ts, q, hts, rfl⟩ := h
  have hterm : ∀ t ∈ ts, SymbolsIn (· ∈ (polynomial (collapse 0 .plus (withConstant ts q))).vars) t := by
    intro t ht
    obtain ⟨c, l, hc, hne, hl, rfl⟩ := hts.proper t ht
    refine monomialTree_symbols c fun p hp => (MvPolynomial.mem_vars_iff_mem_support p.1).mpr ⟨degrees l, ?_, ?_⟩
    · have hcoeff := (hts.mem_iff hc hl hne).mp ht
      rw [MvPolynomial.mem_support_iff, polynomial, (normal_value hts q).2, MvPolynomial.coeff_add, hcoeff,
        MvPolynomial.coeff_C, if_neg (degrees_ne_zero hl hne).symm, add_zero]
      exact hc
    · obtain ⟨hpos, hdeg⟩ := (mem_iff_degrees hl).mp hp
      rw [Finsupp.mem_support_iff, hdeg]
      exact hpos.ne'
  have hall : ∀ t ∈ withConstant ts q, SymbolsIn (· ∈ (polynomial (collapse 0 .plus (withConstant ts q))).vars) t := by
    intro t ht
    unfold withConstant at ht
    split at ht
    · exact List.forall_mem_append.mpr ⟨hterm, List.forall_mem_singleton.mpr (symbolsIn_num _)⟩ t ht
    · exact hterm t ht
  exact collapse_symbols hall ((everywhere_plus _).mpr ⟨trivial, hall⟩)

/-- A polynomial over the rationals is determined by its values. -/
lemma IsRing.polynomial_eq {e : Expr} (h : e.IsRing) {p : MvPolynomial String ℚ}
    (hv : ∀ ρ : String → ℚ, value ρ e = aeval ρ p) : polynomial e = p := by
  refine MvPolynomial.funext fun ρ => ?_
  rw [← MvPolynomial.coe_aeval_eq_eval, RingHom.coe_coe, ← value_of_ring ρ e h, hv]

end PlaneCalculus.Expr
