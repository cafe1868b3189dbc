import Mathlib.Algebra.MvPolynomial.Basic
import PlaneCalculus.Proofs.Expr.Monomial
import PlaneCalculus.Proofs.Expr.TermOrder

/-! Monomials as the constructors write them: a coefficient that is shown unless it is one, and powers of symbols in
alphabetical order. A monomial that is written so is determined by the polynomial it stands for. -/

namespace PlaneCalculus

open Calc

/-- Only constants have inverses among polynomials. -/
noncomputable instance polynomialInv : Inv (MvPolynomial String ℚ) := ⟨Ring.inverse⟩

instance polynomialHasInverses : HasInverses (MvPolynomial String ℚ) := ⟨Ring.mul_inverse_cancel⟩

namespace Expr

open MvPolynomial (X monomial)

/-! ### Powers of symbols -/

def raised (p : String × ℕ) : Expr := if p.2 = 1 then .symbol p.1 else .power (.symbol p.1) (int p.2)

lemma raised_cases (p : String × ℕ) :
    raised p = .symbol p.1 ∧ p.2 = 1 ∨ raised p = .power (.symbol p.1) (int p.2) := by
  unfold raised
  split
  · next h => exact Or.inl ⟨rfl, h⟩
  · exact Or.inr rfl

lemma raised_isSymbolPower (p : String × ℕ) : (raised p).IsSymbolPower := by
  rcases raised_cases p with ⟨h, -⟩ | h <;> rw [h] <;> trivial

lemma raised_isNumber (p : String × ℕ) : (raised p).isNumber = false := (raised_isSymbolPower p).isNumber

lemma raised_baseExponent (p : String × ℕ) : (raised p).baseExponent = (.symbol p.1, int p.2) := by
  rcases raised_cases p with ⟨h, h1⟩ | h
  · rw [h, h1]
    rfl
  · rw [h]
    rfl

lemma raised_rank (p : String × ℕ) : (raised p).rank = 2 := by
  rcases raised_cases p with ⟨h, -⟩ | h <;> rw [h] <;> rfl

lemma raised_degrees (p : String × ℕ) (hp : 0 < p.2) : (raised p).degrees? = some [(p.1, (p.2 : Int))] := by
  rcases raised_cases p with ⟨h, h1⟩ | h
  · rw [h, h1]
    rfl
  · have hk : (0 : Int) < p.2 := by exact_mod_cast hp
    rw [h]
    show (if (p.2 : Int) > 0 then some [(p.1, (p.2 : Int))] else none) = _
    rw [if_pos hk]

lemma raised_value (p : String × ℕ) : HasValue X (raised p) ((X p.1 : MvPolynomial String ℚ) ^ p.2) := by
  rcases raised_cases p with ⟨h, h1⟩ | h
  · rw [h, h1, pow_one]
    exact ⟨trivial, rfl⟩
  · rw [h]
    exact ⟨(defined_power _ _ _).mpr ⟨trivial, Or.inr (Int.natCast_nonneg _)⟩, rfl⟩

/-- Positive powers of symbols in alphabetical order. -/
structure Ascending (l : List (String × ℕ)) : Prop where
  positive : ∀ p ∈ l, 0 < p.2
  sorted : l.Pairwise (·.1 < ·.1)

noncomputable def degrees (l : List (String × ℕ)) : String →₀ ℕ := (l.map fun p => Finsupp.single p.1 p.2).sum

lemma degrees_cons (p : String × ℕ) (l : List (String × ℕ)) : degrees (p :: l) = Finsupp.single p.1 p.2 + degrees l :=
  List.sum_cons

lemma degrees_eq_zero {l : List (String × ℕ)} {x : String} (h : x ∉ l.map (·.1)) : degrees l x = 0 := by
  induction l with
  | nil => rfl
  | cons p l ih =>
    rw [List.map_cons, List.mem_cons, not_or] at h
    rw [degrees_cons, Finsupp.add_apply, ih h.2, Finsupp.single_eq_of_ne h.1]

lemma mem_iff_degrees {l : List (String × ℕ)} (h : Ascending l) {p : String × ℕ} :
    p ∈ l ↔ 0 < p.2 ∧ degrees l p.1 = p.2 := by
  induction l with
  | nil =>
    have hzero : degrees [] p.1 = 0 := rfl
    rw [hzero]
    constructor
    · nofun
    · rintro ⟨hpos, heq⟩
      omega
  | cons q l ih =>
    obtain ⟨hpos, hsorted⟩ := h
    rw [List.forall_mem_cons] at hpos
    rw [List.pairwise_cons] at hsorted
    have hout : q.1 ∉ l.map (·.1) := by
      intro hq
      obtain ⟨r, hr, hrq⟩ := List.mem_map.mp hq
      exact absurd hrq (hsorted.1 r hr).ne'
    have hl := ih ⟨hpos.2, hsorted.2⟩
    rw [degrees_cons, Finsupp.add_apply, List.mem_cons]
    by_cases hpq : p.1 = q.1
    · rw [hpq, Finsupp.single_eq_same, degrees_eq_zero hout, add_zero]
      constructor
      · rintro (rfl | hp)
        · exact ⟨hpos.1, rfl⟩
        · exact absurd (List.mem_map_of_mem hp) (hpq ▸ hout)
      · exact fun heq => Or.inl (Prod.ext hpq heq.2.symm)
    · rw [Finsupp.single_eq_of_ne hpq, zero_add, ← hl]
      exact or_iff_right fun heq => hpq (congrArg Prod.fst heq)

lemma Ascending.eq_of_degrees {l m : List (String × ℕ)} (hl : Ascending l) (hm : Ascending m)
    (h : degrees l = degrees m) : l = m := by
  have hirrefl : Std.Irrefl fun p q : String × ℕ => p.1 < q.1 := ⟨fun p => lt_irrefl p.1⟩
  have hantisymm : Std.Antisymm fun p q : String × ℕ => p.1 < q.1 := ⟨fun p q hpq hqp => absurd hpq hqp.asymm⟩
  refine List.Pairwise.eq_of_mem_iff hl.sorted hm.sorted fun p => ?_
  rw [mem_iff_degrees hl, mem_iff_degrees hm, h]

lemma degrees_ne_zero {l : List (String × ℕ)} (hl : Ascending l) (hne : l ≠ []) : degrees l ≠ 0 := by
  obtain ⟨p, l, rfl⟩ := List.exists_cons_of_ne_nil hne
  intro h
  obtain ⟨hpos, heq⟩ := (mem_iff_degrees hl).mp List.mem_cons_self
  rw [h, Finsupp.zero_apply] at heq
  omega

/-! ### Monomials -/

def monomialTree (c : ℚ) (l : List (String × ℕ)) : Expr := assembled (.exact c) (l.map raised)

lemma raised_list_isNumber (l : List (String × ℕ)) : ∀ f ∈ l.map raised, f.isNumber = false := by
  rw [List.forall_mem_map]
  exact fun p _ => raised_isNumber p

lemma raised_list_flat (l : List (String × ℕ)) : ∀ f ∈ l.map raised, ∀ gs, f ≠ .times gs := by
  rw [List.forall_mem_map]
  rintro p - gs h
  cases h ▸ raised_isSymbolPower p

lemma raised_list_value (l : List (String × ℕ)) :
    (∀ f ∈ l.map raised, Defined (X : String → MvPolynomial String ℚ) f) ∧
      ((l.map raised).map (value X)).prod = monomial (degrees l) (1 : ℚ) := by
  induction l with
  | nil => exact ⟨nofun, rfl⟩
  | cons p l ih =>
    obtain ⟨hd, hv⟩ := ih
    refine ⟨List.forall_mem_cons.mpr ⟨(raised_value p).1, hd⟩, ?_⟩
    rw [List.map_cons, List.map_cons, List.prod_cons, hv, (raised_value p).2, degrees_cons,
      MvPolynomial.X_pow_eq_monomial, MvPolynomial.monomial_mul, one_mul]

lemma isOne_exact_of_ne {c : ℚ} (hc : c ≠ 1) : (Number.exact c).isOne = false := by
  cases h : (Number.exact c).isOne with
  | false => rfl
  | true => exact absurd (Number.isOne_exact h) hc

lemma monomialTree_value (c : ℚ) (l : List (String × ℕ)) :
    HasValue X (monomialTree c l) (monomial (degrees l) c) := by
  obtain ⟨hd, hv⟩ := raised_list_value l
  unfold monomialTree assembled
  by_cases hc : c = 1
  · subst hc
    exact hv ▸ collapse_times_value hd
  · rw [isOne_exact_of_ne hc]
    have hall : ∀ f ∈ .num (.exact c) :: l.map raised, Defined (X : String → MvPolynomial String ℚ) f :=
      List.forall_mem_cons.mpr ⟨rfl, hd⟩
    have hvalue := collapse_times_value hall
    rwa [List.map_cons, List.prod_cons, hv, value_exact, MvPolynomial.algebraMap_eq, MvPolynomial.C_mul_monomial,
      mul_one] at hvalue

lemma monomialTree_inj {c d : ℚ} {l m : List (String × ℕ)} (hc : c ≠ 0) (hl : Ascending l) (hm : Ascending m)
    (h : value (X : String → MvPolynomial String ℚ) (monomialTree c l) = value X (monomialTree d m)) :
    c = d ∧ l = m := by
  rw [(monomialTree_value c l).2, (monomialTree_value d m).2, MvPolynomial.monomial_eq_monomial_iff] at h
  obtain ⟨hdegrees, hcoeff⟩ := h.resolve_right fun hz => hc hz.1
  exact ⟨hcoeff, hl.eq_of_degrees hm hdegrees⟩

lemma monomialTree_cons {c : ℚ} {l : List (String × ℕ)} (hc : c ≠ 1) (hl : l ≠ []) :
    monomialTree c l = .times (.num (.exact c) :: l.map raised) := by
  obtain ⟨p, l, rfl⟩ := List.exists_cons_of_ne_nil hl
  rw [monomialTree, assembled, isOne_exact_of_ne hc]
  rfl

lemma monomialTree_one_cases {l : List (String × ℕ)} (hl : l ≠ []) :
    (∃ p, l = [p] ∧ monomialTree 1 l = raised p) ∨
      ∃ p q m, l = p :: q :: m ∧ monomialTree 1 l = .times (raised p :: raised q :: m.map raised) := by
  rcases l with _ | ⟨p, _ | ⟨q, m⟩⟩
  · exact absurd rfl hl
  · exact Or.inl ⟨p, rfl, rfl⟩
  · exact Or.inr ⟨p, q, m, rfl, rfl⟩

lemma factors_monomialTree (c : ℚ) {l : List (String × ℕ)} (hl : l ≠ []) :
    (monomialTree c l).factors = l.map raised ∨ (monomialTree c l).factors = .num (.exact c) :: l.map raised := by
  by_cases hc : c = 1
  · subst hc
    left
    rcases monomialTree_one_cases hl with ⟨p, rfl, h⟩ | ⟨p, q, m, rfl, h⟩
    · rw [h, (raised_isSymbolPower p).factors_eq]
      rfl
    · rw [h]
      rfl
  · right
    rw [monomialTree_cons hc hl]
    rfl

lemma coeffRest_monomialTree (c : ℚ) {l : List (String × ℕ)} (hl : l ≠ []) :
    (monomialTree c l).coeffRest = (.exact c, monomialTree 1 l) := by
  by_cases hc : c = 1
  · subst hc
    rcases monomialTree_one_cases hl with ⟨p, rfl, h⟩ | ⟨p, q, m, rfl, h⟩
    · rw [h]
      rcases raised_cases p with ⟨hp, -⟩ | hp <;> rw [hp] <;> rfl
    · rw [h]
      rcases raised_cases p with ⟨hp, -⟩ | hp <;> rw [hp] <;> rfl
  · rw [monomialTree_cons hc hl]
    rcases monomialTree_one_cases hl with ⟨p, rfl, h⟩ | ⟨p, q, m, rfl, h⟩ <;> rw [h] <;> rfl

lemma monomialTree_isNumber (c : ℚ) {l : List (String × ℕ)} (hl : l ≠ []) : (monomialTree c l).isNumber = false := by
  by_cases hc : c = 1
  · subst hc
    rcases monomialTree_one_cases hl with ⟨p, rfl, h⟩ | ⟨p, q, m, rfl, h⟩
    · rw [h, raised_isNumber]
    · rw [h]
      rfl
  · rw [monomialTree_cons hc hl]
    rfl

/-! ### Degrees of monomials -/

def degreeList (l : List (String × ℕ)) : List (String × Int) := l.map fun p => (p.1, (p.2 : Int))

lemma degreeOf_degreeList (x : String) (l : List (String × ℕ)) : degreeOf x (degreeList l) = degrees l x := by
  induction l with
  | nil => rfl
  | cons p l ih =>
    rw [degrees_cons, Finsupp.add_apply, Nat.cast_add, ← ih]
    show (if p.1 == x then (p.2 : Int) else 0) + degreeOf x (degreeList l) = _
    by_cases hx : x = p.1
    · rw [hx, Finsupp.single_eq_same, beq_self_eq_true, if_pos rfl]
    · rw [Finsupp.single_eq_of_ne hx, if_neg (by simpa using Ne.symm hx), Nat.cast_zero]

lemma degreesAll_raised {l : List (String × ℕ)} (hl : Ascending l) :
    degreesAll? (l.map raised) = some (degreeList l) := by
  obtain ⟨hpos, -⟩ := hl
  induction l with
  | nil => rfl
  | cons p l ih =>
    rw [List.forall_mem_cons] at hpos
    have hcons : degreesAll? (raised p :: l.map raised) =
        (do return (← degrees? (raised p)) ++ (← degreesAll? (l.map raised))) := by
      rcases raised_cases p with ⟨h, -⟩ | h <;> rw [h] <;> rfl
    rw [List.map_cons, hcons, raised_degrees p hpos.1, ih hpos.2]
    rfl

lemma degrees_monomialTree {l : List (String × ℕ)} (hl : Ascending l) (hne : l ≠ []) :
    (monomialTree 1 l).degrees? = some (degreeList l) := by
  rcases monomialTree_one_cases hne with ⟨p, rfl, h⟩ | ⟨p, q, m, rfl, h⟩
  · rw [h]
    exact raised_degrees p (hl.positive p List.mem_cons_self)
  · rw [h]
    exact degreesAll_raised hl

lemma Ascending.eq_of_compare {l m : List (String × ℕ)} (hl : Ascending l) (hm : Ascending m)
    (h : compareDegrees (degreeList l) (degreeList m) = .eq) : l = m := by
  refine hl.eq_of_degrees hm (Finsupp.ext fun x => ?_)
  have hx := compareDegrees_eq.mp h x
  rw [degreeOf_degreeList, degreeOf_degreeList] at hx
  exact_mod_cast hx

/-! ### Terms -/

/-- A monomial with a symbol in it, other than zero. -/
def IsProper (e : Expr) : Prop := ∃ c l, c ≠ 0 ∧ l ≠ [] ∧ Ascending l ∧ e = monomialTree c l

def IsExact (e : Expr) : Prop := ∃ q, e = .num (.exact q)

def IsTerm (e : Expr) : Prop := IsExact e ∨ IsProper e

/-- An exact number or a positive power of a symbol. -/
def IsPlainFactor (f : Expr) : Prop := IsExact f ∨ ∃ p : String × ℕ, 0 < p.2 ∧ f = raised p

lemma isTerm_int (k : Int) : IsTerm (int k) := Or.inl ⟨k, rfl⟩

lemma isTerm_raised {p : String × ℕ} (hp : 0 < p.2) : IsTerm (raised p) :=
  Or.inr ⟨1, [p], one_ne_zero, nofun, ⟨by simpa using hp, List.pairwise_singleton _ _⟩, rfl⟩

lemma IsPlainFactor.isTerm {f : Expr} (h : IsPlainFactor f) : IsTerm f := by
  rcases h with h | ⟨p, hp, rfl⟩
  · exact Or.inl h
  · exact isTerm_raised hp

lemma IsTerm.factors {e : Expr} (h : IsTerm e) : ∀ f ∈ e.factors, IsPlainFactor f := by
  rcases h with ⟨q, rfl⟩ | ⟨c, l, -, hne, hl, rfl⟩
  · exact List.forall_mem_singleton.mpr (Or.inl ⟨q, rfl⟩)
  · have hraised : ∀ f ∈ l.map raised, IsPlainFactor f := by
      rw [List.forall_mem_map]
      exact fun p hp => Or.inr ⟨p, hl.positive p hp, rfl⟩
    rcases factors_monomialTree c hne with h | h <;> rw [h]
    · exact hraised
    · exact List.forall_mem_cons.mpr ⟨Or.inl ⟨c, rfl⟩, hraised⟩

lemma IsTerm.defined {e : Expr} (h : IsTerm e) : Defined (X : String → MvPolynomial String ℚ) e := by
  rcases h with ⟨q, rfl⟩ | ⟨c, l, -, -, -, rfl⟩
  · exact defined_exact _ q
  · exact (monomialTree_value c l).1

lemma IsTerm.terms_eq {e : Expr} (h : IsTerm e) : e.terms = [e] := by
  rcases h with ⟨q, rfl⟩ | ⟨c, l, -, hne, -, rfl⟩
  · rfl
  · by_cases hc : c = 1
    · subst hc
      rcases monomialTree_one_cases hne with ⟨p, rfl, h⟩ | ⟨p, q, m, rfl, h⟩
      · rw [h]
        rcases raised_cases p with ⟨hp, -⟩ | hp <;> rw [hp] <;> rfl
      · rw [h]
        rfl
    · rw [monomialTree_cons hc hne]
      rfl

/-- A term is the only one of its value. -/
lemma IsTerm.eq_of_value {e : Expr} (h : IsTerm e) {c : ℚ} {l : List (String × ℕ)} (hc : c ≠ 0) (hne : l ≠ [])
    (hl : Ascending l) (hv : value X e = monomial (degrees l) c) : e = monomialTree c l := by
  rcases h with ⟨q, rfl⟩ | ⟨d, m, hd, -, hm, rfl⟩
  · have hconst : monomial (0 : String →₀ ℕ) q = monomial (degrees l) c := by
      rw [← hv, value_exact]
      rfl
    obtain ⟨hzero, -⟩ := ((MvPolynomial.monomial_eq_monomial_iff _ _ _ _).mp hconst).resolve_right fun hz => hc hz.2
    exact absurd hzero.symm (degrees_ne_zero hl hne)
  · rw [← (monomialTree_value c l).2] at hv
    obtain ⟨rfl, rfl⟩ := monomialTree_inj hd hm hl hv
    rfl

end Expr

end PlaneCalculus
