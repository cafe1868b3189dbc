import PlaneCalculus.Proofs.Calculus.NormalDerivative
import PlaneCalculus.Proofs.Expr.Substitution
import PlaneCalculus.Proofs.Formula.Constraint
import PlaneCalculus.Proofs.Formula.Value

/-! Formulas that are written out as sums of products. Such a formula with a value at all points is read as the normal form
of the polynomial that has these values. -/

open PlaneCalculus.Expr

namespace PlaneCalculus.Formula

open Calc
open MvPolynomial (aeval)

-- Where the exact range ends does not matter here.
attribute [local irreducible] Number.fits

mutual

/-- No sum stands in a product, under a power or in brackets, and no function is called. -/
def SumForm.IsExpanded : SumForm → Prop
  | .single t => t.IsMonomial
  | .chain s _ t => s.IsExpanded ∧ t.IsMonomial

def ProductForm.IsMonomial : ProductForm → Prop
  | .single u => u.IsMonomial
  | .chain p _ u => p.IsMonomial ∧ u.IsMonomial

def SignedForm.IsMonomial : SignedForm → Prop
  | .bare p => p.IsMonomial
  | .signed _ u => u.IsMonomial

def PowerForm.IsMonomial : PowerForm → Prop
  | .single a => a.IsMonomial
  | .raised a _ => a.IsMonomial

def AtomForm.IsMonomial : AtomForm → Prop
  | .number _ => True
  | .call _ _ => False
  | .name _ => True
  | .group (.single t) => t.IsMonomial
  | .group (.chain _ _ _) => False

end

/-! ### Terms -/

lemma pow_exact {q : ℚ} {k : Int} (hk : q ≠ 0 ∨ 0 ≤ k) :
    Meets anyHalt (Expr.pow .refuse (.num (.exact q)) (int k)) IsExact := by
  have hvalue := pow_value (defined_exact (fun _ => (0 : ℚ)) q) (raisable_rat.mpr hk)
  have hnumber : Meets anyHalt (Expr.pow .refuse (.num (.exact q)) (int k)) (·.isNumber = true) :=
    pow_number rfl (hk.imp_left fun hq h => hq (by cases h; rfl))
  exact (hvalue.and hnumber).mono fun r ⟨hr, hn⟩ => ⟨_, eq_exact_of_number hn hr⟩

/-- Only the constant monomials vanish nowhere. -/
lemma IsTerm.exact_of_ne_zero {e : Expr} (h : IsTerm e) (h0 : ∀ ρ : String → ℚ, value ρ e ≠ 0) : ∃ q ≠ 0, e = .num (.exact q) := by
  rcases h with ⟨q, rfl⟩ | ⟨c, l, hc, hne, hl, rfl⟩
  · exact ⟨q, by simpa using h0 0, rfl⟩
  · refine absurd ?_ (h0 0)
    rw [value_of_ring 0 _ (IsTerm.isRing (Or.inr ⟨c, l, hc, hne, hl, rfl⟩)), polynomial, (monomialTree_value c l).2,
      MvPolynomial.aeval_zero, MvPolynomial.constantCoeff_monomial, if_neg (degrees_ne_zero hl hne), map_zero]

lemma neg_term {e : Expr} (h : IsTerm e) : Meets anyHalt (Expr.neg .refuse e) IsTerm :=
  product_of_terms (by simpa using ⟨isTerm_int _, h⟩)

lemma div_term {a b : Expr} (ha : IsTerm a) (hb : IsTerm b) (h0 : ∀ ρ : String → ℚ, value ρ b ≠ 0) :
    Meets anyHalt (Expr.div .refuse a b) IsTerm := by
  obtain ⟨q, hq, rfl⟩ := IsTerm.exact_of_ne_zero hb h0
  exact (pow_exact (Or.inl hq)).bind fun r hr => product_of_terms (by simpa using ⟨ha, Or.inl hr⟩)

lemma pow_term {b : Expr} (hb : IsTerm b) (n : ℕ) : Meets anyHalt (Expr.pow .refuse b (int n)) IsTerm := by
  rcases Nat.eq_zero_or_pos n with rfl | hn
  · exact isTerm_int 1
  · exact (keepsTerms_at _).pow_term b n hb (by exact_mod_cast hn)

mutual

lemma ProductForm.holds_term : (p : ProductForm) → p.IsMonomial → (∀ ρ, ∃ x, p.HasValue ρ x) →
    Holds IsTerm (p.toExpr .refuse)
  | .single u, h, hv => by
    rw [ProductForm.toExpr]
    exact u.holds_term h hv false
  | .chain p .times u, ⟨hp, hu⟩, hv => by
    rw [ProductForm.toExpr_chain]
    refine (p.holds_term hp fun ρ => ?_).bind fun a ha => (u.holds_term hu (fun ρ => ?_) false).bind fun b hb => ?_
    · obtain ⟨x, a, b, ha, -⟩ := hv ρ
      exact ⟨a, ha⟩
    · obtain ⟨x, a, b, -, hb, -⟩ := hv ρ
      exact ⟨b, hb⟩
    · exact holds_lift (product_of_terms (by simpa using ⟨ha, hb⟩))
  | .chain p .over u, ⟨hp, hu⟩, hv => by
    rw [ProductForm.toExpr_chain]
    refine (p.holds_term hp fun ρ => ?_).bind fun a ha => ?_
    · obtain ⟨x, a, b, ha, -⟩ := hv ρ
      exact ⟨a, ha⟩
    · have hterm : Holds (fun e => IsTerm e ∧ ∀ ρ : String → ℚ, value ρ e ≠ 0) (u.toExpr .refuse false) := by
        intro e he
        refine ⟨u.holds_term hu (fun ρ => ?_) false e he, fun ρ => ?_⟩
        · obtain ⟨x, a, b, -, hb, -⟩ := hv ρ
          exact ⟨b, hb⟩
        · obtain ⟨x, a, b, -, hb, hne, -⟩ := hv ρ
          have hvalue := (u.holds_value b hb false e he).2
          rw [hvalue]
          exact hne
      exact hterm.bind fun b ⟨hb, hne⟩ => holds_lift (div_term ha hb hne)

lemma SignedForm.holds_term : (u : SignedForm) → u.IsMonomial → (∀ ρ, ∃ x, u.HasValue ρ x) → (negative : Bool) →
    Holds IsTerm (u.toExpr .refuse negative)
  | .bare p, h, hv, negative => by
    rw [SignedForm.toExpr]
    refine (p.holds_term h hv).bind fun e he => ?_
    split
    · exact holds_lift (neg_term he)
    · exact holds_ok he
  | .signed sign u, h, hv, negative => by
    rw [SignedForm.toExpr]
    refine u.holds_term h (fun ρ => ?_) _
    obtain ⟨x, hx⟩ := hv ρ
    cases sign with
    | plus => exact ⟨x, hx⟩
    | minus => exact ⟨-x, hx⟩

lemma PowerForm.holds_term : (p : PowerForm) → p.IsMonomial → (∀ ρ, ∃ x, p.HasValue ρ x) →
    Holds IsTerm (p.toExpr .refuse)
  | .single a, h, hv => by
    rw [PowerForm.toExpr]
    exact a.holds_term h hv
  | .raised a u, h, hv => by
    obtain ⟨-, -, n, -, hn, -⟩ := hv 0
    rw [PowerForm.toExpr, holds_whole hn]
    refine (a.holds_term h fun ρ => ?_).bind fun e he => holds_lift (pow_term he n)
    obtain ⟨x, b, n, hb, -⟩ := hv ρ
    exact ⟨b, hb⟩

lemma AtomForm.holds_term : (a : AtomForm) → a.IsMonomial → (∀ ρ, ∃ x, a.HasValue ρ x) →
    Holds IsTerm (a.toExpr .refuse)
  | .number l, _, hv => by
    obtain ⟨-, n, hl, -⟩ := hv 0
    rw [AtomForm.toExpr, ofLiteral_whole hl]
    exact holds_ok (isTerm_int n)
  | .name name, _, hv => by
    obtain ⟨-, hf, hpi, he, -⟩ := hv 0
    rw [AtomForm.toExpr, ofName, if_neg hpi, if_neg he, if_neg fun h => hf ((isFunctionName_iff name).mpr h)]
    exact holds_ok (isTerm_raised (p := (name, 1)) Nat.one_pos)
  | .group (.single t), h, hv => by
    rw [AtomForm.toExpr, SumForm.toExpr]
    exact t.holds_term h hv

end

/-! ### Sums -/

lemma SumForm.holds_normal : (s : SumForm) → s.IsExpanded → (∀ ρ, ∃ x, s.HasValue ρ x) →
    Holds IsNormal (s.toExpr .refuse)
  | .single t, h, hv => by
    rw [SumForm.toExpr]
    exact (t.holds_term h hv).mono fun e => isNormal_term
  | .chain s sign t, ⟨hs, ht⟩, hv => by
    rw [SumForm.toExpr_chain]
    refine (s.holds_normal hs fun ρ => ?_).bind fun a ha => (t.holds_term ht fun ρ => ?_).bind fun b hb => ?_
    · obtain ⟨x, a, b, ha, -⟩ := hv ρ
      exact ⟨a, ha⟩
    · obtain ⟨x, a, b, -, hb, -⟩ := hv ρ
      exact ⟨b, hb⟩
    · have hsum {c : Expr} (hc : IsTerm c) : Meets anyHalt (Expr.sum .refuse [a, c]) IsNormal :=
        sum_of_normal (by simpa using ⟨ha, isNormal_term hc⟩)
      cases sign with
      | plus => exact holds_lift (hsum hb)
      | minus => exact holds_lift ((neg_term hb).bind fun c hc => hsum hc)

/-- A formula that is written out is read as the normal form of its polynomial. -/
lemma SumForm.holds_polynomial {s : SumForm} (hs : s.IsExpanded) {p : MvPolynomial String ℚ}
    (hv : ∀ ρ : String → ℚ, s.HasValue ρ (aeval ρ p)) :
    Holds (fun e => IsNormal e ∧ polynomial e = p) (s.toExpr .refuse) := by
  intro e he
  have hnormal := s.holds_normal hs (fun ρ => ⟨_, hv ρ⟩) e he
  exact ⟨hnormal, hnormal.isRing.polynomial_eq fun ρ => (s.holds_value _ (hv ρ) e he).2⟩

/-! ### Texts -/

/-- The text is a formula that is written out and has the given value at all points. -/
def WrittenOut (text : String) (value : (String → ℚ) → ℚ) : Prop :=
  ∃ s : SumForm, Sentence s text.toList ∧ s.IsExpanded ∧ ∀ ρ, s.HasValue ρ (value ρ)

/-- The text is an equation of two such formulas. -/
def WrittenEquation (text : String) (left right : (String → ℚ) → ℚ) : Prop :=
  ∃ l r : SumForm, Equation l r text.toList ∧ (l.IsExpanded ∧ ∀ ρ, l.HasValue ρ (left ρ)) ∧
    r.IsExpanded ∧ ∀ ρ, r.HasValue ρ (right ρ)

/-- Both policies read the expression, which is the normal form of the polynomial. -/
structure ReadsNormal (run : Overflow → Outcome Expr) (p : MvPolynomial String ℚ) (e : Expr) : Prop where
  refuse : run .refuse = .ok e
  approximate : run .approximate = .ok e
  normal : IsNormal e
  polynomial : polynomial e = p

lemma SumForm.readsNormal {s : SumForm} (hs : s.IsExpanded) {p : MvPolynomial String ℚ}
    (hv : ∀ ρ : String → ℚ, s.HasValue ρ (aeval ρ p)) (ho : s.toExpr .refuse ≠ .error (.halted .overflow)) :
    ∃ e, ReadsNormal (s.toExpr ·) p e := by
  obtain ⟨e, hrefuse, happroximate⟩ := SumForm.exists_expr (hv 0) ho
  obtain ⟨hnormal, hpolynomial⟩ := SumForm.holds_polynomial hs hv e hrefuse
  exact ⟨e, hrefuse, happroximate, hnormal, hpolynomial⟩

lemma WrittenOut.readsNormal {text : String} {p : MvPolynomial String ℚ} (h : WrittenOut text fun ρ => aeval ρ p)
    (ho : read .refuse text ≠ .error (.halted .overflow)) : ∃ e, ReadsNormal (read · text) p e := by
  obtain ⟨s, hs, hexpanded, hv⟩ := h
  simp only [read_sentence hs] at ho ⊢
  exact SumForm.readsNormal hexpanded hv ho

lemma WrittenOut.readsConstraint {text : String} {p : MvPolynomial String ℚ} (h : WrittenOut text fun ρ => aeval ρ p)
    (ho : readConstraint .refuse text ≠ .error (.halted .overflow)) : ∃ e, ReadsNormal (readConstraint · text) p e := by
  obtain ⟨s, hs, hexpanded, hv⟩ := h
  simp only [readConstraint_sentence hs] at ho ⊢
  exact SumForm.readsNormal hexpanded hv ho

lemma ne_error_of_bind {α β : Type} {r : Outcome α} {f : α → Outcome β} {e : CalcError} (h : r >>= f ≠ .error e) :
    r ≠ .error e := by
  rintro rfl
  exact h rfl

/-- An equation with a number on its right side is read as the difference of the sides. -/
lemma WrittenEquation.readsConstraint {text : String} {p : MvPolynomial String ℚ} {q : ℚ}
    (h : WrittenEquation text (fun ρ => aeval ρ p) fun _ => q)
    (ho : readConstraint .refuse text ≠ .error (.halted .overflow)) :
    ∃ e, ReadsNormal (readConstraint · text) (p - MvPolynomial.C q) e := by
  obtain ⟨l, r, hequation, ⟨hl, hlv⟩, hr, hrv⟩ := h
  have hconstant : ∀ ρ : String → ℚ, r.HasValue ρ (aeval ρ (MvPolynomial.C q : MvPolynomial String ℚ)) := by simpa using hrv
  simp only [readConstraint_equation hequation] at ho ⊢
  obtain ⟨a, ha⟩ := SumForm.readsNormal hl hlv (ne_error_of_bind ho)
  simp only [show l.toExpr .refuse = .ok a from ha.refuse] at ho
  obtain ⟨b, hb⟩ := SumForm.readsNormal hr hconstant
    (ne_error_of_bind (f := fun b => liftM (Expr.sub .refuse a b)) ho)
  obtain rfl := hb.normal.eq_exact hb.polynomial
  have hnormal : Meets anyHalt (Expr.sub .refuse a (.num (.exact q))) IsNormal :=
    (neg_term (Or.inl ⟨q, rfl⟩)).bind fun c hc => sum_of_normal (by simpa using ⟨ha.normal, isNormal_term hc⟩)
  have hsub : Meets anyHalt (Expr.sub .refuse a (.num (.exact q))) fun e =>
      IsNormal e ∧ polynomial e = p - MvPolynomial.C q := by
    refine meets_anyHalt_iff.mpr fun e he => ⟨hnormal.value he, (hnormal.value he).isRing.polynomial_eq fun ρ => ?_⟩
    have hvalue := (sub_value (defined_of_ring ρ a ha.normal.isRing) (defined_exact ρ q)).value he
    rw [hvalue.2, value_of_ring ρ a ha.normal.isRing, ha.polynomial]
    simp
  have hoverflow : Expr.sub .refuse a (.num (.exact q)) ≠ .error .overflow := by
    intro h
    simp only [show r.toExpr .refuse = .ok _ from hb.refuse, bind, Except.bind, h] at ho
    exact ho rfl
  obtain ⟨e, hrefuse, happroximate, he, hpolynomial⟩ := (sub_consistent a _).exists_same hsub hoverflow
  refine ⟨e, ?_, ?_, he, hpolynomial⟩
  · simp only [show l.toExpr .refuse = .ok a from ha.refuse, show r.toExpr .refuse = .ok _ from hb.refuse, bind,
      Except.bind, hrefuse]
    rfl
  · simp only [show l.toExpr .approximate = .ok a from ha.approximate,
      show r.toExpr .approximate = .ok _ from hb.approximate, bind, Except.bind, happroximate]
    rfl

end PlaneCalculus.Formula
