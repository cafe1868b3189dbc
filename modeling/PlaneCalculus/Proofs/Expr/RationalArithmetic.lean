import PlaneCalculus.Proofs.Expr.Agreement
import PlaneCalculus.Proofs.Expr.Arithmetic

/-! Rational arithmetic on expressions. The constructors, approximating where they must, have on rational expressions
exactly the values they are named for, as long as no operation on numbers leaves the exact range. -/

namespace PlaneCalculus.Expr

open Calc

/-- Unless an operation leaves the exact range, the calculation ends with a rational expression that is defined and has
the given value. -/
def Computes (ρ : String → ℚ) (c : Overflow → Calc Expr) (x : ℚ) : Prop :=
  c .refuse ≠ .error .overflow → ∃ r, c .approximate = .ok r ∧ r.IsRational ∧ Defined ρ r ∧ value ρ r = x

variable {ρ : String → ℚ}

lemma computes_of_value {c : Overflow → Calc Expr} {x : ℚ} (hc : Consistent c)
    (hv : Meets anyHalt (c .refuse) (HasValue ρ · x)) : Computes ρ c x := by
  intro ho
  obtain ⟨r, hr, hd, hx⟩ := hc.exists_value hv ho
  exact ⟨r, hr, isRational_of_defined ρ r hd, hd, hx⟩

lemma neg_value {e : Expr} (h : Defined ρ e) : Meets anyHalt (neg .refuse e) (HasValue ρ · (-value ρ e)) := by
  have hd : ∀ x ∈ [int (-1), e], Defined ρ x := by simpa using h
  have hp := product_value hd
  simpa [neg] using hp

lemma sub_value {a b : Expr} (ha : Defined ρ a) (hb : Defined ρ b) :
    Meets anyHalt (sub .refuse a b) (HasValue ρ · (value ρ a - value ρ b)) := by
  refine (neg_value hb).bind fun n hn => ?_
  have hd : ∀ x ∈ [a, n], Defined ρ x := by simpa using ⟨ha, hn.1⟩
  have hs := sum_value hd
  simpa [hn.2, sub_eq_add_neg] using hs

lemma div_value {a b : Expr} (ha : Defined ρ a) (hb : Defined ρ b) (h0 : value ρ b ≠ 0) :
    Meets anyHalt (div .refuse a b) (HasValue ρ · (value ρ a / value ρ b)) := by
  refine (pow_value hb (raisable_rat.mpr (Or.inl h0))).bind fun n hn => ?_
  have hd : ∀ x ∈ [a, n], Defined ρ x := by simpa using ⟨ha, hn.1⟩
  have hp := product_value hd
  simpa [hn.2, wholePower_rat, div_eq_mul_inv] using hp

end PlaneCalculus.Expr
