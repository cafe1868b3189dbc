import PlaneCalculus.Proofs.Expr.RationalArithmetic
import PlaneCalculus.Proofs.Formula.Parts

/-! The value of a formula, computed from its parts without any expression: a division asks for a divisor other than zero,
and exponents are whole numbers written in digits. What is read from a formula has its value. -/

open PlaneCalculus.Expr

namespace PlaneCalculus.Formula

open Calc

def Sign.apply : Sign → ℚ → ℚ → ℚ
  | .plus, a, b => a + b
  | .minus, a, b => a - b

/-- Digits alone, as long as they fit. -/
def whole? (l : Decimal.Literal) : Option Nat :=
  if l.isWhole && Number.fits (Decimal.natOfDigits l.whole) then some (Decimal.natOfDigits l.whole) else none

def SignedForm.whole? : SignedForm → Option Nat
  | .bare (.single (.number l)) => Formula.whole? l
  | _ => none

section Value

variable (ρ : String → ℚ)

mutual

def SumForm.HasValue : SumForm → ℚ → Prop
  | .single t, x => t.HasValue x
  | .chain s sign t, x => ∃ a b, s.HasValue a ∧ t.HasValue b ∧ sign.apply a b = x

def ProductForm.HasValue : ProductForm → ℚ → Prop
  | .single u, x => u.HasValue x
  | .chain p .times u, x => ∃ a b, p.HasValue a ∧ u.HasValue b ∧ a * b = x
  | .chain p .over u, x => ∃ a b, p.HasValue a ∧ u.HasValue b ∧ b ≠ 0 ∧ a / b = x

def SignedForm.HasValue : SignedForm → ℚ → Prop
  | .bare p, x => p.HasValue x
  | .signed .plus u, x => u.HasValue x
  | .signed .minus u, x => u.HasValue (-x)

def PowerForm.HasValue : PowerForm → ℚ → Prop
  | .single a, x => a.HasValue x
  | .raised a u, x => ∃ b n, a.HasValue b ∧ u.whole? = some n ∧ b ^ n = x

def AtomForm.HasValue : AtomForm → ℚ → Prop
  | .number l, x => ∃ n : Nat, whole? l = some n ∧ n = x
  | .call _ _, _ => False
  | .name name, x => ¬ IsFunctionName name ∧ name ≠ "pi" ∧ name ≠ "E" ∧ ρ name = x
  | .group s, x => s.HasValue x

end

end Value

variable {ρ : String → ℚ}

lemma ofLiteral_whole {l : Decimal.Literal} {n : Nat} (h : whole? l = some n) : ofLiteral l = int n := by
  unfold whole? at h
  unfold ofLiteral
  split at h
  · next hl =>
    cases h
    exact if_pos hl
  · cases h

lemma holds_whole {u : SignedForm} {n : Nat} (h : u.whole? = some n) : u.toExpr .refuse false = .ok (int n) := by
  unfold SignedForm.whole? at h
  split at h
  · simp only [SignedForm.toExpr, PowerForm.toExpr, AtomForm.toExpr, ofLiteral_whole h]
    rfl
  · cases h

lemma Sign.combine_value (sign : Sign) {e f : Expr} {a b : ℚ} (he : Expr.HasValue ρ e a) (hf : Expr.HasValue ρ f b) :
    Meets anyHalt (sign.combine .refuse e f) (Expr.HasValue ρ · (sign.apply a b)) := by
  obtain ⟨hde, rfl⟩ := he
  obtain ⟨hdf, rfl⟩ := hf
  cases sign with
  | plus =>
    have hd : ∀ x ∈ [e, f], Defined ρ x := by simpa using ⟨hde, hdf⟩
    have hs := sum_value hd
    simpa [Sign.apply, Sign.combine] using hs
  | minus => exact sub_value hde hdf

lemma mul_value {e f : Expr} {a b : ℚ} (he : Expr.HasValue ρ e a) (hf : Expr.HasValue ρ f b) :
    Meets anyHalt (Expr.product .refuse [e, f]) (Expr.HasValue ρ · (a * b)) := by
  obtain ⟨hde, rfl⟩ := he
  obtain ⟨hdf, rfl⟩ := hf
  have hd : ∀ x ∈ [e, f], Defined ρ x := by simpa using ⟨hde, hdf⟩
  have hp := product_value hd
  simpa using hp

mutual

lemma SumForm.holds_value : (s : SumForm) → (x : ℚ) → s.HasValue ρ x → Holds (Expr.HasValue ρ · x) (s.toExpr .refuse)
  | .single t, x, h => by
    rw [SumForm.toExpr]
    exact t.holds_value x h
  | .chain s sign t, _, ⟨a, b, hs, ht, hx⟩ => by
    subst hx
    rw [SumForm.toExpr_chain]
    exact (s.holds_value a hs).bind fun e he => (t.holds_value b ht).bind fun f hf =>
      holds_lift (sign.combine_value he hf)

lemma ProductForm.holds_value : (p : ProductForm) → (x : ℚ) → p.HasValue ρ x →
    Holds (Expr.HasValue ρ · x) (p.toExpr .refuse)
  | .single u, x, h => by
    rw [ProductForm.toExpr]
    exact u.holds_value x h false
  | .chain p .times u, _, ⟨a, b, hp, hu, hx⟩ => by
    subst hx
    rw [ProductForm.toExpr_chain]
    exact (p.holds_value a hp).bind fun e he => (u.holds_value b hu false).bind fun f hf => holds_lift (mul_value he hf)
  | .chain p .over u, _, ⟨a, b, hp, hu, hb, hx⟩ => by
    subst hx
    rw [ProductForm.toExpr_chain]
    refine (p.holds_value a hp).bind fun e he => (u.holds_value b hu false).bind fun f hf => ?_
    obtain ⟨hde, rfl⟩ := he
    obtain ⟨hdf, rfl⟩ := hf
    exact holds_lift (div_value hde hdf hb)

lemma SignedForm.holds_value : (u : SignedForm) → (x : ℚ) → u.HasValue ρ x → (negative : Bool) →
    Holds (Expr.HasValue ρ · (if negative then -x else x)) (u.toExpr .refuse negative)
  | .bare p, x, h, negative => by
    rw [SignedForm.toExpr]
    refine (p.holds_value x h).bind fun e he => ?_
    cases negative with
    | false => exact holds_ok he
    | true =>
      obtain ⟨hd, rfl⟩ := he
      exact holds_lift (neg_value hd)
  | .signed .plus u, x, h, negative => by
    rw [SignedForm.toExpr]
    simpa using u.holds_value x h negative
  | .signed .minus u, x, h, negative => by
    rw [SignedForm.toExpr]
    cases negative with
    | false => simpa using u.holds_value (-x) h true
    | true => simpa using u.holds_value (-x) h false

lemma PowerForm.holds_value : (p : PowerForm) → (x : ℚ) → p.HasValue ρ x →
    Holds (Expr.HasValue ρ · x) (p.toExpr .refuse)
  | .single a, x, h => by
    rw [PowerForm.toExpr]
    exact a.holds_value x h
  | .raised a u, _, ⟨b, n, ha, hu, hx⟩ => by
    subst hx
    rw [PowerForm.toExpr, holds_whole hu]
    refine (a.holds_value b ha).bind fun e he => ?_
    obtain ⟨hd, rfl⟩ := he
    exact holds_lift (pow_value hd (Or.inr (Int.natCast_nonneg n)))

lemma AtomForm.holds_value : (a : AtomForm) → (x : ℚ) → a.HasValue ρ x →
    Holds (Expr.HasValue ρ · x) (a.toExpr .refuse)
  | .number l, _, ⟨n, hl, hx⟩ => by
    subst hx
    rw [AtomForm.toExpr, ofLiteral_whole hl]
    exact holds_ok ⟨defined_int ρ n, by simp⟩
  | .name name, _, ⟨hf, hpi, he, hx⟩ => by
    subst hx
    rw [AtomForm.toExpr, ofName, if_neg hpi, if_neg he, if_neg fun h => hf ((isFunctionName_iff name).mpr h)]
    exact holds_ok ⟨trivial, rfl⟩
  | .group s, x, h => by
    rw [AtomForm.toExpr]
    exact s.holds_value x h

end

/-! ### Formulas with a value are read -/

mutual

/-- A formula with a value takes no name for what it is not. -/
lemma SumForm.misuses_of_value : (s : SumForm) → {x : ℚ} → s.HasValue ρ x → s.misuses = []
  | .single t, _, h => t.misuses_of_value h
  | .chain s _ t, _, ⟨_, _, hs, ht, _⟩ => List.append_eq_nil_iff.mpr ⟨s.misuses_of_value hs, t.misuses_of_value ht⟩

lemma ProductForm.misuses_of_value : (p : ProductForm) → {x : ℚ} → p.HasValue ρ x → p.misuses = []
  | .single u, _, h => u.misuses_of_value h
  | .chain p .times u, _, ⟨_, _, hp, hu, _⟩ =>
    List.append_eq_nil_iff.mpr ⟨p.misuses_of_value hp, u.misuses_of_value hu⟩
  | .chain p .over u, _, ⟨_, _, hp, hu, _⟩ =>
    List.append_eq_nil_iff.mpr ⟨p.misuses_of_value hp, u.misuses_of_value hu⟩

lemma SignedForm.misuses_of_value : (u : SignedForm) → {x : ℚ} → u.HasValue ρ x → u.misuses = []
  | .bare p, _, h => p.misuses_of_value h
  | .signed .plus u, _, h => u.misuses_of_value h
  | .signed .minus u, _, h => u.misuses_of_value h

lemma PowerForm.misuses_of_value : (p : PowerForm) → {x : ℚ} → p.HasValue ρ x → p.misuses = []
  | .single a, _, h => a.misuses_of_value h
  | .raised a u, _, ⟨_, _, ha, hu, _⟩ => by
    have hwhole : u.misuses = [] := by
      unfold SignedForm.whole? at hu
      split at hu
      · rfl
      · cases hu
    exact List.append_eq_nil_iff.mpr ⟨a.misuses_of_value ha, hwhole⟩

lemma AtomForm.misuses_of_value : (a : AtomForm) → {x : ℚ} → a.HasValue ρ x → a.misuses = []
  | .number _, _, _ => rfl
  | .name _, _, ⟨hf, _⟩ => if_neg hf
  | .group s, _, h => s.misuses_of_value h

end

/-- A formula with a value is read, in both policies as the same expression, unless a number is refused. -/
lemma SumForm.exists_expr {s : SumForm} {x : ℚ} (h : s.HasValue ρ x)
    (ho : s.toExpr .refuse ≠ .error (.halted .overflow)) :
    ∃ e, s.toExpr .refuse = .ok e ∧ s.toExpr .approximate = .ok e := by
  obtain ⟨e, he⟩ := s.failsAt.ok_iff.mp (s.misuses_of_value h)
  exact ⟨e, (s.persists ho).symm.trans he, he⟩

end PlaneCalculus.Formula
