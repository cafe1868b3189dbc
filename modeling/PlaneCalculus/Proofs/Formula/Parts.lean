import PlaneCalculus.Proofs.Expr.Agreement
import PlaneCalculus.Proofs.Formula.Meaning

/-! The parts of a formula, and what holds of the expressions read from them. Where no number leaves the exact range,
reading a formula has the same outcome in both policies. -/

open PlaneCalculus.Expr

namespace PlaneCalculus.Formula

open Calc

/-! ### Outcomes -/

def Holds (P : Expr → Prop) (r : Outcome Expr) : Prop := ∀ e, r = .ok e → P e

variable {α : Type} {P Q : Expr → Prop}

lemma holds_ok {e : Expr} (h : P e) : Holds P (.ok e) := by
  rintro r ⟨⟩
  exact h

lemma Holds.mono {r : Outcome Expr} (hPQ : ∀ e, P e → Q e) (h : Holds P r) : Holds Q r := fun e he => hPQ e (h e he)

lemma Holds.bind {r : Outcome Expr} {f : Expr → Outcome Expr} (h : Holds P r) (hf : ∀ a, P a → Holds Q (f a)) :
    Holds Q (r >>= f) := by
  cases r with
  | ok a => exact hf a (h a rfl)
  | error e => nofun

lemma holds_lift {c : Calc Expr} (h : Meets anyHalt c P) : Holds P (liftM c) := by
  cases c with
  | ok a => exact holds_ok h
  | error e => nofun

lemma lift_eq_ok {c : Calc α} {a : α} (h : (liftM c : Outcome α) = .ok a) : c = .ok a := by
  cases c with
  | ok b =>
    cases h
    rfl
  | error e => cases h

/-- The second outcome is the first, unless that is a refusal. -/
def Persists (r r' : Outcome α) : Prop := r ≠ .error (.halted .overflow) → r' = r

lemma persists_refl (r : Outcome α) : Persists r r := fun _ => rfl

lemma Persists.bind {β : Type} {r r' : Outcome α} {f f' : α → Outcome β} (h : Persists r r')
    (hf : ∀ a, Persists (f a) (f' a)) : Persists (r >>= f) (r' >>= f') := by
  intro hne
  cases r with
  | ok a =>
    rw [h (by simp)]
    exact hf a hne
  | error e =>
    rw [h fun he => hne (congrArg (· >>= f) he)]
    rfl

lemma Persists.ite {p : Prop} [Decidable p] {r r' s s' : Outcome α} (hr : Persists r r') (hs : Persists s s') :
    Persists (if p then r else s) (if p then r' else s') := by
  split
  · exact hr
  · exact hs

lemma persists_lift {c : Overflow → Calc α} (h : Consistent c) :
    Persists (liftM (c .refuse) : Outcome α) (liftM (c .approximate)) := by
  intro hne
  cases hc : c .refuse with
  | ok a => rw [h.agrees a hc]
  | error e =>
    have he := h.ends .refuse
    rw [hc] at he hne
    rw [he.2] at hne
    exact absurd rfl hne

/-! ### Parts -/

mutual

/-- The property holds of the reading of every proper part of the formula. -/
def SumForm.ProperParts (P : Expr → Prop) : SumForm → Prop
  | .single t => t.ProperParts P
  | .chain s _ t => (s.ProperParts P ∧ Holds P (s.toExpr .refuse)) ∧ t.ProperParts P ∧ Holds P (t.toExpr .refuse)

def ProductForm.ProperParts (P : Expr → Prop) : ProductForm → Prop
  | .single u => u.ProperParts P
  | .chain p _ u =>
    (p.ProperParts P ∧ Holds P (p.toExpr .refuse)) ∧ u.ProperParts P ∧ Holds P (u.toExpr .refuse false)

def SignedForm.ProperParts (P : Expr → Prop) : SignedForm → Prop
  | .bare p => p.ProperParts P
  | .signed _ u => u.ProperParts P ∧ Holds P (u.toExpr .refuse false)

def PowerForm.ProperParts (P : Expr → Prop) : PowerForm → Prop
  | .single a => a.ProperParts P
  | .raised a u =>
    (a.ProperParts P ∧ Holds P (a.toExpr .refuse)) ∧ u.ProperParts P ∧ Holds P (u.toExpr .refuse false)

def AtomForm.ProperParts (P : Expr → Prop) : AtomForm → Prop
  | .number _ => True
  | .call _ s => s.ProperParts P ∧ Holds P (s.toExpr .refuse)
  | .name _ => True
  | .group s => s.ProperParts P

end

def SumForm.Parts (P : Expr → Prop) (s : SumForm) : Prop := s.ProperParts P ∧ Holds P (s.toExpr .refuse)

mutual

lemma SumForm.ProperParts.mono (hPQ : ∀ e, P e → Q e) : (s : SumForm) → s.ProperParts P → s.ProperParts Q
  | .single t, h => ProductForm.ProperParts.mono hPQ t h
  | .chain s _ t, ⟨⟨hs, he⟩, ht, hf⟩ =>
    ⟨⟨SumForm.ProperParts.mono hPQ s hs, he.mono hPQ⟩, ProductForm.ProperParts.mono hPQ t ht, hf.mono hPQ⟩

lemma ProductForm.ProperParts.mono (hPQ : ∀ e, P e → Q e) : (p : ProductForm) → p.ProperParts P → p.ProperParts Q
  | .single u, h => SignedForm.ProperParts.mono hPQ u h
  | .chain p _ u, ⟨⟨hp, he⟩, hu, hf⟩ =>
    ⟨⟨ProductForm.ProperParts.mono hPQ p hp, he.mono hPQ⟩, SignedForm.ProperParts.mono hPQ u hu, hf.mono hPQ⟩

lemma SignedForm.ProperParts.mono (hPQ : ∀ e, P e → Q e) : (u : SignedForm) → u.ProperParts P → u.ProperParts Q
  | .bare p, h => PowerForm.ProperParts.mono hPQ p h
  | .signed _ u, ⟨hu, he⟩ => ⟨SignedForm.ProperParts.mono hPQ u hu, he.mono hPQ⟩

lemma PowerForm.ProperParts.mono (hPQ : ∀ e, P e → Q e) : (p : PowerForm) → p.ProperParts P → p.ProperParts Q
  | .single a, h => AtomForm.ProperParts.mono hPQ a h
  | .raised a u, ⟨⟨ha, he⟩, hu, hf⟩ =>
    ⟨⟨AtomForm.ProperParts.mono hPQ a ha, he.mono hPQ⟩, SignedForm.ProperParts.mono hPQ u hu, hf.mono hPQ⟩

lemma AtomForm.ProperParts.mono (hPQ : ∀ e, P e → Q e) : (a : AtomForm) → a.ProperParts P → a.ProperParts Q
  | .number _, _ => trivial
  | .call _ s, ⟨hs, he⟩ => ⟨SumForm.ProperParts.mono hPQ s hs, he.mono hPQ⟩
  | .name _, _ => trivial
  | .group s, h => SumForm.ProperParts.mono hPQ s h

end

lemma SumForm.Parts.mono (hPQ : ∀ e, P e → Q e) {s : SumForm} (h : s.Parts P) : s.Parts Q :=
  ⟨SumForm.ProperParts.mono hPQ s h.1, h.2.mono hPQ⟩

mutual

/-- Every number is a whole number that fits. -/
def SumForm.IsWhole : SumForm → Prop
  | .single t => t.IsWhole
  | .chain s _ t => s.IsWhole ∧ t.IsWhole

def ProductForm.IsWhole : ProductForm → Prop
  | .single u => u.IsWhole
  | .chain p _ u => p.IsWhole ∧ u.IsWhole

def SignedForm.IsWhole : SignedForm → Prop
  | .bare p => p.IsWhole
  | .signed _ u => u.IsWhole

def PowerForm.IsWhole : PowerForm → Prop
  | .single a => a.IsWhole
  | .raised a u => a.IsWhole ∧ u.IsWhole

def AtomForm.IsWhole : AtomForm → Prop
  | .number l => l.isWhole = true ∧ Number.fits (Decimal.natOfDigits l.whole) = true
  | .call _ s => s.IsWhole
  | .name _ => True
  | .group s => s.IsWhole

end

/-! ### Both policies -/

lemma ofCall_persists (name : String) (a : Expr) : Persists (ofCall .refuse name a) (ofCall .approximate name a) := by
  unfold ofCall
  exact Persists.ite (persists_lift (pow_consistent a half)) (persists_refl _)

mutual

lemma SumForm.persists : (s : SumForm) → Persists (s.toExpr .refuse) (s.toExpr .approximate)
  | .single t => by
    simp only [SumForm.toExpr]
    exact t.persists
  | .chain s sign t => by
    simp only [SumForm.toExpr_chain]
    exact s.persists.bind fun a => t.persists.bind fun b => persists_lift (sign.combine_consistent a b)

lemma ProductForm.persists : (p : ProductForm) → Persists (p.toExpr .refuse) (p.toExpr .approximate)
  | .single u => by
    simp only [ProductForm.toExpr]
    exact u.persists false
  | .chain p op u => by
    simp only [ProductForm.toExpr_chain]
    exact p.persists.bind fun a => (u.persists false).bind fun b => persists_lift (op.combine_consistent a b)

lemma SignedForm.persists : (u : SignedForm) → (negative : Bool) →
    Persists (u.toExpr .refuse negative) (u.toExpr .approximate negative)
  | .bare p, negative => by
    simp only [SignedForm.toExpr]
    exact p.persists.bind fun e => Persists.ite (persists_lift (neg_consistent e)) (persists_refl _)
  | .signed sign u, negative => by
    simp only [SignedForm.toExpr]
    exact u.persists _

lemma PowerForm.persists : (p : PowerForm) → Persists (p.toExpr .refuse) (p.toExpr .approximate)
  | .single a => by
    simp only [PowerForm.toExpr]
    exact a.persists
  | .raised a u => by
    simp only [PowerForm.toExpr]
    exact a.persists.bind fun b => (u.persists false).bind fun e => persists_lift (pow_consistent b e)

lemma AtomForm.persists : (a : AtomForm) → Persists (a.toExpr .refuse) (a.toExpr .approximate)
  | .number l => by
    simp only [AtomForm.toExpr]
    exact persists_refl _
  | .call name s => by
    simp only [AtomForm.toExpr]
    exact s.persists.bind fun a => ofCall_persists name a
  | .name name => by
    simp only [AtomForm.toExpr]
    exact persists_refl _
  | .group s => by
    simp only [AtomForm.toExpr]
    exact s.persists

end

end PlaneCalculus.Formula
