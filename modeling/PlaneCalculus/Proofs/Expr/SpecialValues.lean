import Mathlib.Tactic.Lemma
import PlaneCalculus.Expr.SpecialValues
import PlaneCalculus.Number.Basic

/-! What a call can come to: a small integer, a constant, the argument of the inverse function, an absolute value, a
double, or the call itself. -/

open PlaneCalculus.Expr

namespace PlaneCalculus.Func

lemma atZero?_int {f : Func} {r : Expr} (h : f.atZero? = some r) : ∃ k : Int, r = int k ∧ k.natAbs ≤ 1 := by
  cases f <;> cases h <;> exact ⟨_, rfl, by decide⟩

lemma atMultipleOfPi?_int {f : Func} {k : Rat} {r : Expr} (h : f.atMultipleOfPi? k = some r) :
    ∃ i : Int, r = int i ∧ i.natAbs ≤ 1 := by
  unfold atMultipleOfPi? at h
  split at h <;> cases h <;> refine ⟨_, rfl, ?_⟩ <;> first | decide | (split <;> decide)

def Special (a r : Expr) : Prop :=
  (∃ k : Int, r = int k ∧ k.natAbs ≤ 1) ∨ (∃ c, r = .constant c) ∨ (∃ f, a = .call f r) ∨
    ∃ n, a = .num n ∧ r = .num n.abs

lemma inverse?_special {f : Func} {a r : Expr} (h : f.inverse? a = some r) : Special a r := by
  have hint {k : Int} (hk : k.natAbs ≤ 1) : Special a (int k) := Or.inl ⟨k, rfl, hk⟩
  have hconst (c : Constant) : Special a (.constant c) := Or.inr (Or.inl ⟨c, rfl⟩)
  unfold inverse? at h
  split at h
  · cases h
    exact hint (by decide)
  · cases h
    exact Or.inr (Or.inr (Or.inl ⟨_, rfl⟩))
  · cases h
    exact Or.inr (Or.inr (Or.inl ⟨_, rfl⟩))
  · split at h <;> cases h
    exact hint (by decide)
  · split at h <;> cases h
    exact hconst .e
  · unfold ofAbs? at h
    split at h <;> cases h
    · exact Or.inr (Or.inr (Or.inr ⟨_, rfl, rfl⟩))
    · exact hconst _
  · cases h

lemma exactValue?_special {f : Func} {a r : Expr} (h : f.exactValue? a = some r) : Special a r := by
  unfold exactValue? at h
  split at h
  · exact Or.inl (atZero?_int h)
  · split at h
    · next e hpi =>
      cases h
      obtain ⟨k, -, hk⟩ := Option.bind_eq_some_iff.mp hpi
      exact Or.inl (atMultipleOfPi?_int hk)
    · exact inverse?_special h

/-- Only calls on doubles are computed. -/
lemma of_cases (f : Func) (a : Expr) :
    Special a (f.of a) ∨ (∃ v w, a = .real v ∧ f.of a = .real w) ∨ f.of a = .call f a := by
  cases hv : f.exactValue? a with
  | some r =>
    left
    have hof : f.of a = r := by simp only [of, hv]
    rw [hof]
    exact exactValue?_special hv
  | none =>
    right
    simp only [of, hv]
    split
    · next v => exact Or.inl ⟨v, _, rfl, rfl⟩
    · exact Or.inr rfl

end PlaneCalculus.Func
