import Mathlib.Algebra.Algebra.Basic
import Mathlib.Algebra.Algebra.Rat
import Mathlib.Algebra.BigOperators.Group.List.Basic
import Mathlib.Algebra.Ring.PUnit
import PlaneCalculus.Expr.Basic
import PlaneCalculus.Proofs.Number.WholePower

/-! Values of rational expressions, which are built of exact numbers, symbols, sums, products and whole powers. The
values may lie in the rationals or in a ring over them; a negative power asks for a base that has an inverse there. -/

namespace PlaneCalculus

def Number.value : Number → ℚ
  | .exact q => q
  | .approx _ => 0

@[simp] lemma Number.value_exact (q : ℚ) : (exact q).value = q := rfl

namespace Expr

mutual

/-- Built of exact numbers, symbols, sums, products and powers with whole exponents. -/
def IsRational : Expr → Prop
  | .num n => n.isExact = true
  | .symbol _ => True
  | .constant _ => False
  | .plus ts => AllRational ts
  | .times fs => AllRational fs
  | .power b e => IsRational b ∧ ∃ k, e.integer? = some k
  | .call _ _ => False

def AllRational : List Expr → Prop
  | [] => True
  | e :: es => IsRational e ∧ AllRational es

end

lemma allRational_iff (es : List Expr) : AllRational es ↔ ∀ e ∈ es, e.IsRational := by
  induction es with
  | nil => simp [AllRational]
  | cons e es ih => simp [AllRational, ih]

section Value

variable {R : Type} [CommRing R] [Algebra ℚ R] [Inv R] (ρ : String → R)

mutual

/-- The value of a rational expression; it means something only where the expression is defined. -/
def value : Expr → R
  | .num n => algebraMap ℚ R n.value
  | .symbol name => ρ name
  | .constant _ => 0
  | .plus ts => sumValue ts
  | .times fs => productValue fs
  | .power b e => wholePower (value b) (e.integer?.getD 0)
  | .call _ _ => 0

def sumValue : List Expr → R
  | [] => 0
  | e :: es => value e + sumValue es

def productValue : List Expr → R
  | [] => 1
  | e :: es => value e * productValue es

end

mutual

/-- The expression is rational, and no base without an inverse is raised to a negative power. -/
def Defined : Expr → Prop
  | .num n => n.isExact = true
  | .symbol _ => True
  | .constant _ => False
  | .plus ts => AllDefined ts
  | .times fs => AllDefined fs
  | .power b e => Defined b ∧ ∃ k, e.integer? = some k ∧ Raisable (value ρ b) k
  | .call _ _ => False

def AllDefined : List Expr → Prop
  | [] => True
  | e :: es => Defined e ∧ AllDefined es

end

lemma sumValue_eq (es : List Expr) : sumValue ρ es = (es.map (value ρ)).sum := by
  induction es with
  | nil => rfl
  | cons e es ih => rw [sumValue, ih, List.map_cons, List.sum_cons]

lemma productValue_eq (es : List Expr) : productValue ρ es = (es.map (value ρ)).prod := by
  induction es with
  | nil => rfl
  | cons e es ih => rw [productValue, ih, List.map_cons, List.prod_cons]

lemma allDefined_iff (es : List Expr) : AllDefined ρ es ↔ ∀ e ∈ es, Defined ρ e := by
  induction es with
  | nil => simp [AllDefined]
  | cons e es ih => simp [AllDefined, ih]

@[simp] lemma value_plus (ts : List Expr) : value ρ (.plus ts) = (ts.map (value ρ)).sum := sumValue_eq ρ ts

@[simp] lemma value_times (fs : List Expr) : value ρ (.times fs) = (fs.map (value ρ)).prod := productValue_eq ρ fs

@[simp] lemma defined_plus (ts : List Expr) : Defined ρ (.plus ts) ↔ ∀ t ∈ ts, Defined ρ t := allDefined_iff ρ ts

@[simp] lemma defined_times (fs : List Expr) : Defined ρ (.times fs) ↔ ∀ f ∈ fs, Defined ρ f := allDefined_iff ρ fs

@[simp] lemma value_symbol (x : String) : value ρ (.symbol x) = ρ x := rfl

@[simp] lemma defined_symbol (x : String) : Defined ρ (.symbol x) := trivial

@[simp] lemma value_exact (q : ℚ) : value ρ (.num (.exact q)) = algebraMap ℚ R q := rfl

@[simp] lemma defined_exact (q : ℚ) : Defined ρ (.num (.exact q)) := rfl

@[simp] lemma value_int (k : Int) : value ρ (int k) = k := map_intCast (algebraMap ℚ R) k

@[simp] lemma defined_int (k : Int) : Defined ρ (int k) := rfl

lemma eq_int_of_integer? {e : Expr} {k : Int} (h : e.integer? = some k) : e = int k := by
  unfold integer? Number.toInt? at h
  split at h
  · split at h
    · next q =>
      split at h
      · next hd =>
        cases h
        exact congrArg (fun q => num (.exact q)) (Rat.ext rfl hd)
      · cases h
    · cases h
  · cases h

@[simp] lemma integer?_int (k : Int) : (int k).integer? = some k := rfl

@[simp] lemma value_power (b : Expr) (k : Int) : value ρ (.power b (int k)) = wholePower (value ρ b) k := rfl

@[simp] lemma defined_power (b : Expr) (k : Int) :
    Defined ρ (.power b (int k)) ↔ Defined ρ b ∧ Raisable (value ρ b) k := by
  simp [Defined]

lemma exists_int_of_defined_power {b e : Expr} (h : Defined ρ (.power b e)) : ∃ k, e = int k := by
  obtain ⟨-, k, hk, -⟩ := h
  exact ⟨k, eq_int_of_integer? hk⟩

mutual

lemma isRational_of_defined : (e : Expr) → Defined ρ e → e.IsRational
  | .num _, h => h
  | .symbol _, _ => trivial
  | .plus ts, h => allRational_of_defined ts h
  | .times fs, h => allRational_of_defined fs h
  | .power b _, ⟨hb, k, hk, _⟩ => ⟨isRational_of_defined b hb, k, hk⟩

lemma allRational_of_defined : (es : List Expr) → AllDefined ρ es → AllRational es
  | [], _ => trivial
  | e :: es, ⟨he, hes⟩ => ⟨isRational_of_defined e he, allRational_of_defined es hes⟩

end

end Value

/-! In the ring of one element everything has an inverse. -/

instance : HasInverses PUnit := ⟨fun _ _ => Subsingleton.elim _ _⟩

mutual

lemma defined_of_isRational : (e : Expr) → e.IsRational → Defined (fun _ => PUnit.unit) e
  | .num _, h => h
  | .symbol _, _ => trivial
  | .plus ts, h => allDefined_of_allRational ts h
  | .times fs, h => allDefined_of_allRational fs h
  | .power b _, ⟨hb, k, hk⟩ => ⟨defined_of_isRational b hb, k, hk, Or.inl (isUnit_of_subsingleton _)⟩

lemma allDefined_of_allRational : (es : List Expr) → AllRational es → AllDefined (fun _ => PUnit.unit) es
  | [], _ => trivial
  | e :: es, ⟨he, hes⟩ => ⟨defined_of_isRational e he, allDefined_of_allRational es hes⟩

end

end Expr

end PlaneCalculus
