import PlaneCalculus.Proofs.Calculus.Kept
import PlaneCalculus.Proofs.Formula.Nodes
import PlaneCalculus.Proofs.Number.LowestTerms
import PlaneCalculus.Json.Parser
import PlaneCalculus.Service.Validation

/-! The numbers in expressions. Whatever is read from texts and fields, built by the constructors, multiplied out,
substituted, differentiated and integrated has fractions in lowest terms for its exact numbers, and the one integer without a
negation never occurs. -/

open PlaneCalculus.Expr

namespace PlaneCalculus

open Calc

/-- Integers of 64 bits. -/
def Json.InInt64 (n : Int) : Prop := -(Json.integerLimit : Int) ≤ n ∧ n < Json.integerLimit

lemma Json.number?_int64 {negative : Bool} {cs rest : List Char} {n : Int}
    (h : Json.number? negative cs = some (.integer n, rest)) : Json.InInt64 n := by
  unfold Json.number? at h
  simp only [Option.bind_eq_bind, Option.bind_eq_some_iff] at h
  obtain ⟨⟨l, tail⟩, -, h⟩ := h
  split at h
  · next hl =>
    simp only [Bool.and_eq_true, decide_eq_true_eq] at hl
    cases h
    simp only [Json.InInt64, Json.integerLimit] at hl ⊢
    omega
  · split at h
    · next hl =>
      simp only [Bool.and_eq_true, decide_eq_true_eq] at hl
      cases h
      simp only [Json.InInt64, Json.integerLimit] at hl ⊢
      omega
    · obtain ⟨v, -, h⟩ := Option.bind_eq_some_iff.mp h
      cases h

namespace Expr

/-- Expressions that come from texts and fields by any sequence of operations. -/
inductive Obtained (o : Overflow) : Expr → Prop
  | read {text : String} {e : Expr} : Formula.read o text = .ok e → Obtained o e
  | constraint {text : String} {e : Expr} : Formula.readConstraint o text = .ok e → Obtained o e
  | field {name : String} {value : Json} {e : Expr} : (∀ n, value = .integer n → Json.InInt64 n) →
      Validation.number o name value = .ok e → Obtained o e
  | sum {es : List Expr} {r : Expr} : (∀ e ∈ es, Obtained o e) → Expr.sum o es = .ok r → Obtained o r
  | product {es : List Expr} {r : Expr} : (∀ e ∈ es, Obtained o e) → Expr.product o es = .ok r → Obtained o r
  | pow {b e r : Expr} : Obtained o b → Obtained o e → Expr.pow o b e = .ok r → Obtained o r
  | call (f : Func) {a : Expr} : Obtained o a → Obtained o (f.of a)
  | expand {e r : Expr} : Obtained o e → Expr.expand o e = .ok r → Obtained o r
  | substitute {e t r : Expr} {v : String} : Obtained o e → Obtained o t → Expr.substitute o e v t = .ok r → Obtained o r
  | derivative {e r : Expr} {v : String} : Obtained o e → Expr.derivative o v e = .ok r → Obtained o r
  | antiderivative {e r : Expr} {v : String} : Obtained o e → Expr.antiderivative o v e = .ok (some r) → Obtained o r

def CanonicalLeaf : Expr → Prop
  | .num n => n.IsCanonical
  | .times fs => ProductShape fs
  | _ => True

lemma canonicalLeaf_readingLaw : Formula.ReadingLaw CanonicalLeaf where
  real _ := trivial
  parts _ _ hn hd := Number.isCanonical_iff.mpr (Number.ofParts_bounded hn hd)
  abs _ h := Number.isCanonical_iff.mpr (Number.abs_bounded (Number.isCanonical_iff.mp h))
  constant _ := trivial
  call _ _ _ := trivial
  plus _ _ := trivial
  times _ h _ := h
  shape _ h := h
  power _ _ _ _ _ _ := trivial
  symbol _ _ := trivial

end Expr

variable {o : Overflow}

lemma Validation.constantOf?_read {text : String} {e : Expr} (h : Validation.constantOf? o text = some e) :
    Formula.read o (Text.trim text) = .ok e := by
  unfold Validation.constantOf? at h
  split at h
  · next r hr =>
    split at h
    · cases h
      exact hr
    · cases h
  · cases h

lemma Validation.number_leaves {name : String} {value : Json} {e : Expr} (hi : ∀ n, value = .integer n → Json.InInt64 n)
    (h : Validation.number o name value = .ok e) : Everywhere CanonicalLeaf e := by
  unfold Validation.number at h
  split at h
  · next n =>
    cases h
    have hn := hi n rfl
    simp only [Json.InInt64, Json.integerLimit] at hn
    exact canonicalLeaf_readingLaw.int (by omega)
  · split at h
    · cases h
      trivial
    · cases h
  · split at h
    · next r hr =>
      cases h
      exact Formula.read_nodes canonicalLeaf_readingLaw _ e (Validation.constantOf?_read hr)
    · cases h
  · cases h

namespace Expr

lemma Obtained.leaves {e : Expr} (h : Obtained o e) : Everywhere CanonicalLeaf e := by
  have L := canonicalLeaf_readingLaw.toNodeLaw
  have K : Kept o (Everywhere CanonicalLeaf) := L.kept
  induction h with
  | read h => exact Formula.read_nodes canonicalLeaf_readingLaw _ _ h
  | constraint h => exact Formula.readConstraint_nodes canonicalLeaf_readingLaw _ _ h
  | field hi h => exact Validation.number_leaves hi h
  | sum _ h ih => exact (K.sum ih).value h
  | product _ h ih => exact (K.product ih).value h
  | pow _ _ h ihb ihe => exact (K.pow ihb ihe).value h
  | call f _ ih => exact L.of f ih
  | expand _ h ih => exact (expand_kept K _ ih).value h
  | substitute _ _ h ih iht => exact (substitute_kept K iht _ (everywhere_otherLeaf ih)).value h
  | derivative _ h ih => exact (derivative_kept K _ ih).value h
  | antiderivative _ h ih => exact (antiderivative_kept K trivial ih).value h _ rfl

def NumberNode (Q : Number → Prop) : Expr → Prop
  | .num n => Q n
  | _ => True

/-- The numbers in expressions are in lowest terms and can be negated; so are all results of arithmetic, whatever the
operands. A fraction is only reduced when both its parts have a negation, and reduction leads to lowest terms. -/
theorem obtained_numbers (o : Overflow) :
    (∀ e, Obtained o e → Everywhere (NumberNode fun n => n.IsCanonical ∧
      ∀ q, n = .exact q → n.neg = .exact (-q) ∧ n.abs = .exact |q|) e) ∧
    (∀ a b : Number, ∀ k : ℤ, (a.add b).IsCanonical ∧ (a.mul b).IsCanonical ∧ (a.div b).IsCanonical ∧
      (a.powInt k).IsCanonical) ∧
    ∀ n d : ℤ, Number.fits n = true → Number.fits d = true → (Number.ofParts n d).isExact = false ∨
      n ≠ -Number.bound ∧ d ≠ -Number.bound ∧ ∃ r, Number.ofParts n d = .exact r ∧
        r.num = (Number.lowest n d).1 ∧ (r.den : ℤ) = (Number.lowest n d).2 ∧
        Number.LowestTerms (Number.lowest n d).1 (Number.lowest n d).2 := by
  refine ⟨fun e h => Everywhere.mono ?_ e h.leaves, fun a b k => ?_, fun n d hn hd => ?_⟩
  · intro e he
    cases e with
    | num n =>
      refine ⟨he, ?_⟩
      rintro q rfl
      exact ⟨Number.neg_canonical he, Number.abs_canonical he⟩
    | symbol | constant | plus | times | power | call => trivial
  · have L : Number.ResultLaw Number.IsCanonical := canonicalLeaf_readingLaw.results
    exact ⟨L.add a b, L.mul a b, L.div a b, L.powInt a k⟩
  · rw [or_iff_not_imp_left, Bool.not_eq_false, Number.ofParts_isExact]
    rintro ⟨hd0, hnb, hdb⟩
    obtain ⟨hlow, hnum, hden⟩ := Number.lowest_parts hd0 ⟨hn, hd, hnb, hdb⟩
    exact ⟨hnb, hdb, Rat.divInt n d, Number.ofParts_eq_exact hd0 hnb hdb, hnum, hden, hlow⟩

/-- The slope of `x / 3 + x ^ 2 / 6` has the fraction one third twice. -/
theorem obtained_numbers_slope : ∃ e r, Formula.read .approximate "x/3 + x**2/6" = .ok e ∧
    derivative .approximate "x" e = .ok r ∧ r = .plus [.times [frac 1 3, .symbol "x"], frac 1 3] ∧
    Everywhere (NumberNode fun n => n.IsCanonical ∧ ∀ q, n = .exact q → n.neg = .exact (-q) ∧ n.abs = .exact |q|) r := by
  have he : Formula.read .approximate "x/3 + x**2/6" =
      .ok (.plus [.times [frac 1 6, .power (.symbol "x") (int 2)], .times [frac 1 3, .symbol "x"]]) := by cbv
  have hr : derivative .approximate "x" (.plus [.times [frac 1 6, .power (.symbol "x") (int 2)],
      .times [frac 1 3, .symbol "x"]]) = .ok (.plus [.times [frac 1 3, .symbol "x"], frac 1 3]) := by cbv
  exact ⟨_, _, he, hr, rfl, (obtained_numbers .approximate).1 _ (.derivative (.read he) hr)⟩

end Expr

end PlaneCalculus
