import PlaneCalculus.Decimal.Layout

/-!
Formulas as written: one type per level of precedence, so that a formula has exactly one tree. Chains of additions and of
multiplications lean to the left, exponents to the right.
-/

namespace PlaneCalculus.Formula

inductive Sign where
  | plus
  | minus
  deriving DecidableEq, Repr

inductive Factoring where
  | times
  | over
  deriving DecidableEq, Repr

mutual

inductive SumForm where
  | single (t : ProductForm)
  | chain (s : SumForm) (sign : Sign) (t : ProductForm)

inductive ProductForm where
  | single (u : SignedForm)
  | chain (p : ProductForm) (op : Factoring) (u : SignedForm)

inductive SignedForm where
  | bare (p : PowerForm)
  | signed (sign : Sign) (u : SignedForm)

inductive PowerForm where
  | single (a : AtomForm)
  | raised (a : AtomForm) (exponent : SignedForm)

inductive AtomForm where
  | number (literal : Decimal.Literal)
  | call (name : String) (arg : SumForm)
  | name (name : String)
  | group (s : SumForm)

end

instance : Inhabited SumForm := ⟨.single (.single (.bare (.single (.name ""))))⟩

end PlaneCalculus.Formula
