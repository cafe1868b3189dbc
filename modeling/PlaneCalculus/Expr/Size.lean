import PlaneCalculus.Expr.Basic

/-!
Sizes of expressions, weighted so that building never makes them grow: a product is no larger than its factors together,
a sum no larger than its terms together, and a power no larger than base times exponent. Numbers among factors weigh
nothing, as a coefficient may be copied into every term of a sum. The depth of calls allotted to the constructors is
taken from these sizes.
-/

namespace PlaneCalculus

/-- The size of an expression in the four places where it can stand. -/
structure Size where
  /-- As the base of a power. -/
  base : Nat
  /-- As one factor of a product. -/
  factor : Nat
  /-- As a product, all its factors together. -/
  product : Nat
  /-- As a sum, all its terms together, and as an exponent. -/
  sum : Nat

/-- An expression that is neither a number, a sum, a product nor a power. -/
def Size.atom (n : Nat) : Size := ⟨n, n + 1, n + 1, n + 2⟩

namespace Expr

mutual

def size : Expr → Size
  | .num _ => ⟨2, 0, 0, 1⟩
  | .symbol _ => .atom 2
  | .constant _ => .atom 4
  | .plus ts => ⟨max 2 (termsSize ts) + 1, max 2 (termsSize ts) + 2, max 2 (termsSize ts) + 2, max 2 (termsSize ts)⟩
  | .times fs => ⟨basesSize fs + 2, basesSize fs + 3, factorsSize fs, factorsSize fs + 1⟩
  | .power b e =>
    ⟨(size b).base * (size e).sum + 1, (size b).base * (size e).sum + 1, (size b).base * (size e).sum + 1,
      (size b).base * (size e).sum + 2⟩
  | .call _ a => .atom ((size a).sum + 3)

/-- The terms of a sum, each with room for a coefficient. -/
def termsSize : List Expr → Nat
  | [] => 0
  | e :: es => (size e).product + 1 + termsSize es

def factorsSize : List Expr → Nat
  | [] => 0
  | e :: es => (size e).factor + factorsSize es

/-- The factors of a product that is raised to a power, each raised by itself. -/
def basesSize : List Expr → Nat
  | [] => 0
  | e :: es => (size e).base + 1 + basesSize es

end

attribute [grind] size termsSize factorsSize basesSize

/-- The operands of a sum. -/
def sumSize : List Expr → Nat
  | [] => 0
  | e :: es => (size e).sum + sumSize es

/-- The operands of a product. -/
def productSize : List Expr → Nat
  | [] => 0
  | e :: es => (size e).product + productSize es

def callDepth (n : Nat) : Nat := 4 * n + 4

end Expr

end PlaneCalculus
