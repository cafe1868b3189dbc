import PlaneCalculus.Expr.Canonical

/-!
Multiplying out: products are distributed over sums, and powers of sums with a small whole exponent are written as sums.
-/

namespace PlaneCalculus.Expr

/-- All products of a term of the one list with a term of the other, the first list varying slowest. -/
def multiplyOut (o : Overflow) (as bs : List Expr) : Calc (List Expr) :=
  (as.flatMap fun a => bs.map fun b => (a, b)).mapM fun (a, b) => product o [a, b]

/-- Exponents up to which the power of a sum is multiplied out. -/
def expansionLimit : Int := 8

def powerTerms (o : Overflow) (terms : List Expr) : Nat → Calc (List Expr)
  | 0 => return terms
  | n + 1 => do multiplyOut o (← powerTerms o terms n) terms

def expandPower (o : Overflow) (base exponent : Expr) : Calc Expr :=
  match base, exponent.integer? with
  | .plus terms, some n =>
    if 2 ≤ n ∧ n ≤ expansionLimit then do sum o (← powerTerms o terms (n.toNat - 1)) else pow o base exponent
  | _, _ => pow o base exponent

mutual

def expand (o : Overflow) : Expr → Calc Expr
  | .num n => return .num n
  | .symbol name => return .symbol name
  | .constant c => return .constant c
  | .plus ts => do sum o (← expandAll o ts)
  | .times fs => do sum o (← expandProduct o [int 1] fs)
  | .power base exponent => do expandPower o (← expand o base) exponent
  | .call f arg => do return f.of (← expand o arg)

def expandAll (o : Overflow) : List Expr → Calc (List Expr)
  | [] => return []
  | e :: es => do return (← expand o e) :: (← expandAll o es)

def expandProduct (o : Overflow) (acc : List Expr) : List Expr → Calc (List Expr)
  | [] => return acc
  | e :: es => do
    let f ← expand o e
    expandProduct o (← multiplyOut o acc f.terms) es

end

end PlaneCalculus.Expr
