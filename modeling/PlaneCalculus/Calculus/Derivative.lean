import PlaneCalculus.Expr.Canonical

/-!
Derivatives by the rules for sums, products, powers and the elementary functions.
-/

namespace PlaneCalculus

namespace Func

section Derivative

variable (o : Overflow) (u : Expr)

def square : Calc Expr := Expr.pow o u (.int 2)

def reciprocal : Calc Expr := Expr.pow o u (.int (-1))

/-- `1 - u ^ 2` -/
def oneMinusSquare : Calc Expr := do Expr.sub o (.int 1) (← square o u)

/-- `u ^ 2 + 1` -/
def squarePlusOne : Calc Expr := do Expr.sum o [← square o u, .int 1]

/-- `u ^ 2 * √(1 - 1 / u ^ 2)` -/
def inverseSecantRadical : Calc Expr := do
  let root ← Expr.sqrt o (← Expr.sub o (.int 1) (← reciprocal o (← square o u)))
  Expr.product o [← square o u, root]

def derivativeAt : Func → Calc Expr
  | sin => return cos.of u
  | cos => Expr.neg o (sin.of u)
  | tan => squarePlusOne o (tan.of u)
  | csc => do Expr.neg o (← Expr.product o [cot.of u, csc.of u])
  | sec => Expr.product o [tan.of u, sec.of u]
  | cot => do Expr.neg o (← squarePlusOne o (cot.of u))
  | asin => do reciprocal o (← Expr.sqrt o (← oneMinusSquare o u))
  | acos => do Expr.neg o (← reciprocal o (← Expr.sqrt o (← oneMinusSquare o u)))
  | atan => do reciprocal o (← squarePlusOne o u)
  | acsc => do Expr.neg o (← reciprocal o (← inverseSecantRadical o u))
  | asec => do reciprocal o (← inverseSecantRadical o u)
  | acot => do Expr.neg o (← reciprocal o (← squarePlusOne o u))
  | sinh => return cosh.of u
  | cosh => return sinh.of u
  | tanh => oneMinusSquare o (tanh.of u)
  | csch => do Expr.neg o (← Expr.product o [coth.of u, csch.of u])
  | sech => do Expr.neg o (← Expr.product o [tanh.of u, sech.of u])
  | coth => oneMinusSquare o (coth.of u)
  | asinh => do reciprocal o (← Expr.sqrt o (← squarePlusOne o u))
  | acosh => do reciprocal o (← Expr.sqrt o (← Expr.sum o [← square o u, .int (-1)]))
  | atanh => do reciprocal o (← oneMinusSquare o u)
  | exp => return exp.of u
  | log => reciprocal o u
  | abs => do Expr.product o [u, ← reciprocal o (abs.of u)]

end Derivative

end Func

namespace Expr

/-- The product rule for factors with the given derivatives: for each factor the others times its derivative, the
vanishing ones left out. -/
def productRule (o : Overflow) (before : List Expr) : List Expr → List Expr → Calc (List Expr)
  | f :: fs, d :: ds => do
    let rest ← productRule o (before ++ [f]) fs ds
    if d.isZero then return rest else return (← product o (before ++ fs ++ [d])) :: rest
  | _, _ => return []

mutual

def derivative (o : Overflow) (v : String) : Expr → Calc Expr
  | .num _ => return int 0
  | .symbol name => return if name == v then int 1 else int 0
  | .constant _ => return int 0
  | .plus ts => do
    if allConstantIn v ts then return int 0
    sum o (← derivatives o v ts)
  | .times fs => do
    if allConstantIn v fs then return int 0
    sum o (← productRule o [] fs (← derivatives o v fs))
  | .power base exponent => do
    if base.isConstantIn v && exponent.isConstantIn v then return int 0
    else if exponent.isConstantIn v then
      let lowered ← pow o base (← sum o [exponent, int (-1)])
      product o [exponent, lowered, ← derivative o v base]
    else if base.isConstantIn v then
      product o [.power base exponent, Func.log.of base, ← derivative o v exponent]
    else
      let de ← derivative o v exponent
      let first ← product o [de, Func.log.of base]
      let second ← product o [exponent, ← derivative o v base, ← pow o base (int (-1))]
      product o [.power base exponent, ← sum o [first, second]]
  | .call f arg => do
    if arg.isConstantIn v then return int 0
    let du ← derivative o v arg
    product o [← f.derivativeAt o arg, du]

def derivatives (o : Overflow) (v : String) : List Expr → Calc (List Expr)
  | [] => return []
  | e :: es => do return (← derivative o v e) :: (← derivatives o v es)

end

end Expr

end PlaneCalculus
