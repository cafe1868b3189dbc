import PlaneCalculus.Expr.Basic

/-!
Values of expressions as doubles. A symbol without a value, and an argument outside the domain of a function, give a NaN,
so a caller only has to ask whether the result is finite.
-/

namespace PlaneCalculus.Expr

/-- Values of symbols; the first entry of a name counts. -/
abbrev Bindings := List (String × Float)

/-- Exponents below this magnitude, `2 ^ 31`, are applied by squaring. -/
def squaringLimit : Nat := 2147483648

def valueOf (bindings : Bindings) (name : String) : Float :=
  match bindings with
  | [] => Double.nan
  | (key, v) :: rest => if key == name then v else valueOf rest name

mutual

/-- A small exact integer exponent is applied by squaring, one half takes the square root. -/
def eval (bindings : Bindings) : Expr → Float
  | .num n => n.toFloat
  | .symbol name => valueOf bindings name
  | .constant c => c.value
  | .plus terms => evalSum bindings (-0.0) terms
  | .times factors => evalProduct bindings 1.0 factors
  | .power base exponent =>
    let b := eval bindings base
    match exponent with
    | .num (.exact q) =>
      if q.den = 1 ∧ q.num.natAbs < squaringLimit then Double.powInt b q.num
      else if q.den = 2 ∧ q.num = 1 then b.sqrt
      else b.pow (Number.exact q).toFloat
    | e => b.pow (eval bindings e)
  | .call f arg => f.apply (eval bindings arg)

/-- Adds from left to right. -/
def evalSum (bindings : Bindings) (acc : Float) : List Expr → Float
  | [] => acc
  | e :: es => evalSum bindings (acc + eval bindings e) es

/-- Multiplies from left to right. -/
def evalProduct (bindings : Bindings) (acc : Float) : List Expr → Float
  | [] => acc
  | e :: es => evalProduct bindings (acc * eval bindings e) es

end

def value? (e : Expr) : Option Float :=
  let v := e.eval []
  if v.isFinite then some v else none

def evalAt (e : Expr) (x y : Float) : Float := e.eval [("x", x), ("y", y)]

end PlaneCalculus.Expr
