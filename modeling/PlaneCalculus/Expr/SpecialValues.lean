import PlaneCalculus.Expr.Basic

/-!
Calls of the elementary functions. A few arguments have exact values: zero, whole and half multiples of `π` under sine,
cosine and tangent, and the pairs of inverse functions `exp` and `log`. A call on a double is computed at once.
-/

namespace PlaneCalculus.Func

def multipleOfPi? : Expr → Option Rat
  | .constant .pi => some 1
  | .times [.num (.exact q), .constant .pi] => some q
  | _ => none

def atZero? : Func → Option Expr
  | sin | tan | asin | atan | sinh | tanh | asinh | atanh | abs => some (.int 0)
  | cos | sec | cosh | sech | exp => some (.int 1)
  | _ => none

def atMultipleOfPi? (f : Func) (k : Rat) : Option Expr :=
  match f, k.den with
  | sin, 1 => some (.int 0)
  | tan, 1 => some (.int 0)
  | cos, 1 => some (.int (if k.num % 2 = 0 then 1 else -1))
  | sin, 2 => some (.int (if k.num % 4 = 1 then 1 else -1))
  | cos, 2 => some (.int 0)
  | _, _ => none

def ofAbs? : Expr → Option Expr
  | .num n => some (.num n.abs)
  | .constant c => some (.constant c)
  | _ => none

def inverse? : Func → Expr → Option Expr
  | log, .constant .e => some (.int 1)
  | log, .call exp inner => some inner
  | exp, .call log inner => some inner
  | log, e => if e.isInt 1 then some (.int 0) else none
  | exp, e => if e.isInt 1 then some (.constant .e) else none
  | abs, e => ofAbs? e
  | _, _ => none

def exactValue? (f : Func) (arg : Expr) : Option Expr :=
  if arg.isZero then f.atZero?
  else match (multipleOfPi? arg).bind f.atMultipleOfPi? with
    | some e => some e
    | none => f.inverse? arg

def of (f : Func) (arg : Expr) : Expr :=
  match f.exactValue? arg with
  | some e => e
  | none =>
    match arg with
    | .num (.approx v) => .real (f.apply v)
    | arg => .call f arg

end PlaneCalculus.Func
