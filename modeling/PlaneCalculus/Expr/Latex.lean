import PlaneCalculus.Expr.Canonical
import PlaneCalculus.Expr.Error

/-!
Typeset form of expressions in LaTeX. It fails only where a number is a NaN.
-/

namespace PlaneCalculus

def braced (s : String) : String := "\x7b" ++ s ++ "\x7d"

namespace Latex

def fraction (above below : String) : String := "\\frac" ++ braced above ++ braced below

def bracketed (s : String) : String := "\\left(" ++ s ++ "\\right)"

def ofReal (v : Float) : Outcome String :=
  if v.isNaN then throw .notANumber
  else if v.isInf then return if v > 0.0 then "\\infty" else "-\\infty"
  else return realText v

def ofNumber : Number → Outcome String
  | .exact q =>
    if q.den = 1 then return toString q.num
    else if q.num < 0 then return "- " ++ fraction (toString q.num.natAbs) (toString q.den)
    else return fraction (toString q.num) (toString q.den)
  | .approx v => ofReal v

def greek : List String := ["alpha", "beta", "gamma", "delta", "theta", "lambda", "mu", "rho", "sigma", "phi"]

def ofSymbol (name : String) : String := if greek.contains name then "\\" ++ name else name

/-- Functions with a command of their own; the others are set as operator names. -/
def hasCommand : Func → Bool
  | .sin | .cos | .tan | .cot | .sec | .csc | .sinh | .cosh | .tanh | .coth | .log => true
  | _ => false

def ofFunc (f : Func) : String := if hasCommand f then "\\" ++ f.name else "\\operatorname" ++ braced f.name

def ofCall (f : Func) (arg : String) : String :=
  match f with
  | .exp => "e^" ++ braced arg
  | .abs => "\\left|" ++ braced arg ++ "\\right|"
  | f => ofFunc f ++ braced ("\\left(" ++ arg ++ " \\right)")

section Steps

variable (o : Overflow) (latex : Expr → Outcome String)

def factor (e : Expr) : Outcome String := do
  match e with
  | .plus _ => return bracketed (← latex e)
  | _ => latex e

/-- A lone factor needs no brackets. -/
def join : List Expr → Outcome String
  | [e] => latex e
  | es => do return " ".intercalate (← es.mapM (factor latex))

def ofProduct (factors : List Expr) : Outcome String := do
  let s ← Fraction.ofFactors o (Expr.pow o) factors
  let (above, below) := Fraction.coeffParts (← o.abs s.coeff)
  let numerator ← join latex (s.numerator above)
  let denominator := s.denominator below
  let body ← if denominator.isEmpty then pure numerator else fraction numerator <$> join latex denominator
  return if s.coeff.isNegative then "- " ++ body else body

/-- The exponent of a function call stands between its name and its argument. -/
def ofPower (base exponent : Expr) : Outcome String := do
  if exponent.isNegativeNumber then ofProduct o latex [.power base exponent]
  else if exponent.isHalf then return "\\sqrt" ++ braced (← latex base)
  else
    let e ← latex exponent
    match base with
    | .call f arg =>
      if f = .exp ∨ f = .abs then return bracketed (← latex base) ++ "^" ++ braced e
      else return ofFunc f ++ "^" ++ braced e ++ braced ("\\left(" ++ (← latex arg) ++ " \\right)")
    | .symbol _ => return (← latex base) ++ "^" ++ braced e
    | .constant _ => return (← latex base) ++ "^" ++ braced e
    | _ =>
      let b ← latex base
      if base.integer?.isSome && !base.isNegativeTerm then return b ++ "^" ++ braced e
      else return bracketed b ++ "^" ++ braced e

def restTerm (e : Expr) : Outcome String := do
  if e.isNegativeTerm then return " - " ++ (← latex (← liftM (Expr.neg o e)))
  else return " + " ++ (← latex e)

def step (e : Expr) : Outcome String := do
  match e with
  | .num n => ofNumber n
  | .symbol name => return ofSymbol name
  | .constant .pi => return "\\pi"
  | .constant .e => return "e"
  | .plus [] => return ""
  | .plus (t :: ts) => return (← latex t) ++ String.join (← ts.mapM (restTerm o latex))
  | .times fs => ofProduct o latex fs
  | .power base exponent => ofPower o latex base exponent
  | .call f arg => return ofCall f (← latex arg)

end Steps

end Latex

namespace Expr

def latexAt (o : Overflow) : Nat → Expr → Outcome String
  | 0, _ => throw (.halted .exhausted)
  | n + 1, e => Latex.step o (latexAt o n) e

def latex (o : Overflow) (e : Expr) : Outcome String := latexAt o (callDepth e.size.product) e

end Expr

end PlaneCalculus
