import PlaneCalculus.Expr.Order
import PlaneCalculus.Expr.Radical
import PlaneCalculus.Expr.SpecialValues

/-!
The written form of numbers and products. A product is shown as a fraction: numeric factors are multiplied into one
coefficient, factors with a negative numeric exponent go below the line with the sign of the exponent changed.
-/

namespace PlaneCalculus

/-- Whole doubles below `1e15` lose their fraction; a value that is not finite has a name. -/
def realText (v : Float) : String :=
  if v.isNaN then "nan"
  else if v.isInf then if v > 0.0 then "oo" else "-oo"
  else if Double.isIntegral v && v.abs < 1e15 then toString (Double.toInt v)
  else Decimal.Layout.plain.render v

def Number.text : Number → String
  | .exact q => if q.den = 1 then toString q.num else toString q.num ++ "/" ++ toString q.den
  | .approx v => realText v

/-- A product cut into coefficient, factors above the line and factors below it. -/
structure Fraction where
  coeff : Number
  above : List Expr
  below : List Expr

namespace Fraction

/-- Adds one factor; `pow` builds the powers that go below the line. -/
def push (o : Overflow) (pow : Expr → Expr → Calc Expr) (s : Fraction) : Expr → Calc Fraction
  | .num n => do return { s with coeff := ← o.mul s.coeff n }
  | .power base (.num n) => do
    if n.isNegative then return { s with below := s.below ++ [← pow base (.num (← o.neg n))] }
    else return { s with above := s.above ++ [.power base (.num n)] }
  | e => return { s with above := s.above ++ [e] }

def ofFactors (o : Overflow) (pow : Expr → Expr → Calc Expr) (factors : List Expr) : Calc Fraction :=
  factors.foldlM (push o pow) ⟨.ofInt 1, [], []⟩

/-- Numerator and denominator of a coefficient, the sign of which is shown apart. -/
def coeffParts : Number → Number × Number
  | .exact q => (.ofInt q.num, .ofInt q.den)
  | .approx v => (.approx v, .ofInt 1)

/-- All that stands above the line: a coefficient of one only when nothing else does. -/
def numerator (s : Fraction) (coeff : Number) : List Expr :=
  if coeff.isOne && !s.above.isEmpty then s.above else .num coeff :: s.above

def denominator (s : Fraction) (coeff : Number) : List Expr :=
  if coeff.isOne then s.below else .num coeff :: s.below

end Fraction

namespace Expr

/-- A sum is bracketed among factors. -/
def factorText (text : Expr → Calc String) (e : Expr) : Calc String := do
  match e with
  | .plus _ => return "(" ++ (← text e) ++ ")"
  | _ => text e

/-- What stands after the line: several factors, and a product standing alone, are bracketed. -/
def denominatorText (text : Expr → Calc String) : List Expr → Calc String
  | [] => return ""
  | [.times fs] => do return "/(" ++ (← text (.times fs)) ++ ")"
  | [e] => do return "/" ++ (← factorText text e)
  | es => do return "/(" ++ "*".intercalate (← es.mapM (factorText text)) ++ ")"

def productText (o : Overflow) (pow : Expr → Expr → Calc Expr) (text : Expr → Calc String) (factors : List Expr) :
    Calc String := do
  let s ← Fraction.ofFactors o pow factors
  let (above, below) := Fraction.coeffParts (← o.abs s.coeff)
  let numerator ← (s.numerator above).mapM (factorText text)
  let body := "*".intercalate numerator ++ (← denominatorText text (s.denominator below))
  return if s.coeff.isNegative then "-" ++ body else body

def isBracketedBase : Expr → Bool
  | .plus _ => true
  | .times _ => true
  | .power _ _ => true
  | .num (.exact q) => q.den ≠ 1 || q.num < 0
  | .num (.approx v) => v < 0.0
  | _ => false

/-- Exponents written without brackets: symbols, constants, calls, whole and floating numbers from zero on. -/
def isBareExponent : Expr → Bool
  | .symbol _ => true
  | .constant _ => true
  | .call _ _ => true
  | .num (.exact q) => q.den = 1 && q.num ≥ 0
  | .num (.approx v) => v ≥ 0.0
  | _ => false

def powerText (o : Overflow) (pow : Expr → Expr → Calc Expr) (text : Expr → Calc String) (base exponent : Expr) :
    Calc String := do
  if exponent.isHalf then return "sqrt(" ++ (← text base) ++ ")"
  else if exponent.isNegativeNumber then productText o pow text [.power base exponent]
  else
    let b ← text base
    let e ← text exponent
    return (if base.isBracketedBase then "(" ++ b ++ ")" else b) ++ "**" ++
      (if exponent.isBareExponent then e else "(" ++ e ++ ")")

end Expr

end PlaneCalculus
