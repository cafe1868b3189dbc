import PlaneCalculus.Calculus.Derivative
import PlaneCalculus.Expr.Expansion
import PlaneCalculus.Expr.Substitution

/-!
Antiderivatives by rules. Constant factors come out, sums are integrated term by term, powers and elementary functions of
a linear argument have tabulated antiderivatives, a polynomial times a sine, cosine or exponential is integrated by
parts, and what no rule covers is tried once more multiplied out.

A rule is an `Attempt`: it gives an antiderivative, or does not apply, or halts with the calculation.
-/

namespace PlaneCalculus

abbrev Attempt := OptionT Calc

namespace Expr

def slope (o : Overflow) (v : String) (u : Expr) : Attempt Expr := do
  let a ← u.derivative o v
  guard (!a.isZero && a.isConstantIn v)
  return a

/-- `sin (2 * u) / (4 * a)` -/
def doubledSine (o : Overflow) (u a : Expr) : Calc Expr := do
  div o (Func.sin.of (← product o [int 2, u])) (← product o [int 4, a])

def squaredCallTable (o : Overflow) (v : String) (u a : Expr) : Func → Attempt Expr
  | .sin => do sub o (← div o (.symbol v) (int 2)) (← doubledSine o u a)
  | .cos => do sum o [← div o (.symbol v) (int 2), ← doubledSine o u a]
  | .sec => div o (Func.tan.of u) a
  | .csc => do neg o (← div o (Func.cot.of u) a)
  | _ => failure

def squaredCallRule (o : Overflow) (v : String) (base exponent : Expr) : Attempt Expr := do
  guard (exponent.isInt 2)
  match base with
  | .call f u => do squaredCallTable o v u (← slope o v u) f
  | _ => failure

/-- `1 / (x ^ 2 + c)` for a positive number `c`. -/
def inverseQuadraticRule (o : Overflow) (v : String) (base exponent : Expr) : Attempt Expr := do
  guard (exponent.isInt (-1))
  match base with
  | .plus [first, .num c] =>
    guard (first == (← pow o (.symbol v) (int 2)))
    guard (!c.isNegative && !c.isZero)
    let root ← sqrt o (.num c)
    div o (Func.atan.of (← div o (.symbol v) root)) root
  | _ => failure

/-- A power of a linear base; exponent `-1` gives a logarithm. -/
def linearPowerRule (o : Overflow) (v : String) (base exponent : Expr) : Attempt Expr := do
  let a ← slope o v base
  if exponent.isInt (-1) then div o (Func.log.of base) a
  else
    let raised ← sum o [exponent, int 1]
    div o (← pow o base raised) (← product o [raised, a])

def exponentialRule (o : Overflow) (v : String) (base exponent : Expr) : Attempt Expr := do
  let a ← slope o v exponent
  div o (.power base exponent) (← product o [a, Func.log.of base])

def powerRule (o : Overflow) (v : String) (base exponent : Expr) : Attempt Expr :=
  if exponent.isConstantIn v then
    squaredCallRule o v base exponent <|> inverseQuadraticRule o v base exponent <|> linearPowerRule o v base exponent
  else if base.isConstantIn v then exponentialRule o v base exponent
  else failure

def callTable (o : Overflow) (u : Expr) : Func → Attempt Expr
  | .sin => neg o (Func.cos.of u)
  | .cos => return Func.sin.of u
  | .tan => neg o (Func.log.of (Func.cos.of u))
  | .cot => return Func.log.of (Func.sin.of u)
  | .sinh => return Func.cosh.of u
  | .cosh => return Func.sinh.of u
  | .tanh => return Func.log.of (Func.cosh.of u)
  | .exp => return Func.exp.of u
  | .log => do sub o (← product o [u, Func.log.of u]) u
  | _ => failure

def callRule (o : Overflow) (v : String) (f : Func) (u : Expr) : Attempt Expr := do
  let a ← slope o v u
  div o (← callTable o u f) a

def factorRule (o : Overflow) (v : String) : Expr → Attempt Expr
  | .symbol name => do div o (← pow o (.symbol name) (int 2)) (int 2)
  | .power base exponent => powerRule o v base exponent
  | .call f u => callRule o v f u
  | _ => failure

mutual

/-- Built from constants and the symbol by sums, products and positive whole powers. -/
def isPolynomialIn (v : String) : Expr → Bool
  | .num _ => true
  | .symbol _ => true
  | .constant _ => true
  | .plus ts => allPolynomialIn v ts
  | .times fs => allPolynomialIn v fs
  | .power base exponent =>
    (base.isConstantIn v && exponent.isConstantIn v) ||
      ((match exponent.integer? with | some n => n > 0 | none => false) && isPolynomialIn v base)
  | .call _ arg => arg.isConstantIn v

def allPolynomialIn (v : String) : List Expr → Bool
  | [] => true
  | e :: es => isPolynomialIn v e && allPolynomialIn v es

end

def isRepeatable (f : Func) : Bool := f = .exp || f = .sin || f = .cos || f = .sinh || f = .cosh

def isRepeatableFactor (o : Overflow) (v : String) : Expr → Calc Bool
  | .call f u => do
    if isRepeatable f then return (← (slope o v u).run).isSome else return false
  | _ => return false

def splitRepeatable (o : Overflow) (v : String) (before : List Expr) : List Expr → Attempt (List Expr × Expr × List Expr)
  | [] => failure
  | f :: fs => do
    if ← isRepeatableFactor o v f then return (before, f, fs)
    else splitRepeatable o v (before ++ [f]) fs

/-- Repeated integration by parts: `p` is differentiated and `g` integrated until `p` vanishes, with alternating sign. -/
def partsLoop (o : Overflow) (v : String) (integrate : Expr → Attempt Expr) :
    Nat → Int → Expr → Expr → List Expr → Attempt Expr
  | 0, _, _, _, _ => failure
  | n + 1, sign, p, g, terms => do
    let terms := terms ++ [← product o [int sign, p, g]]
    let p ← p.derivative o v
    if p.isZero then sum o terms
    else partsLoop o v integrate n (-sign) p (← integrate g) terms

def partsLimit : Nat := 12

def partsRule (o : Overflow) (v : String) (integrate : Expr → Attempt Expr) (factors : List Expr) : Attempt Expr := do
  let (before, f, after) ← splitRepeatable o v [] factors
  let p ← product o (before ++ after)
  guard (p.isPolynomialIn v)
  partsLoop o v integrate partsLimit 1 p (← factorRule o v f) []

def expandedRule (o : Overflow) (integrate : Expr → Attempt Expr) (e : Expr) : Attempt Expr := do
  let expanded ← e.expand o
  guard (!(expanded == e))
  integrate expanded

/-- Constant factors come out; the others are tried alone, multiplied out, and by parts. -/
def productIntegral (o : Overflow) (v : String) (integrate : Expr → Attempt Expr) (factors : List Expr) :
    Attempt Expr := do
  let (constants, dependents) := factors.partition (·.isConstantIn v)
  let constant ← product o constants
  let dependent ← product o dependents
  let alone : Attempt Expr := match dependents with
    | [f] => factorRule o v f
    | _ => failure
  let inner ← alone <|> expandedRule o integrate dependent <|> partsRule o v integrate dependents
  product o [constant, inner]

def antiderivativeAt (o : Overflow) (v : String) : Nat → Expr → Attempt Expr
  | 0, _ => OptionT.lift (.error .exhausted)
  | n + 1, e =>
    if e.isConstantIn v then product o [e, .symbol v]
    else match e with
      | .plus ts => do sum o (← ts.mapM (antiderivativeAt o v n))
      | .times fs => productIntegral o v (antiderivativeAt o v n) fs
      | e => factorRule o v e <|> expandedRule o (antiderivativeAt o v n) e

/-- Depth of calls allotted to integration. An undefined number is unequal to itself, so that an integrand with such a
number is multiplied out again and again: only the end of the stack ends that recursion. -/
def integrationDepth (w : Nat) : Nat := depthFor w + 100000

/-- An antiderivative with respect to the symbol, without a constant of integration, or none when no rule applies. -/
def antiderivative (o : Overflow) (v : String) (e : Expr) : Calc (Option Expr) :=
  (antiderivativeAt o v (integrationDepth e.weight) e).run

mutual

/-- Does a part of the expression have no value wherever it is evaluated: an infinite or undefined number, the logarithm
of zero, or a negative power of zero? -/
def isDegenerate : Expr → Bool
  | .num (.exact _) => false
  | .num (.approx v) => !v.isFinite
  | .symbol _ => false
  | .constant _ => false
  | .plus ts => anyDegenerate ts
  | .times fs => anyDegenerate fs
  | .power base exponent =>
    (base.isZero && exponent.isNegativeNumber) || isDegenerate base || isDegenerate exponent
  | .call f arg => (f = .log && arg.isZero) || isDegenerate arg

def anyDegenerate : List Expr → Bool
  | [] => false
  | e :: es => isDegenerate e || anyDegenerate es

end

/-- The integral between two limits as a difference of values of an antiderivative; none when that difference is
degenerate. -/
def definiteIntegral (o : Overflow) (v : String) (e lo hi : Expr) : Calc (Option Expr) := do
  match ← e.antiderivative o v with
  | none => return none
  | some anti =>
    let result ← sub o (← anti.substitute o v hi) (← anti.substitute o v lo)
    return if result.isDegenerate then none else some result

end Expr

end PlaneCalculus
