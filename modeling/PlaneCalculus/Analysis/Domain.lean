import PlaneCalculus.Calculus.Limit
import PlaneCalculus.Expr.Canonical
import PlaneCalculus.Expr.Evaluation

/-!
Where a function of `x` and `y` is defined, between which values it lies, and what it tends to at a point: the common
denominator, the arguments of logarithms and of square roots, the least and greatest sample on a grid, and the limit that
both iterated limits agree on.
-/

namespace PlaneCalculus

namespace Expr

def insertNew (es : List Expr) (e : Expr) : List Expr := if es.contains e then es else es ++ [e]

def distinct (es : List Expr) : List Expr := es.foldl insertNew []

/-! ### Denominators -/

def denominatorsOf (o : Overflow) (factors : List Expr) : Calc (List Expr) := do
  let s ← Fraction.ofFactors o (pow o) factors
  return s.below.filter fun d => !d.freeSymbols.isEmpty

mutual

def denominatorFactors (o : Overflow) : Expr → Calc (List Expr)
  | .plus ts => denominatorFactorsAll o ts
  | .times fs => denominatorsOf o fs
  | .power base exponent => denominatorsOf o [.power base exponent]
  | _ => return []

def denominatorFactorsAll (o : Overflow) : List Expr → Calc (List Expr)
  | [] => return []
  | e :: es => do return (← denominatorFactors o e) ++ (← denominatorFactorsAll o es)

end

/-- The denominator over which the terms can be brought, numeric factors left out; none when nothing is divided by. -/
def denominator (o : Overflow) (e : Expr) : Calc (Option Expr) := do
  match distinct (← e.denominatorFactors o) with
  | [] => return none
  | ds => return some (← product o ds)

/-! ### Arguments with a sign condition -/

mutual

def logOccurrences : Expr → List Expr
  | .num _ => []
  | .symbol _ => []
  | .constant _ => []
  | .plus ts => logOccurrencesAll ts
  | .times fs => logOccurrencesAll fs
  | .power base exponent => logOccurrences base ++ logOccurrences exponent
  | .call f arg => (if f = .log then [arg] else []) ++ logOccurrences arg

def logOccurrencesAll : List Expr → List Expr
  | [] => []
  | e :: es => logOccurrences e ++ logOccurrencesAll es

end

def logArguments (e : Expr) : List Expr := distinct e.logOccurrences

def isRootExponent : Expr → Bool
  | .num (.exact q) => q.den = 2
  | _ => false

mutual

/-- The bases with a symbol that stand under a square root or a power of one, outer ones first. -/
def rootOccurrences : Expr → List Expr
  | .num _ => []
  | .symbol _ => []
  | .constant _ => []
  | .plus ts => rootOccurrencesAll ts
  | .times fs => rootOccurrencesAll fs
  | .power base exponent =>
    (if exponent.isRootExponent && !base.freeSymbols.isEmpty then [base] else []) ++ rootOccurrences base ++
      rootOccurrences exponent
  | .call _ arg => rootOccurrences arg

def rootOccurrencesAll : List Expr → List Expr
  | [] => []
  | e :: es => rootOccurrences e ++ rootOccurrencesAll es

end

def rootArguments (e : Expr) : List Expr := distinct e.rootOccurrences

/-! ### Range -/

/-- Samples along either axis of the square on which the range is estimated. -/
def rangeSamples : Nat := 60

/-- The square reaches from `-rangeBound` to `rangeBound` on either axis. -/
def rangeBound : Float := 10.0

def widen (range : Option (Float × Float)) (v : Float) : Option (Float × Float) :=
  if !v.isFinite then range
  else match range with
    | none => some (v, v)
    | some (lo, hi) => some (Double.lesser lo v, Double.greater hi v)

def estimatedRange (e : Expr) : Option (Float × Float) :=
  let grid := Double.spaced (-rangeBound) rangeBound rangeSamples
  grid.foldl (fun range y => grid.foldl (fun range x => widen range (e.evalAt x y)) range) none

/-! ### Limit at a point -/

/-- The limit at `(a, b)` when the two iterated limits agree; an infinity found in one order only counts. -/
def limitAt (e : Expr) (a b : Float) : Limit :=
  let xThenY := Limit.of (fun y => (Limit.of (fun x => e.evalAt x y) a).toFloat) b
  let yThenX := Limit.of (fun x => (Limit.of (fun y => e.evalAt x y) b).toFloat) a
  if xThenY.isPositiveInfinity || yThenX.isPositiveInfinity then .positiveInfinity
  else if xThenY.isNegativeInfinity || yThenX.isNegativeInfinity then .negativeInfinity
  else match xThenY, yThenX with
    | .finite u, .finite v => if Limit.close 1e-9 u v then .finite (Double.snap u 1e-9) else .undefined
    | _, _ => .undefined

end Expr

def Limit.text : Limit → String
  | finite v => Decimal.Layout.plain.render v
  | positiveInfinity => "infinity"
  | negativeInfinity => "-infinity"
  | undefined => "undefined"

structure DomainAnalysis where
  function : Expr
  denominator : Option Expr
  logArguments : List Expr
  rootArguments : List Expr
  range : Option (Float × Float)
  limit : Option Limit

def DomainAnalysis.of (o : Overflow) (f : Expr) (point : Option (Float × Float)) : Calc DomainAnalysis := do
  return ⟨f, ← f.denominator o, f.logArguments, f.rootArguments, f.estimatedRange, point.map fun (a, b) => f.limitAt a b⟩

end PlaneCalculus
