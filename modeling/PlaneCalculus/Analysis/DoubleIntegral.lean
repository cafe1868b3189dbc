import PlaneCalculus.Calculus.Antiderivative
import PlaneCalculus.Calculus.Quadrature
import PlaneCalculus.Calculus.Singularity
import PlaneCalculus.Expr.Error

/-!
Iterated integrals, over `y` first and then over `x`. Over a region the integral is exact when both antiderivatives are found
and no pole is seen on the region; otherwise it is approximated by quadrature.
-/

namespace PlaneCalculus

structure Region where
  left : Expr
  right : Expr
  bottom : Expr
  top : Expr

structure DefiniteIntegral where
  function : Expr
  region : Region
  inner : Option Expr
  value : Expr
  approx : Float
  numeric : Bool

structure IndefiniteIntegral where
  function : Expr
  inner : Expr
  outer : Expr

def limitValue (o : Overflow) (e : Expr) : Outcome Float :=
  match e.value? with
  | some v => return v
  | none => do throw (.unboundedLimit (← e.text o))

def Region.toRectangle (o : Overflow) (r : Region) : Outcome Rectangle := do
  return ⟨← limitValue o r.left, ← limitValue o r.right, ← limitValue o r.bottom, ← limitValue o r.top⟩

namespace DefiniteIntegral

/-- The exact value with its double, if the inner integral is known and the region free of poles. -/
def closedForm? (o : Overflow) (f : Expr) (inner : Option Expr) (r : Region) (bounds : Rectangle) :
    Calc (Option (Expr × Float)) := do
  match inner with
  | none => return none
  | some i =>
    if f.isFiniteOn bounds then
      let value ← i.definiteIntegral o "x" r.left r.right
      return value.bind fun v => v.value?.map fun approx => (v, approx)
    else return none

def byQuadrature (o : Overflow) (f : Expr) (bounds : Rectangle) : Outcome Float := do
  match Quadrature.double f.evalAt bounds.left bounds.right bounds.bottom bounds.top with
  | some v => return Double.snap v 1e-9
  | none => throw (.divergent (← f.text o))

def of (o : Overflow) (f : Expr) (r : Region) : Outcome DefiniteIntegral := do
  let bounds ← r.toRectangle o
  let inner ← f.definiteIntegral o "y" r.bottom r.top
  match ← closedForm? o f inner r bounds with
  | some (value, approx) => return ⟨f, r, inner, value, approx, false⟩
  | none =>
    let approx ← byQuadrature o f bounds
    return ⟨f, r, inner, .real approx, approx, true⟩

end DefiniteIntegral

def requireAntiderivative (o : Overflow) (v : String) (e : Expr) : Outcome Expr := do
  match ← e.antiderivative o v with
  | some anti => return anti
  | none => throw (.noAntiderivative (← e.text o) v)

def IndefiniteIntegral.of (o : Overflow) (f : Expr) : Outcome IndefiniteIntegral := do
  let inner ← requireAntiderivative o "y" f
  let outer ← requireAntiderivative o "x" inner
  return ⟨f, inner, outer⟩

end PlaneCalculus
