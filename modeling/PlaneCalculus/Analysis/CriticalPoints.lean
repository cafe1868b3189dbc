import PlaneCalculus.Analysis.ConstrainedExtrema

/-!
Critical points of a function of `x` and `y`, classified by the second derivative test.
-/

namespace PlaneCalculus

inductive Classification where
  | localMinimum
  | localMaximum
  | inconclusive
  | saddle
  deriving DecidableEq, Repr

namespace Classification

/-- A determinant up to this magnitude decides nothing. -/
def tolerance : Float := 1e-10

/-- The second derivative test, from `fxx` and the determinant of the Hessian matrix. -/
def ofHessian (fxx determinant : Float) : Classification :=
  if determinant > tolerance && fxx > 0.0 then .localMinimum
  else if determinant > tolerance && fxx < 0.0 then .localMaximum
  else if determinant.abs ≤ tolerance then .inconclusive
  else .saddle

def label : Classification → String
  | localMinimum => "Local minimum"
  | localMaximum => "Local maximum"
  | inconclusive => "Inconclusive test"
  | saddle => "Saddle point"

def color : Classification → String
  | localMinimum => "green"
  | localMaximum => "blue"
  | inconclusive => "orange"
  | saddle => "red"

end Classification

structure CriticalPoint where
  x : Float
  y : Float
  value : Float
  fxx : Float
  fyy : Float
  fxy : Float

namespace CriticalPoint

def determinant (p : CriticalPoint) : Float := p.fxx * p.fyy - p.fxy * p.fxy

def classification (p : CriticalPoint) : Classification := .ofHessian p.fxx p.determinant

end CriticalPoint

structure CriticalPoints where
  function : Expr
  fx : Expr
  fy : Expr
  fxx : Expr
  fyy : Expr
  fxy : Expr
  points : List CriticalPoint

namespace CriticalPoints

def seeds : List (List Float) := seedCoordinates.flatMap fun x => seedCoordinates.map fun y => [x, y]

def pointAt (f fxx fyy fxy : Expr) (s : Solution) : Option CriticalPoint :=
  match s.numeric with
  | [x, y] =>
    let p : CriticalPoint :=
      ⟨x, y, Double.snap (f.evalAt x y) 1e-12, fxx.evalAt x y, fyy.evalAt x y, fxy.evalAt x y⟩
    if p.fxx.isFinite && p.fyy.isFinite && p.fxy.isFinite && p.value.isFinite then some p else none
  | _ => none

def of (o : Overflow) (f : Expr) : Calc CriticalPoints := do
  let fx ← f.derivative o "x"
  let fy ← f.derivative o "y"
  let fxx ← fx.derivative o "x"
  let fyy ← fy.derivative o "y"
  let fxy ← fx.derivative o "y"
  let solutions ← solveSystem o [fx, fy] ["x", "y"] seeds
  return ⟨f, fx, fy, fxx, fyy, fxy, solutions.filterMap (pointAt f fxx fyy fxy)⟩

end CriticalPoints

end PlaneCalculus
