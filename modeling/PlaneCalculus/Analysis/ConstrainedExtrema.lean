import PlaneCalculus.Equations.Solution
import PlaneCalculus.Expr.Error

/-!
Candidates for extrema of a function under a constraint `g = 0`, by the method of Lagrange multipliers.
-/

namespace PlaneCalculus

structure ConstrainedPoint where
  x : Expr
  y : Expr
  multiplier : Expr
  xValue : Float
  yValue : Float
  multiplierValue : Float
  value : Option Float

structure ConstrainedExtrema where
  function : Expr
  constraint : Expr
  lagrangian : Expr
  lx : Expr
  ly : Expr
  lmultiplier : Expr
  points : List ConstrainedPoint

def seedCoordinates : List Float := [-2.0, -1.0, 0.0, 1.0, 2.0]

namespace ConstrainedPoint

def ofSolution (f : Expr) (s : Solution) : Option ConstrainedPoint :=
  match s.values, s.numeric with
  | [x, y, l], [a, b, c] =>
    let v := f.evalAt a b
    some ⟨x, y, l, a, b, c, if v.isFinite then some (Double.snap v 1e-12) else none⟩
  | _, _ => none

def text (o : Overflow) (p : ConstrainedPoint) : Calc String := do
  return "(x=" ++ (← p.x.text o) ++ ", y=" ++ (← p.y.text o) ++ ", lambda=" ++ (← p.multiplier.text o) ++ ")"

end ConstrainedPoint

namespace ConstrainedExtrema

def seeds : List (List Float) :=
  seedCoordinates.flatMap fun x => seedCoordinates.flatMap fun y => [-1.0, 1.0].map fun l => [x, y, l]

def of (o : Overflow) (f g : Expr) : Outcome ConstrainedExtrema := do
  let lagrangian ← Expr.sum o [f, ← Expr.product o [.symbol "lambda", g]]
  let lx ← lagrangian.derivative o "x"
  let ly ← lagrangian.derivative o "y"
  let lmultiplier ← lagrangian.derivative o "lambda"
  let solutions ← solveSystem o [lx, ly, g] ["x", "y", "lambda"] seeds
  if solutions.isEmpty then throw .noCriticalPoints
  return ⟨f, g, lagrangian, lx, ly, lmultiplier, solutions.filterMap (ConstrainedPoint.ofSolution f)⟩

def resultText (o : Overflow) (e : ConstrainedExtrema) : Calc String := do
  return "[" ++ ", ".intercalate (← e.points.mapM (·.text o)) ++ "]"

end ConstrainedExtrema

end PlaneCalculus
