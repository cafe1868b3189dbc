import PlaneCalculus.Analysis.ConstrainedExtrema
import PlaneCalculus.Service.Report

/-!
Reports on extrema under a constraint.
-/

namespace PlaneCalculus.Report

/-- A point with its multiplier; the coordinates after one that cannot be typeset are not tried. -/
def constrainedPointMarkup (o : Overflow) (p : ConstrainedPoint) : Rendering (Option String) := do
  let some x ← Rendering.typeset o p.x | return none
  let some y ← Rendering.typeset o p.y | return none
  let some l ← Rendering.typeset o p.multiplier | return none
  return some ("\\left(x=" ++ x ++ ",\\; y=" ++ y ++ ",\\; \\lambda=" ++ l ++ "\\right)")

/-- The points typeset so far, in reverse, followed by the others; none as soon as one fails. -/
def solutionSetFrom (o : Overflow) (done : List String) : List ConstrainedPoint → Rendering (Option String)
  | [] => return some ("[" ++ ", ".intercalate done.reverse ++ "]")
  | p :: ps => do
    match ← constrainedPointMarkup o p with
    | some markup => solutionSetFrom o (markup :: done) ps
    | none => return none

def solutionSetMarkup (o : Overflow) (points : List ConstrainedPoint) : Rendering (Option String) :=
  solutionSetFrom o [] points

def stationaryMarkup (variableName derivative : String) : String :=
  Latex.fraction "\\partial L" ("\\partial " ++ variableName) ++ "=" ++ derivative ++ "=0"

def systemMarkup (lx ly lmultiplier : Option String) : Option String := do
  return stationaryMarkup "x" (← lx) ++ ", \\quad " ++ stationaryMarkup "y" (← ly) ++ ", \\quad " ++
    stationaryMarkup "\\lambda" (← lmultiplier)

def constrainedPointJson (p : ConstrainedPoint) : Json :=
  .object [("x", .real p.xValue), ("y", .real p.yValue), ("lambda", .real p.multiplierValue),
    ("f", .ofOption .real p.value)]

def constrainedExplanation : String :=
  "Lagrange multipliers find maxima or minima of f under a " ++
  "constraint. The points found satisfy the Lagrangian conditions and g = 0 " ++
  "simultaneously."

def constrainedDetails : String :=
  "The method introduces a variable λ to impose the constraint g(x,y)=0. We " ++
  "build L=f+λg and solve ∂L/∂x=0, ∂L/∂y=0 together with g=0. The points " ++
  "obtained are candidates for constrained extrema; to classify them, " ++
  "evaluate f and check any further conditions of the problem."

def ofConstrainedExtrema (o : Overflow) (text : String) (e : ConstrainedExtrema) : Rendering Draft := do
  let points ← solutionSetMarkup o e.points
  let lagrangian ← Rendering.typeset o e.lagrangian
  let lx ← Rendering.typeset o e.lx
  let ly ← Rendering.typeset o e.ly
  let lmultiplier ← Rendering.typeset o e.lmultiplier
  let f ← Rendering.typeset o e.function
  let g ← Rendering.typeset o e.constraint
  let summary := "$$f(x,y)=" ++ f.getD (← e.function.text o) ++ "$$ subject to $$g(x,y)=" ++
    g.getD (← e.constraint.text o) ++ "=0$$"
  let portrait ← Portrait.ofText o text
  return {
    values := [
      ("result", .string (← e.resultText o)),
      ("critical_points", .array (e.points.map constrainedPointJson))],
    formulas := [("resultado_latex", points.map displayMath)],
    steps := [
      .display "Form the Lagrange function:" (lagrangian.map fun t => "L(x,y,\\lambda)=" ++ t),
      .display "Compute the partial derivatives and set them to zero:" (systemMarkup lx ly lmultiplier),
      .display "Solution of the system:" points],
    narrative := {
      title := "Constrained optimization (Lagrange multipliers)",
      summary,
      explanation := constrainedExplanation,
      detailed := some constrainedDetails },
    portrait }

end PlaneCalculus.Report
