import PlaneCalculus.Analysis.CriticalPoints
import PlaneCalculus.Service.Report.Gradient

/-!
Reports on critical points and their classification.
-/

namespace PlaneCalculus.Report

def criticalPointJson (p : CriticalPoint) : Json :=
  .object [("x", .real p.x), ("y", .real p.y), ("f", .real p.value),
    ("classification", .string p.classification.label), ("color", .string p.classification.color),
    ("determinant", .real p.determinant), ("fxx", .real p.fxx), ("fyy", .real p.fyy), ("fxy", .real p.fxy)]

def indexed (index : String) : String := "f_" ++ braced index

def determinantMarkup : String := "D = " ++ indexed "xx" ++ indexed "yy" ++ " - " ++ indexed "xy" ++ "^2"

def hessianMarkup : String :=
  "H = \\begin" ++ braced "pmatrix" ++ " " ++ indexed "xx" ++ " & " ++ indexed "xy" ++ " \\\\ " ++ indexed "yx" ++ " & " ++
    indexed "yy" ++ " \\end" ++ braced "pmatrix"

def criticalSteps : List Step := [
  .display "Compute the gradient and solve ∇f = 0 for critical points." (some "\\nabla f = 0"),
  .display "Build the Hessian matrix at each critical point." (some hessianMarkup),
  .display ("Evaluate " ++ determinantMarkup ++ " and the sign of " ++ indexed "xx" ++ ".") (some determinantMarkup),
  .plain "Classify: local minimum, local maximum or saddle point."]

def criticalNarrative : Narrative :=
  { title := "Unconstrained optimization",
    summary :=
      "Critical points are found from ∇f = 0 and each point is " ++
      "classified with the Hessian.",
    explanation :=
      "The system ∇f = 0 is solved to find critical points. Then the " ++
      "Hessian H and the determinant D = " ++ indexed "xx" ++ " " ++ indexed "yy" ++ " - (" ++ indexed "xy" ++
      ")^2 are computed. If D > 0 and " ++ indexed "xx" ++ " > 0 there is a local minimum; if D > 0 and " ++
      indexed "xx" ++ " < 0 a local maximum; if D < 0 a saddle point; if D = 0 the test is inconclusive.",
    detailed := none }

def ofCriticalPoints (o : Overflow) (text : String) (c : CriticalPoints) : Rendering Draft := do
  let fx ← Rendering.typeset o c.fx
  let fy ← Rendering.typeset o c.fy
  let portrait ← Portrait.ofText o text
  return {
    values := [("critical_points", .array (c.points.map criticalPointJson))],
    formulas := [("gradient_latex", gradientMarkup ",\\; " fx fy)],
    steps := criticalSteps,
    narrative := criticalNarrative,
    portrait }

end PlaneCalculus.Report
