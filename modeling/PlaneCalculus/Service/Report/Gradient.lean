import PlaneCalculus.Analysis.Gradient
import PlaneCalculus.Service.Report

/-!
Reports on partial derivatives and on the gradient.
-/

namespace PlaneCalculus.Report

def partialX : String := Latex.fraction "\\partial f" "\\partial x"

def partialY : String := Latex.fraction "\\partial f" "\\partial y"

def partialsMarkup (gap : String) (fx fy : Option String) : Option String := do
  return partialX ++ " = " ++ (← fx) ++ gap ++ partialY ++ " = " ++ (← fy)

def gradientMarkup (gap : String) (fx fy : Option String) : Option String := do
  return "\\nabla f = \\left( " ++ (← fx) ++ gap ++ (← fy) ++ " \\right)"

def partialsExplanation : String :=
  "Partial derivatives show how sensitive f is to changes in x or in y. " ++
  "They are the basis for building the gradient and analyzing local variation."

def partialsNarrative : Narrative :=
  { title := "Partial derivatives",
    summary := partialsExplanation,
    explanation := partialsExplanation,
    detailed := some (
      "Partial derivatives quantify how f changes when only one variable varies " ++
      "while the other stays fixed. Geometrically they are the slopes along the " ++
      "coordinate axes. From them we build the gradient and the tangent plane, " ++
      "and find the directions of steepest increase.") }

def ofPartials (o : Overflow) (text : String) (g : Gradient) : Rendering Draft := do
  let f ← Rendering.typeset o g.function
  let fx ← Rendering.typeset o g.fx
  let fy ← Rendering.typeset o g.fy
  let portrait ← Portrait.ofText o text
  return {
    values := [("result", .string (← g.partialsText o))],
    formulas := [("resultado_latex", (partialsMarkup ", \\; " fx fy).map displayMath)],
    steps := [
      .identify f,
      .display "Differentiate with respect to x." (fx.map fun t => partialX ++ " = " ++ t),
      .display "Differentiate with respect to y." (fy.map fun t => partialY ++ " = " ++ t),
      .plain "Each partial derivative measures the rate of change along a single variable."],
    narrative := partialsNarrative,
    portrait }

def gradientExplanation : String :=
  "The gradient collects the partial derivatives into a vector that " ++
  "points where f increases fastest. Its norm is the maximum local rate of increase."

def gradientNarrative : Narrative :=
  { title := "Gradient",
    summary := gradientExplanation,
    explanation := gradientExplanation,
    detailed := some (
      "The gradient points in the direction of maximum increase and its magnitude " ++
      "is the maximum rate of change. It is perpendicular to the level curves of f. " ++
      "In optimization it drives ascent and descent methods; in physics it " ++
      "describes fields such as temperature or potential.") }

def ofGradient (o : Overflow) (text : String) (g : Gradient) : Rendering Draft := do
  let f ← Rendering.typeset o g.function
  let fx ← Rendering.typeset o g.fx
  let fy ← Rendering.typeset o g.fy
  let vector := gradientMarkup ", " fx fy
  let portrait ← Portrait.ofText o text
  return {
    values := [("result", .string (← g.vectorText o))],
    formulas := [("resultado_latex", vector.map displayMath)],
    steps := [
      .identify f,
      .display "Compute the partial derivatives df/dx and df/dy." (partialsMarkup ",\\; " fx fy),
      .display "Form the gradient vector." vector,
      .plain "The gradient points in the direction of steepest increase of the function."],
    narrative := gradientNarrative,
    portrait }

end PlaneCalculus.Report
