import PlaneCalculus.Analysis.DoubleIntegral
import PlaneCalculus.Service.Report

/-!
Reports on double integrals, over a region and without limits.
-/

namespace PlaneCalculus.Report

def integralSign (lo hi : String) : String := "\\int_" ++ braced lo ++ "^" ++ braced hi

def definiteNarrative : Narrative :=
  { title := "Definite double integral",
    summary :=
      "The definite double integral computes the volume under " ++
      "z = f(x,y) over the given region, integrating first in y and then in x.",
    explanation :=
      "The definite double integral computes the volume under " ++
      "z = f(x,y) over the given rectangle; first in y and then in x.",
    detailed := some (
      "In a definite double integral the inner integral (here with respect " ++
      "to y) is evaluated first, giving a function of x. That function is " ++
      "then integrated with respect to x and the limits are applied. The " ++
      "result is the volume under the surface z = f(x,y) over the " ++
      "rectangular region.") }

def lastDefiniteStep (numeric : Bool) : String :=
  if numeric then "No closed form was found; the value was approximated numerically."
  else "Simplify and, where applicable, evaluate numerically."

def ofDefiniteIntegral (o : Overflow) (text : String) (i : DefiniteIntegral) : Rendering Draft := do
  let f ← Rendering.typeset o i.function
  let value ← Rendering.typeset o i.value
  let left ← Rendering.typeset o i.region.left
  let right ← Rendering.typeset o i.region.right
  let bottom ← Rendering.typeset o i.region.bottom
  let top ← Rendering.typeset o i.region.top
  let signs : Option (String × String × String) := do
    let f ← f
    let outer := integralSign (← left) (← right)
    let inner := integralSign (← bottom) (← top)
    return (f, outer, inner)
  let inner := signs.map fun (f, _, inner) => inner ++ " " ++ f ++ " \\, dy"
  let nested := signs.map fun (f, outer, inner) =>
    outer ++ " \\left( " ++ inner ++ " " ++ f ++ " \\, dy \\right) \\, dx"
  let whole := signs.map fun (f, outer, inner) => outer ++ " " ++ inner ++ " " ++ f ++ " \\, dy \\, dx"
  let portrait ← Portrait.ofText o text
  return {
    values := [
      ("type", .string "definite"),
      ("integral", .string (← i.value.text o)),
      ("approx", .real i.approx),
      ("method", .string (if i.numeric then "numeric" else "symbolic"))],
    formulas := [
      ("integral_latex", value.map displayMath),
      ("definite_symbolic_latex", whole.map displayMath),
      ("expression_latex", f.map displayMath)],
    steps := [
      .identify f,
      .display "Integrate with respect to y over the given interval." inner,
      .display "Integrate the result with respect to x over the given interval." nested,
      .display (lastDefiniteStep i.numeric) value],
    narrative := definiteNarrative,
    portrait }

def indefiniteNarrative : Narrative :=
  { title := "Indefinite double integral",
    summary :=
      "The indefinite double integral is an iterated antiderivative: " ++
      "first with respect to y and then with respect to x.",
    explanation :=
      "The indefinite double integral is an iterated " ++
      "antiderivative of f(x,y): first with respect to y, then with respect to x.",
    detailed := some (
      "Without limits the result is a family of antiderivatives. We first " ++
      "integrate with respect to one variable while holding the other " ++
      "constant, and then with respect to the second. The process describes " ++
      "how f accumulates over the plane.") }

def innerMarkup (f inner : Option String) : Option String := do
  return "\\int " ++ (← f) ++ " \\, dy = " ++ (← inner)

def outerMarkup (inner outer : Option String) : Option String := do
  return "\\int \\left(" ++ (← inner) ++ "\\right) \\, dx = " ++ (← outer)

def doubleMarkup (f outer : Option String) : Option String := do
  return "\\iint " ++ (← f) ++ " \\, dy \\, dx = " ++ (← outer)

def ofIndefiniteIntegral (o : Overflow) (text : String) (i : IndefiniteIntegral) : Rendering Draft := do
  let f ← Rendering.typeset o i.function
  let inner ← Rendering.typeset o i.inner
  let outer ← Rendering.typeset o i.outer
  let portrait ← Portrait.ofText o text
  return {
    values := [
      ("type", .string "indefinite"),
      ("inner_integral", .string (← i.inner.text o)),
      ("double_integral", .string (← i.outer.text o))],
    formulas := [
      ("expression_latex", f.map displayMath),
      ("inner_integral_latex", (innerMarkup f inner).map displayMath),
      ("double_integral_latex", (outerMarkup inner outer).map displayMath),
      ("double_integral_symbolic_latex", (doubleMarkup f outer).map displayMath)],
    steps := [
      .identify f,
      .display "Antiderivative with respect to y." (innerMarkup f inner),
      .display "Antiderivative of the result with respect to x." (outerMarkup inner outer),
      .plain "Without limits, the result is a family of antiderivatives."],
    narrative := indefiniteNarrative,
    portrait }

end PlaneCalculus.Report
