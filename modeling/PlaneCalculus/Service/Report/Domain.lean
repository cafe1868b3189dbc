import PlaneCalculus.Analysis.Domain
import PlaneCalculus.Service.Report

/-!
Reports on the domain of a function, its range and its limit at a point.
-/

namespace PlaneCalculus.Report

/-- A condition on an expression, written by `condition` from its typeset form; none when it cannot be typeset. -/
def conditionOn (o : Overflow) (condition : String → String) (e : Expr) : Rendering (Option String) := do
  return (← Rendering.typeset o e).map condition

def noRestrictions : String :=
  "No additional restrictions (possibly continuous on \\(\\mathbb\x7bR\x7d^2\\))."

def domainConditions (o : Overflow) (d : DomainAnalysis) : Rendering String := do
  let denominators ← d.denominator.toList.mapM (conditionOn o fun t =>
    "denominator " ++ inlineMath (" " ++ t ++ " ") ++ " ≠ 0")
  let logs ← d.logArguments.mapM (conditionOn o fun t => inlineMath (" " ++ t ++ " > 0 "))
  let roots ← d.rootArguments.mapM (conditionOn o fun t => inlineMath (" " ++ t ++ " \\ge 0 "))
  let conditions := (denominators ++ logs ++ roots).filterMap id
  return if conditions.isEmpty then noRestrictions else ", ".intercalate conditions

def limitStepText : String := "Compute the limit at (x0,y0) if a point was given."

/-- The limit asked for; words only when no point was given. -/
def limitStep (o : Overflow) (point : Option (Expr × Expr)) : Rendering Step := do
  match point with
  | none => return .plain limitStepText
  | some (a, b) =>
    let x ← Rendering.typeset o a
    let y ← Rendering.typeset o b
    let markup : Option String := do
      return "\\lim_" ++ braced ("(x,y)\\to (" ++ (← x) ++ ", " ++ (← y) ++ ")") ++ " f(x,y)"
    return .display limitStepText markup

def rangeJson (range : Float × Float) : Json := .array [.real range.1, .real range.2]

def domainExplanation : String :=
  "The conditions for existence (domain) are analyzed, the range " ++
  "is estimated and the limit is evaluated if a point is given."

def ofDomain (o : Overflow) (text : String) (point : Option (Expr × Expr)) (d : DomainAnalysis) : Rendering Draft := do
  let conditions ← domainConditions o d
  let f ← Rendering.typeset o d.function
  let limit ← limitStep o point
  let portrait ← Portrait.ofText o text
  return {
    values := [
      ("domain_conditions", .string conditions),
      ("range_estimated", .ofOption rangeJson d.range),
      ("limit_value", .ofOption (fun l => .string l.text) d.limit)],
    formulas := [],
    steps := [
      .identify f,
      .plain "Analyze the domain conditions (division by zero, log > 0, sqrt ≥ 0).",
      .plain "Estimate the range by evaluating the function over a grid.",
      limit],
    narrative := ⟨"Domain and limit analysis", domainExplanation, domainExplanation, none⟩,
    portrait }

end PlaneCalculus.Report
