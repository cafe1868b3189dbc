import PlaneCalculus.Analysis.PointValue
import PlaneCalculus.Service.Report

/-!
Reports on the value of a function at a point.
-/

namespace PlaneCalculus.Report

/-- The point and the value as they are mentioned in the explanations, typeset where possible. -/
structure PointWords where
  function : String
  x : String
  y : String
  value : String
  result : String

namespace PointWords

def explanation (w : PointWords) : String :=
  "The value of f(x,y) = " ++ w.function ++ " at (x, y) = (" ++ w.x ++ ", " ++ w.y ++ ") is approximately " ++ w.value ++
    ". This is the height of the surface at that point."

def detailed (w : PointWords) : String :=
  "Substituting x = " ++ w.x ++ " and y = " ++ w.y ++ " into f(x,y) = " ++ w.function ++ " and evaluating gives f(" ++
    w.x ++ ", " ++ w.y ++ ") = " ++ w.result ++
    ". This value is the height (z) of the surface at those coordinates of the plane."

end PointWords

def pointMarkup (x y : Option String) : Option String := do
  return "x = " ++ (← x) ++ ",\\; y = " ++ (← y)

def pointValueMarkup (x y value : Option String) : Option String := do
  return "f(" ++ (← x) ++ ", " ++ (← y) ++ ") = " ++ (← value)

def ofPointValue (o : Overflow) (text : String) (p : PointValue) : Rendering Draft := do
  let f ← Rendering.typeset o p.function
  let x ← Rendering.typeset o p.x
  let y ← Rendering.typeset o p.y
  let value ← Rendering.typeset o p.resultExpr
  let result ← p.resultText o
  let words : PointWords := {
    function := f.getD text,
    x := x.getD (← p.x.text o),
    y := y.getD (← p.y.text o),
    value := match p.value with
      | some v => Decimal.Layout.plain.render v
      | none => result,
    result := value.getD result }
  let portrait ← Portrait.ofText o text
  let whole := (pointValueMarkup x y value).map displayMath
  return {
    values := [("result", .string result), ("value", .ofOption .real p.value), ("result_numeric", .ofOption .real p.value)],
    formulas := [("resultado_latex", whole), ("result_latex", whole)],
    steps := [
      .identify f,
      .display "Substitute the coordinates of the point." (pointMarkup x y),
      .display "Evaluate the expression to obtain the value." value,
      .plain "This value is the height of the surface z = f(x,y) at the point (x0, y0)."],
    narrative := ⟨"Evaluation at a point", words.explanation, words.explanation, some words.detailed⟩,
    portrait }

end PlaneCalculus.Report
