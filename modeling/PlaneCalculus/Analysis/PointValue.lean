import PlaneCalculus.Expr.Error
import PlaneCalculus.Expr.Evaluation
import PlaneCalculus.Expr.Substitution

/-!
The value of a function at a point whose coordinates are expressions without symbols.
-/

namespace PlaneCalculus

structure PointValue where
  function : Expr
  x : Expr
  y : Expr
  exact : Expr
  value : Option Float

namespace PointValue

def of (o : Overflow) (f x y : Expr) : Outcome PointValue := do
  let atX ← f.substitute o "x" x
  let exact ← atX.substitute o "y" y
  if exact.freeSymbols.isEmpty then return ⟨f, x, y, exact, exact.value?.map (Double.snap · 1e-12)⟩
  else throw (.unknownSymbols exact.freeSymbols)

def resultExpr (p : PointValue) : Expr :=
  match p.value with
  | some v => .real v
  | none => p.exact

def resultText (o : Overflow) (p : PointValue) : Calc String := p.resultExpr.text o

end PointValue

end PlaneCalculus
