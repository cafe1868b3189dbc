import PlaneCalculus.Calculus.Derivative

/-!
First partial derivatives of a function of `x` and `y`.
-/

namespace PlaneCalculus

structure Gradient where
  function : Expr
  fx : Expr
  fy : Expr

namespace Gradient

def of (o : Overflow) (f : Expr) : Calc Gradient := do
  return ⟨f, ← f.derivative o "x", ← f.derivative o "y"⟩

def partialsText (o : Overflow) (g : Gradient) : Calc String := do
  return "df/dx = " ++ (← g.fx.text o) ++ ", df/dy = " ++ (← g.fy.text o)

def vectorText (o : Overflow) (g : Gradient) : Calc String := do
  return "(" ++ (← g.fx.text o) ++ ", " ++ (← g.fy.text o) ++ ")"

end Gradient

end PlaneCalculus
