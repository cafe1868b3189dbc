import PlaneCalculus.Expr.Evaluation
import PlaneCalculus.Expr.SpecialValues

/-!
Poles on a rectangle. The subexpressions at whose zeros an expression may blow up are its singular parts: bases of
negative powers, arguments of logarithms, and the sine or cosine by which tangent, secant, cosecant and cotangent divide.
Whether they vanish is judged on a grid.
-/

namespace PlaneCalculus

structure Rectangle where
  left : Float
  right : Float
  bottom : Float
  top : Float

def Func.singularParts (arg : Expr) : Func → List Expr
  | .log | .coth | .csch => [arg]
  | .tan | .sec => [Func.cos.of arg]
  | .csc | .cot => [Func.sin.of arg]
  | _ => []

namespace Expr

mutual

def singularParts : Expr → List Expr
  | .num _ => []
  | .symbol _ => []
  | .constant _ => []
  | .plus ts => singularPartsAll ts
  | .times fs => singularPartsAll fs
  | .power base exponent =>
    (if exponent.isNegativeNumber then [base] else []) ++ singularParts base ++ singularParts exponent
  | .call f arg => f.singularParts arg ++ singularParts arg

def singularPartsAll : List Expr → List Expr
  | [] => []
  | e :: es => singularParts e ++ singularPartsAll es

end

/-- Intervals of the grid along either side. -/
def gridSteps : Nat := 64

def sampleOn (r : Rectangle) (e : Expr) : List (List Float) :=
  let ys := Double.spaced r.bottom r.top (gridSteps + 1)
  (Double.spaced r.left r.right (gridSteps + 1)).map fun x => ys.map fun y => e.evalAt x y

def crosses (a b : Float) : Bool := a == 0.0 || b == 0.0 || decide (a < 0.0) != decide (b < 0.0)

def keepsSign : List Float → Bool
  | [] => true
  | [a] => a.isFinite && !(a == 0.0)
  | a :: b :: rest => a.isFinite && !(a == 0.0) && !crosses a b && keepsSign (b :: rest)

def rowsAgree : List (List Float) → Bool
  | r :: s :: rest => (r.zip s).all (fun (a, b) => !crosses a b) && rowsAgree (s :: rest)
  | _ => true

/-- No pole is seen on the closed rectangle: every sample is finite, and no singular part vanishes or changes sign between
neighbouring samples. -/
def isFiniteOn (e : Expr) (r : Rectangle) : Bool :=
  (sampleOn r e).all (·.all (·.isFinite)) &&
    e.singularParts.all fun part =>
      let grid := sampleOn r part
      grid.all keepsSign && rowsAgree grid

end Expr

end PlaneCalculus
