import PlaneCalculus.Analysis.PointValue
import PlaneCalculus.Formula.Meaning
import PlaneCalculus.Proofs.Expr.Substitution

/-! Rational functions are evaluated exactly at rational points where they are defined. -/

namespace PlaneCalculus.PointValue

open Calc PlaneCalculus.Expr

/-- The point as an assignment, for expressions in no other symbols than the coordinates. -/
def coordinates (x y : ℚ) (s : String) : ℚ := if s = "x" then x else y

@[simp] lemma coordinates_x (x y : ℚ) : coordinates x y "x" = x := rfl

@[simp] lemma coordinates_y (x y : ℚ) : coordinates x y "y" = y := rfl

def replaced (o : Overflow) (f x y : Expr) : Calc Expr := do (← f.substitute o "x" x).substitute o "y" y

def ofReplaced (f x y exact : Expr) : Outcome PointValue :=
  if exact.freeSymbols.isEmpty then return ⟨f, x, y, exact, exact.value?.map (Double.snap · 1e-12)⟩
  else throw (.unknownSymbols exact.freeSymbols)

lemma of_eq (o : Overflow) (f x y : Expr) :
    PointValue.of o f x y = (liftM (replaced o f x y) : Outcome Expr) >>= ofReplaced f x y := by
  unfold PointValue.of replaced
  cases f.substitute o "x" x with
  | ok a => rfl
  | error h => rfl

end PlaneCalculus.PointValue
