import PlaneCalculus.Double

/-!
Adaptive quadrature by Simpson's rule. An interval is halved until the two halves agree with the whole up to the tolerance,
which is halved along with it, or the depth is used up. A sample that is not finite makes the quadrature fail.
-/

namespace PlaneCalculus.Quadrature

/-- One interval with its end and middle values and its Simpson estimate `whole`. -/
def refine (f : Float → Float) : Nat → (a b tol whole fa fm fb : Float) → Option Float
  | depth, a, b, tol, whole, fa, fm, fb =>
    let m := (a + b) / 2.0
    let fl := f ((a + m) / 2.0)
    let fr := f ((m + b) / 2.0)
    if fl.isFinite && fr.isFinite then
      let h := b - a
      let left := h / 12.0 * (fa + 4.0 * fl + fm)
      let right := h / 12.0 * (fm + 4.0 * fr + fb)
      let refined := left + right
      let error := (refined - whole) / 15.0
      if error.abs < tol then some (refined + error)
      else match depth with
        | 0 => some (refined + error)
        | depth + 1 =>
          match refine f depth a m (tol / 2.0) left fa fl fm with
          | none => none
          | some l =>
            match refine f depth m b (tol / 2.0) right fm fr fb with
            | none => none
            | some r => some (l + r)
    else none

def simpson (f : Float → Float) (a b tol : Float) (depth : Nat) : Option Float :=
  let fa := f a
  let fb := f b
  let fm := f ((a + b) / 2.0)
  if fa.isFinite && fb.isFinite && fm.isFinite then
    refine f depth a b tol ((b - a) / 6.0 * (fa + 4.0 * fm + fb)) fa fm fb
  else none

/-- Integrates over `y` from `bottom` to `top` for each abscissa, and the result over `x` from `left` to `right`. -/
def double (f : Float → Float → Float) (left right bottom top : Float) : Option Float :=
  let inner (x : Float) : Float := (simpson (f x) bottom top 1e-10 12).getD Double.nan
  match simpson inner left right 1e-9 12 with
  | some v => if v.isFinite then some v else none
  | none => none

end PlaneCalculus.Quadrature
