import PlaneCalculus.Double

/-!
Limits of functions of one variable, from samples at two small distances on either side.
-/

namespace PlaneCalculus

inductive Limit where
  | finite (value : Float)
  | positiveInfinity
  | negativeInfinity
  | undefined

namespace Limit

def toFloat : Limit → Float
  | finite v => v
  | positiveInfinity => Double.infinity
  | negativeInfinity => -Double.infinity
  | undefined => Double.nan

def isPositiveInfinity : Limit → Bool
  | positiveInfinity => true
  | _ => false

def isNegativeInfinity : Limit → Bool
  | negativeInfinity => true
  | _ => false

/-- Do `a` and `b` agree up to `tol`, relative to `a` when that is larger than one? -/
def close (tol a b : Float) : Bool := (a - b).abs ≤ tol * Double.greater a.abs 1.0

def oneSided (prev last : Float) : Limit :=
  if last.isNaN then undefined
  else if last == Double.infinity || (last > 1e6 && last > prev) then positiveInfinity
  else if last == -Double.infinity || (last < -1e6 && last < prev) then negativeInfinity
  else if close 1e-4 last prev then finite last
  else undefined

def join : Limit → Limit → Limit
  | finite l, finite r => if close 1e-4 l r then finite (Double.snap ((l + r) / 2.0) 1e-6) else undefined
  | positiveInfinity, positiveInfinity => positiveInfinity
  | negativeInfinity, negativeInfinity => negativeInfinity
  | _, _ => undefined

/-- The limit of `f` at `a`. A finite value at `a` itself is taken for it. -/
def of (f : Float → Float) (a : Float) : Limit :=
  let direct := f a
  if direct.isFinite then finite direct
  else join (oneSided (f (a - 1e-6)) (f (a - 1e-7))) (oneSided (f (a + 1e-6)) (f (a + 1e-7)))

end Limit

end PlaneCalculus
