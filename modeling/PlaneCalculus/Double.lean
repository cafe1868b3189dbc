import PlaneCalculus.Decimal.Layout

/-!
Operations on doubles beyond the four basic ones: integer powers by squaring, the area tangent through `log (1 + x)`,
a total order, even spacing of an interval and snapping to a nearby integer.
-/

namespace PlaneCalculus.Double

def nan : Float := 0.0 / 0.0

def infinity : Float := 1.0 / 0.0

/-- Multiplies `acc` by `b ^ k`, squaring `b` once for every further binary digit of `k`. -/
def mulPow (acc b : Float) (k : Nat) : Float :=
  let acc := if k % 2 = 1 then acc * b else acc
  if k / 2 = 0 then acc else mulPow acc (b * b) (k / 2)
termination_by k
decreasing_by omega

/-- Integer power; a negative exponent divides once at the end. -/
def powInt (b : Float) (n : Int) : Float :=
  let r := mulPow 1.0 b n.natAbs
  if n < 0 then 1.0 / r else r

/-! ### The logarithm of one plus `x`

With `1 + x = 2 ^ k * (1 + f)` and `f` between `√2 / 2 - 1` and `√2 - 1`, the logarithm is `k * ln 2 + log (1 + f)`, the
second summand a polynomial in `f / (2 + f)`. The rounding error of `1 + x` is carried along in `c`. -/

def highWord (v : Float) : Nat := (v.toBits >>> 32).toNat

def withHighWord (v : Float) (high : Nat) : Float :=
  Float.ofBits (high.toUInt64 <<< 32 ||| (v.toBits &&& (0xffffffff : UInt64)))

def ln2High : Float := Float.ofBits 0x3fe62e42fee00000

def ln2Low : Float := Float.ofBits 0x3dea39ef35793c76

/-- The polynomial part at `z = (f / (2 + f)) ^ 2`, summed in pairs. -/
def logPolynomial (z : Float) : Float :=
  let z2 := z * z
  let z4 := z2 * z2
  let z6 := z4 * z2
  let r1 := z * Float.ofBits 0x3fe5555555555593
  let r2 := Float.ofBits 0x3fd999999997fa04 + z * Float.ofBits 0x3fd2492494229359
  let r3 := Float.ofBits 0x3fcc71c51d8e78af + z * Float.ofBits 0x3fc7466496cb03de
  let r4 := Float.ofBits 0x3fc39a09d078c69f + z * Float.ofBits 0x3fc2f112df3e5244
  r1 + z2 * r2 + z4 * r3 + z6 * r4

/-- `k * ln 2 + log (1 + f) + c`, where `tiny` marks an `f` below `2 ^ (-20)`. -/
def logReduced (k : Int) (f c : Float) (tiny : Bool) : Float :=
  let hfsq := 0.5 * f * f
  let kf := Float.ofInt k
  if tiny then
    if f == 0.0 then
      if k = 0 then 0.0 else kf * ln2High + (c + kf * ln2Low)
    else
      let r := hfsq * (1.0 - 0.66666666666666666 * f)
      if k = 0 then f - r else kf * ln2High - ((r - (kf * ln2Low + c)) - f)
  else
    let s := f / (2.0 + f)
    let r := logPolynomial (s * s)
    if k = 0 then f - (hfsq - s * (hfsq + r))
    else kf * ln2High - ((hfsq - (s * (hfsq + r) + (kf * ln2Low + c))) - f)

def logSplit (x : Float) : Float :=
  let large := highWord x ≥ 0x43400000 && x > 0.0
  let u := if large then x else 1.0 + x
  let hu := highWord u
  let k : Int := (hu >>> 20 : Nat) - (1023 : Int)
  let c := if large then 0.0 else (if k > 0 then 1.0 - (u - x) else x - (u - 1.0)) / u
  let hu := hu &&& 0x000fffff
  if hu < 0x6a09e then logReduced k (withHighWord u (hu ||| 0x3ff00000) - 1.0) c (hu = 0)
  else logReduced (k + 1) (withHighWord u (hu ||| 0x3fe00000) - 1.0) c ((0x00100000 - hu) >>> 2 = 0)

def log1p (x : Float) : Float :=
  let high := highWord x.abs
  if x.isNaN then x + x
  else if x < 0.0 && high ≥ 0x3ff00000 then if x == -1.0 then -infinity else nan
  else if high ≥ 0x7ff00000 then x + x
  else if high < 0x3c900000 then x
  else if high < 0x3e200000 then x - x * x * 0.5
  else if (if x > 0.0 then high < 0x3fda827a else high ≤ 0x3fd2bec3) then logReduced 0 x 0.0 false
  else logSplit x

def artanh (x : Float) : Float := 0.5 * log1p (2.0 * x / (1.0 - x))

/-! ### Order, spacing and snapping -/

/-- Position in the total order of doubles, from the negative NaNs up to the positive ones. -/
def orderKey (v : Float) : Int :=
  let bits := v.toBits.toNat
  if bits < Decimal.signWeight then bits else (Decimal.signWeight : Int) - 1 - bits

/-- No fractional part; false for a NaN, true for an infinity. -/
def isIntegral (v : Float) : Bool := v == (if v < 0.0 then v.ceil else v.floor)

/-- Value of a whole double of magnitude below `2 ^ 64`. -/
def toInt (v : Float) : Int := if v < 0.0 then -((-v).toUInt64.toNat : Int) else v.toUInt64.toNat

/-- The integer within `tol` of `v`, or else `v`; never a negative zero. -/
def snap (v tol : Float) : Float :=
  if !v.isFinite then v
  else
    let r := v.round
    let snapped := if (v - r).abs ≤ tol then r else v
    if snapped == 0.0 then 0.0 else snapped

def spaced (lo hi : Float) : Nat → List Float
  | 0 => []
  | 1 => [lo]
  | n + 2 =>
    let step := (hi - lo) / Float.ofNat (n + 1)
    (List.range (n + 2)).map fun i => lo + step * Float.ofNat i

/-- The smaller operand, or the other one when either is a NaN. -/
def lesser (a b : Float) : Float := if a.isNaN then b else if b < a then b else a

/-- The greater operand, or the other one when either is a NaN. -/
def greater (a b : Float) : Float := if a.isNaN then b else if a < b then b else a

end PlaneCalculus.Double
