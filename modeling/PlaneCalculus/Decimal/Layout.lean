import PlaneCalculus.Decimal.Shortest

/-!
Written forms of doubles. A `Layout` says for which magnitudes the digits stand in place and what is written for values
that have no digits; `Layout.render` writes a double by it. `ofDecimal` reads a decimal literal with correct rounding.
-/

namespace PlaneCalculus.Decimal

/-- A number `0.d₁d₂… * 10 ^ p` is written in place when `lowest ≤ p ≤ highest`, otherwise with an exponent. -/
structure Layout where
  lowest : Int
  highest : Int
  nan : String
  infinity : String
  deriving Repr

/-- Trees and messages: in place from `1e-4` up to, not including, `1e16`. -/
def Layout.plain : Layout := ⟨-3, 16, "NaN", "inf"⟩

/-- Documents: in place from `1e-5` up to, not including, `1e16`; a value that is not finite is `null`. -/
def Layout.document : Layout := ⟨-4, 16, "null", "null"⟩

def zeros (n : Nat) : String := String.ofList (List.replicate n '0')

/-- Digits in place, with at least one digit on either side of the point. -/
def inPlace (digits : List Char) (p : Int) : String :=
  if p ≤ 0 then "0." ++ zeros (-p).toNat ++ String.ofList digits
  else if digits.length ≤ p.toNat then String.ofList digits ++ zeros (p.toNat - digits.length) ++ ".0"
  else String.ofList (digits.take p.toNat) ++ "." ++ String.ofList (digits.drop p.toNat)

/-- One digit, the point only when more follow, and the bare exponent. -/
def withExponent (digits : List Char) (p : Int) : String :=
  let mantissa := match digits with
    | [] => "0"
    | [d] => String.ofList [d]
    | d :: rest => String.ofList [d, '.'] ++ String.ofList rest
  mantissa ++ "e" ++ toString (p - 1)

def Layout.magnitude (l : Layout) (v : Float) : String :=
  let d := shortest v
  let digits := Nat.toDigits 10 d.digits
  let p := (digits.length : Int) + d.exponent
  if d.digits = 0 then "0.0"
  else if l.lowest ≤ p ∧ p ≤ l.highest then inPlace digits p
  else withExponent digits p

/-- Weight of the highest bit of a double, `2 ^ 63`. -/
def signWeight : Nat := 9223372036854775808

/-- The sign bit of a double; zero has one too. -/
def signBit (v : Float) : Bool := v.toBits.toNat ≥ signWeight

def Layout.render (l : Layout) (v : Float) : String :=
  if v.isNaN then l.nan
  else
    let body := if v.isInf then l.infinity else l.magnitude v.abs
    if signBit v then "-" ++ body else body

def isDigit (c : Char) : Bool := '0' ≤ c && c ≤ '9'

def natOfDigits (digits : List Char) : Nat := digits.foldl (fun n c => 10 * n + (c.toNat - '0'.toNat)) 0

/-- The double nearest to `digits * 10 ^ exponent`. Beyond the range of doubles the answer is known without computing
the power: at least `10 ^ 309` is infinite and less than `10 ^ (-330)` is zero. -/
def ofDecimal (digits : Nat) (exponent : Int) : Float :=
  let size := ((Nat.toDigits 10 digits).length : Int) + exponent
  if digits = 0 then 0.0
  else if size ≥ 310 then 1.0 / 0.0
  else if size < -330 then 0.0
  else Float.ofScientific digits (exponent < 0) exponent.natAbs

structure Literal where
  whole : List Char
  fraction : Option (List Char)
  exponent : Option Int
  deriving DecidableEq, Repr

def Literal.isWhole (l : Literal) : Bool := l.fraction.isNone && l.exponent.isNone

def Literal.toFloat (l : Literal) : Float :=
  let fraction := l.fraction.getD []
  ofDecimal (natOfDigits (l.whole ++ fraction)) (l.exponent.getD 0 - fraction.length)

def signedExponent (negative : Bool) (digits : List Char) : Int :=
  if negative then -(natOfDigits digits : Int) else natOfDigits digits

end PlaneCalculus.Decimal
