import PlaneCalculus.Json.Basic

/-!
Reading documents. A text is accepted when it is exactly one document with blanks around it; arrays and objects nest at
most `maxDepth` deep. A repeated key keeps its last value.

Numbers are read in two steps. The leading digits that fit into 64 bits form the significand; further digits only move
the decimal point. The significand, as a double, is then multiplied or divided by a power of ten. A number beyond the
range of doubles is refused.
-/

namespace PlaneCalculus.Json

def maxDepth : Nat := 127

def isBlank (c : Char) : Bool := c = ' ' || c = '\t' || c = '\r' || c = '\n'

def skip (cs : List Char) : List Char := cs.dropWhile isBlank

/-! ### Strings -/

def hexDigit? (c : Char) : Option Nat :=
  if '0' ≤ c ∧ c ≤ '9' then some (c.toNat - 48)
  else if 'a' ≤ c ∧ c ≤ 'f' then some (c.toNat - 87)
  else if 'A' ≤ c ∧ c ≤ 'F' then some (c.toNat - 55)
  else none

def hexUnit? (a b c d : Char) : Option Nat := do
  return (((← hexDigit? a) * 16 + (← hexDigit? b)) * 16 + (← hexDigit? c)) * 16 + (← hexDigit? d)

def escaped? : Char → Option Char
  | '"' => some '"'
  | '\\' => some '\\'
  | '/' => some '/'
  | 'b' => some '\x08'
  | 'f' => some '\x0c'
  | 'n' => some '\n'
  | 'r' => some '\r'
  | 't' => some '\t'
  | _ => none

/-- The character of a unit, or of a pair of surrogates that takes six more characters. -/
def unitChar? (unit : Nat) (rest : List Char) : Option (Char × List Char) :=
  if 0xd800 ≤ unit ∧ unit < 0xdc00 then
    match rest with
    | '\\' :: 'u' :: a :: b :: c :: d :: rest => do
      let low ← hexUnit? a b c d
      if 0xdc00 ≤ low ∧ low < 0xe000 then
        return (Char.ofNat (0x10000 + (unit - 0xd800) * 0x400 + (low - 0xdc00)), rest)
      else none
    | _ => none
  else if 0xdc00 ≤ unit ∧ unit < 0xe000 then none
  else some (Char.ofNat unit, rest)

/-- The characters up to the closing quote, in reverse, and what follows it. -/
def stringBody : Nat → List Char → List Char → Option (List Char × List Char)
  | 0, _, _ => none
  | fuel + 1, acc, cs =>
    match cs with
    | '"' :: rest => some (acc, rest)
    | '\\' :: 'u' :: a :: b :: c :: d :: rest => do
      let (x, rest) ← unitChar? (← hexUnit? a b c d) rest
      stringBody fuel (x :: acc) rest
    | '\\' :: e :: rest => do stringBody fuel ((← escaped? e) :: acc) rest
    | x :: rest => if x.toNat < 0x20 then none else stringBody fuel (x :: acc) rest
    | [] => none

def string? (cs : List Char) : Option (String × List Char) :=
  (stringBody (cs.length + 1) [] cs).map fun (acc, rest) => (String.ofList acc.reverse, rest)

/-! ### Numbers -/

def maxSignificand : Nat := 18446744073709551615

/-- Significand and number of digits used of it: digits are taken while the significand fits. -/
def takeSignificand (acc used : Nat) : List Char → Nat × Nat
  | [] => (acc, used)
  | c :: cs =>
    let next := acc * 10 + (c.toNat - 48)
    if next ≤ maxSignificand then takeSignificand next (used + 1) cs else (acc, used)

/-- `significand * 10 ^ exponent`, with steps of `10 ^ 308` towards zero for very negative exponents. -/
def scaleDown : Nat → Float → Int → Float
  | 0, _, _ => 0.0
  | fuel + 1, f, e =>
    if e ≥ -308 then f / Decimal.ofDecimal 1 (-e)
    else if f == 0.0 then 0.0
    else scaleDown fuel (f / 1e308) (e + 308)

/-- No value when the number is beyond the range of doubles. -/
def scaled? (significand : Nat) (exponent : Int) : Option Float :=
  let f := Float.ofNat significand
  if exponent < 0 then some (scaleDown 8 f exponent)
  else if exponent > 308 then if significand = 0 then some 0.0 else none
  else
    let v := f * Decimal.ofDecimal 1 exponent
    if v.isInf then none else some v

/-- The parts of a number after its sign: digits before and after the point, and the exponent. -/
def numberParts? (cs : List Char) : Option (Decimal.Literal × List Char) := do
  let whole := cs.takeWhile Decimal.isDigit
  let rest := cs.dropWhile Decimal.isDigit
  if whole.isEmpty || (whole.length > 1 && whole.head? == some '0') then none
  let (fraction, rest) ← match rest with
    | '.' :: rest =>
      let digits := rest.takeWhile Decimal.isDigit
      if digits.isEmpty then none else some (some digits, rest.dropWhile Decimal.isDigit)
    | rest => some (none, rest)
  let exponentOf (negative : Bool) (rest : List Char) : Option (Option Int × List Char) :=
    let digits := rest.takeWhile Decimal.isDigit
    if digits.isEmpty then none
    else some (some (Decimal.signedExponent negative digits), rest.dropWhile Decimal.isDigit)
  let (exponent, rest) ← match rest with
    | e :: '+' :: tail => if e = 'e' ∨ e = 'E' then exponentOf false tail else some (none, rest)
    | e :: '-' :: tail => if e = 'e' ∨ e = 'E' then exponentOf true tail else some (none, rest)
    | e :: tail => if e = 'e' ∨ e = 'E' then exponentOf false tail else some (none, rest)
    | [] => some (none, [])
  return (⟨whole, fraction, exponent⟩, rest)

/-- Digits beyond the significand count into the exponent when they stand before the point. -/
def magnitude? (l : Decimal.Literal) : Option Float :=
  let (head, used) := takeSignificand 0 0 l.whole
  let dropped := l.whole.length - used
  let (significand, after) := takeSignificand head 0 (l.fraction.getD [])
  scaled? significand ((dropped : Int) - after + l.exponent.getD 0)

/-- Integers lie in `-integerLimit ≤ n < integerLimit`, all others are read as doubles. -/
def integerLimit : Nat := 9223372036854775808

def number? (negative : Bool) (cs : List Char) : Option (Json × List Char) := do
  let (l, rest) ← numberParts? cs
  let n := Decimal.natOfDigits l.whole
  if l.isWhole && !negative && n < integerLimit then return (.integer n, rest)
  else if l.isWhole && negative && 0 < n && n ≤ integerLimit then return (.integer (-(n : Int)), rest)
  else
    let v ← magnitude? l
    return (.real (if negative then -v else v), rest)

/-! ### Documents -/

def keyword? (word : String) (value : Json) (cs : List Char) : Option (Json × List Char) :=
  if word.toList.isPrefixOf cs then some (value, cs.drop word.length) else none

mutual

/-- Reads a document; `depth` is the nesting still allowed. -/
def value : Nat → Nat → List Char → Option (Json × List Char)
  | 0, _, _ => none
  | n + 1, depth, cs =>
    match cs with
    | 'n' :: _ => keyword? "null" .null cs
    | 't' :: _ => keyword? "true" (.bool true) cs
    | 'f' :: _ => keyword? "false" (.bool false) cs
    | '"' :: rest => (string? rest).map fun (s, rest) => (.string s, rest)
    | '-' :: rest => number? true rest
    | '[' :: rest =>
      if depth = 0 then none
      else match skip rest with
        | ']' :: rest => some (.array [], rest)
        | rest => elements n (depth - 1) [] rest
    | '\x7b' :: rest =>
      if depth = 0 then none
      else match skip rest with
        | '\x7d' :: rest => some (.object [], rest)
        | rest => members n (depth - 1) [] rest
    | cs => number? false cs

def elements : Nat → Nat → List Json → List Char → Option (Json × List Char)
  | 0, _, _, _ => none
  | n + 1, depth, acc, cs => do
    let (item, rest) ← value n depth cs
    match skip rest with
    | ',' :: rest => elements n depth (item :: acc) (skip rest)
    | ']' :: rest => some (.array (item :: acc).reverse, rest)
    | _ => none

def members : Nat → Nat → List (String × Json) → List Char → Option (Json × List Char)
  | 0, _, _, _ => none
  | n + 1, depth, acc, cs => do
    match cs with
    | '"' :: rest =>
      let (key, rest) ← string? rest
      match skip rest with
      | ':' :: rest =>
        let (item, rest) ← value n depth (skip rest)
        match skip rest with
        | ',' :: rest => members n depth (put key item acc) (skip rest)
        | '\x7d' :: rest => some (.object (put key item acc), rest)
        | _ => none
      | _ => none
    | _ => none

end

def parse? (text : String) : Option Json := do
  let cs := text.toList
  let (v, rest) ← value (2 * cs.length + 2) maxDepth (skip cs)
  if (skip rest).isEmpty then some v else none

end PlaneCalculus.Json
