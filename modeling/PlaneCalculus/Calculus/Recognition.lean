import PlaneCalculus.Expr.Canonical

/-!
Recognising a double as a fraction with a small denominator, or as plus or minus the root of one.
-/

namespace PlaneCalculus.Recognition

/-- The first fraction within `1e-9` of `v`, trying denominators from `q` on. -/
def fractionFrom (v : Float) : Nat → Nat → Option (Int × Int)
  | 0, _ => none
  | n + 1, q =>
    let d := Float.ofNat q
    let p := (v * d).round
    if p.abs > 1e12 then none
    else if (v - p / d).abs < 1e-9 then some (Double.toInt p, q)
    else fractionFrom v n (q + 1)

/-- Denominators up to twelve are tried. -/
def fraction? (v : Float) : Option (Int × Int) := fractionFrom v 12 1

def identify (o : Overflow) (v : Float) : Calc Expr := do
  if !v.isFinite then return .real v
  match fraction? v with
  | some (p, q) => return .num (.ofParts p q)
  | none =>
    match fraction? (v * v) with
    | some (p, q) =>
      if p > 0 then
        let root ← Expr.sqrt o (.num (.ofParts p q))
        if v < 0.0 then Expr.neg o root else return root
      else return .real v
    | none => return .real v

end PlaneCalculus.Recognition
