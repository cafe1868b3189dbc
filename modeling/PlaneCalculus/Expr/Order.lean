import PlaneCalculus.Expr.Basic

/-!
The order of terms in a sum and of factors in a product. Each operand has a key, computed once; operands are sorted
stably by their keys. Monomials come first in a sum, higher powers of alphabetically earlier symbols in front; all other
terms follow by their text.
-/

namespace PlaneCalculus

namespace Expr

mutual

/-- Symbols of a monomial with their positive degrees, numeric factors left out; `none` for anything else. -/
def degrees? : Expr → Option (List (String × Int))
  | .symbol name => some [(name, 1)]
  | .power (.symbol name) (.num n) =>
    match n.toInt? with
    | some k => if k > 0 then some [(name, k)] else none
    | none => none
  | .times factors => degreesAll? factors
  | _ => none

def degreesAll? : List Expr → Option (List (String × Int))
  | [] => some []
  | .num _ :: fs => degreesAll? fs
  | f :: fs => do return (← degrees? f) ++ (← degreesAll? fs)

end

/-- Group of a factor: numbers, constants, symbols, calls, sums, products. A power stands with its base, a power of a
number with the constants. -/
def rank : Expr → Nat
  | .num _ => 0
  | .constant _ => 1
  | .symbol _ => 2
  | .call _ _ => 3
  | .power base _ => max 1 (rank base)
  | .plus _ => 4
  | .times _ => 5

end Expr

def degreeOf (name : String) : List (String × Int) → Int
  | [] => 0
  | (n, d) :: rest => (if n == name then d else 0) + degreeOf name rest

/-- Lexicographic comparison over the given symbols, the higher degree first. -/
def compareDegreesOver (a b : List (String × Int)) : List String → Ordering
  | [] => .eq
  | name :: names => (compare (degreeOf name b) (degreeOf name a)).then (compareDegreesOver a b names)

def compareDegrees (a b : List (String × Int)) : Ordering :=
  compareDegreesOver a b ((a.map (·.1) ++ b.map (·.1)).mergeSort (· ≤ ·)).eraseDups

/-- Order key of a term: its monomial, if it is one, and the text of the part without coefficient. -/
structure TermKey where
  degrees : Option (List (String × Int))
  text : String
  deriving Repr

def TermKey.compare (a b : TermKey) : Ordering :=
  match a.degrees, b.degrees with
  | some da, some db => (compareDegrees da db).then (Ord.compare a.text b.text)
  | some _, none => .lt
  | none, some _ => .gt
  | none, none => Ord.compare a.text b.text

structure FactorKey where
  rank : Nat
  text : String
  deriving Repr

def FactorKey.compare (a b : FactorKey) : Ordering :=
  (Ord.compare a.rank b.rank).then (Ord.compare a.text b.text)

def sortByKey {κ α : Type} (cmp : κ → κ → Ordering) (entries : List (κ × α)) : List α :=
  (entries.mergeSort fun a b => (cmp a.1 b.1).isLE).map (·.2)

namespace Expr

def termKey (text : Expr → Calc String) (e : Expr) : Calc TermKey := do
  let rest := e.coeffRest.2
  return ⟨rest.degrees?, ← text rest⟩

def factorKey (text : Expr → Calc String) (e : Expr) : Calc FactorKey := do
  return ⟨e.rank, ← text e.baseExponent.1⟩

def sortTerms (text : Expr → Calc String) (es : List Expr) : Calc (List Expr) :=
  match es with
  | [] => return []
  | [e] => return [e]
  | es => do return sortByKey TermKey.compare (← es.mapM fun e => do return (← termKey text e, e))

/-- A factor that is alone in its group needs no text. -/
def sortFactors (text : Expr → Calc String) (es : List Expr) : Calc (List Expr) := do
  let ranks := es.map rank
  let keyed ← es.mapM fun e => do
    if ranks.count e.rank ≤ 1 then return (⟨e.rank, ""⟩, e)
    else return (← factorKey text e, e)
  return sortByKey FactorKey.compare keyed

end Expr

end PlaneCalculus
