import PlaneCalculus.Expr.Fraction

/-!
The structure of an expression in prefix form: `(+ a b)`, `(* a b)`, `(^ base exponent)`, `(sin a)`. Doubles are marked
with `#` and constants with `@`, so that different trees have different outlines.
-/

namespace PlaneCalculus

def Number.outline : Number → String
  | .exact q => (Number.exact q).text
  | .approx v => if v.isNaN then "#nan" else "#" ++ Decimal.Layout.plain.render v

namespace Expr

mutual

def outline : Expr → String
  | .num n => n.outline
  | .symbol name => name
  | .constant .pi => "@pi"
  | .constant .e => "@E"
  | .plus terms => "(+" ++ outlineAll terms ++ ")"
  | .times factors => "(*" ++ outlineAll factors ++ ")"
  | .power base exponent => "(^ " ++ outline base ++ " " ++ outline exponent ++ ")"
  | .call f arg => "(" ++ f.name ++ " " ++ outline arg ++ ")"

def outlineAll : List Expr → String
  | [] => ""
  | e :: es => " " ++ outline e ++ outlineAll es

end

end Expr

end PlaneCalculus
