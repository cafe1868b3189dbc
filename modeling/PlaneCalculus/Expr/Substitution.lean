import PlaneCalculus.Expr.Canonical

/-!
Replacing a symbol by an expression. All nodes above an occurrence are built anew, from the leaves up.
-/

namespace PlaneCalculus.Expr

mutual

def substitute (o : Overflow) (e : Expr) (v : String) (value : Expr) : Calc Expr :=
  match e with
  | .num n => return .num n
  | .symbol name => return if name == v then value else .symbol name
  | .constant c => return .constant c
  | .plus terms => do sum o (← substituteAll o terms v value)
  | .times factors => do product o (← substituteAll o factors v value)
  | .power base exponent => do pow o (← substitute o base v value) (← substitute o exponent v value)
  | .call f arg => do return f.of (← substitute o arg v value)

def substituteAll (o : Overflow) (es : List Expr) (v : String) (value : Expr) : Calc (List Expr) :=
  match es with
  | [] => return []
  | e :: es => do return (← substitute o e v value) :: (← substituteAll o es v value)

end

end PlaneCalculus.Expr
