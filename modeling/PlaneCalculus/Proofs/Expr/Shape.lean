import PlaneCalculus.Proofs.Expr.NodeLaw

/-! What holds of expressions without conditions, whether numbers stay exact or not: sums and products have two operands,
a product is flat with at most one number, in front, and no power has exponent zero or one. -/

namespace PlaneCalculus.Expr

def ShapedNode : Expr → Prop
  | .plus ts => 2 ≤ ts.length
  | .times fs => ProductShape fs
  | .power _ e => e.isZero = false ∧ e.isInt 1 = false
  | _ => True

def Shaped (e : Expr) : Prop := Everywhere ShapedNode e

lemma shaped_nodeLaw : NodeLaw ShapedNode where
  real _ := trivial
  parts _ _ _ _ := trivial
  abs _ _ := trivial
  constant _ := trivial
  call _ _ _ := trivial
  plus _ h := h
  times _ h _ := h
  shape _ h := h
  power _ _ hz hone _ _ := ⟨hz, hone⟩

end PlaneCalculus.Expr
