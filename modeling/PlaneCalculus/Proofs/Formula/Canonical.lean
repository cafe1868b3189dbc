import PlaneCalculus.Proofs.Expr.Settling
import PlaneCalculus.Proofs.Expr.Shape
import PlaneCalculus.Proofs.Formula.Nodes

/-! When formulas are read in canonical form. A product of which two factors have like bases can be left behind where a
power of merged bases falls apart into its factors; where no part of a formula is read as such a product, every part is
read in canonical form. -/

open PlaneCalculus.Expr

namespace PlaneCalculus.Formula

open Calc

lemma holds_ofName {P : Expr → Prop} (hsymbol : ∀ x, P (.symbol x)) (hconstant : ∀ c, P (.constant c)) (name : String) :
    Holds P (ofName name) := by
  unfold ofName
  split
  · exact holds_ok (hconstant .pi)
  · split
    · exact holds_ok (hconstant .e)
    · split
      · nofun
      · exact holds_ok (hsymbol name)

lemma holds_ofCall {P : Expr → Prop} {o : Overflow} {a : Expr} (hpow : Meets anyHalt (Expr.pow o a half) P)
    (hof : ∀ f : Func, P (f.of a)) (name : String) : Holds P (ofCall o name a) := by
  unfold ofCall
  split
  · exact holds_lift hpow
  · split
    · exact holds_ok (hof _)
    · nofun

/-! ### Formulas with merged parts -/

lemma Holds.settled {r : Outcome Expr} (h : Holds Built r) (hm : Holds Merged r) : Holds Settled r :=
  fun e he => (h e he).settled (hm e he)

lemma Holds.built {r : Outcome Expr} (h : Holds Settled r) : Holds Built r := h.mono fun _ => Or.inl

lemma sign_combine_settled (sign : Sign) {a b : Expr} (ha : Settled a) (hb : Settled b) :
    Meets anyHalt (sign.combine .refuse a b) Settled := by
  cases sign with
  | plus => exact sum_settled (by simpa using ⟨ha, hb⟩)
  | minus => exact sub_settled ha hb

lemma factoring_combine_built (op : Factoring) {a b : Expr} (ha : Settled a) (hb : Settled b) :
    Meets anyHalt (op.combine .refuse a b) Built := by
  cases op with
  | times =>
    have hargs : ∀ e ∈ [a, b], Built e := by simpa using ⟨Or.inl ha, Or.inl hb⟩
    exact product_built hargs
  | «over» => exact div_built ha hb

lemma ofLiteral_settled {l : Decimal.Literal}
    (h : l.isWhole = true ∧ Number.fits (Decimal.natOfDigits l.whole) = true) : Settled (ofLiteral l) := by
  have hlit : ofLiteral l = .int (Decimal.natOfDigits l.whole) := by simp [ofLiteral, h]
  rw [hlit]
  refine settled_int ?_
  simp only [Number.bound]
  omega

lemma SignedForm.toExpr_bare (p : PowerForm) : (SignedForm.bare p).toExpr .refuse false = p.toExpr .refuse := by
  rw [SignedForm.toExpr]
  cases p.toExpr .refuse <;> rfl

lemma SignedForm.holds_body {P : Expr → Prop} : (u : SignedForm) → u.ProperParts P →
    Holds P (u.toExpr .refuse false) → Holds P (u.body.toExpr .refuse)
  | .bare p, _, h => SignedForm.toExpr_bare p ▸ h
  | .signed _ u, hu, _ => u.holds_body hu.1 hu.2

lemma SignedForm.holds_settled {u : SignedForm} (h : Holds Settled (u.body.toExpr .refuse)) :
    Holds Settled (u.toExpr .refuse false) := by
  rw [SignedForm.toExpr_eq]
  refine h.bind fun e he => ?_
  split
  · exact holds_lift (neg_settled he)
  · exact holds_ok he

/-! What is read from settled parts is built, and settled once it is merged. -/

mutual

lemma SumForm.built : (s : SumForm) → s.IsWhole → s.ProperParts Merged →
    s.ProperParts Settled ∧ Holds Built (s.toExpr .refuse)
  | .single t, hw, h => by
    rw [SumForm.toExpr]
    exact t.built hw h
  | .chain s sign t, ⟨hsw, htw⟩, ⟨⟨hs, hsm⟩, ht, htm⟩ => by
    obtain ⟨hs, hsb⟩ := s.built hsw hs
    obtain ⟨ht, htb⟩ := t.built htw ht
    have hse := hsb.settled hsm
    have hte := htb.settled htm
    refine ⟨⟨⟨hs, hse⟩, ht, hte⟩, ?_⟩
    rw [SumForm.toExpr_chain]
    exact hse.bind fun a ha => hte.bind fun b hb => (holds_lift (sign_combine_settled sign ha hb)).built

lemma ProductForm.built : (p : ProductForm) → p.IsWhole → p.ProperParts Merged →
    p.ProperParts Settled ∧ Holds Built (p.toExpr .refuse)
  | .single u, hw, h => by
    rw [ProductForm.toExpr]
    exact u.built hw h
  | .chain p op u, ⟨hpw, huw⟩, ⟨⟨hp, hpm⟩, hu, hum⟩ => by
    obtain ⟨hp, hpb⟩ := p.built hpw hp
    obtain ⟨hu, hub⟩ := u.built huw hu
    have hpe := hpb.settled hpm
    have hue := hub.settled hum
    refine ⟨⟨⟨hp, hpe⟩, hu, hue⟩, ?_⟩
    rw [ProductForm.toExpr_chain]
    exact hpe.bind fun a ha => hue.bind fun b hb => holds_lift (factoring_combine_built op ha hb)

lemma SignedForm.built : (u : SignedForm) → u.IsWhole → u.ProperParts Merged →
    u.ProperParts Settled ∧ Holds Built (u.toExpr .refuse false)
  | .bare p, hw, h => by
    rw [SignedForm.toExpr_bare]
    exact p.built hw h
  | .signed sign u, hw, ⟨hu, hum⟩ => by
    obtain ⟨hu, hub⟩ := u.built hw hu
    have hue := hub.settled hum
    have hbody : Holds Settled ((SignedForm.signed sign u).body.toExpr .refuse) := u.holds_body hu hue
    exact ⟨⟨hu, hue⟩, (SignedForm.holds_settled hbody).built⟩

lemma PowerForm.built : (p : PowerForm) → p.IsWhole → p.ProperParts Merged →
    p.ProperParts Settled ∧ Holds Built (p.toExpr .refuse)
  | .single a, hw, h => by
    rw [PowerForm.toExpr]
    exact a.built hw h
  | .raised a u, ⟨haw, huw⟩, ⟨⟨ha, ham⟩, hu, hum⟩ => by
    obtain ⟨ha, hab⟩ := a.built haw ha
    obtain ⟨hu, hub⟩ := u.built huw hu
    have hae := hab.settled ham
    have hue := hub.settled hum
    refine ⟨⟨⟨ha, hae⟩, hu, hue⟩, ?_⟩
    rw [PowerForm.toExpr]
    exact hae.bind fun b hb => hue.bind fun e he => holds_lift (pow_built hb he)

lemma AtomForm.built : (a : AtomForm) → a.IsWhole → a.ProperParts Merged →
    a.ProperParts Settled ∧ Holds Built (a.toExpr .refuse)
  | .number l, hw, _ => by
    rw [AtomForm.toExpr]
    exact ⟨trivial, holds_ok (Or.inl (ofLiteral_settled hw))⟩
  | .call name s, hw, ⟨hs, hsm⟩ => by
    obtain ⟨hs, hsb⟩ := s.built hw hs
    have hse := hsb.settled hsm
    refine ⟨⟨hs, hse⟩, ?_⟩
    rw [AtomForm.toExpr]
    exact hse.bind fun a ha => holds_ofCall (pow_built ha settled_half) (fun f => Or.inl (Func.of_settled f ha)) name
  | .name name, _, _ => by
    rw [AtomForm.toExpr]
    exact ⟨trivial, holds_ofName (fun _ => Or.inl trivial) (fun _ => Or.inl trivial) name⟩
  | .group s, hw, h => by
    rw [AtomForm.toExpr]
    exact s.built hw h

end

lemma SumForm.parts_settled {s : SumForm} (hw : s.IsWhole) (h : s.Parts Merged) : s.Parts Settled := by
  obtain ⟨hs, hb⟩ := s.built hw h.1
  exact ⟨hs, hb.settled h.2⟩

/-- Without float literals and results outside the exact range, what is read always has its shape. It is in canonical
form when every part is read as a merged tree; where the proper parts are, it is so unless two factors of the outermost
product have the same base. -/
theorem read_canonical {text : String} {s : SumForm} {e : Expr} (hs : parse text = .ok s) (hw : s.IsWhole)
    (he : read .approximate text = .ok e) (ho : read .refuse text ≠ .error (.halted .overflow)) :
    Shaped e ∧ (s.Parts Merged → Canonical e) ∧ (s.ProperParts Merged → (Canonical e ↔ DistinctBases e)) ∧
      (s.Parts (fun r => Canonical r ∧ Everywhere Merged r) ↔ s.Parts Merged) := by
  have hread (o : Overflow) : read o text = s.toExpr o := by
    unfold read
    rw [hs]
  rw [hread] at he ho
  have hrefuse : s.toExpr .refuse = .ok e := (s.persists ho).symm.trans he
  refine ⟨read_nodes ⟨shaped_nodeLaw, fun _ _ => trivial⟩ text e (hread _ ▸ he), fun h => ?_, fun h => ?_, fun h => h.mono fun r hr => hr.2.node, fun h => ?_⟩
  · exact ((SumForm.parts_settled hw h).2 e hrefuse).canonical
  · exact ((s.built hw h).2 e hrefuse).canonical_iff
  · exact (SumForm.parts_settled hw h).mono fun r hr => ⟨hr.canonical, hr.merged⟩

lemma holds_of_eq {P : Expr → Prop} {r : Outcome Expr} {e : Expr} (hr : r = .ok e) (h : P e) : Holds P r :=
  hr ▸ holds_ok h

def rootFactor : SignedForm :=
  let x : SignedForm := .bare (.single (.name "x"))
  let y : SignedForm := .bare (.single (.name "y"))
  .bare (.single (.call "sqrt" (.single (.chain (.single x) .times y))))

/-- The product `x*sqrt(x*y)`. -/
def rootProduct : ProductForm := .chain (.single (.bare (.single (.name "x")))) .times rootFactor

lemma rootFactor_parts : rootFactor.ProperParts Merged ∧ Holds Merged (rootFactor.toExpr .refuse false) := by
  have hxy : Merged (.times [.symbol "x", .symbol "y"]) := by
    have htx : text .refuse (.symbol "x") = .ok "x" := by cbv
    have hty : text .refuse (.symbol "y") = .ok "y" := by cbv
    exact ⟨by simp [nonNumbers, isNumber, orderKey, baseExponent, htx, hty], by decide⟩
  refine ⟨⟨⟨⟨trivial, ?_⟩, trivial, ?_⟩, ?_⟩, ?_⟩
  · exact holds_of_eq (e := .symbol "x") (by cbv) trivial
  · exact holds_of_eq (e := .symbol "y") (by cbv) trivial
  · exact holds_of_eq (by cbv) hxy
  · exact holds_of_eq (e := .power (.times [.symbol "x", .symbol "y"]) half) (by cbv) trivial

lemma rootProduct_parts : rootProduct.ProperParts Merged ∧ Holds Merged (rootProduct.toExpr .refuse) := by
  have hroot : Merged (.times [.symbol "x", .power (.times [.symbol "x", .symbol "y"]) half]) :=
    ⟨by simp [nonNumbers, isNumber, orderKey, baseExponent, rank], by decide⟩
  refine ⟨⟨⟨trivial, ?_⟩, rootFactor_parts⟩, ?_⟩
  · exact holds_of_eq (e := .symbol "x") (by cbv) trivial
  · exact holds_of_eq (by cbv) hroot

/-- One factor `sqrt(x*y)` is left in canonical form, two are not: their product falls apart next to another `x`. -/
theorem read_canonical_roots :
    (∃ e, read .approximate "x*sqrt(x*y)" = .ok e ∧ Canonical e) ∧
    ∃ e, read .approximate "x*sqrt(x*y)*sqrt(x*y)" = .ok e ∧ Shaped e ∧ ¬ Canonical e := by
  constructor
  · have hs : parse "x*sqrt(x*y)" = .ok (.single rootProduct) := by cbv
    have hw : (SumForm.single rootProduct).IsWhole := ⟨trivial, trivial, trivial⟩
    have he : read .approximate "x*sqrt(x*y)" =
      .ok (.times [.symbol "x", .power (.times [.symbol "x", .symbol "y"]) half]) := by cbv
    have ho : read .refuse "x*sqrt(x*y)" =
      .ok (.times [.symbol "x", .power (.times [.symbol "x", .symbol "y"]) half]) := by cbv
    obtain ⟨-, hcanonical, -, -⟩ := read_canonical hs hw he (by simp [ho])
    exact ⟨_, he, hcanonical rootProduct_parts⟩
  · have hs : parse "x*sqrt(x*y)*sqrt(x*y)" = .ok (.single (.chain rootProduct .times rootFactor)) := by cbv
    have hw : (SumForm.single (.chain rootProduct .times rootFactor)).IsWhole :=
      ⟨⟨trivial, trivial, trivial⟩, trivial, trivial⟩
    have he : read .approximate "x*sqrt(x*y)*sqrt(x*y)" = .ok (.times [.symbol "x", .symbol "x", .symbol "y"]) := by
      cbv
    have ho : read .refuse "x*sqrt(x*y)*sqrt(x*y)" = .ok (.times [.symbol "x", .symbol "x", .symbol "y"]) := by cbv
    obtain ⟨hshape, -, hiff, -⟩ := read_canonical hs hw he (by simp [ho])
    refine ⟨_, he, hshape, fun hc => ?_⟩
    have hd := (hiff ⟨rootProduct_parts, rootFactor_parts⟩).mp hc
    simp [DistinctBases, factors, nonNumbers, isNumber, baseExponent] at hd

end PlaneCalculus.Formula
