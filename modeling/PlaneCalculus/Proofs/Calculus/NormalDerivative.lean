import PlaneCalculus.Proofs.Expr.RingTree

/-! Derivatives of polynomials in normal form are in normal form. -/

namespace PlaneCalculus.Expr

open Calc
open MvPolynomial (X C pderiv)

-- Where the exact range ends does not matter here.
attribute [local irreducible] Number.fits

variable {v : String}

lemma product_of_terms {es : List Expr} (h : ∀ e ∈ es, IsTerm e) : Meets anyHalt (Expr.product .refuse es) IsTerm := by
  refine (keepsTerms_at _).product_terms _ fun f hf => ?_
  obtain ⟨e, he, hf⟩ := List.mem_flatMap.mp hf
  exact (h e he).factors f hf

lemma sum_of_normal {es : List Expr} (h : ∀ e ∈ es, IsNormal e) : Meets anyHalt (Expr.sum .refuse es) IsNormal := by
  refine sum_normal fun t ht => ?_
  obtain ⟨e, he, ht⟩ := List.mem_flatMap.mp ht
  exact (h e he).terms t ht

/-- Wherever the product rule leaves a product, it is one of terms. -/
def LeavesTerms : (before fs ds : List Expr) → Prop
  | before, f :: fs, d :: ds =>
    (d.isZero = true ∨ ∀ e ∈ before ++ fs ++ [d], IsTerm e) ∧ LeavesTerms (before ++ [f]) fs ds
  | _, _, _ => True

lemma leavesTerms_of_terms {before fs ds : List Expr} (hb : ∀ e ∈ before, IsTerm e) (hf : ∀ e ∈ fs, IsTerm e)
    (hd : ∀ e ∈ ds, IsTerm e) : LeavesTerms before fs ds := by
  induction fs generalizing before ds with
  | nil => trivial
  | cons f fs ih =>
    cases ds with
    | nil => trivial
    | cons d ds =>
      rw [List.forall_mem_cons] at hf hd
      refine ⟨Or.inr ?_, ih (List.forall_mem_append.mpr ⟨hb, by simpa using hf.1⟩) hf.2 hd.2⟩
      exact List.forall_mem_append.mpr ⟨List.forall_mem_append.mpr ⟨hb, hf.2⟩, by simpa using hd.1⟩

lemma productRule_terms {before fs ds : List Expr} (h : LeavesTerms before fs ds) :
    Meets anyHalt (productRule .refuse before fs ds) fun rs => ∀ r ∈ rs, IsTerm r := by
  induction fs generalizing before ds with
  | nil => nofun
  | cons f fs ih =>
    cases ds with
    | nil => nofun
    | cons d ds =>
      obtain ⟨hd, hrest⟩ := h
      refine (ih hrest).bind fun rest hrest => ?_
      split
      · exact hrest
      · next hz => exact (product_of_terms (hd.resolve_left hz)).bind fun p hp => List.forall_mem_cons.mpr ⟨hp, hrest⟩

lemma derivative_raised {p : String × ℕ} (hp : 0 < p.2) :
    Meets anyHalt (derivative .refuse v (raised p)) IsTerm := by
  have hsymbol : Meets anyHalt (derivative .refuse v (.symbol p.1)) IsTerm := by
    show IsTerm (if p.1 == v then int 1 else int 0)
    split <;> exact isTerm_int _
  unfold raised
  split
  · exact hsymbol
  · next h1 =>
    have hconst : (int p.2).isConstantIn v = true := rfl
    have hpos : (0 : Int) < p.2 + -1 := by omega
    simp only [derivative, hconst, Bool.and_true, if_true]
    split
    · exact isTerm_int 0
    · refine (sum_ints p.2 (-1)).bind fun x hx => ?_
      rw [hx]
      refine ((keepsTerms_at _).pow_term (.symbol p.1) _ (isTerm_raised (p := (p.1, 1)) Nat.one_pos) hpos).bind fun l hl => ?_
      have hproduct (d : Expr) (hd : IsTerm d) : Meets anyHalt (Expr.product .refuse [int p.2, l, d]) IsTerm :=
        product_of_terms (by simpa using ⟨isTerm_int _, hl, hd⟩)
      exact hsymbol.bind hproduct

lemma derivative_plainFactor {f : Expr} (h : IsPlainFactor f) : Meets anyHalt (derivative .refuse v f) IsTerm := by
  rcases h with ⟨q, rfl⟩ | ⟨p, hp, rfl⟩
  · exact isTerm_int 0
  · exact derivative_raised hp

lemma derivatives_plainFactors {fs : List Expr} (h : ∀ f ∈ fs, IsPlainFactor f) :
    Meets anyHalt (derivatives .refuse v fs) fun ds => ∀ d ∈ ds, IsTerm d := by
  induction fs with
  | nil => nofun
  | cons f fs ih =>
    rw [List.forall_mem_cons] at h
    exact (derivative_plainFactor h.1).bind fun d hd => (ih h.2).bind fun ds hds => List.forall_mem_cons.mpr ⟨hd, hds⟩

lemma derivative_times {fs : List Expr}
    (h : Meets anyHalt (derivatives .refuse v fs) (LeavesTerms [] fs)) :
    Meets anyHalt (derivative .refuse v (.times fs)) IsNormal := by
  simp only [derivative]
  split
  · exact isNormal_term (isTerm_int 0)
  · exact h.bind fun ds hds => (productRule_terms hds).bind fun rs hrs => sum_of_terms hrs

lemma derivative_term {e : Expr} (h : IsTerm e) : Meets anyHalt (derivative .refuse v e) IsNormal := by
  have hfactors := h.factors
  cases e with
  | times fs =>
    refine derivative_times ((derivatives_plainFactors hfactors).mono fun ds hds => ?_)
    exact leavesTerms_of_terms nofun (fun f hf => (hfactors f hf).isTerm) hds
  | num | symbol | constant | plus | power | call =>
    exact (derivative_plainFactor (hfactors _ (List.mem_singleton_self _))).mono fun d hd => isNormal_term hd

lemma derivatives_normal {es : List Expr} (h : ∀ e ∈ es, Meets anyHalt (derivative .refuse v e) IsNormal) :
    Meets anyHalt (derivatives .refuse v es) fun ds => ∀ d ∈ ds, IsNormal d := by
  induction es with
  | nil => nofun
  | cons e es ih =>
    rw [List.forall_mem_cons] at h
    exact h.1.bind fun d hd => (ih h.2).bind fun ds hds => List.forall_mem_cons.mpr ⟨hd, hds⟩

/-- A sum is differentiated to a normal form when its terms are. -/
lemma derivative_terms {e : Expr} (h : ∀ t ∈ e.terms, Meets anyHalt (derivative .refuse v t) IsNormal) :
    Meets anyHalt (derivative .refuse v e) IsNormal := by
  cases e with
  | plus ts =>
    simp only [derivative]
    split
    · exact isNormal_term (isTerm_int 0)
    · exact (derivatives_normal h).bind fun ds hds => sum_of_normal hds
  | num | symbol | constant | times | power | call => exact h _ (List.mem_singleton_self _)

lemma derivative_normal {e : Expr} (h : IsNormal e) :
    Meets anyHalt (derivative .refuse v e) fun d => IsNormal d ∧ polynomial d = pderiv v (polynomial e) := by
  have hnormal : Meets anyHalt (derivative .refuse v e) IsNormal := derivative_terms fun t ht => derivative_term (h.terms t ht)
  exact (hnormal.and (derivative_polynomial h.isRing)).mono fun d hd => ⟨hd.1, hd.2.2⟩

end PlaneCalculus.Expr
