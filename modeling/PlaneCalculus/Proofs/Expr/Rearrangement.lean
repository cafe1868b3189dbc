import PlaneCalculus.Proofs.Expr.PowerForm

/-! Order and grouping of operands. Both are without effect on a sum of settled trees, and on a product of powers as
long as no number is multiplied into a lone sum on the way. Such a number is distributed at once, and the product then
has other factors than one that meets the number only later. -/

namespace PlaneCalculus.Expr

open Calc Finsupp

attribute [local irreducible] Number.fits

/-- Both calculations end with the same tree, unless one of them leaves the exact range. -/
def Agree (c d : Overflow → Calc Expr) : Prop :=
  c .refuse ≠ .error .overflow → d .refuse ≠ .error .overflow →
    ∃ r, c .approximate = .ok r ∧ d .approximate = .ok r

/-- The first two of three operands are put together first. -/
def groupLeft (op : Overflow → List Expr → Calc Expr) (a b c : Expr) (o : Overflow) : Calc Expr := do
  op o [← op o [a, b], c]

def groupRight (op : Overflow → List Expr → Calc Expr) (a b c : Expr) (o : Overflow) : Calc Expr := do
  op o [a, ← op o [b, c]]

lemma agree_of_unique {c d : Overflow → Calc Expr} {P : Expr → Prop} (hc : Consistent c) (hd : Consistent d)
    (hcp : Meets anyHalt (c .refuse) P) (hdp : Meets anyHalt (d .refuse) P) (h : ∀ r s, P r → P s → r = s) :
    Agree c d := by
  intro hco hdo
  obtain ⟨r, hr, hrp⟩ := hc.exists_value hcp hco
  obtain ⟨s, hs, hsp⟩ := hd.exists_value hdp hdo
  exact ⟨r, hr, h r s hrp hsp ▸ hs⟩

/-! ### Sums -/

lemma sum_pair_form {a b : Expr} (ha : Settled a) (hb : Settled b) :
    Meets anyHalt (Expr.sum .refuse [a, b]) (SumOf (linearForm a.terms + linearForm b.terms)) := by
  have hargs : ∀ e ∈ [a, b], Settled e := by simpa using ⟨ha, hb⟩
  exact (sum_form hargs).mono fun r hr => by simpa using hr

lemma sum_pair_part {a b : Expr} (ha : Settled a) (hb : Settled b) : Meets anyHalt (Expr.sum .refuse [a, b])
    fun r => Settled r ∧ linearForm r.terms = linearForm a.terms + linearForm b.terms := by
  have hargs : ∀ e ∈ [a, b], Settled e := by simpa using ⟨ha, hb⟩
  exact ((sum_settled hargs).and (sum_pair_form ha hb)).mono fun r hr => ⟨hr.1, hr.2.form⟩

/-- What stands next to the coefficients of the terms. -/
def rests (es : List Expr) : List Expr := (es.flatMap terms).map (·.coeffRest.2)

lemma sum_comm {a b : Expr} (ha : Settled a) (hb : Settled b) (h : WrittenApart (rests [a, b])) :
    Agree (Expr.sum · [a, b]) (Expr.sum · [b, a]) := by
  refine agree_of_unique (sum_consistent _) (sum_consistent _) (sum_pair_form ha hb)
    ((sum_pair_form hb ha).mono fun r hr => add_comm (linearForm b.terms) _ ▸ hr) fun r s hr hs => ?_
  exact hr.unique hs (fun e he => mem_rests_of_linearForm (by simpa [linearForm_append] using he)) h

lemma sum_assoc {a b c : Expr} (ha : Settled a) (hb : Settled b) (hc : Settled c)
    (h : WrittenApart (rests [a, b, c])) : Agree (groupLeft Expr.sum a b c) (groupRight Expr.sum a b c) := by
  refine agree_of_unique (P := SumOf (linearForm a.terms + linearForm b.terms + linearForm c.terms))
    ((sum_consistent _).bind fun _ => sum_consistent _) ((sum_consistent _).bind fun _ => sum_consistent _)
    ?left ?right fun r s hr hs => ?unique
  case left =>
    refine (sum_pair_part ha hb).bind fun r ⟨hr, hform⟩ => ?_
    exact hform ▸ sum_pair_form hr hc
  case right =>
    refine (sum_pair_part hb hc).bind fun r ⟨hr, hform⟩ => ?_
    rw [add_assoc, ← hform]
    exact sum_pair_form ha hr
  case unique =>
    exact hr.unique hs (fun e he => mem_rests_of_linearForm (by simpa [linearForm_append, add_assoc] using he)) h

/-! ### Products of powers -/

lemma mem_bases_of_powerForm {fs : List Expr} {b : Expr} (h : powerForm fs b ≠ 0) :
    b ∈ (nonNumbers fs).map (·.baseExponent.1) := by
  induction fs with
  | nil => exact absurd rfl h
  | cons f fs ih =>
    cases hf : f.isNumber with
    | true =>
      obtain ⟨n, rfl⟩ := exists_num_of_isNumber hf
      exact ih (powerForm_num n fs ▸ h)
    | false =>
      have hfilter : nonNumbers (f :: fs) = f :: nonNumbers fs := List.filter_cons_of_pos (by simp [hf])
      rw [hfilter, List.map_cons, List.mem_cons]
      by_cases hb : b = f.baseExponent.1
      · exact Or.inl hb
      · right
        refine ih fun h0 => h ?_
        rw [powerForm_cons hf, Finsupp.add_apply, single_eq_of_ne hb, h0, add_zero]

/-- The bases of the factors besides the numbers. -/
def bases (es : List Expr) : List Expr := (nonNumbers (es.flatMap factors)).map (·.baseExponent.1)

/-- A settled product of powers with exact exponents. -/
def SettledPowers (e : Expr) : Prop := Settled e ∧ e.IsPowerProduct

lemma SettledPowers.factors {e : Expr} (h : SettledPowers e) : ∀ f ∈ e.factors, SettledPower f :=
  fun f hf => ⟨(Built.factors (Or.inl h.1) f hf).1, h.2 f hf⟩

/-- The operands come to a number times a lone sum. -/
def ScaleLoneSum (es : List Expr) : Prop :=
  ScalesSum (coefficient (es.flatMap factors)) (powerForm (es.flatMap factors))

variable {a b c : Expr}

lemma product_pair_form (ha : ∀ f ∈ a.factors, SettledPower f) (hb : ∀ f ∈ b.factors, SettledPower f) :
    Meets anyHalt (Expr.product .refuse [a, b])
      (ProductOf (coefficient a.factors * coefficient b.factors) (powerForm a.factors + powerForm b.factors)) := by
  have hargs : ∀ f ∈ [a, b].flatMap factors, SettledPower f := by
    simp only [List.flatMap_cons, List.flatMap_nil, List.append_nil]
    exact List.forall_mem_append.mpr ⟨ha, hb⟩
  exact (product_form hargs).mono fun r hr => by simpa [coefficient_append, powerForm_append] using hr

/-- Where the coefficient is zero nothing is known of the exponents, and they do not matter. -/
lemma product_pair_part (ha : ∀ f ∈ a.factors, SettledPower f) (hb : ∀ f ∈ b.factors, SettledPower f)
    (hscale : ¬ ScaleLoneSum [a, b]) : Meets anyHalt (Expr.product .refuse [a, b]) fun r =>
      (∀ f ∈ r.factors, SettledPower f) ∧
        coefficient r.factors = coefficient a.factors * coefficient b.factors ∧
        (coefficient a.factors * coefficient b.factors ≠ 0 →
          powerForm r.factors = powerForm a.factors + powerForm b.factors) :=
  (product_pair_form ha hb).mono fun r hr => hr.factors (by
    simpa [ScaleLoneSum, coefficient_append, powerForm_append] using hscale)

lemma ProductOf.of_zero {k : ℚ} {form form' : Expr →₀ ℚ} {r : Expr} (h : ProductOf k form r)
    (hform : k ≠ 0 → form = form') : ProductOf k form' r := by
  rcases h with h | ⟨hk, h⟩
  · exact Or.inl h
  · exact Or.inr ⟨hk, hform hk ▸ h⟩

lemma product_comm (ha : SettledPowers a) (hb : SettledPowers b) (h : WrittenApart (bases [a, b])) :
    Agree (Expr.product · [a, b]) (Expr.product · [b, a]) := by
  refine agree_of_unique (product_consistent _) (product_consistent _) (product_pair_form ha.factors hb.factors)
    ?swapped fun r s hr hs => ?unique
  case swapped =>
    rw [mul_comm (coefficient a.factors), add_comm (powerForm a.factors)]
    exact product_pair_form hb.factors ha.factors
  case unique =>
    exact hr.unique hs (fun e he => mem_bases_of_powerForm (by simpa [powerForm_append] using he)) h

lemma product_assoc (ha : SettledPowers a) (hb : SettledPowers b) (hc : SettledPowers c)
    (h : WrittenApart (bases [a, b, c])) (hab : ¬ ScaleLoneSum [a, b]) (hbc : ¬ ScaleLoneSum [b, c]) :
    Agree (groupLeft Expr.product a b c) (groupRight Expr.product a b c) := by
  refine agree_of_unique (P := ProductOf (coefficient a.factors * coefficient b.factors * coefficient c.factors)
      (powerForm a.factors + powerForm b.factors + powerForm c.factors))
    ((product_consistent _).bind fun _ => product_consistent _)
    ((product_consistent _).bind fun _ => product_consistent _) ?left ?right fun r s hr hs => ?unique
  case left =>
    refine (product_pair_part ha.factors hb.factors hab).bind fun r ⟨hr, hcoeff, hform⟩ => ?_
    refine (product_pair_form hr hc.factors).mono fun s hs => ?_
    rw [hcoeff] at hs
    exact hs.of_zero fun hk => by rw [hform (left_ne_zero_of_mul hk)]
  case right =>
    refine (product_pair_part hb.factors hc.factors hbc).bind fun r ⟨hr, hcoeff, hform⟩ => ?_
    refine (product_pair_form ha.factors hr).mono fun s hs => ?_
    rw [hcoeff, ← mul_assoc] at hs
    refine hs.of_zero fun hk => ?_
    rw [mul_assoc] at hk
    rw [hform (right_ne_zero_of_mul hk), add_assoc]
  case unique =>
    exact hr.unique hs (fun e he => mem_bases_of_powerForm (by simpa [powerForm_append, add_assoc] using he)) h

lemma WrittenApart.subset {es es' : List Expr} (h : WrittenApart es) (hs : es' ⊆ es) : WrittenApart es' :=
  fun a ha b hb => h a (hs ha) b (hs hb)

/-- Trees that are read from formulas with merged parts are settled (`SumForm.parts_settled`). Their sums depend neither
on order nor on grouping, unless two different rests are written alike; products of powers do not depend on the order,
nor on the grouping where no number meets a lone sum in it. -/
theorem rearranged (ha : Settled a) (hb : Settled b) (hc : Settled c) :
    (WrittenApart (rests [a, b, c]) →
      Agree (Expr.sum · [a, b]) (Expr.sum · [b, a]) ∧
        Agree (groupLeft Expr.sum a b c) (groupRight Expr.sum a b c)) ∧
      (a.IsPowerProduct → b.IsPowerProduct → c.IsPowerProduct → WrittenApart (bases [a, b, c]) →
        Agree (Expr.product · [a, b]) (Expr.product · [b, a]) ∧
          (¬ ScaleLoneSum [a, b] → ¬ ScaleLoneSum [b, c] →
            Agree (groupLeft Expr.product a b c) (groupRight Expr.product a b c))) := by
  constructor
  · intro h
    have hsub : rests [a, b] ⊆ rests [a, b, c] := by simp [rests]
    exact ⟨sum_comm ha hb (h.subset hsub), sum_assoc ha hb hc h⟩
  · intro hpa hpb hpc h
    have hsub : bases [a, b] ⊆ bases [a, b, c] := by simp [bases, nonNumbers_append]
    exact ⟨product_comm ⟨ha, hpa⟩ ⟨hb, hpb⟩ (h.subset hsub), product_assoc ⟨ha, hpa⟩ ⟨hb, hpb⟩ ⟨hc, hpc⟩ h⟩

/-- Operands may be moved where a sum meets other factors; `2 * (x + 1) * y` is `(2 * x + 2) * y`, and not
`2 * ((x + 1) * y)`. -/
theorem rearranged_lone_sum :
    (∃ r, groupLeft Expr.sum (.symbol "x") (.symbol "y") (.plus [.symbol "x", int 1]) .approximate = .ok r ∧
      groupRight Expr.sum (.symbol "x") (.symbol "y") (.plus [.symbol "x", int 1]) .approximate = .ok r) ∧
    (∃ r, groupLeft Expr.product (.symbol "x") (.symbol "y") (.plus [.symbol "x", int 1]) .approximate = .ok r ∧
      groupRight Expr.product (.symbol "x") (.symbol "y") (.plus [.symbol "x", int 1]) .approximate = .ok r) ∧
    ∃ r s, groupLeft Expr.product (int 2) (.plus [.symbol "x", int 1]) (.symbol "y") .approximate = .ok r ∧
      groupRight Expr.product (int 2) (.plus [.symbol "x", int 1]) (.symbol "y") .approximate = .ok s ∧ r ≠ s := by
  have hx : Settled (.symbol "x") := trivial
  have hy : Settled (.symbol "y") := trivial
  have hsum : Settled (.plus [.symbol "x", int 1]) := by
    have hargs : ∀ e ∈ [Expr.symbol "x", int 1], Settled e := by simpa using ⟨hx, settled_int (by decide)⟩
    exact (sum_settled hargs).value (by cbv)
  have tx : text .refuse (.symbol "x") = .ok "x" := by cbv
  have ty : text .refuse (.symbol "y") = .ok "y" := by cbv
  have t1 : text .refuse (int 1) = .ok "1" := by cbv
  have ts : text .refuse (.plus [.symbol "x", int 1]) = .ok "x + 1" := by cbv
  obtain ⟨hsums, hproducts⟩ := rearranged hx hy hsum
  have hrests : WrittenApart (rests [.symbol "x", .symbol "y", .plus [.symbol "x", int 1]]) := by
    show WrittenApart [.symbol "x", .symbol "y", .symbol "x", int 1]
    simp [WrittenApart, tx, ty, t1]
  have hbases : WrittenApart (bases [.symbol "x", .symbol "y", .plus [.symbol "x", int 1]]) := by
    show WrittenApart [.symbol "x", .symbol "y", .plus [.symbol "x", int 1]]
    simp [WrittenApart, tx, ty, ts]
  have hunscaled {d e : Expr} (h : coefficient ([d, e].flatMap factors) = 1) : ¬ ScaleLoneSum [d, e] :=
    fun hscale => hscale.2.1 h
  have hone : coefficient ([.symbol "x", .symbol "y"].flatMap factors) = 1 := by simp [coefficient, factors, isNumber]
  have hone' : coefficient ([.symbol "y", .plus [.symbol "x", int 1]].flatMap factors) = 1 := by
    simp [coefficient, factors, isNumber]
  have hx' : IsPowerProduct (.symbol "x") := IsAtom.isPowerProduct trivial
  have hy' : IsPowerProduct (.symbol "y") := IsAtom.isPowerProduct trivial
  have hsum' : IsPowerProduct (.plus [.symbol "x", int 1]) := IsAtom.isPowerProduct trivial
  refine ⟨(hsums hrests).2 (by cbv; simp) (by cbv; simp), ?_, _, _, by cbv, by cbv, by simp⟩
  exact (hproducts hx' hy' hsum' hbases).2 (hunscaled hone) (hunscaled hone') (by cbv; simp) (by cbv; simp)

end PlaneCalculus.Expr
