import PlaneCalculus.Proofs.Calculus.PolynomialIntegral

/-! Where integration does not end. An integrand that no rule covers is multiplied out, and integrated again unless it
is equal to what it was; an undefined number is unequal to itself, so that an integrand with such a number is never seen
to be the same. -/

namespace PlaneCalculus.Expr

open Calc Attempt Formula

/-- An undefined number differs from itself. -/
def DefinedNumber (e : Expr) : Prop := ∀ w, e = real w → (w == w) = true

mutual

lemma same_self_iff : (e : Expr) → same e e = true ↔ Everywhere DefinedNumber e
  | .num (.exact q) => by simp [same, BEq.beq, Number.same, Everywhere, DefinedNumber, real]
  | .num (.approx w) => by simp [same, BEq.beq, Number.same, Everywhere, DefinedNumber, real]
  | .symbol _ | .constant _ => by simp [same, Everywhere, DefinedNumber, real]
  | .plus ts => by simp [same, Everywhere, DefinedNumber, real, sameAll_self_iff ts]
  | .times fs => by simp [same, Everywhere, DefinedNumber, real, sameAll_self_iff fs]
  | .power b e => by simp [same, Everywhere, DefinedNumber, real, same_self_iff b, same_self_iff e]
  | .call _ a => by simp [same, Everywhere, DefinedNumber, real, same_self_iff a]

lemma sameAll_self_iff : (es : List Expr) → (sameAll es es = true ↔ EverywhereAll DefinedNumber es)
  | [] => by simp [sameAll, EverywhereAll]
  | e :: es => by simp [sameAll, EverywhereAll, same_self_iff e, sameAll_self_iff es]

end

variable {o : Overflow} {v : String}

/-- An integrand of several or no factors, all of them dependent on the symbol, or of a single one, that no rule covers
and that is multiplied out. -/
inductive IsLeftOver (o : Overflow) (v : String) : Expr → Prop
  | of_factor {e : Expr} : e.isConstantIn v = false → (∀ ts, e ≠ .plus ts) → (∀ fs, e ≠ .times fs) →
      (factorRule o v e).run = .ok none → expand o e = .ok e → IsLeftOver o v e
  | of_product {fs : List Expr} : fs ≠ [] → (∀ f ∈ fs, f.isConstantIn v = false) → product o fs = .ok (.times fs) →
      (aloneRule o v fs).run = .ok none → (∀ integrate, (partsRule o v integrate fs).run = .ok none) →
      expand o (.times fs) = .ok (.times fs) → IsLeftOver o v (.times fs)

variable {integrate : Expr → Attempt Expr} {e : Expr}

lemma expandedRule_eq (h : expand o e = .ok e) :
    expandedRule o integrate e = if e == e then failure else integrate e := by
  unfold expandedRule
  rw [h]
  show (guard (!(e == e)) >>= fun _ => integrate e : Attempt Expr) = _
  cases he : e == e <;> rfl

lemma orElse_of_none {c d : Attempt Expr} (h : c.run = .ok none) : (c <|> d).run = d.run := by
  rw [OptionT.run_orElse, h]
  rfl

lemma product_nil : product o [] = .ok (int 1) := by cases o <;> cbv

lemma dependents_eq_self {fs : List Expr} (h : ∀ f ∈ fs, f.isConstantIn v = false) : dependents v fs = fs := by
  simpa [dependents] using h

/-- One step of integration tries nothing but the integrand itself again. -/
lemma IsLeftOver.step (h : IsLeftOver o v e) (n : Nat) :
    ((e == e) = true → (antiderivativeAt o v (n + 1) e).run = .ok none) ∧
      ((e == e) = false → ∀ halt, (antiderivativeAt o v n e).run = .error halt →
        (antiderivativeAt o v (n + 1) e).run = .error halt) := by
  cases h with
  | of_factor hv hplus htimes hrule hexp =>
    have hstep : antiderivativeAt o v (n + 1) e = (factorRule o v e <|> expandedRule o (antiderivativeAt o v n) e) := by
      cases e with
      | plus ts => exact absurd rfl (hplus ts)
      | times fs => exact absurd rfl (htimes fs)
      | num | symbol | constant | power | call => simp only [antiderivativeAt, hv, Bool.false_eq_true, if_false]
    rw [hstep, orElse_of_none hrule, expandedRule_eq hexp]
    refine ⟨fun hs => by rw [if_pos hs]; rfl, fun hs halt hn => ?_⟩
    rw [hs]
    exact hn
  | @of_product fs hne hdep hproduct halone hparts hexp =>
    have hv : (times fs).isConstantIn v = false := by
      rw [← Bool.not_eq_true, isConstantIn, ← dependents_eq_nil, dependents_eq_self hdep]
      exact hne
    have hnone : fs.filter (·.isConstantIn v) = [] := by simpa using hdep
    have hstep : antiderivativeAt o v (n + 1) (.times fs) = (do
        let inner ← innerRule o v (antiderivativeAt o v n) fs (.times fs)
        product o [int 1, inner]) := by
      simp only [antiderivativeAt, hv, Bool.false_eq_true, if_false]
      rw [productIntegral_eq, hnone, dependents_eq_self hdep, product_nil, hproduct]
      rfl
    rw [hstep, innerRule, OptionT.run_bind, orElse_of_none halone, expandedRule_eq hexp]
    refine ⟨fun hs => ?_, fun hs halt hn => ?_⟩
    · rw [if_pos hs, orElse_of_none (c := failure) rfl, hparts]
      rfl
    · rw [hs, OptionT.run_orElse]
      simp only [Bool.false_eq_true, if_false]
      rw [hn]
      rfl

lemma IsLeftOver.exhausted (h : IsLeftOver o v e) (hs : (e == e) = false) (n : Nat) :
    (antiderivativeAt o v n e).run = .error .exhausted := by
  induction n with
  | zero => rfl
  | succ n ih => exact (h.step n).2 hs _ ih

/-- Integration of a polynomial that is read from a text ends. What no rule covers and multiplying out does not change
is given up, unless there is an undefined number in it: then it is tried again and again at every depth. -/
theorem antiderivative_ends (v : String) :
    (∀ text e, read .approximate text = .ok e → e.IsPolynomial → MergesSmall v e →
      ∃ r, e.antiderivative .approximate v = .ok r) ∧
    ∀ e, IsLeftOver .approximate v e →
      (Everywhere DefinedNumber e → e.antiderivative .approximate v = .ok none) ∧
      (¬ Everywhere DefinedNumber e → ∀ n, (antiderivativeAt .approximate v n e).run = .error .exhausted) := by
  refine ⟨fun text e he hp hsmall => ?_, fun e he => ⟨fun hdef => ?_, fun hdef n => ?_⟩⟩
  · obtain ⟨hcovered, hstuck⟩ := antiderivative_covered (read_writable he (isRational_of_polynomial e hp)) hp hsmall
    by_cases h : ∃ t ∈ e.summands, IsStuck v t
    · exact ⟨none, hstuck h⟩
    · obtain ⟨F, hF⟩ := hcovered fun t ht hs => h ⟨t, ht, hs⟩
      exact ⟨some F, hF⟩
  · exact (he.step _).1 ((same_self_iff e).mpr hdef)
  · have hs : (e == e) = false := by
      rw [← Bool.not_eq_true]
      exact fun h => hdef ((same_self_iff e).mp h)
    exact he.exhausted hs n

lemma sum_square_real {w : Float} (hw : (Number.ofInt 0).add (.approx w) = .approx w) (hz : (w == 0.0) = false) :
    Expr.sum .approximate [.power (.symbol "x") (int 2), real w] =
      .ok (.plus [.power (.symbol "x") (int 2), real w]) := by
  have hterm : productAt .approximate 23 [.num (.ofInt 1), .power (.symbol "x") (int 2)] =
      .ok (.power (.symbol "x") (int 2)) := by cbv
  have hfold : ([.power (.symbol "x") (int 2), real w].flatMap terms).foldlM (Collected.push .approximate)
      ⟨.ofInt 0, []⟩ = .ok ⟨.approx w, [(.power (.symbol "x") (int 2), .ofInt 1)]⟩ := by
    simp [terms, Collected.push, real, coeffRest, addCoefficient, Overflow.add, Overflow.settle, hw, Number.isExact]
  have hnumber : (Number.approx w).isZero = false := hz
  -- the sum is allotted a depth of 24
  show sumStep .approximate (productAt .approximate 23) (textAt .approximate 23) _ = _
  unfold sumStep
  rw [hfold]
  show (do
    let ts ← [(Expr.power (.symbol "x") (int 2), Number.ofInt 1)].mapM fun p =>
      productAt .approximate 23 [.num p.2, p.1]
    let ts ← sortTerms (textAt .approximate 23) ts
    return collapse 0 .plus (if !(Number.approx w).isZero || ts.isEmpty then ts ++ [real w] else ts) : Calc Expr) = _
  simp only [List.mapM_cons, List.mapM_nil, hterm, hnumber]
  rfl

lemma sine_leftOver {w : Float} (hw : (Number.ofInt 0).add (.approx w) = .approx w) (hz : (w == 0.0) = false) :
    IsLeftOver .approximate "x" (.call .sin (.plus [.power (.symbol "x") (int 2), real w])) := by
  refine .of_factor (by simp [isConstantIn, allConstantIn]) nofun nofun (by cbv) ?_
  have hpower : expand .approximate (.power (.symbol "x") (int 2)) = .ok (.power (.symbol "x") (int 2)) := by cbv
  have hall : expandAll .approximate [.power (.symbol "x") (int 2), real w] =
      .ok [.power (.symbol "x") (int 2), real w] := by
    rw [expandAll, expandAll, hpower]
    rfl
  rw [expand, expand, hall]
  show (Expr.sum .approximate [.power (.symbol "x") (int 2), real w] >>= fun a => pure (Func.sin.of a)) = _
  rw [sum_square_real hw hz]
  rfl

/-- The sine of `x ^ 2` plus an undefined number is integrated for ever, that of `x ^ 2 + 1` is given up. -/
theorem antiderivative_ends_sine :
    (∃ e r, read .approximate "x**2 + x" = .ok e ∧ e.antiderivative .approximate "x" = .ok r) ∧
      (Expr.call .sin (.plus [.power (.symbol "x") (int 2), int 1])).antiderivative .approximate "x" = .ok none ∧
      ∀ n, (antiderivativeAt .approximate "x" n
        (.call .sin (.plus [.power (.symbol "x") (int 2), real Double.nan]))).run = .error .exhausted := by
  obtain ⟨hpolynomial, hleft⟩ := antiderivative_ends "x"
  have he : read .approximate "x**2 + x" = .ok (.plus [.power (.symbol "x") (int 2), .symbol "x"]) := by cbv
  have hp : IsPolynomial (.plus [.power (.symbol "x") (int 2), .symbol "x"]) :=
    ⟨trivial, ⟨⟨2, rfl, by decide, by simp⟩, trivial, rfl⟩, trivial, trivial⟩
  have hsmall : MergesSmall "x" (.plus [.power (.symbol "x") (int 2), .symbol "x"]) := by
    intro fs hfs
    simp [summands, summandsAll] at hfs
  obtain ⟨r, hr⟩ := hpolynomial _ _ he hp hsmall
  have hone : IsLeftOver .approximate "x" (.call .sin (.plus [.power (.symbol "x") (int 2), int 1])) :=
    .of_factor (by decide) (by simp) (by simp) (by cbv) (by cbv)
  have hdefined : Everywhere DefinedNumber (.call .sin (.plus [.power (.symbol "x") (int 2), int 1])) :=
    (same_self_iff _).mp (by decide)
  have hundefined :
      ¬ Everywhere DefinedNumber (.call .sin (.plus [.power (.symbol "x") (int 2), real Double.nan])) := by
    rw [← same_self_iff]
    decide
  exact ⟨⟨_, r, he, hr⟩, (hleft _ hone).1 hdefined, (hleft _ (sine_leftOver rfl (by decide))).2 hundefined⟩

end PlaneCalculus.Expr
