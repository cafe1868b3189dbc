import PlaneCalculus.Proofs.Service.Diagnostics
import PlaneCalculus.Proofs.Service.Identifiers
import PlaneCalculus.Service.Request

/-! What the answer to a request says of the formulas that are missing in it. A request that is answered has its function
read, the engine asked, and one of the reports composed; the diagnostics of the answer are the failures in typesetting for
that report, and without any only the remarks of the operation stand without a formula. -/

namespace PlaneCalculus

namespace Operation

/-- The steps in words only. -/
def remarks : Operation → List String
  | partials => ["Each partial derivative measures the rate of change along a single variable."]
  | gradient => ["The gradient points in the direction of steepest increase of the function."]
  | evaluate => ["This value is the height of the surface z = f(x,y) at the point (x0, y0)."]
  | doubleIntegral => ["Without limits, the result is a family of antiderivatives."]
  | lagrange => []
  | optimize => ["Classify: local minimum, local maximum or saddle point."]
  | analyzeDomain => [
      "Analyze the domain conditions (division by zero, log > 0, sqrt ≥ 0).",
      "Estimate the range by evaluating the function over a grid."]

end Operation

namespace Request

open Report Rendering Typesetting

variable {o : Overflow} {limit : Nat} {fields : Fields} {op : Operation} {r : Report} {α β : Type}

/-! ### Answered requests -/

lemma outcome_eq_ok {c : Outcome α} {a : α} (h : (liftM c : Handling α) = .ok a) : c = .ok a := by
  cases c with
  | ok b =>
    cases h
    rfl
  | error e => cases h

/-- A point is missing when one of its coordinates is absent or null. -/
def LacksPoint (fields : Fields) : Prop := nonNull fields "x0" = none ∨ nonNull fields "y0" = none

/-- The draft that an operation composes on the function `f`, and the expressions typeset in its body. -/
inductive Drafts (o : Overflow) (fields : Fields) (text : String) (f : Expr) :
    Operation → Rendering Draft → List Expr → Prop
  | partials {g : Gradient} (h : Gradient.of o f = .ok g) :
      Drafts o fields text f .partials (ofPartials o text g) [g.function, g.fx, g.fy]
  | gradient {g : Gradient} (h : Gradient.of o f = .ok g) :
      Drafts o fields text f .gradient (ofGradient o text g) [g.function, g.fx, g.fy]
  | evaluate {x y : Expr} {v : PointValue} (h : PointValue.of o f x y = .ok v) :
      Drafts o fields text f .evaluate (ofPointValue o text v) [v.function, v.x, v.y, v.resultExpr]
  | definite {region : Region} {i : DefiniteIntegral} (h : DefiniteIntegral.of o f region = .ok i) :
      Drafts o fields text f .doubleIntegral (ofDefiniteIntegral o text i)
        [i.function, i.value, i.region.left, i.region.right, i.region.bottom, i.region.top]
  | indefinite {i : IndefiniteIntegral} (h : IndefiniteIntegral.of o f = .ok i) :
      Drafts o fields text f .doubleIntegral (ofIndefiniteIntegral o text i) [i.function, i.inner, i.outer]
  | constrained {g : Expr} {e : ConstrainedExtrema} (h : ConstrainedExtrema.of o f g = .ok e) :
      Drafts o fields text f .lagrange (ofConstrainedExtrema o text e)
        (upToFailure o (e.points.flatMap pointParts) ++
          [e.lagrangian, e.lx, e.ly, e.lmultiplier, e.function, e.constraint])
  | critical {c : CriticalPoints} (h : CriticalPoints.of o f = .ok c) :
      Drafts o fields text f .optimize (ofCriticalPoints o text c) [c.fx, c.fy]
  | domain {point : Option (Expr × Expr)} {place : Option (Float × Float)} {d : DomainAnalysis}
      (h : DomainAnalysis.of o f place = .ok d) (hpoint : point = none → LacksPoint fields) :
      Drafts o fields text f .analyzeDomain (ofDomain o text point d) (domainParts d ++ (d.function :: limitParts point))

lemma onFunction_ok {analyse : Expr → Outcome α} {draft : String → α → Rendering Draft}
    (h : onFunction o limit fields analyse draft = .ok r) :
    ∃ text f a, Formula.read o text = .ok f ∧ analyse f = .ok a ∧ Report.compose (draft text a) = .ok r := by
  obtain ⟨text, -, h⟩ := Calc.bind_ok h
  obtain ⟨f, hf, h⟩ := Calc.bind_ok h
  obtain ⟨a, ha, h⟩ := Calc.bind_ok h
  exact ⟨text, f, a, outcome_eq_ok hf, outcome_eq_ok ha, Formula.lift_eq_ok (outcome_eq_ok h)⟩

lemma optionalNumber_none {name : String} (h : optionalNumber o fields name = .ok none) : nonNull fields name = none := by
  unfold optionalNumber at h
  split at h
  · next value _ =>
    obtain ⟨e, -, h⟩ := Calc.bind_ok h
    cases h
  · assumption

lemma lacksPoint_of_bothOf {x y : Option Expr} (hx : optionalNumber o fields "x0" = .ok x)
    (hy : optionalNumber o fields "y0" = .ok y) (h : bothOf x y = none) : LacksPoint fields := by
  cases x with
  | none => exact .inl (optionalNumber_none hx)
  | some x =>
    cases y with
    | none => exact .inr (optionalNumber_none hy)
    | some y => cases h

lemma evaluate_ok (h : evaluate o limit fields = .ok r) : ∃ text f x y v, Formula.read o text = .ok f ∧
    PointValue.of o f x y = .ok v ∧ Report.compose (ofPointValue o text v) = .ok r := by
  obtain ⟨_, -, h⟩ := Calc.bind_ok h
  obtain ⟨_, -, h⟩ := Calc.bind_ok h
  obtain ⟨_, -, h⟩ := Calc.bind_ok h
  obtain ⟨text, -, h⟩ := Calc.bind_ok h
  obtain ⟨x, -, h⟩ := Calc.bind_ok h
  obtain ⟨y, -, h⟩ := Calc.bind_ok h
  obtain ⟨f, hf, h⟩ := Calc.bind_ok h
  obtain ⟨v, hv, h⟩ := Calc.bind_ok h
  exact ⟨text, f, x, y, v, outcome_eq_ok hf, outcome_eq_ok hv, Formula.lift_eq_ok (outcome_eq_ok h)⟩

lemma lagrange_ok (h : lagrange o limit fields = .ok r) : ∃ text f g e, Formula.read o text = .ok f ∧
    ConstrainedExtrema.of o f g = .ok e ∧ Report.compose (ofConstrainedExtrema o text e) = .ok r := by
  obtain ⟨_, -, h⟩ := Calc.bind_ok h
  obtain ⟨_, -, h⟩ := Calc.bind_ok h
  obtain ⟨text, -, h⟩ := Calc.bind_ok h
  obtain ⟨_, -, h⟩ := Calc.bind_ok h
  obtain ⟨f, hf, h⟩ := Calc.bind_ok h
  obtain ⟨g, -, h⟩ := Calc.bind_ok h
  obtain ⟨e, he, h⟩ := Calc.bind_ok h
  exact ⟨text, f, g, e, outcome_eq_ok hf, outcome_eq_ok he, Formula.lift_eq_ok (outcome_eq_ok h)⟩

/-- What an answered request has gone through. -/
lemma handle_ok {body : Json} (h : handle o limit op body = .ok r) : ∃ text f draft parts, Formula.read o text = .ok f ∧
    Drafts o body.fields text f op draft parts ∧ Report.compose draft = .ok r := by
  cases op with
  | partials =>
    obtain ⟨text, f, g, hf, hg, h⟩ := onFunction_ok h
    exact ⟨text, f, _, _, hf, .partials (Formula.lift_eq_ok hg), h⟩
  | gradient =>
    obtain ⟨text, f, g, hf, hg, h⟩ := onFunction_ok h
    exact ⟨text, f, _, _, hf, .gradient (Formula.lift_eq_ok hg), h⟩
  | evaluate =>
    obtain ⟨text, f, x, y, v, hf, hv, h⟩ := evaluate_ok h
    exact ⟨text, f, _, _, hf, .evaluate hv, h⟩
  | doubleIntegral =>
    obtain ⟨_, -, h⟩ := Calc.bind_ok h
    obtain ⟨text, -, h⟩ := Calc.bind_ok h
    obtain ⟨region, -, h⟩ := Calc.bind_ok h
    obtain ⟨f, hf, h⟩ := Calc.bind_ok h
    cases region with
    | some region =>
      obtain ⟨i, hi, h⟩ := Calc.bind_ok h
      exact ⟨text, f, _, _, outcome_eq_ok hf, .definite (outcome_eq_ok hi), Formula.lift_eq_ok (outcome_eq_ok h)⟩
    | none =>
      obtain ⟨i, hi, h⟩ := Calc.bind_ok h
      exact ⟨text, f, _, _, outcome_eq_ok hf, .indefinite (outcome_eq_ok hi), Formula.lift_eq_ok (outcome_eq_ok h)⟩
  | lagrange =>
    obtain ⟨text, f, g, e, hf, he, h⟩ := lagrange_ok h
    exact ⟨text, f, _, _, hf, .constrained he, h⟩
  | optimize =>
    obtain ⟨text, f, c, hf, hc, h⟩ := onFunction_ok h
    exact ⟨text, f, _, _, hf, .critical (Formula.lift_eq_ok hc), h⟩
  | analyzeDomain =>
    obtain ⟨text, -, h⟩ := Calc.bind_ok h
    obtain ⟨x, hx, h⟩ := Calc.bind_ok h
    obtain ⟨y, hy, h⟩ := Calc.bind_ok h
    obtain ⟨f, hf, h⟩ := Calc.bind_ok h
    obtain ⟨d, hd, h⟩ := Calc.bind_ok h
    exact ⟨text, f, _, _, outcome_eq_ok hf, .domain (Formula.lift_eq_ok (outcome_eq_ok hd)) (lacksPoint_of_bothOf hx hy),
      Formula.lift_eq_ok (outcome_eq_ok h)⟩

/-! ### Missing formulas -/

/-- The steps that have no formula however well all goes. -/
def Unillustrated (fields : Fields) (op : Operation) (description : String) : Prop :=
  description ∈ op.remarks ∨ op = .analyzeDomain ∧ description = limitStepText ∧ LacksPoint fields

lemma Drafts.accounted {text : String} {f : Expr} {draft : Rendering Draft} {parts : List Expr}
    (hread : Formula.read o text = .ok f) (h : Drafts o fields text f op draft parts) :
    ∃ remarks, Accounted o draft parts f remarks ∧ ∀ d ∈ remarks, Unillustrated fields op d := by
  cases h with
  | partials => exact ⟨_, accounted_partials hread _, fun d hd => .inl hd⟩
  | gradient => exact ⟨_, accounted_gradient hread _, fun d hd => .inl hd⟩
  | evaluate => exact ⟨_, accounted_pointValue hread _, fun d hd => .inl hd⟩
  | definite => exact ⟨_, accounted_definiteIntegral hread _, nofun⟩
  | indefinite => exact ⟨_, accounted_indefiniteIntegral hread _, fun d hd => .inl hd⟩
  | constrained => exact ⟨_, accounted_constrainedExtrema hread _, nofun⟩
  | critical => exact ⟨_, accounted_criticalPoints hread _, fun d hd => .inl hd⟩
  | @domain point _ _ _ hpoint =>
    refine ⟨_, accounted_domain hread point _, fun d hd => ?_⟩
    rcases List.mem_append.mp hd with hd | hd
    · exact .inl hd
    · cases point with
      | none => exact .inr ⟨rfl, List.mem_singleton.mp hd, hpoint rfl⟩
      | some point => cases hd

lemma compose_accounted {draft : Rendering Draft} {parts : List Expr} {f : Expr} {remarks : List String}
    (h : Accounted o draft parts f remarks) (hr : Report.compose draft = .ok r) :
    r.diagnostics = failures o (typesettings parts f) ∧ (r.diagnostics = [] → r.Complete remarks) := by
  obtain ⟨⟨d, ds⟩, hrun, hr⟩ := Calc.bind_ok hr
  cases hr
  obtain ⟨hds, hcomplete⟩ := (h []).value hrun
  have hds : ds = failures o (typesettings parts f) := hds
  exact ⟨hds, fun hnil => hcomplete (failures_eq_nil.mp (hds.symm.trans hnil))⟩

lemma failures_subject {parts : List Expr} {f : Expr} :
    ∀ d ∈ failures o (typesettings parts f), d.subject = .formula ∨ d.subject = .function := by
  intro d hd
  obtain ⟨t, ht, hd⟩ := List.mem_filterMap.mp hd
  have hsubject : d.subject = t.subject := by
    unfold failure? at hd
    split at hd <;> cases hd
    rfl
  rw [hsubject]
  rcases List.mem_append.mp ht with ht | ht
  · obtain ⟨e, -, rfl⟩ := List.mem_map.mp ht
    exact .inl rfl
  · exact .inr (List.mem_singleton.mp ht ▸ rfl)

lemma text_not_graph {d : Diagnostic} (h : d.subject = .formula ∨ d.subject = .function) :
    ¬ "graph:".toList <+: d.text.toList := by
  obtain ⟨subject, cause⟩ := d
  rcases h with rfl | rfl <;> simp [Diagnostic.text, Diagnostic.Subject.name]

/-- An answer without diagnostics has all its formulas, but for the steps that are in words. The diagnostics are the
failures among what is typeset for the body of the report and for its portrait, and no text is read twice with different
results. -/
theorem diagnostics_account (o : Overflow) (limit : Nat) (op : Operation) (body : Json) (r : Report)
    (h : handle o limit op body = .ok r) :
    (r.diagnostics = [] → (∀ m ∈ r.formulas, m.2.isSome = true) ∧ r.portrait.formula.isSome = true ∧
      ∀ s ∈ r.steps, s.latex = none → Unillustrated body.fields op s.description) ∧
    (∃ text f draft parts, Formula.read o text = .ok f ∧ Drafts o body.fields text f op draft parts ∧
      Report.compose draft = .ok r ∧ r.diagnostics = failures o (typesettings parts f)) ∧
    ∀ d ∈ r.diagnostics, ¬ "graph:".toList <+: d.text.toList := by
  obtain ⟨text, f, draft, parts, hread, hdraft, hr⟩ := handle_ok h
  obtain ⟨remarks, haccounted, hremarks⟩ := hdraft.accounted hread
  obtain ⟨hds, hcomplete⟩ := compose_accounted haccounted hr
  refine ⟨fun hnil => ?_, ⟨text, f, draft, parts, hread, hdraft, hr, hds⟩, fun d hd => ?_⟩
  · obtain ⟨hformulas, hportrait, hsteps⟩ := hcomplete hnil
    exact ⟨hformulas, hportrait, fun s hs hnone => hremarks _ (hsteps s hs hnone)⟩
  · exact text_not_graph (failures_subject d (hds ▸ hd))

lemma handle_partials_of_x : ∃ r,
    handle .approximate 500 .partials (.object [("expression", .string "x")]) = .ok r ∧ r.diagnostics = [] := by
  have hcheck : Validation.checkExpression 500 "x" = .ok () :=
    Validation.checkExpression_iff.mpr ⟨by decide, by decide, by decide⟩
  have hfield : expressionField 500 [("expression", .string "x")] = .ok "x" := by
    show (Except.mapError Rejection.invalid (Validation.checkExpression 500 "x" >>= fun _ => pure "x") : Handling _) = _
    rw [hcheck]
    rfl
  have hread : Formula.read .approximate "x" = .ok (.symbol "x") := by cbv
  have hgradient : Gradient.of .approximate (.symbol "x") = .ok ⟨.symbol "x", Expr.int 1, Expr.int 0⟩ := by cbv
  have hx : (Expr.symbol "x").latex .approximate = .ok "x" := by cbv
  have hone : (Expr.int 1).latex .approximate = .ok "1" ∧ (Expr.int 1).text .approximate = .ok "1" := ⟨by cbv, by cbv⟩
  have hzero : (Expr.int 0).latex .approximate = .ok "0" ∧ (Expr.int 0).text .approximate = .ok "0" := ⟨by cbv, by cbv⟩
  refine ⟨?report, ?answer, ?silent⟩
  case answer =>
    simp only [handle, partials, onFunction, Json.fields, hfield, hread, hgradient, bind, Except.bind, liftM, monadLift,
      MonadLift.monadLift, MonadLiftT.monadLift, Except.mapError, Report.compose, ofPartials, typeset, record,
      Portrait.ofText, Portrait.ofExpr, Gradient.partialsText, hx, hone, hzero]
    rfl
  case silent => rfl

/-- The partial derivatives of `x` are answered without diagnostics, and with all formulas. -/
theorem diagnostics_account_partials_of_x : ∃ r,
    handle .approximate 500 .partials (.object [("expression", .string "x")]) = .ok r ∧ r.diagnostics = [] ∧
      (∀ m ∈ r.formulas, m.2.isSome = true) ∧ r.portrait.formula.isSome = true ∧
      ∀ s ∈ r.steps, s.latex = none → s.description ∈ Operation.partials.remarks := by
  obtain ⟨r, hr, hnil⟩ := handle_partials_of_x
  obtain ⟨hformulas, hportrait, hsteps⟩ := (diagnostics_account _ _ _ _ r hr).1 hnil
  refine ⟨r, hr, hnil, hformulas, hportrait, fun s hs hnone => (hsteps s hs hnone).resolve_right ?_⟩
  rintro ⟨h, -⟩
  cases h

end Request

end PlaneCalculus
