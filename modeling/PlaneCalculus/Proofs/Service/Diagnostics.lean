import PlaneCalculus.Proofs.Calc.Meets
import PlaneCalculus.Service.Report.ConstrainedExtrema
import PlaneCalculus.Service.Report.CriticalPoints
import PlaneCalculus.Service.Report.Domain
import PlaneCalculus.Service.Report.DoubleIntegral
import PlaneCalculus.Service.Report.PointValue

/-! The diagnostics of a report are the causes of all the failures met in typesetting its formulas. Which expressions are
typeset is known from the answer that is reported on, and a part of the report lacks its formula only if one of them cannot
be typeset. -/

namespace PlaneCalculus

open Calc

variable {α β : Type} {o : Overflow}

/-- An expression to typeset, and what it is for. -/
structure Typesetting where
  subject : Diagnostic.Subject
  expr : Expr

namespace Typesetting

def failure? (o : Overflow) (t : Typesetting) : Option Diagnostic :=
  match t.expr.latex o with
  | .ok _ => none
  | .error cause => some ⟨t.subject, cause⟩

def failures (o : Overflow) (tried : List Typesetting) : List Diagnostic := tried.filterMap (failure? o)

lemma failures_append (ts us : List Typesetting) : failures o (ts ++ us) = failures o ts ++ failures o us :=
  List.filterMap_append

end Typesetting

namespace Rendering

open Typesetting

def markup? (o : Overflow) (e : Expr) : Option String := (e.latex o).toOption

/-- All of the expressions can be typeset. -/
def AllSet (o : Overflow) (tried : List Typesetting) : Prop := ∀ t ∈ tried, (markup? o t.expr).isSome = true

lemma failures_eq_nil {tried : List Typesetting} : failures o tried = [] ↔ AllSet o tried := by
  simp only [failures, List.filterMap_eq_nil_iff, AllSet]
  refine forall₂_congr fun t _ => ?_
  unfold failure? markup?
  cases t.expr.latex o <;> simp [Except.toOption]

/-- The failures among the expressions tried are put on record, in order, and the value satisfies `post`. -/
def Accounts (o : Overflow) (c : Rendering α) (tried : List Typesetting) (post : α → Prop) : Prop :=
  ∀ ds, Meets anyHalt (c.run ds) fun r => r.2 = ds ++ failures o tried ∧ post r.1

variable {post post' : α → Prop} {next : β → Prop} {c : Rendering α} {tried tried' : List Typesetting}

lemma accounts_pure {a : α} (h : post a) : Accounts o (pure a) [] post := fun ds => ⟨(List.append_nil ds).symm, h⟩

lemma accounts_lift {c : Calc α} (h : Meets anyHalt c post) : Accounts o (liftM c) [] post := by
  intro ds
  exact h.bind fun a ha => ⟨(List.append_nil ds).symm, ha⟩

lemma accounts_calc (c : Calc α) : Accounts o (liftM c) [] fun _ => True := accounts_lift (meets_anyHalt_true c)

namespace Accounts

lemma mono (h : Accounts o c tried post) (hp : ∀ a, post a → post' a) : Accounts o c tried post' :=
  fun ds => (h ds).mono fun _ hr => ⟨hr.1, hp _ hr.2⟩

lemma bind {f : α → Rendering β} (h : Accounts o c tried post) (hf : ∀ a, post a → Accounts o (f a) tried' next) :
    Accounts o (c >>= f) (tried ++ tried') next := by
  intro ds
  refine (h ds).bind fun r hr => (hf r.1 hr.2 r.2).mono fun s hs => ⟨?_, hs.2⟩
  rw [hs.1, hr.1, failures_append, List.append_assoc]

/-- Nothing is typeset after `c`. -/
lemma bind_pure {g : α → β} (h : Accounts o c tried post) (hg : ∀ a, post a → next (g a)) :
    Accounts o (c >>= fun a => pure (g a)) tried next := by
  rw [← List.append_nil tried]
  exact h.bind fun a ha => accounts_pure (hg a ha)

end Accounts

lemma accounts_record (subject : Diagnostic.Subject) (e : Expr) :
    Accounts o (record subject (e.latex o)) [⟨subject, e⟩] (· = markup? o e) := by
  intro ds
  cases he : e.latex o with
  | ok markup => exact ⟨by simp [failures, failure?, he], by simp [markup?, he, Except.toOption]⟩
  | error cause =>
    cases cause with
    | halted cause => trivial
    | _ => exact ⟨by simp [failures, failure?, he], by simp [markup?, he, Except.toOption]⟩

lemma accounts_typeset (e : Expr) : Accounts o (typeset o e) [⟨.formula, e⟩] (· = markup? o e) :=
  accounts_record .formula e

lemma accounts_typeset_bind {e : Expr} {f : Option String → Rendering β} (h : Accounts o (f (markup? o e)) tried next) :
    Accounts o (typeset o e >>= f) (⟨.formula, e⟩ :: tried) next :=
  (accounts_typeset e).bind fun _ hm => hm ▸ h

lemma accounts_calc_bind {c : Calc α} {f : α → Rendering β} (h : ∀ a, Accounts o (f a) tried next) :
    Accounts o (liftM c >>= f) tried next :=
  (accounts_calc c).bind fun a _ => h a

/-- The expressions up to the first that cannot be typeset, which is one of them. -/
def upToFailure (o : Overflow) : List Expr → List Expr
  | [] => []
  | e :: es => e :: if (markup? o e).isSome then upToFailure o es else []

lemma upToFailure_append_of_set {es : List Expr} (h : ∀ e ∈ es, (markup? o e).isSome = true) (es' : List Expr) :
    upToFailure o (es ++ es') = upToFailure o es ++ upToFailure o es' := by
  induction es with
  | nil => rfl
  | cons e es ih =>
    rw [List.forall_mem_cons] at h
    rw [List.cons_append, upToFailure, upToFailure, if_pos h.1, if_pos h.1, ih h.2]
    rfl

lemma upToFailure_append_of_failure {es : List Expr} (h : ¬ ∀ e ∈ es, (markup? o e).isSome = true) (es' : List Expr) :
    upToFailure o (es ++ es') = upToFailure o es := by
  induction es with
  | nil => exact absurd (by simp) h
  | cons e es ih =>
    rw [List.forall_mem_cons, not_and] at h
    rw [List.cons_append, upToFailure, upToFailure]
    split
    · next he => rw [ih (h he)]
    · rfl

lemma upToFailure_set {es : List Expr} (h : ∀ e ∈ upToFailure o es, (markup? o e).isSome = true) :
    ∀ e ∈ es, (markup? o e).isSome = true := by
  induction es with
  | nil => nofun
  | cons e es ih =>
    rw [upToFailure, List.forall_mem_cons] at h
    rw [if_pos h.1] at h
    exact List.forall_mem_cons.mpr ⟨h.1, ih h.2⟩

/-- Each element has one expression to typeset. -/
lemma accounts_mapM {f : α → Rendering β} {expr : α → Expr}
    (hf : ∀ a, Accounts o (f a) [⟨.formula, expr a⟩] fun _ => True) (l : List α) :
    Accounts o (l.mapM f) ((l.map expr).map (⟨.formula, ·⟩)) fun _ => True := by
  induction l with
  | nil => exact accounts_pure trivial
  | cons a l ih =>
    rw [List.mapM_cons]
    refine (hf a).bind fun b _ => ?_
    exact ih.bind_pure fun _ _ => trivial

end Rendering

/-! ### Reports without missing formulas -/

/-- Every formula is there, and the only steps without one are the remarks. -/
structure Report.Draft.Complete (remarks : List String) (d : Report.Draft) : Prop where
  formulas : ∀ f ∈ d.formulas, f.2.isSome = true
  portrait : d.portrait.formula.isSome = true
  steps : ∀ s ∈ d.steps, s.latex = none → s.description ∈ remarks

namespace Report

open Rendering

/-- What is typeset for the body of a report, and the function for its portrait. -/
def typesettings (body : List Expr) (f : Expr) : List Typesetting := body.map (⟨.formula, ·⟩) ++ [⟨.function, f⟩]

variable {text : String} {f : Expr}

lemma accounts_portrait (hread : Formula.read o text = .ok f) :
    Accounts o (Portrait.ofText o text) [⟨.function, f⟩] fun p => AllSet o [⟨.function, f⟩] → p.formula.isSome = true := by
  unfold Portrait.ofText
  rw [hread]
  show Accounts o (Portrait.ofExpr o f) _ _
  refine accounts_calc_bind fun t => ?_
  refine (accounts_record .function f).bind_pure fun m hm hset => ?_
  subst hm
  simpa using hset _ List.mem_cons_self

/-- All expressions of the body and the function can be typeset. -/
lemma exists_markups {body : List Expr} (h : AllSet o (typesettings body f)) :
    (∀ e ∈ body, ∃ m, markup? o e = some m) ∧ AllSet o [⟨.function, f⟩] := by
  obtain ⟨hbody, hf⟩ := List.forall_mem_append.mp h
  refine ⟨fun e he => ?_, hf⟩
  exact Option.isSome_iff_exists.mp (hbody ⟨.formula, e⟩ (List.mem_map.mpr ⟨e, he, rfl⟩))

/-- The failures in typesetting the body and the function are on record, and without any the draft is complete. -/
def Accounted (o : Overflow) (draft : Rendering Draft) (body : List Expr) (f : Expr) (remarks : List String) : Prop :=
  Accounts o draft (typesettings body f) fun d => AllSet o (typesettings body f) → d.Complete remarks

variable (hread : Formula.read o text = .ok f)
include hread

lemma accounted_partials (g : Gradient) : Accounted o (ofPartials o text g) [g.function, g.fx, g.fy] f
    ["Each partial derivative measures the rate of change along a single variable."] := by
  refine accounts_typeset_bind <| accounts_typeset_bind <| accounts_typeset_bind ?_
  refine (accounts_portrait hread).bind fun p hp => accounts_calc_bind fun r => accounts_pure fun hset => ?_
  obtain ⟨hbody, hf⟩ := exists_markups hset
  simp only [List.forall_mem_cons] at hbody
  obtain ⟨⟨t, ht⟩, ⟨tx, htx⟩, ⟨ty, hty⟩, -⟩ := hbody
  exact ⟨by simp [partialsMarkup, htx, hty], hp hf,
    by simp [Step.identify, Step.display, Step.latex, Step.description, ht, htx, hty]⟩

lemma accounted_gradient (g : Gradient) : Accounted o (ofGradient o text g) [g.function, g.fx, g.fy] f
    ["The gradient points in the direction of steepest increase of the function."] := by
  refine accounts_typeset_bind <| accounts_typeset_bind <| accounts_typeset_bind ?_
  refine (accounts_portrait hread).bind fun p hp => accounts_calc_bind fun r => accounts_pure fun hset => ?_
  obtain ⟨hbody, hf⟩ := exists_markups hset
  simp only [List.forall_mem_cons] at hbody
  obtain ⟨⟨t, ht⟩, ⟨tx, htx⟩, ⟨ty, hty⟩, -⟩ := hbody
  exact ⟨by simp [gradientMarkup, htx, hty], hp hf, by
    simp [partialsMarkup, gradientMarkup, Step.identify, Step.display, Step.latex, Step.description, ht, htx, hty]⟩

lemma accounted_pointValue (v : PointValue) :
    Accounted o (ofPointValue o text v) [v.function, v.x, v.y, v.resultExpr] f
      ["This value is the height of the surface z = f(x,y) at the point (x0, y0)."] := by
  refine accounts_typeset_bind <| accounts_typeset_bind <| accounts_typeset_bind <| accounts_typeset_bind ?_
  refine accounts_calc_bind fun r => accounts_calc_bind fun rx => accounts_calc_bind fun ry => ?_
  refine (accounts_portrait hread).bind_pure fun p hp hset => ?_
  obtain ⟨hbody, hf⟩ := exists_markups hset
  simp only [List.forall_mem_cons] at hbody
  obtain ⟨⟨t, ht⟩, ⟨tx, htx⟩, ⟨ty, hty⟩, ⟨tv, htv⟩, -⟩ := hbody
  exact ⟨by simp [pointValueMarkup, htx, hty, htv], hp hf,
    by simp [pointMarkup, Step.identify, Step.display, Step.latex, Step.description, ht, htx, hty, htv]⟩

lemma accounted_definiteIntegral (i : DefiniteIntegral) : Accounted o (ofDefiniteIntegral o text i)
    [i.function, i.value, i.region.left, i.region.right, i.region.bottom, i.region.top] f [] := by
  refine accounts_typeset_bind <| accounts_typeset_bind <| accounts_typeset_bind <| accounts_typeset_bind <|
    accounts_typeset_bind <| accounts_typeset_bind ?_
  refine (accounts_portrait hread).bind fun p hp => accounts_calc_bind fun r => accounts_pure fun hset => ?_
  obtain ⟨hbody, hf⟩ := exists_markups hset
  simp only [List.forall_mem_cons] at hbody
  obtain ⟨⟨t, ht⟩, ⟨tv, htv⟩, ⟨tl, htl⟩, ⟨tr, htr⟩, ⟨tb, htb⟩, ⟨tt, htt⟩, -⟩ := hbody
  exact ⟨by simp [ht, htv, htl, htr, htb, htt], hp hf,
    by simp [Step.identify, Step.display, Step.latex, Step.description, ht, htv, htl, htr, htb, htt]⟩

lemma accounted_indefiniteIntegral (i : IndefiniteIntegral) :
    Accounted o (ofIndefiniteIntegral o text i) [i.function, i.inner, i.outer] f
      ["Without limits, the result is a family of antiderivatives."] := by
  refine accounts_typeset_bind <| accounts_typeset_bind <| accounts_typeset_bind ?_
  refine (accounts_portrait hread).bind fun p hp => accounts_calc_bind fun r => accounts_calc_bind fun r' => ?_
  refine accounts_pure fun hset => ?_
  obtain ⟨hbody, hf⟩ := exists_markups hset
  simp only [List.forall_mem_cons] at hbody
  obtain ⟨⟨t, ht⟩, ⟨ti, hti⟩, ⟨ta, hta⟩, -⟩ := hbody
  exact ⟨by simp [innerMarkup, outerMarkup, doubleMarkup, ht, hti, hta], hp hf,
    by simp [innerMarkup, outerMarkup, Step.identify, Step.display, Step.latex, Step.description, ht, hti, hta]⟩

lemma accounted_criticalPoints (c : CriticalPoints) : Accounted o (ofCriticalPoints o text c) [c.fx, c.fy] f
    ["Classify: local minimum, local maximum or saddle point."] := by
  refine accounts_typeset_bind <| accounts_typeset_bind ?_
  refine (accounts_portrait hread).bind_pure fun p hp hset => ?_
  obtain ⟨hbody, hf⟩ := exists_markups hset
  simp only [List.forall_mem_cons] at hbody
  obtain ⟨⟨tx, htx⟩, ⟨ty, hty⟩, -⟩ := hbody
  exact ⟨by simp [gradientMarkup, htx, hty], hp hf,
    by simp [criticalSteps, Step.display, Step.latex, Step.description]⟩

omit hread

/-! ### Points of a constrained problem -/

def pointParts (p : ConstrainedPoint) : List Expr := [p.x, p.y, p.multiplier]

lemma accounts_constrainedPoint (p : ConstrainedPoint) :
    Accounts o (constrainedPointMarkup o p) ((upToFailure o (pointParts p)).map (⟨.formula, ·⟩)) fun m =>
      m.isSome = true ↔ ∀ e ∈ pointParts p, (markup? o e).isSome = true := by
  simp only [pointParts, upToFailure, List.forall_mem_cons]
  refine accounts_typeset_bind ?_
  cases hx : markup? o p.x with
  | none => exact accounts_pure (by simp)
  | some x =>
    refine accounts_typeset_bind ?_
    cases hy : markup? o p.y with
    | none => exact accounts_pure (by simp)
    | some y =>
      refine accounts_typeset_bind ?_
      cases hl : markup? o p.multiplier with
      | none => exact accounts_pure (by simp)
      | some l => exact accounts_pure (by simp)

lemma accounts_solutionSet (done : List String) (ps : List ConstrainedPoint) :
    Accounts o (solutionSetFrom o done ps) ((upToFailure o (ps.flatMap pointParts)).map (⟨.formula, ·⟩)) fun m =>
      m.isSome = true ↔ ∀ e ∈ ps.flatMap pointParts, (markup? o e).isSome = true := by
  induction ps generalizing done with
  | nil => exact accounts_pure (by simp)
  | cons p ps ih =>
    rw [List.flatMap_cons]
    by_cases hp : ∀ e ∈ pointParts p, (markup? o e).isSome = true
    · rw [upToFailure_append_of_set hp, List.map_append]
      refine (accounts_constrainedPoint p).bind fun m hm => ?_
      obtain ⟨t, rfl⟩ := Option.isSome_iff_exists.mp (hm.mpr hp)
      exact (ih _).mono fun r hr => hr.trans (by rw [List.forall_mem_append, and_iff_right hp])
    · rw [upToFailure_append_of_failure hp, ← List.append_nil (List.map _ _)]
      refine (accounts_constrainedPoint p).bind fun m hm => ?_
      obtain rfl : m = none := Option.not_isSome_iff_eq_none.mp fun hsome => hp (hm.mp hsome)
      exact accounts_pure (by rw [List.forall_mem_append]; simp [hp])

include hread

lemma accounted_constrainedExtrema (e : ConstrainedExtrema) : Accounted o (ofConstrainedExtrema o text e)
    (upToFailure o (e.points.flatMap pointParts) ++ [e.lagrangian, e.lx, e.ly, e.lmultiplier, e.function, e.constraint]) f
      [] := by
  unfold Accounted typesettings
  rw [List.map_append, List.append_assoc]
  refine (accounts_solutionSet [] e.points).bind fun points hpoints => ?_
  refine accounts_typeset_bind <| accounts_typeset_bind <| accounts_typeset_bind <| accounts_typeset_bind <|
    accounts_typeset_bind <| accounts_typeset_bind ?_
  refine accounts_calc_bind fun rf => accounts_calc_bind fun rg => ?_
  refine (accounts_portrait hread).bind fun p hp => accounts_calc_bind fun r => accounts_pure fun hset => ?_
  rw [← List.append_assoc, ← List.map_append] at hset
  obtain ⟨hbody, hf⟩ := exists_markups hset
  simp only [List.forall_mem_append, List.forall_mem_cons] at hbody
  obtain ⟨hparts, ⟨tl, htl⟩, ⟨tx, htx⟩, ⟨ty, hty⟩, ⟨tm, htm⟩, -⟩ := hbody
  have hall := upToFailure_set fun e he => Option.isSome_iff_exists.mpr (hparts e he)
  obtain ⟨t, rfl⟩ := Option.isSome_iff_exists.mp (hpoints.mpr hall)
  exact ⟨by simp, hp hf, by simp [systemMarkup, Step.display, Step.latex, Step.description, htl, htx, hty, htm]⟩

omit hread

/-! ### Domains -/

lemma accounts_conditionOn (condition : String → String) (e : Expr) :
    Accounts o (conditionOn o condition e) [⟨.formula, e⟩] fun _ => True :=
  (accounts_typeset e).bind_pure fun _ _ => trivial

lemma accounts_conditions (condition : String → String) (es : List Expr) :
    Accounts o (es.mapM (conditionOn o condition)) (es.map (⟨.formula, ·⟩)) fun _ => True := by
  have h := accounts_mapM (o := o) (accounts_conditionOn condition) es
  rwa [List.map_id'] at h

def domainParts (d : DomainAnalysis) : List Expr := d.denominator.toList ++ (d.logArguments ++ d.rootArguments)

lemma accounts_domainConditions (d : DomainAnalysis) :
    Accounts o (domainConditions o d) ((domainParts d).map (⟨.formula, ·⟩)) fun _ => True := by
  rw [domainParts, List.map_append, List.map_append]
  refine (accounts_conditions _ _).bind fun _ _ => (accounts_conditions _ _).bind fun _ _ => ?_
  exact (accounts_conditions _ _).bind_pure fun _ _ => trivial

/-- The coordinates of the point where a limit is asked for. -/
def limitParts : Option (Expr × Expr) → List Expr
  | none => []
  | some (a, b) => [a, b]

lemma accounts_limitStep (point : Option (Expr × Expr)) :
    Accounts o (limitStep o point) ((limitParts point).map (⟨.formula, ·⟩)) fun s => s.description = limitStepText ∧
      ((∀ e ∈ limitParts point, ∃ m, markup? o e = some m) → point.isSome = true → s.latex.isSome = true) := by
  cases point with
  | none => exact accounts_pure ⟨rfl, nofun⟩
  | some point =>
    refine accounts_typeset_bind <| accounts_typeset_bind <| accounts_pure ⟨rfl, fun h _ => ?_⟩
    simp only [limitParts, List.forall_mem_cons] at h
    obtain ⟨⟨a, ha⟩, ⟨b, hb⟩, -⟩ := h
    simp [Step.display, Step.latex, ha, hb]

include hread

lemma accounted_domain (point : Option (Expr × Expr)) (d : DomainAnalysis) :
    Accounted o (ofDomain o text point d) (domainParts d ++ (d.function :: limitParts point)) f
      (["Analyze the domain conditions (division by zero, log > 0, sqrt ≥ 0).",
        "Estimate the range by evaluating the function over a grid."] ++
          if point.isSome then [] else [limitStepText]) := by
  unfold Accounted typesettings
  rw [List.map_append, List.append_assoc]
  refine (accounts_domainConditions d).bind fun conditions _ => accounts_typeset_bind ?_
  refine (accounts_limitStep point).bind fun s hs => (accounts_portrait hread).bind_pure fun p hp hset => ?_
  rw [← List.append_assoc, ← List.map_append] at hset
  obtain ⟨hbody, hf⟩ := exists_markups hset
  simp only [List.forall_mem_append, List.forall_mem_cons] at hbody
  obtain ⟨-, ⟨t, ht⟩, hlimit⟩ := hbody
  refine ⟨nofun, hp hf, ?_⟩
  simp only [List.forall_mem_cons]
  refine ⟨by simp [Step.identify, Step.display, Step.latex, ht], by simp [Step.description], by simp [Step.description],
    fun hnone => ?_, nofun⟩
  cases point with
  | none => simp [hs.1]
  | some point =>
    have hsome := hs.2 hlimit rfl
    rw [hnone] at hsome
    cases hsome

end Report

end PlaneCalculus
