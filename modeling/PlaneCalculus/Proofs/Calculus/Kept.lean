import PlaneCalculus.Calculus.Antiderivative
import PlaneCalculus.Proofs.Calculus.Attempt
import PlaneCalculus.Proofs.Expr.Kept

/-! A property that the constructors keep passes from an expression to its multiplied out form, to what is left when a symbol
is replaced, to its derivatives and to its antiderivatives. -/

namespace PlaneCalculus

open Calc PlaneCalculus.Expr

variable {G : Expr → Prop} {o : Overflow}

/-! ### Derivatives -/

namespace Func

variable (K : Kept o G) {u : Expr} (hu : G u)
include K hu

lemma square_kept : Meets anyHalt (square o u) G := K.pow hu (K.int (by decide))

lemma reciprocal_kept : Meets anyHalt (reciprocal o u) G := K.pow hu (K.int (by decide))

lemma oneMinusSquare_kept : Meets anyHalt (oneMinusSquare o u) G :=
  (square_kept K hu).bind fun _ hs => K.sub (K.int (by decide)) hs

lemma squarePlusOne_kept : Meets anyHalt (squarePlusOne o u) G :=
  (square_kept K hu).bind fun _ hs => K.sum_pair hs (K.int (by decide))

lemma inverseSecantRadical_kept : Meets anyHalt (inverseSecantRadical o u) G :=
  (square_kept K hu).bind fun _ hs => (reciprocal_kept K hs).bind fun _ hr =>
    (K.sub (K.int (by decide)) hr).bind fun _ hd => (K.sqrt hd).bind fun _ hroot =>
      (square_kept K hu).bind fun _ hs => K.product_pair hs hroot

lemma derivativeAt_kept (f : Func) : Meets anyHalt (derivativeAt o u f) G := by
  have hof (g : Func) : G (g.of u) := K.of g hu
  have hrec {x : Expr} (hx : G x) : Meets anyHalt (reciprocal o x) G := reciprocal_kept K hx
  have hneg {x : Expr} (hx : G x) : Meets anyHalt (Expr.neg o x) G := K.neg hx
  have hnegRec {x : Expr} (hx : G x) : Meets anyHalt (reciprocal o x >>= Expr.neg o) G :=
    (hrec hx).bind fun _ hr => hneg hr
  have hrootRec {x : Expr} (hx : G x) : Meets anyHalt (Expr.sqrt o x >>= reciprocal o) G :=
    (K.sqrt hx).bind fun _ hr => hrec hr
  cases f with
  | sin => exact hof cos
  | sinh => exact hof cosh
  | cosh => exact hof sinh
  | exp => exact hof exp
  | cos => exact hneg (hof sin)
  | tan => exact squarePlusOne_kept K (hof tan)
  | csc => exact (K.product_pair (hof cot) (hof csc)).bind fun _ => hneg
  | csch => exact (K.product_pair (hof coth) (hof csch)).bind fun _ => hneg
  | sech => exact (K.product_pair (hof tanh) (hof sech)).bind fun _ => hneg
  | sec => exact K.product_pair (hof tan) (hof sec)
  | cot => exact (squarePlusOne_kept K (hof cot)).bind fun _ => hneg
  | asin => exact (oneMinusSquare_kept K hu).bind fun _ => hrootRec
  | acos => exact (oneMinusSquare_kept K hu).bind fun _ hd => (K.sqrt hd).bind fun _ => hnegRec
  | atan => exact (squarePlusOne_kept K hu).bind fun _ => hrec
  | acsc => exact (inverseSecantRadical_kept K hu).bind fun _ => hnegRec
  | asec => exact (inverseSecantRadical_kept K hu).bind fun _ => hrec
  | acot => exact (squarePlusOne_kept K hu).bind fun _ => hnegRec
  | tanh => exact oneMinusSquare_kept K (hof tanh)
  | coth => exact oneMinusSquare_kept K (hof coth)
  | asinh => exact (squarePlusOne_kept K hu).bind fun _ => hrootRec
  | acosh => exact (square_kept K hu).bind fun _ hs => (K.sum_pair hs (K.int (by decide))).bind fun _ => hrootRec
  | atanh => exact (oneMinusSquare_kept K hu).bind fun _ => hrec
  | log => exact hrec hu
  | abs => exact (hrec (hof abs)).bind fun _ hr => K.product_pair hu hr

end Func

namespace Expr

lemma productRule_all (hproduct : ∀ args, (∀ e ∈ args, G e) → Meets anyHalt (Expr.product o args) G)
    {before fs ds : List Expr} (hb : ∀ e ∈ before, G e) (hf : ∀ e ∈ fs, G e) (hd : ∀ e ∈ ds, G e) :
    Meets anyHalt (productRule o before fs ds) fun rs => ∀ r ∈ rs, G r := by
  induction fs generalizing before ds with
  | nil => nofun
  | cons f fs ih =>
    cases ds with
    | nil => nofun
    | cons d ds =>
      rw [List.forall_mem_cons] at hf hd
      have hbefore : ∀ e ∈ before ++ [f], G e := List.forall_mem_append.mpr ⟨hb, by simpa using hf.1⟩
      refine (ih hbefore hf.2 hd.2).bind fun rest hrest => ?_
      split
      · exact hrest
      · have hall : ∀ e ∈ before ++ fs ++ [d], G e :=
          List.forall_mem_append.mpr ⟨List.forall_mem_append.mpr ⟨hb, hf.2⟩, by simpa using hd.1⟩
        exact (hproduct _ hall).bind fun p hp => List.forall_mem_cons.mpr ⟨hp, hrest⟩

section Derivative

variable {v : String}

mutual

lemma derivative_kept (K : Kept o G) : (e : Expr) → G e → Meets anyHalt (derivative o v e) G
  | .num _, _ => K.int (by decide)
  | .symbol x, _ => by
    show G (if x == v then int 1 else int 0)
    split <;> exact K.int (by decide)
  | .constant _, _ => K.int (by decide)
  | .plus ts, h => by
    simp only [derivative]
    split
    · exact K.int (by decide)
    · exact (derivatives_kept K ts (K.plus h)).bind fun _ hds => K.sum hds
  | .times fs, h => by
    simp only [derivative]
    split
    · exact K.int (by decide)
    · exact (derivatives_kept K fs (K.times h)).bind fun _ hds =>
        (productRule_all (fun _ => K.product) (List.forall_mem_nil _) (K.times h) hds).bind fun _ hps => K.sum hps
  | .power b e, hpower => by
    obtain ⟨hb, he⟩ := K.power hpower
    have hlog : G (Func.log.of b) := K.of .log hb
    have hminus : G (int (-1)) := K.int (by decide)
    simp only [derivative]
    split
    · exact K.int (by decide)
    · split
      · refine (K.sum_pair he hminus).bind fun x hx => (K.pow hb hx).bind fun l hl => ?_
        exact (derivative_kept K b hb).bind fun d hd => K.product (by simpa using ⟨he, hl, hd⟩)
      · split
        · exact (derivative_kept K e he).bind fun d hd => K.product (by simpa using ⟨hpower, hlog, hd⟩)
        · refine (derivative_kept K e he).bind fun d hd => (K.product_pair hd hlog).bind fun first hfirst => ?_
          refine (derivative_kept K b hb).bind fun db hdb => (K.pow hb hminus).bind fun r hr => ?_
          refine (K.product (by simpa using ⟨he, hdb, hr⟩)).bind fun second hsecond => ?_
          exact (K.sum_pair hfirst hsecond).bind fun s hs => K.product_pair hpower hs
  | .call f a, h => by
    have ha := K.call h
    simp only [derivative]
    split
    · exact K.int (by decide)
    · exact (derivative_kept K a ha).bind fun d hd => (Func.derivativeAt_kept K ha f).bind fun x hx =>
        K.product_pair hx hd

lemma derivatives_kept (K : Kept o G) : (es : List Expr) → (∀ e ∈ es, G e) →
    Meets anyHalt (derivatives o v es) fun rs => ∀ r ∈ rs, G r
  | [], _ => List.forall_mem_nil _
  | e :: es, h => by
    obtain ⟨he, hes⟩ := List.forall_mem_cons.mp h
    simp only [derivatives]
    exact (derivative_kept K e he).bind fun _ hr => (derivatives_kept K es hes).bind fun _ hrs =>
      List.forall_mem_cons.mpr ⟨hr, hrs⟩

end

end Derivative

/-! ### Antiderivatives -/

section Antiderivative

open Attempt

variable (K : Kept o G) {v : String} {b e u a : Expr}
include K

lemma doubledSine_kept (hu : G u) (ha : G a) :
    Meets anyHalt (doubledSine o u a) G :=
  (K.product_pair (K.int (by decide)) hu).bind fun _ hd =>
    (K.product_pair (K.int (by decide)) ha).bind fun _ hq => K.div (K.of .sin hd) hq

lemma slope_kept (hu : G u) : Yields G (slope o v u) :=
  (yields_lift (derivative_kept K u hu)).bind fun _ ha => (yields_guard _).bind fun _ _ => yields_pure ha

lemma squaredCallTable_kept (hv : G (.symbol v)) (hu : G u) (ha : G a) (f : Func) :
    Yields G (squaredCallTable o v u a f) := by
  have hhalf : Meets anyHalt (div o (.symbol v) (int 2)) G := K.div hv (K.int (by decide))
  cases f with
  | sin => exact (yields_lift hhalf).bind fun _ hh => (yields_lift (doubledSine_kept K hu ha)).bind fun _ hs =>
      yields_lift (K.sub hh hs)
  | cos => exact (yields_lift hhalf).bind fun _ hh => (yields_lift (doubledSine_kept K hu ha)).bind fun _ hs =>
      yields_lift (K.sum_pair hh hs)
  | sec => exact yields_lift (K.div (K.of .tan hu) ha)
  | csc => exact (yields_lift (K.div (K.of .cot hu) ha)).bind fun _ hd => yields_lift (K.neg hd)
  | _ => exact yields_failure

lemma squaredCallRule_kept (hv : G (.symbol v)) (hb : G b) :
    Yields G (squaredCallRule o v b e) := by
  refine (yields_guard _).bind fun _ _ => ?_
  cases b with
  | call f u => exact (slope_kept K (K.call hb)).bind fun a ha => squaredCallTable_kept K hv (K.call hb) ha f
  | num | symbol | constant | plus | times | power => exact yields_failure

lemma inverseQuadraticRule_kept (hv : G (.symbol v)) (hb : G b) :
    Yields G (inverseQuadraticRule o v b e) := by
  refine (yields_guard _).bind fun _ _ => ?_
  split
  · next first c =>
    have hc : G (.num c) := K.plus hb (.num c) (by simp)
    refine (yields_lift (K.pow hv (K.int (by decide)))).bind fun _ _ => (yields_guard _).bind fun _ _ => ?_
    refine (yields_guard _).bind fun _ _ => (yields_lift (K.sqrt hc)).bind fun root hroot => ?_
    exact (yields_lift (K.div hv hroot)).bind fun _ hd => yields_lift (K.div (K.of .atan hd) hroot)
  · exact yields_failure

lemma linearPowerRule_kept (hb : G b) (he : G e) :
    Yields G (linearPowerRule o v b e) := by
  refine (slope_kept K hb).bind fun a ha => ?_
  split
  · exact yields_lift (K.div (K.of .log hb) ha)
  · refine (yields_lift (K.sum_pair he (K.int (by decide)))).bind fun r hr => ?_
    refine (yields_lift (K.pow hb hr)).bind fun p hp => ?_
    exact (yields_lift (K.product_pair hr ha)).bind fun d hd => yields_lift (K.div hp hd)

lemma exponentialRule_kept (h : G (.power b e)) : Yields G (exponentialRule o v b e) :=
  (slope_kept K (K.power h).2).bind fun _ ha =>
    (yields_lift (K.product_pair ha (K.of .log (K.power h).1))).bind fun _ hd => yields_lift (K.div h hd)

lemma powerRule_kept (hv : G (.symbol v)) (h : G (.power b e)) :
    Yields G (powerRule o v b e) := by
  obtain ⟨hb, he⟩ := K.power h
  unfold powerRule
  split
  · exact (squaredCallRule_kept K hv hb).orElse ((inverseQuadraticRule_kept K hv hb).orElse (linearPowerRule_kept K hb he))
  · split
    · exact exponentialRule_kept K h
    · exact yields_failure

lemma callTable_kept (hu : G u) (f : Func) : Yields G (callTable o u f) := by
  have hof (g : Func) : G (g.of u) := K.of g hu
  cases f with
  | sin => exact yields_lift (K.neg (hof .cos))
  | tan => exact yields_lift (K.neg (K.of .log (hof .cos)))
  | log => exact (yields_lift (K.product_pair hu (hof .log))).bind fun _ hp => yields_lift (K.sub hp hu)
  | cos => exact yields_pure (hof .sin)
  | cot => exact yields_pure (K.of .log (hof .sin))
  | sinh => exact yields_pure (hof .cosh)
  | cosh => exact yields_pure (hof .sinh)
  | tanh => exact yields_pure (K.of .log (hof .cosh))
  | exp => exact yields_pure (hof .exp)
  | _ => exact yields_failure

lemma factorRule_kept (hv : G (.symbol v)) (he : G e) : Yields G (factorRule o v e) := by
  cases e with
  | symbol x => exact (yields_lift (K.pow he (K.int (by decide)))).bind fun _ hs =>
      yields_lift (K.div hs (K.int (by decide)))
  | power b e => exact powerRule_kept K hv he
  | call f u => exact (slope_kept K (K.call he)).bind fun a ha => (callTable_kept K (K.call he) f).bind fun _ ht =>
      yields_lift (K.div ht ha)
  | num | constant | plus | times => exact yields_failure

omit K in
lemma splitRepeatable_kept {before fs : List Expr} (hb : ∀ e ∈ before, G e) (hf : ∀ e ∈ fs, G e) :
    Yields (fun r => ∀ e ∈ r.1 ++ r.2.1 :: r.2.2, G e) (splitRepeatable o v before fs) := by
  induction fs generalizing before with
  | nil => exact yields_failure
  | cons f fs ih =>
    have hall := List.forall_mem_append.mpr ⟨hb, hf⟩
    rw [List.forall_mem_cons] at hf
    refine (yields_lift (meets_anyHalt_true _)).bind fun r _ => ?_
    split
    · exact yields_pure hall
    · exact ih (List.forall_mem_append.mpr ⟨hb, by simpa using hf.1⟩) hf.2

variable {integrate : Expr → Attempt Expr} (hi : ∀ e, G e → Yields G (integrate e))
include hi

lemma partsLoop_kept (n : Nat) {sign : Int} (hs : sign.natAbs = 1) {p g : Expr} {terms : List Expr}
    (hp : G p) (hg : G g) (ht : ∀ t ∈ terms, G t) :
    Yields G (partsLoop o v integrate n sign p g terms) := by
  induction n generalizing sign p g terms with
  | zero => exact yields_failure
  | succ n ih =>
    have hsign : G (int sign) := K.int (by omega)
    refine (yields_lift (K.product (by simpa using ⟨hsign, hp, hg⟩))).bind fun t hterm => ?_
    have hall : ∀ u ∈ terms ++ [t], G u := List.forall_mem_append.mpr ⟨ht, by simpa using hterm⟩
    refine (yields_lift (derivative_kept K p hp)).bind fun d hd => ?_
    split
    · exact yields_lift (K.sum hall)
    · exact (hi g hg).bind fun h hh => ih (by omega) hd hh hall

lemma partsRule_kept (hv : G (.symbol v)) {fs : List Expr} (hf : ∀ e ∈ fs, G e) :
    Yields G (partsRule o v integrate fs) := by
  have hnone : ∀ e ∈ ([] : List Expr), G e := nofun
  refine (splitRepeatable_kept hnone hf).bind fun ⟨before, f, after⟩ h => ?_
  obtain ⟨hbefore, hrest⟩ := List.forall_mem_append.mp h
  obtain ⟨hfactor, hafter⟩ := List.forall_mem_cons.mp hrest
  refine (yields_lift (K.product (List.forall_mem_append.mpr ⟨hbefore, hafter⟩))).bind fun p hp => ?_
  refine (yields_guard _).bind fun _ _ => (factorRule_kept K hv hfactor).bind fun g hg => ?_
  exact partsLoop_kept K hi _ rfl hp hg hnone

lemma expandedRule_kept (he : G e) : Yields G (expandedRule o integrate e) :=
  (yields_lift (expand_kept K e he)).bind fun x hx => (yields_guard _).bind fun _ _ => hi x hx

lemma productIntegral_kept (hv : G (.symbol v)) {fs : List Expr} (hf : ∀ e ∈ fs, G e) :
    Yields G (productIntegral o v integrate fs) := by
  have hpart (q : Expr → Bool) : ∀ e ∈ fs.filter q, G e := fun e he => hf e (List.mem_filter.mp he).1
  unfold productIntegral
  rw [List.partition_eq_filter_filter]
  refine (yields_lift (K.product (hpart _))).bind fun c hc => (yields_lift (K.product (hpart _))).bind fun d hd => ?_
  have hinner {alone : Attempt Expr} (ha : Yields G alone) : Yields G
      (alone <|> expandedRule o integrate d <|> partsRule o v integrate (fs.filter (! ·.isConstantIn v))) :=
    ha.orElse ((expandedRule_kept K hi hd).orElse (partsRule_kept K hi hv (hpart _)))
  refine (hinner ?_).bind fun x hx => yields_lift (K.product_pair hc hx)
  split
  · next f hsingle =>
    have hmem : f ∈ fs.filter (! ·.isConstantIn v) := by
      rw [show fs.filter (! ·.isConstantIn v) = [f] from hsingle]
      exact List.mem_singleton_self f
    exact factorRule_kept K hv (hpart _ f hmem)
  · exact yields_failure

omit hi

lemma antiderivativeAt_kept (hv : G (.symbol v)) (n : Nat) (he : G e) :
    Yields G (antiderivativeAt o v n e) := by
  induction n generalizing e with
  | zero => exact trivial
  | succ n ih =>
    have hi (e : Expr) (he : G e) : Yields G (antiderivativeAt o v n e) := ih he
    unfold antiderivativeAt
    split
    · exact yields_lift (K.product_pair he hv)
    · split
      · next ts _ => exact (yields_mapM fun t ht => hi t (K.plus he t ht)).bind fun us hus =>
          yields_lift (K.sum hus)
      · next fs _ => exact productIntegral_kept K hi hv (K.times he)
      · exact (factorRule_kept K hv he).orElse (expandedRule_kept K hi he)

lemma antiderivative_kept (hv : G (.symbol v)) (he : G e) :
    Meets anyHalt (antiderivative o v e) fun r => ∀ a, r = some a → G a :=
  antiderivativeAt_kept K hv _ he

end Antiderivative

end Expr

end PlaneCalculus
