import PlaneCalculus.Proofs.Calculus.Attempt
import PlaneCalculus.Proofs.Expr.Expansion

/-! Which polynomials the rules of integration cover. Sums of monomials are always integrated, so an integrand is covered
as soon as multiplying out changes it. -/

namespace PlaneCalculus.Expr

open Calc Attempt Formula

variable {o : Overflow} {v : String}

/-! ### Rules for single factors -/

lemma slope_ends (u : Expr) : Meets (refusal o) (slope o v u).run fun _ => True := by
  refine meets_bind_lift ((derivative_consistent v u).ends o) fun a _ => ?_
  by_cases hg : (!a.isZero && a.isConstantIn v) = true
  · rw [guard_true hg]
    trivial
  · exact (declines_guard hg).bind _ |>.mono fun _ _ => trivial

lemma slope_symbol : Applies o (slope o v (.symbol v)) := by
  have hd : derivative o v (.symbol v) = .ok (int 1) := by simp [derivative, pure, Except.pure]
  unfold slope
  rw [hd]
  rfl

lemma linearPowerRule_applies {b e : Expr} (h : Applies o (slope o v b)) : Applies o (linearPowerRule o v b e) := by
  refine h.bind fun a => ?_
  split
  · exact applies_lift (div_consistent _ a)
  · exact .bind_lift (sum_consistent _) fun r => .bind_lift (pow_consistent b r) fun p =>
      .bind_lift (product_consistent _) fun d => applies_lift (div_consistent p d)

lemma linearPowerRule_cases (b e : Expr) : Applies o (linearPowerRule o v b e) ∨ Declines o (linearPowerRule o v b e) := by
  rcases applies_or_declines (slope_ends b) with h | h
  · exact Or.inl (linearPowerRule_applies h)
  · exact Or.inr (h.bind _)

lemma squaredCallRule_declines {b e : Expr} (hb : ∀ f u, b ≠ .call f u) : Declines o (squaredCallRule o v b e) := by
  by_cases he : e.isInt 2 = true
  · unfold squaredCallRule
    rw [guard_true he]
    cases b with
    | call f u => exact absurd rfl (hb f u)
    | num | symbol | constant | plus | times | power => rfl
  · exact (declines_guard he).bind _

lemma inverseQuadraticRule_declines {b e : Expr} (h : e.isInt (-1) = false ∨ ∀ ts, b ≠ .plus ts) :
    Declines o (inverseQuadraticRule o v b e) := by
  by_cases he : e.isInt (-1) = true
  · unfold inverseQuadraticRule
    rw [guard_true he]
    have hb := h.resolve_left (by simp [he])
    cases b with
    | plus ts => exact absurd rfl (hb ts)
    | num | symbol | constant | times | power | call => rfl
  · exact (declines_guard he).bind _

lemma powerRule_linear {b e : Expr} {post : Option Expr → Prop} (he : e.isConstantIn v = true)
    (hb : ∀ f u, b ≠ .call f u) (hq : e.isInt (-1) = false ∨ ∀ ts, b ≠ .plus ts)
    (h : Meets (refusal o) (linearPowerRule o v b e).run post) : Meets (refusal o) (powerRule o v b e).run post := by
  unfold powerRule
  rw [if_pos he]
  exact (squaredCallRule_declines hb).orElse ((inverseQuadraticRule_declines hq).orElse h)

lemma factorRule_symbol (x : String) : Applies o (factorRule o v (.symbol x)) :=
  .bind_lift (pow_consistent _ _) fun p => applies_lift (div_consistent p _)

lemma factorRule_symbolPower {f : Expr} (hf : f.IsSymbolPower) (hv : f.isConstantIn v = false) :
    Applies o (factorRule o v f) := by
  cases f with
  | symbol x => exact factorRule_symbol x
  | power b e =>
    cases b with
    | symbol x =>
      cases e with
      | num n =>
        obtain rfl : x = v := by simpa [isConstantIn] using hv
        exact powerRule_linear rfl nofun (Or.inr nofun) (linearPowerRule_applies slope_symbol)
      | symbol | constant | plus | times | power | call => cases hf
    | num | constant | plus | times | power | call => cases hf
  | num | constant | plus | times | call => cases hf

/-! ### Products -/

def dependents (v : String) (fs : List Expr) : List Expr := fs.filter fun f => !f.isConstantIn v

def aloneRule (o : Overflow) (v : String) : List Expr → Attempt Expr
  | [f] => factorRule o v f
  | _ => failure

variable {integrate : Expr → Attempt Expr}

/-- What is tried with the dependent factors of a product and the product of them. -/
def innerRule (o : Overflow) (v : String) (integrate : Expr → Attempt Expr) (fs : List Expr) (d : Expr) : Attempt Expr :=
  aloneRule o v fs <|> expandedRule o integrate d <|> partsRule o v integrate fs

lemma productIntegral_eq (fs : List Expr) : productIntegral o v integrate fs = (do
    let constant ← product o (fs.filter (·.isConstantIn v))
    let dependent ← product o (dependents v fs)
    let inner ← innerRule o v integrate (dependents v fs) dependent
    product o [constant, inner]) := by
  unfold productIntegral
  rw [List.partition_eq_filter_filter]
  rfl

lemma productIntegral_meets {fs : List Expr} {post next : Option Expr → Prop} (hnone : post none → next none)
    (hsome : ∀ a b, post (some a) → next (some b))
    (h : ∀ d, product o (dependents v fs) = .ok d → Meets (refusal o) (innerRule o v integrate (dependents v fs) d).run post) :
    Meets (refusal o) (productIntegral o v integrate fs).run next := by
  rw [productIntegral_eq]
  refine meets_bind_lift ((product_consistent _).ends o) fun c _ => ?_
  refine meets_bind_lift ((product_consistent (dependents v fs)).ends o).self fun d hd => ?_
  refine meets_bind (h d hd) hnone fun a ha => ?_
  refine (meets_lift ((product_consistent [c, a]).ends o)).mono ?_
  rintro _ ⟨b, rfl, -⟩
  exact hsome a b ha

lemma productIntegral_applies {fs : List Expr}
    (h : ∀ d, product o (dependents v fs) = .ok d → Applies o (innerRule o v integrate (dependents v fs) d)) :
    Applies o (productIntegral o v integrate fs) :=
  productIntegral_meets nofun (fun _ _ _ => rfl) h

lemma productIntegral_declines {fs : List Expr}
    (h : ∀ d, product o (dependents v fs) = .ok d → Declines o (innerRule o v integrate (dependents v fs) d)) :
    Declines o (productIntegral o v integrate fs) :=
  productIntegral_meets (fun _ => rfl) nofun h

lemma expandedRule_applies {e : Expr}
    (h : Meets (refusal o) (expand o e) fun r => (r == e) = false ∧ Applies o (integrate r)) :
    Applies o (expandedRule o integrate e) := by
  refine meets_bind_lift h fun r ⟨hne, hr⟩ => ?_
  rw [guard_true (by simp [hne])]
  exact hr

lemma expandedRule_declines {e : Expr} (h : Meets (refusal o) (expand o e) fun r => (r == e) = true) :
    Declines o (expandedRule o integrate e) := by
  refine meets_bind_lift h fun r heq => ?_
  exact (declines_guard (by simp [heq])).bind _

lemma splitRepeatable_declines {fs : List Expr} (h : ∀ f ∈ fs, ∀ g u, f ≠ .call g u) (before : List Expr) :
    Declines o (splitRepeatable o v before fs) := by
  induction fs generalizing before with
  | nil => rfl
  | cons f fs ih =>
    rw [List.forall_mem_cons] at h
    have hf : isRepeatableFactor o v f = .ok false := by
      cases f with
      | call g u => exact absurd rfl (h.1 g u)
      | num | symbol | constant | plus | times | power => rfl
    unfold splitRepeatable
    rw [hf]
    exact ih h.2 _

lemma partsRule_declines {fs : List Expr} (h : ∀ f ∈ fs, ∀ g u, f ≠ .call g u) :
    Declines o (partsRule o v integrate fs) :=
  (splitRepeatable_declines h []).bind _

/-! ### Sums of monomials -/

lemma dependents_eq_nil {fs : List Expr} : dependents v fs = [] ↔ allConstantIn v fs = true := by
  induction fs with
  | nil => simp [dependents, allConstantIn]
  | cons f fs ih => cases hf : f.isConstantIn v <;> simp_all [dependents, allConstantIn]

lemma constant_applies (n : Nat) {e : Expr} (h : e.isConstantIn v = true) : Applies o (antiderivativeAt o v (n + 1) e) := by
  unfold antiderivativeAt
  rw [if_pos h]
  exact applies_lift (product_consistent _)

lemma IsSymbolPower.dependent {f : Expr} (h : f.IsSymbolPower) (hv : f.isConstantIn v = false) :
    f.baseExponent.1 = .symbol v := by
  cases f with
  | symbol x => simpa [isConstantIn, Expr.baseExponent] using hv
  | power b e =>
    obtain ⟨x, n, hx⟩ := h.baseExponent
    obtain ⟨rfl, rfl⟩ := Prod.mk.inj hx
    simpa [isConstantIn, Expr.baseExponent] using hv
  | num | constant | plus | times | call => cases h

lemma dependents_sublist (fs : List Expr) : (dependents v fs).Sublist (nonNumbers fs) := by
  have hd : dependents v fs = (nonNumbers fs).filter fun f => !f.isConstantIn v := by
    rw [nonNumbers, List.filter_filter]
    refine List.filter_congr fun f _ => ?_
    cases f <;> simp [isConstantIn, isNumber]
  exact hd ▸ List.filter_sublist

/-- Only one factor of a monomial can depend on the symbol. -/
lemma monomial_dependent {fs : List Expr} (h : IsMonomial (.times fs)) (hv : allConstantIn v fs = false) :
    ∃ f, dependents v fs = [f] ∧ f.IsSymbolPower ∧ f.isConstantIn v = false := by
  have hmem : ∀ f ∈ dependents v fs, f.IsSymbolPower ∧ f.isConstantIn v = false := by
    intro f hf
    obtain ⟨hf, hc⟩ := List.mem_filter.mp hf
    refine ⟨(h.loose f hf).resolve_left fun hn => ?_, by simpa using hc⟩
    obtain ⟨n, rfl⟩ := exists_num_of_isNumber hn
    cases hc
  have hnodup : ((dependents v fs).map fun f => f.baseExponent.1).Nodup := ((dependents_sublist fs).map _).nodup h.apart
  rcases hfs : dependents v fs with _ | ⟨f, _ | ⟨g, gs⟩⟩ <;> rw [hfs] at hmem hnodup
  · rw [dependents_eq_nil.mp hfs] at hv
    cases hv
  · exact ⟨f, rfl, hmem f List.mem_cons_self⟩
  · have hf := hmem f (by simp)
    have hg := hmem g (by simp)
    simp [hf.1.dependent hf.2, hg.1.dependent hg.2] at hnodup

lemma monomial_applies (n : Nat) {e : Expr} (h : e.IsMonomial) : Applies o (antiderivativeAt o v (n + 1) e) := by
  cases hc : e.isConstantIn v with
  | true => exact constant_applies n hc
  | false =>
    unfold antiderivativeAt
    rw [if_neg (by simp [hc])]
    cases e with
    | num => cases hc
    | symbol x => exact (factorRule_symbol x).orElse _
    | power b e =>
      have hf := (h.loose _ List.mem_cons_self).resolve_left nofun
      exact (factorRule_symbolPower hf hc).orElse _
    | times fs =>
      obtain ⟨f, hfs, hf, hv⟩ := monomial_dependent h hc
      refine productIntegral_applies fun d _ => ?_
      rw [hfs]
      exact (factorRule_symbolPower hf hv).orElse _
    | constant | plus | call => rcases h.loose _ List.mem_cons_self with h | h <;> cases h

lemma multipliedOut_applies (n : Nat) {e : Expr} (h : e.IsMultipliedOut) : Applies o (antiderivativeAt o v (n + 2) e) := by
  cases hc : e.isConstantIn v with
  | true => exact constant_applies _ hc
  | false =>
    cases e with
    | plus ts =>
      unfold antiderivativeAt
      rw [if_neg (by simp [hc])]
      exact (applies_mapM fun t ht => monomial_applies n (h t ht)).bind fun as => applies_lift (sum_consistent as)
    | num | symbol | constant | times | power | call => exact monomial_applies _ (h _ (List.mem_singleton_self _))

/-! ### Polynomials -/

mutual

/-- The terms of a sum and of the sums among them. -/
def summands : Expr → List Expr
  | .plus ts => summandsAll ts
  | e => [e]

def summandsAll : List Expr → List Expr
  | [] => []
  | e :: es => summands e ++ summandsAll es

end

lemma mem_summandsAll {t : Expr} {es : List Expr} : t ∈ summandsAll es ↔ ∃ e ∈ es, t ∈ e.summands := by
  induction es with
  | nil => simp [summandsAll]
  | cons e es ih => simp [summandsAll, ih]

/-- A product no rule applies to: its dependent factors are no single symbol or power, and multiplying them out changes
nothing. -/
def IsStuck (v : String) (t : Expr) : Prop :=
  ∃ fs, t = .times fs ∧ dependents v fs ≠ [] ∧ (∀ f, dependents v fs = [f] → ∃ ts, f = .plus ts) ∧
    ∃ d r, product .approximate (dependents v fs) = .ok d ∧ expand .approximate d = .ok r ∧ (r == d) = true

/-- Merging the dependent factors of a product leaves the powers of sums small enough to be multiplied out. -/
def MergesSmall (v : String) (e : Expr) : Prop :=
  ∀ fs, .times fs ∈ e.summands → ∀ d, product .approximate (dependents v fs) = .ok d → d.IsPolynomial

lemma same_power_of_multipliedOut {r x : Expr} {ts : List Expr} (h : r.IsMultipliedOut) :
    (r == .power (.plus ts) x) = false := by
  cases r with
  | power b e =>
    obtain ⟨y, n, hy⟩ := (((h _ (List.mem_singleton_self _)).loose _ List.mem_cons_self).resolve_left nofun).baseExponent
    obtain ⟨rfl, rfl⟩ := Prod.mk.inj hy
    rfl
  | num | symbol | constant | plus | times | call => rfl

lemma expandedRule_multipliedOut {d : Expr} (n : Nat) (hw : Everywhere WritableNode d) (hp : d.IsPolynomial)
    (h : ∀ r, expand o d = .ok r → r.IsMultipliedOut → (r == d) = false) :
    Applies o (expandedRule o (antiderivativeAt o v (n + 2)) d) := by
  have hshape := ((expand_consistent d).ends o).within (expand_multipliedOut d hw hp)
  refine expandedRule_applies ((hshape.and hshape.self).mono fun r ⟨hr, heq⟩ => ?_)
  exact ⟨h r heq hr, multipliedOut_applies n hr⟩

lemma power_cases {b e : Expr} (hw : Everywhere WritableNode (.power b e)) (hp : (Expr.power b e).IsPolynomial)
    (hv : (Expr.power b e).isConstantIn v = false) :
    Applies o (factorRule o v (.power b e)) ∨ (∃ ts, b = .plus ts) ∧ Declines o (factorRule o v (.power b e)) := by
  obtain ⟨⟨-, -, hkeeps⟩, -⟩ := hw
  obtain ⟨⟨k, rfl, hk, -⟩, hb, -⟩ := hp
  have hbase : b.KeepsExponent k := hkeeps k rfl
  cases b with
  | symbol x => exact Or.inl (factorRule_symbolPower (f := .power (.symbol x) (int k)) trivial hv)
  | plus ts =>
    have hq : (int k).isInt (-1) = false := by
      simp only [isInt, integer?_int, beq_eq_false_iff_ne, ne_eq, Option.some.injEq]
      omega
    have hlinear {post : Option Expr → Prop} (h : Meets (refusal o) (linearPowerRule o v (.plus ts) (int k)).run post) :
        Meets (refusal o) (factorRule o v (.power (.plus ts) (int k))).run post :=
      powerRule_linear rfl (by simp) (Or.inl hq) h
    exact (linearPowerRule_cases (.plus ts) (int k)).imp hlinear fun h => ⟨⟨ts, rfl⟩, hlinear h⟩
  | num n => exact absurd hbase.2 (by omega)
  | constant => exact hb.elim
  | call => exact hb.1.elim
  | times | power => exact hbase.elim

lemma power_applies (n : Nat) {b e : Expr} (hw : Everywhere WritableNode (.power b e))
    (hp : (Expr.power b e).IsPolynomial) (hv : (Expr.power b e).isConstantIn v = false) :
    Applies o (factorRule o v (.power b e) <|> expandedRule o (antiderivativeAt o v (n + 2)) (.power b e)) := by
  rcases power_cases hw hp hv with h | ⟨⟨ts, rfl⟩, h⟩
  · exact h.orElse _
  · exact h.orElse (expandedRule_multipliedOut n hw hp fun r _ hr => same_power_of_multipliedOut hr)

/-! ### Dependent factors -/

structure IsDependent (v : String) (f : Expr) : Prop where
  writable : Writable f
  polynomial : f.IsPolynomial
  flat : ∀ gs, f ≠ .times gs
  moves : f.isConstantIn v = false

lemma isDependent_of_mem {fs : List Expr} (hw : Writable (.times fs)) (hp : IsPolynomial (.times fs)) :
    ∀ f ∈ dependents v fs, IsDependent v f := by
  intro f hf
  obtain ⟨hmem, hc⟩ := List.mem_filter.mp hf
  exact ⟨hw.factors f hmem, ((everywhere_times fs).mp hp).2 f hmem,
    (writable_readingLaw.factors hw.nodes f hmem).2, by simpa using hc⟩

lemma IsDependent.isNumber {f : Expr} (h : IsDependent v f) : f.isNumber = false := by
  cases f with
  | num n => cases h.moves
  | symbol | constant | plus | times | power | call => rfl

lemma IsDependent.not_call {f : Expr} (h : IsDependent v f) (g : Func) (u : Expr) : f ≠ .call g u := by
  rintro rfl
  exact h.polynomial.1

lemma product_single {f : Expr} (h : IsDependent v f) : Meets anyHalt (product o [f]) (· = f) := by
  have hplain : f.isExponential = false := by
    have hcall := h.not_call
    cases f with
    | call g u => exact absurd rfl (hcall g u)
    | num | symbol | constant | plus | times | power => rfl
  have hd : DistinctFactors [f] :=
    { number := by simpa using h.isNumber
      flat := by simpa using h.flat
      plain := by simpa using hplain
      apart := List.pairwise_singleton _ f }
  refine (product_distinct (by simpa using h.writable) hd).mono ?_
  rintro r ⟨gs, hgs, rfl⟩
  obtain rfl := List.perm_singleton.mp hgs
  rfl

lemma aloneRule_declines {fs : List Expr} (h : ∀ f, fs = [f] → ∃ ts, f = .plus ts) : Declines o (aloneRule o v fs) := by
  rcases fs with _ | ⟨f, _ | ⟨g, fs⟩⟩
  · rfl
  · obtain ⟨ts, rfl⟩ := h f rfl
    rfl
  · rfl

section Product

variable {fs : List Expr} (hw : Writable (.times fs)) (hp : IsPolynomial (.times fs))
include hw hp

lemma times_applies (n : Nat) (hv : allConstantIn v fs = false)
    (hsmall : ∀ d, product .approximate (dependents v fs) = .ok d → d.IsPolynomial) (h : ¬ IsStuck v (.times fs)) :
    Applies .approximate (antiderivativeAt .approximate v (n + 3) (.times fs)) := by
  have hdep := isDependent_of_mem (v := v) hw hp
  unfold antiderivativeAt
  rw [if_neg (by simp [isConstantIn, hv])]
  refine productIntegral_applies fun d hd => ?_
  have hnodes : Everywhere WritableNode d :=
    (product_nodes writable_readingLaw.toNodeLaw fun f hf => (hdep f hf).writable.nodes).value hd
  by_cases halone : ∀ f, dependents v fs = [f] → ∃ ts, f = .plus ts
  · refine (aloneRule_declines halone).orElse ?_
    refine (expandedRule_multipliedOut n hnodes (hsmall d hd) fun r hr _ => ?_).orElse _
    have hne : dependents v fs ≠ [] := fun hnil => by simp [dependents_eq_nil.mp hnil] at hv
    exact Bool.eq_false_iff.mpr fun hsame => h ⟨fs, rfl, hne, halone, d, r, hd, hr, hsame⟩
  · -- a single symbol or power
    simp only [not_forall, not_exists] at halone
    obtain ⟨f, hf, hplus⟩ := halone
    rw [hf] at hd ⊢
    have hdf : IsDependent v f := hdep f (by simp [hf])
    obtain rfl : d = f := (product_single hdf).value hd
    cases d with
    | symbol x => exact (factorRule_symbol (v := v) x).orElse _
    | power b e =>
      rcases power_cases (o := .approximate) hnodes hdf.polynomial hdf.moves with h | ⟨⟨ts, rfl⟩, h⟩
      · exact h.orElse _
      · refine h.orElse ((expandedRule_multipliedOut n hnodes hdf.polynomial fun r _ hr => ?_).orElse _)
        exact same_power_of_multipliedOut hr
    | num => cases hdf.moves
    | constant => cases hdf.moves
    | plus ts => exact absurd rfl (hplus ts)
    | times gs => exact absurd rfl (hdf.flat gs)
    | call g u => exact absurd rfl (hdf.not_call g u)

lemma times_declines (n : Nat) (h : IsStuck v (.times fs)) :
    Declines .approximate (antiderivativeAt .approximate v (n + 1) (.times fs)) := by
  obtain ⟨gs, heq, hne, halone, d, r, hd, hr, hsame⟩ := h
  obtain rfl := Expr.times.inj heq
  have hv : ¬ (Expr.times fs).isConstantIn v = true := fun hc => hne (dependents_eq_nil.mpr hc)
  unfold antiderivativeAt
  rw [if_neg hv]
  refine productIntegral_declines fun d' hd' => ?_
  obtain rfl := Except.ok.inj (hd.symm.trans hd')
  have hdep := isDependent_of_mem (v := v) hw hp
  refine (aloneRule_declines halone).orElse ((expandedRule_declines ?_).orElse ?_)
  · rw [hr]
    exact hsame
  · exact partsRule_declines fun f hf g u => (hdep f hf).not_call g u

end Product

/-! ### Sums -/

mutual

lemma summands_constant : (e : Expr) → e.isConstantIn v = true → ∀ t ∈ e.summands, t.isConstantIn v = true
  | .plus ts, h => summandsAll_constant ts h
  | .num _, h | .symbol _, h | .constant _, h | .times _, h | .power _ _, h | .call _ _, h => by simpa [summands] using h

lemma summandsAll_constant : (es : List Expr) → allConstantIn v es = true → ∀ t ∈ summandsAll es, t.isConstantIn v = true
  | [], _ => List.forall_mem_nil _
  | e :: es, h => by
    simp only [allConstantIn, Bool.and_eq_true] at h
    exact List.forall_mem_append.mpr ⟨summands_constant e h.1, summandsAll_constant es h.2⟩

end

lemma weight_lt_of_mem {t : Expr} {ts : List Expr} (h : t ∈ ts) : t.weight ≤ weightAll ts := by
  induction ts with
  | nil => cases h
  | cons s ts ih =>
    rw [weightAll]
    rcases List.mem_cons.mp h with rfl | h
    · omega
    · have := ih h
      omega

lemma not_stuck_of_constant {t : Expr} (h : t.isConstantIn v = true) : ¬ IsStuck v t := by
  rintro ⟨fs, rfl, hne, -⟩
  exact hne (dependents_eq_nil.mpr h)

lemma not_stuck_single {e : Expr} (h : ∀ fs, e ≠ .times fs) : ¬ IsStuck v e := by
  rintro ⟨fs, rfl, -⟩
  exact h fs rfl

/-- The depth has to reach through nested sums, and then through one multiplied out integrand. -/
lemma polynomial_covered (n : Nat) {e : Expr} (hn : e.weight + 3 ≤ n) (hw : Writable e) (hp : e.IsPolynomial)
    (hsmall : MergesSmall v e) :
    ((∀ t ∈ e.summands, ¬ IsStuck v t) → Applies .approximate (antiderivativeAt .approximate v n e)) ∧
      ((∃ t ∈ e.summands, IsStuck v t) → Declines .approximate (antiderivativeAt .approximate v n e)) := by
  induction n generalizing e with
  | zero => omega
  | succ n ih =>
    cases hc : e.isConstantIn v with
    | true =>
      refine ⟨fun _ => constant_applies n hc, ?_⟩
      rintro ⟨t, ht, hstuck⟩
      exact absurd hstuck (not_stuck_of_constant (summands_constant e hc t ht))
    | false =>
      obtain ⟨m, rfl⟩ : ∃ m, n = m + 2 := ⟨n - 2, by have := e.weight_pos; omega⟩
      cases e with
      | plus ts =>
        have hterm : ∀ t ∈ ts, _ := fun t ht => ih (e := t)
          (by have := weight_lt_of_mem ht; simp only [weight] at hn; omega) (hw.terms t ht)
          (((everywhere_plus ts).mp hp).2 t ht) fun fs hfs => hsmall fs (mem_summandsAll.mpr ⟨t, ht, hfs⟩)
        unfold antiderivativeAt
        rw [if_neg (by simp [hc])]
        refine ⟨fun h => ?_, ?_⟩
        · refine (applies_mapM fun t ht => (hterm t ht).1 fun u hu => ?_).bind fun as =>
            applies_lift (sum_consistent as)
          exact h u (mem_summandsAll.mpr ⟨t, ht, hu⟩)
        · rintro ⟨t, ht, hstuck⟩
          obtain ⟨u, hu, ht⟩ := mem_summandsAll.mp ht
          refine (declines_mapM (fun s hs => ?_) hu ((hterm u hu).2 ⟨t, ht, hstuck⟩)).bind _
          by_cases h : ∃ t ∈ s.summands, IsStuck v t
          · exact Or.inr ((hterm s hs).2 h)
          · exact Or.inl ((hterm s hs).1 fun t ht hst => h ⟨t, ht, hst⟩)
      | times fs =>
        have hmem : Expr.times fs ∈ (Expr.times fs).summands := List.mem_singleton_self _
        refine ⟨fun h => times_applies hw hp m hc (hsmall fs hmem) (h _ hmem), ?_⟩
        rintro ⟨t, ht, hstuck⟩
        obtain rfl := List.mem_singleton.mp ht
        exact times_declines hw hp _ hstuck
      | symbol x =>
        refine ⟨fun _ => ?_, ?_⟩
        · unfold antiderivativeAt
          rw [if_neg (by simp [hc])]
          exact (factorRule_symbol (v := v) x).orElse _
        · rintro ⟨t, ht, hstuck⟩
          exact absurd (List.mem_singleton.mp ht ▸ hstuck) (not_stuck_single (e := .symbol x) (by simp))
      | power b x =>
        refine ⟨fun _ => ?_, ?_⟩
        · unfold antiderivativeAt
          rw [if_neg (by simp [hc])]
          exact power_applies m hw.nodes hp hc
        · rintro ⟨t, ht, hstuck⟩
          exact absurd (List.mem_singleton.mp ht ▸ hstuck) (not_stuck_single (e := .power b x) (by simp))
      | num => cases hc
      | constant => cases hc
      | call => exact hp.1.elim

/-! ### Canonical polynomials -/

mutual

lemma summands_everywhere {P : Expr → Prop} : (e : Expr) → Everywhere P e → ∀ t ∈ e.summands, Everywhere P t
  | .plus ts, h => summandsAll_everywhere ts h.2
  | .num _, h | .symbol _, h | .constant _, h | .times _, h | .power _ _, h | .call _ _, h => by simpa [summands] using h

lemma summandsAll_everywhere {P : Expr → Prop} : (es : List Expr) → EverywhereAll P es →
    ∀ t ∈ summandsAll es, Everywhere P t
  | [], _ => List.forall_mem_nil _
  | e :: es, h => List.forall_mem_append.mpr ⟨summands_everywhere e h.1, summandsAll_everywhere es h.2⟩

end

lemma loose_of_same {r f : Expr} (h : same r f = true) (hr : r.isNumber = true ∨ r.IsSymbolPower) :
    f.isNumber = true ∨ f.IsSymbolPower := by
  rcases hr with hr | hr
  · obtain ⟨n, rfl⟩ := exists_num_of_isNumber hr
    cases f with
    | num m => exact Or.inl rfl
    | symbol | constant | plus | times | power | call => cases h
  · cases r with
    | symbol x =>
      cases f with
      | symbol y => exact Or.inr trivial
      | num | constant | plus | times | power | call => cases h
    | power b e =>
      obtain ⟨x, n, hx⟩ := hr.baseExponent
      obtain ⟨rfl, rfl⟩ := Prod.mk.inj hx
      cases f with
      | power c y =>
        simp only [same, Bool.and_eq_true] at h
        cases c <;> cases y <;> simp_all [same, IsSymbolPower]
      | num | symbol | constant | plus | times | call => cases h
    | num | constant | plus | times | call => cases hr

lemma loose_of_sameAll {rs fs : List Expr} (h : sameAll rs fs = true) (hr : ∀ r ∈ rs, r.isNumber = true ∨ r.IsSymbolPower) :
    ∀ f ∈ fs, f.isNumber = true ∨ f.IsSymbolPower := by
  induction rs generalizing fs with
  | nil =>
    cases fs with
    | nil => simp
    | cons f fs => cases h
  | cons r rs ih =>
    cases fs with
    | nil => simp
    | cons f fs =>
      simp only [sameAll, Bool.and_eq_true] at h
      rw [List.forall_mem_cons] at hr
      exact List.forall_mem_cons.mpr ⟨loose_of_same h.1 hr.1, ih h.2 hr.2⟩

lemma loose_of_same_times {r : Expr} {fs : List Expr} (h : (r == .times fs) = true) (hr : r.IsMultipliedOut) :
    ∀ f ∈ fs, f.isNumber = true ∨ f.IsSymbolPower := by
  cases r with
  | times rs => exact loose_of_sameAll h (hr _ (List.mem_singleton_self _)).loose
  | num | symbol | constant | plus | power | call => cases h

section Canonical

variable {fs : List Expr} (hw : Writable (.times fs)) (hp : IsPolynomial (.times fs)) (hc : Canonical (.times fs))
include hw hc

lemma dependents_distinct : DistinctFactors (dependents v fs) :=
  (hw.distinctFactors hc.node.bases).sublist (dependents_sublist fs)

include hp

lemma product_dependents : Meets anyHalt (product o (dependents v fs)) fun d =>
    d.IsPolynomial ∧ ∃ gs : List Expr, gs.Perm (dependents v fs) ∧ d = collapse 1 .times gs := by
  have hdep := isDependent_of_mem (v := v) hw hp
  refine (product_distinct (fun f hf => (hdep f hf).writable) (dependents_distinct hw hc)).mono ?_
  rintro d ⟨gs, hgs, rfl⟩
  have hall : ∀ g ∈ gs, g.IsPolynomial := fun g hg => (hdep g (hgs.mem_iff.mp hg)).polynomial
  refine ⟨?_, gs, hgs, rfl⟩
  rcases gs with _ | ⟨g, _ | ⟨h, gs⟩⟩
  · exact (rfl : (Number.ofInt 1).isExact = true)
  · exact hall g List.mem_cons_self
  · exact (everywhere_times _).mpr ⟨trivial, hall⟩

/-- A canonical product is left over when it is a constant multiple of a sum that is multiplied out. -/
lemma stuck_canonical_iff : IsStuck v (.times fs) ↔
    ∃ ts r, dependents v fs = [.plus ts] ∧ expand .approximate (.plus ts) = .ok r ∧ (r == .plus ts) = true := by
  have hdep := isDependent_of_mem (v := v) hw hp
  constructor
  · rintro ⟨gs, heq, hne, halone, d, r, hd, hr, hsame⟩
    obtain rfl := Expr.times.inj heq
    have hdistinct := dependents_distinct (v := v) hw hc
    obtain ⟨hpoly, gs, hgs, hcollapse⟩ := (product_dependents hw hp hc).value hd
    have hnodes : Everywhere WritableNode d :=
      (product_nodes writable_readingLaw.toNodeLaw fun f hf => (hdep f hf).writable.nodes).value hd
    have hout := (expand_multipliedOut d hnodes hpoly).value hr
    rcases hfs : dependents v fs with _ | ⟨f, _ | ⟨g, rest⟩⟩
    · exact absurd hfs hne
    · obtain ⟨ts, rfl⟩ := halone f hfs
      rw [hfs] at hd
      obtain rfl : d = .plus ts := (product_single (hdep _ (by simp [hfs]))).value hd
      exact ⟨ts, r, rfl, hr, hsame⟩
    · -- a product that is a monomial has one symbol in common with both factors, which have different bases
      subst hcollapse
      rcases gs with _ | ⟨a, _ | ⟨b, gs⟩⟩
      · simpa [hfs] using hgs.length_eq
      · simpa [hfs] using hgs.length_eq
      · have hloose := loose_of_same_times hsame hout
        have hbase {x : Expr} (hx : x ∈ dependents v fs) : x.baseExponent.1 = .symbol v := by
          have hn := (hdep x hx).isNumber
          exact ((hloose x (hgs.mem_iff.mpr hx)).resolve_left (by simp [hn])).dependent (hdep x hx).moves
        have hapart := hdistinct.apart
        rw [hfs] at hapart hbase
        have hfg := (List.pairwise_cons.mp hapart).1 g List.mem_cons_self
        rw [hbase (by simp), hbase (by simp)] at hfg
        simp [BEq.beq, same] at hfg
  · rintro ⟨ts, r, hfs, hr, hsame⟩
    have hsingle : Meets (refusal .approximate) (product .approximate [.plus ts]) (· = .plus ts) :=
      ((product_consistent _).ends .approximate).within (product_single (hdep _ (by simp [hfs])))
    obtain ⟨d, hd, rfl⟩ := hsingle.exists_value
    refine ⟨fs, rfl, by simp [hfs], fun f hf => ⟨ts, ?_⟩, _, r, by rw [hfs]; exact hd, hr, hsame⟩
    rw [hfs] at hf
    exact (List.singleton_inj.mp hf).symm

end Canonical

lemma mergesSmall_of_canonical {e : Expr} (hw : Writable e) (hp : e.IsPolynomial) (hc : Canonical e) :
    MergesSmall v e := by
  intro fs hfs d hd
  have hpoly : IsPolynomial (.times fs) := summands_everywhere e hp _ hfs
  have hwrite : Writable (.times fs) := ⟨summands_everywhere e hw.nodes _ hfs, isRational_of_polynomial _ hpoly⟩
  exact ((product_dependents hwrite hpoly (summands_everywhere e hc _ hfs)).value hd).1

lemma antiderivative_covered {e : Expr} (hw : Writable e) (hp : e.IsPolynomial) (hsmall : MergesSmall v e) :
    ((∀ t ∈ e.summands, ¬ IsStuck v t) → ∃ F, e.antiderivative .approximate v = .ok (some F)) ∧
      ((∃ t ∈ e.summands, IsStuck v t) → e.antiderivative .approximate v = .ok none) := by
  have hdepth : e.weight + 3 ≤ integrationDepth e.weight := by
    unfold integrationDepth depthFor
    nlinarith
  obtain ⟨happlies, hdeclines⟩ := polynomial_covered _ hdepth hw hp hsmall
  refine ⟨fun h => ?_, fun h => ?_⟩
  · obtain ⟨r, hr, hsome⟩ := (happlies h).exists_value
    obtain ⟨F, rfl⟩ := Option.isSome_iff_exists.mp hsome
    exact ⟨F, hr⟩
  · obtain ⟨r, hr, rfl⟩ := (hdeclines h).exists_value
    exact hr

/-- A polynomial that is read from a text is integrated unless one of its products is left over: the dependent factors of
such a product are no single symbol or power, and multiplying them out changes nothing. In a canonical polynomial these
products are the constant multiples of sums that are multiplied out. -/
theorem read_antiderivative {text : String} {e : Expr} (he : read .approximate text = .ok e) (hp : e.IsPolynomial)
    (v : String) :
    (MergesSmall v e → ((∀ t ∈ e.summands, ¬ IsStuck v t) → ∃ F, e.antiderivative .approximate v = .ok (some F)) ∧
      ((∃ t ∈ e.summands, IsStuck v t) → e.antiderivative .approximate v = .ok none)) ∧
    (Canonical e → MergesSmall v e ∧ ∀ fs, .times fs ∈ e.summands → (IsStuck v (.times fs) ↔ ∃ ts r,
      dependents v fs = [.plus ts] ∧ expand .approximate (.plus ts) = .ok r ∧ (r == .plus ts) = true)) := by
  have hw : Writable e := read_writable he (isRational_of_polynomial e hp)
  refine ⟨antiderivative_covered hw hp, fun hc => ⟨mergesSmall_of_canonical hw hp hc, fun fs hfs => ?_⟩⟩
  have hpoly : IsPolynomial (.times fs) := summands_everywhere e hp _ hfs
  have hwrite : Writable (.times fs) := ⟨summands_everywhere e hw.nodes _ hfs, isRational_of_polynomial _ hpoly⟩
  exact stuck_canonical_iff hwrite hpoly (summands_everywhere e hc _ hfs)

/-- A product of `x` and a sum is integrated; a product of `y` and the same sum is not. -/
theorem read_antiderivative_products :
    (∃ e F, read .approximate "x*(x + 1)" = .ok e ∧ e.antiderivative .approximate "x" = .ok (some F)) ∧
      ∃ e, read .approximate "y*(x + 1)" = .ok e ∧ e.antiderivative .approximate "x" = .ok none := by
  have hsum : IsPolynomial (.plus [.symbol "x", int 1]) := ⟨trivial, trivial, rfl, trivial⟩
  constructor
  · have he : read .approximate "x*(x + 1)" = .ok (.times [.symbol "x", .plus [.symbol "x", int 1]]) := by cbv
    have hp : IsPolynomial (.times [.symbol "x", .plus [.symbol "x", int 1]]) := ⟨trivial, trivial, hsum, trivial⟩
    have hd : product .approximate (dependents "x" [.symbol "x", .plus [.symbol "x", int 1]]) =
        .ok (.times [.symbol "x", .plus [.symbol "x", int 1]]) := by cbv
    have hr : expand .approximate (.times [.symbol "x", .plus [.symbol "x", int 1]]) =
        .ok (.plus [.power (.symbol "x") (int 2), .symbol "x"]) := by cbv
    obtain ⟨hcovered, -⟩ := read_antiderivative he hp "x"
    have hsmall : MergesSmall "x" (.times [.symbol "x", .plus [.symbol "x", int 1]]) := by
      intro fs hfs d hd'
      obtain rfl := Expr.times.inj (List.mem_singleton.mp hfs)
      obtain rfl := Except.ok.inj (hd.symm.trans hd')
      exact hp
    obtain ⟨F, hF⟩ := (hcovered hsmall).1 fun t ht hstuck => by
      obtain rfl := List.mem_singleton.mp ht
      obtain ⟨fs, heq, -, -, d, r, hd', hr', hsame⟩ := hstuck
      obtain rfl := Expr.times.inj heq
      obtain rfl := Except.ok.inj (hd.symm.trans hd')
      obtain rfl := Except.ok.inj (hr.symm.trans hr')
      exact absurd hsame (by decide)
    exact ⟨_, F, he, hF⟩
  · have he : read .approximate "y*(x + 1)" = .ok (.times [.symbol "y", .plus [.symbol "x", int 1]]) := by cbv
    have hp : IsPolynomial (.times [.symbol "y", .plus [.symbol "x", int 1]]) := ⟨trivial, trivial, hsum, trivial⟩
    have hd : product .approximate (dependents "x" [.symbol "y", .plus [.symbol "x", int 1]]) =
        .ok (.plus [.symbol "x", int 1]) := by cbv
    have hr : expand .approximate (.plus [.symbol "x", int 1]) = .ok (.plus [.symbol "x", int 1]) := by cbv
    obtain ⟨hcovered, -⟩ := read_antiderivative he hp "x"
    have hsmall : MergesSmall "x" (.times [.symbol "y", .plus [.symbol "x", int 1]]) := by
      intro fs hfs d hd'
      obtain rfl := Expr.times.inj (List.mem_singleton.mp hfs)
      obtain rfl := Except.ok.inj (hd.symm.trans hd')
      exact hsum
    refine ⟨_, he, (hcovered hsmall).2 ⟨_, List.mem_singleton_self _, _, rfl, by decide, ?_, _, _, hd, hr, by decide⟩⟩
    rintro f hf
    exact ⟨_, (List.singleton_inj.mp hf).symm⟩

end PlaneCalculus.Expr
