import PlaneCalculus.Proofs.Expr.CallDepth
import PlaneCalculus.Proofs.Latex.Fusion

/-! Typesetting ends. It goes on not only to the parts of an expression but also to expressions it builds from them, the
negated terms of sums and the powers below the line, and none of these is larger in the sizes that the depths of calls are
taken from. A text comes out unless a number without a value is met on the way. -/

open PlaneCalculus.Expr

namespace PlaneCalculus.Latex

open Calc

variable {α β : Type}

/-- Inside the expression, as it is set, stands a number without a value. -/
inductive SetsUndefined (o : Overflow) : Expr → Prop
  | number {v : Float} : v.isNaN = true → SetsUndefined o (real v)
  | part {e p : Expr} : Part o e p → SetsUndefined o p → SetsUndefined o e

/-- The calculation ends with a result if the condition holds, and otherwise at a number without a value. -/
def Answers (P : Prop) (c : Outcome α) : Prop := P ∧ (∃ a, c = .ok a) ∨ ¬ P ∧ c = .error .notANumber

section Answers

variable {P Q : Prop} {c : Outcome α}

lemma ok_bind (a : α) (f : α → Outcome β) : (Except.ok a >>= f) = f a := rfl

lemma lift_ok (a : α) : (liftM (.ok a : Calc α) : Outcome α) = .ok a := rfl

lemma answers_ok (a : α) : Answers True (.ok a : Outcome α) := Or.inl ⟨trivial, a, rfl⟩

lemma Answers.congr (h : Answers P c) (hPQ : P ↔ Q) : Answers Q c := by
  rwa [propext hPQ] at h

lemma Answers.bind {f : α → Outcome β} (h : Answers P c) (hf : ∀ a, Answers Q (f a)) : Answers (P ∧ Q) (c >>= f) := by
  rcases h with ⟨hP, a, rfl⟩ | ⟨hP, rfl⟩
  · exact (hf a).congr (and_iff_right hP).symm
  · exact Or.inr ⟨fun h => hP h.1, rfl⟩

lemma Answers.map (h : Answers P c) {f : α → Outcome β} (hf : ∀ a, ∃ b, f a = .ok b) : Answers P (c >>= f) := by
  refine (h.bind fun a => ?_).congr (and_iff_left trivial)
  obtain ⟨b, hb⟩ := hf a
  exact hb ▸ answers_ok b

lemma answers_mapM {P : α → Prop} {f : α → Outcome β} {l : List α} (h : ∀ a ∈ l, Answers (P a) (f a)) :
    Answers (∀ a ∈ l, P a) (l.mapM f) := by
  induction l with
  | nil => exact (answers_ok []).congr (by simp)
  | cons a l ih =>
    rw [List.forall_mem_cons] at h
    rw [List.mapM_cons]
    exact (h.1.bind fun b => (ih h.2).map fun bs => ⟨_, rfl⟩).congr List.forall_mem_cons.symm

end Answers

/-! ### Undefined numbers by the kind of the expression -/

section Parts

variable {o : Overflow} {b x e p : Expr}

lemma setsUndefined_iff (h : ∀ v, e ≠ real v) : SetsUndefined o e ↔ ∃ p, Part o e p ∧ SetsUndefined o p := by
  constructor
  · rintro (⟨hv⟩ | ⟨hp, hu⟩)
    · exact absurd rfl (h _)
    · exact ⟨_, hp, hu⟩
  · rintro ⟨p, hp, hu⟩
    exact .part hp hu

lemma setsUndefined_call {f : Func} {a : Expr} : SetsUndefined o (.call f a) ↔ SetsUndefined o a := by
  simp [setsUndefined_iff (fun v => (nomatch · : Expr.call f a ≠ real v)), part_call]

lemma setsUndefined_power (hx : x.isNegativeNumber = false) :
    SetsUndefined o (.power b x) ↔ SetsUndefined o b ∨ x.isHalf = false ∧ SetsUndefined o x := by
  simp only [setsUndefined_iff (fun v => (nomatch · : Expr.power b x ≠ real v)), part_power hx]
  constructor
  · rintro ⟨p, rfl | ⟨hhalf, rfl⟩, hp⟩
    · exact .inl hp
    · exact .inr ⟨hhalf, hp⟩
  · rintro (hp | ⟨hhalf, hp⟩)
    · exact ⟨b, .inl rfl, hp⟩
    · exact ⟨x, .inr ⟨hhalf, rfl⟩, hp⟩

/-- Symbols, constants and the empty sum have no parts to set. -/
lemma not_setsUndefined (hv : ∀ v, e ≠ real v) (hp : ∀ p, ¬ Part o e p) : ¬ SetsUndefined o e := by
  rw [setsUndefined_iff hv]
  rintro ⟨p, hpart, -⟩
  exact hp p hpart

end Parts

/-! ### One step -/

/-- A way to typeset all expressions up to a size. -/
def AnswersBelow (n : Nat) (latex : Expr → Outcome String) : Prop :=
  ∀ e, e.writtenSize < n → Answers (¬ SetsUndefined .approximate e) (latex e)

section Step

variable {n : Nat} {latex : Expr → Outcome String} (hl : AnswersBelow n latex) {b x e : Expr}
include hl

lemma factor_answers (h : e.writtenSize < n) : Answers (¬ SetsUndefined .approximate e) (factor latex e) := by
  unfold factor
  split
  · exact (hl _ h).map fun s => ⟨_, rfl⟩
  · exact hl e h

lemma join_answers {es : List Expr} (h : ∀ e ∈ es, e.writtenSize < n) :
    Answers (∀ e ∈ es, ¬ SetsUndefined .approximate e) (join latex es) := by
  unfold join
  split
  · exact (hl _ (h _ List.mem_cons_self)).congr (by simp)
  · exact (answers_mapM fun e he => factor_answers hl (h e he)).map fun ts => ⟨_, rfl⟩

/-- The factors of both rows are no larger than what they are taken from, and the rows are set one after the other. -/
lemma product_answers {fs : List Expr} (hn : 0 < n) (hf : factors? e = some fs) (hfit : ∀ f ∈ fs, FactorFits n f) :
    Answers (¬ SetsUndefined .approximate e) (ofProduct .approximate latex fs) := by
  obtain ⟨s, hs, hsize⟩ := (ofFactors_ends (ends_allotted .approximate n) hfit).exists_value
  obtain ⟨c, hc, -⟩ := (meets_abs (o := .approximate) (a := s.coeff) refusal_overflow).exists_value
  have hnum (c : Number) : (Expr.num c).writtenSize < n := hn
  rw [List.forall_mem_append] at hsize
  rcases hparts : Fraction.coeffParts c with ⟨above, below⟩
  have habove := join_answers hl (forall_mem_numerator (hnum above) hsize.1)
  have hbelow := join_answers hl (forall_mem_denominator (hnum below) hsize.2)
  have hrows : rows .approximate fs = .ok (s.numerator above, s.denominator below) := by
    unfold rows
    rw [hs]
    show (Overflow.approximate.abs s.coeff >>= fun c =>
      .ok (s.numerator (Fraction.coeffParts c).1, s.denominator (Fraction.coeffParts c).2)) = _
    rw [hc]
    show Except.ok (s.numerator (Fraction.coeffParts c).1, s.denominator (Fraction.coeffParts c).2) = _
    rw [hparts]
  have hparts_defined : ¬ SetsUndefined .approximate e ↔ (∀ p ∈ s.numerator above, ¬ SetsUndefined .approximate p) ∧
      ∀ p ∈ s.denominator below, ¬ SetsUndefined .approximate p := by
    have hnum : ∀ v, e ≠ real v := by
      rintro v rfl
      cases hf
    simp only [setsUndefined_iff hnum, part_rows hf hrows, not_exists, not_and, or_imp, forall_and]
  simp only [ofProduct, hs, hc, hparts, lift_ok, ok_bind]
  refine (habove.bind fun numerator => ?_).congr hparts_defined.symm
  split
  · next hempty =>
    rw [List.isEmpty_iff.mp hempty]
    exact (answers_ok _).congr (by simp)
  · exact (hbelow.map fun t => ⟨_, rfl⟩).map fun body => ⟨_, rfl⟩

/-- The terms of a sum and their negations are set. -/
lemma restTerm_answers (h : callDepth e.size.product ≤ n) :
    Answers (∀ p, (e.isNegativeTerm = false ∧ p = e ∨ e.isNegativeTerm = true ∧ Expr.neg .approximate e = .ok p) →
      ¬ SetsUndefined .approximate p) (restTerm .approximate latex e) := by
  unfold restTerm
  split
  · next hneg =>
    obtain ⟨u, hu, hsize⟩ := (product_ends .approximate [int (-1), e]).exists_value
    have hu : Expr.neg .approximate e = .ok u := hu
    have hle : u.size.product ≤ e.size.product := by simpa [productSize] using hsize
    have hlt : u.writtenSize < n := writtenSize_lt (by unfold callDepth at h ⊢; omega)
    rw [hu]
    refine ((hl u hlt).map fun s => ⟨_, rfl⟩).congr ?_
    simp [hneg]
  · next hneg =>
    refine ((hl e (writtenSize_lt h)).map fun s => ⟨_, rfl⟩).congr ?_
    simp [hneg]

lemma sum_answers {t : Expr} {ts : List Expr} (h : (plus (t :: ts)).writtenSize ≤ n) :
    Answers (¬ SetsUndefined .approximate (.plus (t :: ts))) (step .approximate latex (.plus (t :: ts))) := by
  have hterm : ∀ x ∈ t :: ts, callDepth x.size.product ≤ n := by
    intro x hx
    have hle := product_le_termsSize hx
    simp only [writtenSize, size] at h
    unfold callDepth
    omega
  rw [List.forall_mem_cons] at hterm
  have hfirst := hl t (writtenSize_lt hterm.1)
  have hrest := answers_mapM fun s hs => restTerm_answers hl (hterm.2 s hs)
  refine (hfirst.bind fun a => hrest.map fun bs => ⟨_, rfl⟩).congr ?_
  have hnum : ∀ v, Expr.plus (t :: ts) ≠ real v := by rintro v ⟨⟩
  simp only [setsUndefined_iff hnum, part_plus, not_exists, not_and]
  constructor
  · rintro ⟨hfirst, hrest⟩ p (rfl | ⟨s, hs, hp⟩)
    · exact hfirst
    · exact hrest s hs p hp
  · exact fun hall => ⟨hall t (.inl rfl), fun s hs p hp => hall p (.inr ⟨s, hs, hp⟩)⟩

/-- The argument of a call is set without the call itself where an exponent stands between the two. -/
lemma power_answers (h : (power b x).writtenSize ≤ n) :
    Answers (¬ SetsUndefined .approximate (.power b x)) (ofPower .approximate latex b x) := by
  obtain ⟨hb, hx, hbelow⟩ := power_fits h
  unfold ofPower
  cases hneg : x.isNegativeNumber with
  | true =>
    rw [if_pos rfl]
    exact product_answers hl (by omega) (by simp [factors?, hneg]) (List.forall_mem_singleton.mpr (hbelow hneg))
  | false =>
    rw [if_neg Bool.false_ne_true]
    cases hhalf : x.isHalf with
    | true =>
      rw [if_pos rfl]
      exact ((hl b hb).map fun s => ⟨_, rfl⟩).congr (by simp [setsUndefined_power hneg, hhalf])
    | false =>
      rw [if_neg Bool.false_ne_true]
      refine Answers.congr ((hl x hx).bind (Q := ¬ SetsUndefined .approximate b) fun w => ?_) ?_
      · have hbase := hl b hb
        cases b with
        | symbol | constant | plus | times | power => exact hbase.map fun s => ⟨_, rfl⟩
        | num m =>
          refine hbase.map fun s => ?_
          split
          · exact ⟨_, rfl⟩
          · exact ⟨_, rfl⟩
        | call f a =>
          have ha : Answers (¬ SetsUndefined .approximate (.call f a)) (latex a) := by
            rw [setsUndefined_call]
            exact hl a ((arg_writtenSize f a).trans hb)
          simp only
          split
          · exact hbase.map fun s => ⟨_, rfl⟩
          · exact ha.map fun s => ⟨_, rfl⟩
      · simp only [setsUndefined_power hneg, hhalf, true_and, not_or, and_comm]

omit hl in
lemma number_answers (m : Number) : Answers (¬ SetsUndefined .approximate (.num m)) (ofNumber m) := by
  have hparts : SetsUndefined .approximate (.num m) ↔ ∃ v, m = .approx v ∧ v.isNaN = true := by
    constructor
    · rintro (⟨hv⟩ | ⟨⟨hf⟩, -⟩)
      · exact ⟨_, rfl, hv⟩
      · cases hf
    · rintro ⟨v, rfl, hv⟩
      exact .number hv
  rw [hparts]
  cases m with
  | exact q =>
    unfold ofNumber
    dsimp only
    split
    · exact (answers_ok _).congr (by simp)
    · split
      · exact (answers_ok _).congr (by simp)
      · exact (answers_ok _).congr (by simp)
  | approx v =>
    unfold ofNumber ofReal
    dsimp only
    split
    · next hv => exact Or.inr ⟨by simpa using hv, rfl⟩
    · next hv =>
      split
      · exact (answers_ok _).congr (by simpa using hv)
      · exact (answers_ok _).congr (by simpa using hv)

lemma step_answers : AnswersBelow (n + 1) (step .approximate latex) := by
  intro e h
  have hle : e.writtenSize ≤ n := Nat.lt_succ_iff.mp h
  cases e with
  | num m => exact number_answers m
  | symbol name =>
    have hset : ¬ SetsUndefined .approximate (.symbol name) := not_setsUndefined nofun (by rintro p ⟨⟨⟩⟩)
    exact (answers_ok (ofSymbol name)).congr (iff_of_true trivial hset)
  | constant c =>
    have hset : ¬ SetsUndefined .approximate (.constant c) := not_setsUndefined nofun (by rintro p ⟨⟨⟩⟩)
    cases c <;> exact (answers_ok _).congr (iff_of_true trivial hset)
  | plus ts =>
    cases ts with
    | nil =>
      have hset : ¬ SetsUndefined .approximate (.plus []) := not_setsUndefined nofun (by rintro p ⟨⟨⟩⟩)
      exact (answers_ok "").congr (iff_of_true trivial hset)
    | cons t ts => exact sum_answers hl hle
  | times fs =>
    have hn : 0 < (times fs).writtenRank := by simp only [writtenRank]; split <;> omega
    exact product_answers hl (by unfold writtenSize at hle; omega) rfl (factorsFit hle)
  | power b x => exact power_answers hl hle
  | call f a =>
    rw [setsUndefined_call]
    exact (hl a ((arg_writtenSize f a).trans_le hle)).map fun s => ⟨_, rfl⟩

end Step

lemma answersBelow_at : (n : Nat) → AnswersBelow n (Expr.latexAt .approximate n)
  | 0 => fun _ h => absurd h (Nat.not_lt_zero _)
  | n + 1 => step_answers (answersBelow_at n)

/-- Typesetting ends for every expression, with a text or at a number without a value. -/
lemma latex_answers (e : Expr) : Answers (¬ SetsUndefined .approximate e) (e.latex .approximate) :=
  answersBelow_at _ e (writtenSize_lt le_rfl)

end PlaneCalculus.Latex
