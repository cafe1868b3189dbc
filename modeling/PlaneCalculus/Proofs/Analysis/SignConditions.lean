import PlaneCalculus.Analysis.Domain
import PlaneCalculus.Formula.Meaning
import PlaneCalculus.Proofs.Calculus.UnendingIntegral

/-!
The arguments with a sign condition are complete: the arguments of all logarithms, and the bases of all powers with
denominator two, wherever they stand. Roots of a higher even order are not looked for.
-/

namespace PlaneCalculus.Expr

/-- The expressions directly below a node. -/
def children : Expr → List Expr
  | .plus ts => ts
  | .times fs => fs
  | .power b e => [b, e]
  | .call _ x => [x]
  | _ => []

/-- The one expression stands in the other at some place, possibly as the whole of it. -/
inductive Occurs (a : Expr) : Expr → Prop
  | whole : Occurs a a
  | inside {c e : Expr} : c ∈ e.children → Occurs a c → Occurs a e

lemma weight_lt_of_mem_children {c e : Expr} (h : c ∈ e.children) : c.weight < e.weight := by
  cases e with
  | num | symbol | constant => cases h
  | plus es | times es => exact Nat.lt_succ_of_le (weight_lt_of_mem h)
  | power b e =>
    simp only [children, List.mem_cons, List.not_mem_nil, or_false] at h
    simp only [weight]
    rcases h with rfl | rfl <;> omega
  | call f x =>
    rw [List.mem_singleton.mp h]
    exact Nat.lt_succ_self _

lemma Everywhere.children {P : Expr → Prop} {c e : Expr} (h : Everywhere P e) (hc : c ∈ e.children) :
    Everywhere P c := by
  cases e with
  | num | symbol | constant => cases hc
  | plus ts => exact ((everywhere_plus ts).mp h).2 c hc
  | times fs => exact ((everywhere_times fs).mp h).2 c hc
  | power b e =>
    simp only [Expr.children, List.mem_cons, List.not_mem_nil, or_false] at hc
    rcases hc with rfl | rfl
    · exact h.2.1
    · exact h.2.2
  | call f x => exact List.mem_singleton.mp hc ▸ h.2

lemma Occurs.everywhere {P : Expr → Prop} {a e : Expr} (h : Occurs a e) (he : Everywhere P e) : Everywhere P a := by
  induction h with
  | whole => exact he
  | inside hc _ ih => exact ih (he.children hc)

/-- What is asked at a node itself or anywhere below its children is asked of all that occurs. -/
lemma exists_occurs_iff (G Own : Expr → Prop) (h : ∀ e, G e ↔ Own e ∨ ∃ c ∈ e.children, G c) (e : Expr) :
    G e ↔ ∃ c, Occurs c e ∧ Own c := by
  constructor
  · intro he
    induction e using (measure weight).wf.induction with
    | _ e ih =>
      rcases (h e).mp he with hown | ⟨c, hc, hg⟩
      · exact ⟨e, .whole, hown⟩
      · obtain ⟨d, hd, hown⟩ := ih c (weight_lt_of_mem_children hc) hg
        exact ⟨d, .inside hc hd, hown⟩
  · rintro ⟨c, hc, hown⟩
    induction hc with
    | whole => exact (h c).mpr (Or.inl hown)
    | inside hc _ ih => exact (h _).mpr (Or.inr ⟨_, hc, ih⟩)

/-! ### Lists without repetitions -/

/-- A list of the expressions with a property. Each of them is in the list, or an entry that equals it is, and no entry
equals an earlier one. -/
structure Lists (es : List Expr) (S : Expr → Prop) : Prop where
  apart : es.Pairwise fun a b => (b == a) = false
  sound : ∀ a ∈ es, S a
  complete : ∀ a, S a → ∃ b ∈ es, a = b ∨ (a == b) = true

variable {es fs : List Expr} {S T : Expr → Prop}

lemma Lists.congr (h : Lists es S) (hST : ∀ a, S a ↔ T a) : Lists es T where
  apart := h.apart
  sound a ha := (hST a).mp (h.sound a ha)
  complete a ha := h.complete a ((hST a).mpr ha)

/-- A list of expressions with defined numbers has each of them once. -/
lemma Lists.nodup (h : Lists es S) (hself : ∀ a ∈ es, (a == a) = true) : es.Nodup := by
  rw [List.nodup_iff_pairwise_ne]
  refine h.apart.imp_of_mem fun {a b} ha _ hab heq => ?_
  rw [← heq, hself a ha] at hab
  cases hab

lemma insertNew_lists (h : Lists es S) (e : Expr) : Lists (insertNew es e) fun a => S a ∨ a = e := by
  unfold insertNew
  split
  · next hin =>
    rw [List.contains_eq_any_beq, List.any_eq_true] at hin
    refine ⟨h.apart, fun a ha => Or.inl (h.sound a ha), ?_⟩
    rintro a (ha | rfl)
    · exact h.complete a ha
    · obtain ⟨b, hb, hab⟩ := hin
      exact ⟨b, hb, Or.inr hab⟩
  · next hnew =>
    rw [List.contains_eq_any_beq, Bool.not_eq_true, List.any_eq_false] at hnew
    refine ⟨?_, ?_, ?_⟩
    · rw [List.pairwise_append]
      refine ⟨h.apart, List.pairwise_singleton _ _, fun a ha b hb => ?_⟩
      rw [List.mem_singleton.mp hb]
      simpa using hnew a ha
    · intro a ha
      rw [List.mem_append, List.mem_singleton] at ha
      exact ha.imp_left (h.sound a)
    · rintro a (ha | rfl)
      · obtain ⟨b, hb, hab⟩ := h.complete a ha
        exact ⟨b, List.mem_append_left _ hb, hab⟩
      · exact ⟨a, List.mem_append_right _ (List.mem_singleton_self a), Or.inl rfl⟩

lemma foldl_insertNew_lists (h : Lists es S) (fs : List Expr) :
    Lists (fs.foldl insertNew es) fun a => S a ∨ a ∈ fs := by
  induction fs generalizing es S with
  | nil => exact h.congr fun a => by simp
  | cons f fs ih => exact (ih (insertNew_lists h f)).congr fun a => by simp [or_assoc]

lemma distinct_lists (fs : List Expr) : Lists (distinct fs) (· ∈ fs) :=
  (foldl_insertNew_lists (S := fun _ => False) ⟨List.Pairwise.nil, nofun, nofun⟩ fs).congr fun a => by simp

/-! ### Logarithms -/

lemma mem_logOccurrencesAll {a : Expr} : a ∈ logOccurrencesAll es ↔ ∃ e ∈ es, a ∈ e.logOccurrences := by
  induction es with
  | nil => simp [logOccurrencesAll]
  | cons e es ih => simp [logOccurrencesAll, ih]

lemma mem_logOccurrences {a e : Expr} : a ∈ e.logOccurrences ↔ Occurs (.call .log a) e := by
  refine (exists_occurs_iff (a ∈ ·.logOccurrences) (· = .call .log a) (fun e => ?_) e).trans (by simp)
  cases e with
  | num | symbol | constant => simp [logOccurrences, children]
  | plus es | times es => simp [logOccurrences, mem_logOccurrencesAll, children]
  | power b e => simp [logOccurrences, children]
  | call f x =>
    by_cases hf : f = .log
    · simp [logOccurrences, children, hf, eq_comm]
    · simp [logOccurrences, children, hf]

/-! ### Even roots -/

/-- An expression with a symbol that stands under an exact exponent whose denominator is as asked for. -/
def IsRadicand (D : Nat → Prop) (e b : Expr) : Prop :=
  b.freeSymbols ≠ [] ∧ ∃ q : ℚ, D q.den ∧ Occurs (.power b (.num (.exact q))) e

lemma IsRadicand.mono {D D' : Nat → Prop} {e b : Expr} (h : IsRadicand D e b) (hD : ∀ d, D d → D' d) :
    IsRadicand D' e b := by
  obtain ⟨hb, q, hq, ho⟩ := h
  exact ⟨hb, q, hD _ hq, ho⟩

lemma isRootExponent_iff {e : Expr} : e.isRootExponent = true ↔ ∃ q : ℚ, e = .num (.exact q) ∧ q.den = 2 := by
  cases e with
  | num n => cases n <;> simp [isRootExponent]
  | symbol | constant | plus | times | power | call => simp [isRootExponent]

lemma mem_rootOccurrencesAll {b : Expr} : b ∈ rootOccurrencesAll es ↔ ∃ e ∈ es, b ∈ e.rootOccurrences := by
  induction es with
  | nil => simp [rootOccurrencesAll]
  | cons e es ih => simp [rootOccurrencesAll, ih]

lemma mem_rootOccurrences {b e : Expr} : b ∈ e.rootOccurrences ↔ IsRadicand (· = 2) e b := by
  have hstep : ∀ e : Expr, b ∈ e.rootOccurrences ↔
      (b.freeSymbols ≠ [] ∧ ∃ q : ℚ, q.den = 2 ∧ e = .power b (.num (.exact q))) ∨
        ∃ c ∈ e.children, b ∈ c.rootOccurrences := by
    intro e
    cases e with
    | num | symbol | constant | call => simp [rootOccurrences, children]
    | plus es | times es => simp [rootOccurrences, mem_rootOccurrencesAll, children]
    | power c x =>
      have hroot : b ∈ (if x.isRootExponent && !c.freeSymbols.isEmpty then [c] else []) ↔
          b.freeSymbols ≠ [] ∧ ∃ q : ℚ, q.den = 2 ∧ Expr.power c x = .power b (.num (.exact q)) := by
        rw [List.mem_ite_nil_right, List.mem_singleton, Bool.and_eq_true, isRootExponent_iff]
        simp only [Bool.not_eq_true', List.isEmpty_eq_false_iff, Expr.power.injEq]
        constructor
        · rintro ⟨⟨⟨q, rfl, hq⟩, hc⟩, rfl⟩
          exact ⟨hc, q, hq, rfl, rfl⟩
        · rintro ⟨hb, q, hq, rfl, rfl⟩
          exact ⟨⟨⟨q, rfl, hq⟩, hb⟩, rfl⟩
      simp only [rootOccurrences, List.mem_append, hroot, children, List.mem_cons, List.not_mem_nil, or_false,
        exists_eq_or_imp, exists_eq_left, or_assoc]
  refine (exists_occurs_iff (b ∈ ·.rootOccurrences) _ hstep e).trans ⟨?_, ?_⟩
  · rintro ⟨c, hc, hb, q, hq, rfl⟩
    exact ⟨hb, q, hq, hc⟩
  · rintro ⟨hb, q, hq, hc⟩
    exact ⟨_, hc, hb, q, hq, rfl⟩

/-- The lists of arguments with a sign condition have no repetitions and are complete: one holds the arguments of all
logarithms that occur, the other all radicands of square roots and of their powers. The latter are all radicands of even
roots exactly if each of these stands under a square root as well. -/
theorem signConditions_complete (e : Expr) :
    Lists e.logArguments (fun a => Occurs (.call .log a) e) ∧ Lists e.rootArguments (IsRadicand (· = 2) e) ∧
      (Everywhere DefinedNumber e → e.logArguments.Nodup ∧ e.rootArguments.Nodup) ∧
      (Everywhere ExactNode e →
        (Lists e.rootArguments (IsRadicand Even e) ↔ ∀ b, IsRadicand Even e b → IsRadicand (· = 2) e b)) := by
  have hlogs : Lists e.logArguments fun a => Occurs (.call .log a) e :=
    (distinct_lists _).congr fun a => mem_logOccurrences
  have hroots : Lists e.rootArguments (IsRadicand (· = 2) e) := (distinct_lists _).congr fun b => mem_rootOccurrences
  have heven : ∀ b, IsRadicand (· = 2) e b → IsRadicand Even e b := fun b hb => hb.mono (by rintro d rfl; decide)
  refine ⟨hlogs, hroots, fun hdef => ⟨hlogs.nodup fun a ha => ?_, hroots.nodup fun b hb => ?_⟩, fun hexact => ?_⟩
  · exact (same_self_iff a).mpr ((hlogs.sound a ha).everywhere hdef).2
  · obtain ⟨-, q, -, hq⟩ := hroots.sound b hb
    exact (same_self_iff b).mpr (hq.everywhere hdef).2.1
  · refine ⟨fun h b hb => ?_, fun h => hroots.congr fun b => ⟨heven b, h b⟩⟩
    obtain ⟨c, hc, hbc⟩ := h.complete b hb
    obtain ⟨-, q, -, hq⟩ := hb
    have hsame : (b == c) = true ↔ b = c := same_iff_of_exact b c (hq.everywhere hexact).2.1
    rw [hsame, or_self] at hbc
    exact hbc ▸ hroots.sound c hc

/-- A fourth root is an even root, but its radicand is not listed; the argument of the logarithm is. -/
theorem signConditions_complete_fourthRoot : ∃ e : Expr,
    Formula.read .approximate "log(y)**(1/4)" = .ok e ∧ e.logArguments = [.symbol "y"] ∧ e.logArguments.Nodup ∧
      e.rootArguments = [] ∧ IsRadicand Even e (.call .log (.symbol "y")) ∧
      ¬ Lists e.rootArguments (IsRadicand Even e) := by
  have hnone : (Expr.power (.call .log (.symbol "y")) (frac 1 4)).rootArguments = [] := by cbv
  have heven : IsRadicand Even (.power (.call .log (.symbol "y")) (frac 1 4)) (.call .log (.symbol "y")) :=
    ⟨List.ne_nil_of_mem (mem_freeSymbols.mpr (List.mem_singleton_self _)), Rat.divInt 1 4, by decide, .whole⟩
  have hexact : Everywhere ExactNode (.power (.call .log (.symbol "y")) (frac 1 4)) :=
    ⟨trivial, ⟨trivial, trivial⟩, rfl⟩
  have hdefined : Everywhere DefinedNumber (.power (.call .log (.symbol "y")) (frac 1 4)) :=
    (same_self_iff _).mp (by cbv)
  obtain ⟨-, hroots, hnodup, hiff⟩ := signConditions_complete (.power (.call .log (.symbol "y")) (frac 1 4))
  refine ⟨_, by cbv, by cbv, (hnodup hdefined).1, hnone, heven, fun h => ?_⟩
  obtain ⟨c, hc, -⟩ := hroots.complete _ ((hiff hexact).mp h _ heven)
  rw [hnone] at hc
  cases hc

end PlaneCalculus.Expr
