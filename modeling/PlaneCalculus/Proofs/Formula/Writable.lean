import PlaneCalculus.Proofs.Expr.Rebuilding
import PlaneCalculus.Proofs.Formula.Nodes

/-! Expressions that can be written down: their numbers can be written in digits, their symbols are names that mean
nothing else, and their sums, products and powers are put together as the constructors do it. What is read from a text
can be written. -/

open PlaneCalculus.Expr

namespace PlaneCalculus.Formula

open Calc

def WritableNode : Expr → Prop
  | .num n => n.Bounded
  | .symbol x => IsSymbolName x
  | .plus ts => 2 ≤ ts.length
  | .times fs => ProductShape fs ∧ ∀ n ts, fs ≠ [.num n, .plus ts]
  | .power b e => e.isZero = false ∧ e.isInt 1 = false ∧ ∀ k, e.integer? = some k → b.KeepsExponent k
  | _ => True

lemma writable_readingLaw : ReadingLaw WritableNode where
  real _ := trivial
  parts _ _ hn hd := Number.ofParts_bounded hn hd
  abs _ h := Number.abs_bounded h
  constant _ := trivial
  call _ _ _ := trivial
  plus _ h := h
  times _ h hapart := ⟨h, hapart⟩
  shape _ h := h.1
  power _ _ hz hone hk _ := ⟨hz, hone, hk⟩
  symbol _ h := h

/-- A rational expression that can be written. -/
structure Writable (e : Expr) : Prop where
  nodes : Everywhere WritableNode e
  rational : e.IsRational

lemma read_writable {text : String} {o : Overflow} {e : Expr} (h : read o text = .ok e) (hr : e.IsRational) : Writable e :=
  ⟨read_nodes writable_readingLaw text e h, hr⟩

/-! ### Parts -/

lemma Writable.terms {ts : List Expr} (h : Writable (.plus ts)) : ∀ t ∈ ts, Writable t := fun t ht =>
  ⟨((everywhere_plus ts).mp h.nodes).2 t ht, (allRational_iff ts).mp h.rational t ht⟩

lemma Writable.factors {e : Expr} (h : Writable e) : ∀ f ∈ e.factors, Writable f := fun f hf =>
  ⟨(writable_readingLaw.factors h.nodes f hf).1, factors_isRational h.rational f hf⟩

lemma Writable.exponent {b e : Expr} (h : Writable (.power b e)) : ∃ k, e = int k := by
  obtain ⟨-, k, hk⟩ := h.rational
  exact ⟨k, eq_int_of_integer? hk⟩

lemma Writable.power {b : Expr} {k : Int} (h : Writable (.power b (int k))) :
    Writable b ∧ (k.natAbs : Int) < Number.bound ∧ k ≠ 0 ∧ k ≠ 1 ∧ b.KeepsExponent k := by
  obtain ⟨⟨hz, hone, hkeeps⟩, hb, he⟩ := h.nodes
  refine ⟨⟨hb, h.rational.1⟩, he.1, ?_, ?_, hkeeps k rfl⟩
  · rintro rfl
    cases hz
  · rintro rfl
    cases hone

/-- Every factor is a base with a whole exponent, and is given back when it is raised to it again. -/
lemma Writable.factor {f : Expr} (h : Writable f) : Writable f.baseExponent.1 ∧ ∃ k, f.baseExponent.2 = int k ∧
    (k = 1 ∧ f.baseExponent.1 = f ∨ k ≠ 0 ∧ k ≠ 1 ∧ f.baseExponent.1.KeepsExponent k ∧ f = .power f.baseExponent.1 (int k)) := by
  cases f with
  | power b e =>
    obtain ⟨k, rfl⟩ := h.exponent
    obtain ⟨hb, -, h0, h1, hk⟩ := h.power
    exact ⟨hb, k, rfl, Or.inr ⟨h0, h1, hk, rfl⟩⟩
  | num | symbol | constant | plus | times | call => exact ⟨h, 1, rfl, Or.inl ⟨rfl, rfl⟩⟩

lemma Writable.number {n : Number} (h : Writable (.num n)) : ∃ q, n = .exact q ∧ Number.Bounded (.exact q) := by
  obtain ⟨q, rfl⟩ := Number.exists_exact h.rational
  exact ⟨q, rfl, h.nodes⟩

lemma writable_int {k : Int} (h : (k.natAbs : Int) < Number.bound) : Writable (int k) :=
  ⟨⟨h, (by decide : (1 : Int) < Number.bound)⟩, rfl⟩

mutual

lemma inRange_of_writable : (e : Expr) → Everywhere WritableNode e → e.IsRational → Everywhere InRangeNode e
  | .num n, h, hr => by
    obtain ⟨q, rfl⟩ := Number.exists_exact hr
    exact Number.Bounded.inRange h
  | .symbol _, _, _ => trivial
  | .plus ts, ⟨_, h⟩, hr => ⟨trivial, inRange_of_allWritable ts h hr⟩
  | .times fs, ⟨_, h⟩, hr => ⟨trivial, inRange_of_allWritable fs h hr⟩
  | .power b e, ⟨_, hb, he⟩, ⟨hbr, _, hk⟩ =>
    ⟨trivial, inRange_of_writable b hb hbr, inRange_of_writable e he (eq_int_of_integer? hk ▸ rfl)⟩

lemma inRange_of_allWritable : (es : List Expr) → EverywhereAll WritableNode es → AllRational es →
    EverywhereAll InRangeNode es
  | [], _, _ => trivial
  | e :: es, ⟨he, hes⟩, ⟨hr, hrs⟩ => ⟨inRange_of_writable e he hr, inRange_of_allWritable es hes hrs⟩

end

lemma Writable.same_iff {a b : Expr} (h : Writable a) : (a == b) = true ↔ a = b :=
  Expr.same_iff a b (inRange_of_writable a h.nodes h.rational)

/-! ### Constructors -/

lemma product_writable (n : Nat) {args : List Expr} (h : ∀ e ∈ args, Writable e) :
    Meets anyHalt (productAt .refuse n args) Writable := by
  have hnodes := (keepsNodes_at writable_readingLaw.toNodeLaw .refuse n).product_nodes args fun e he => (h e he).nodes
  have hvalue := (keepsValues_at (fun _ => PUnit.unit) n).product_value args fun e he =>
    defined_of_isRational e (h e he).rational
  exact (hnodes.and hvalue).mono fun r hr => ⟨hr.1, isRational_of_defined _ r hr.2.1⟩

/-! ### Products of distinct bases -/

lemma Writable.distinctFactors {e : Expr} (h : Writable e) (hd : DistinctBases e) :
    DistinctFactors (nonNumbers e.factors) where
  number f hf := (mem_nonNumbers.mp hf).2
  flat f hf := (writable_readingLaw.factors h.nodes f (mem_nonNumbers.mp hf).1).2
  plain f hf := by
    have hr := factors_isRational h.rational f (mem_nonNumbers.mp hf).1
    cases f with
    | call => exact hr.elim
    | num | symbol | constant | plus | times | power => rfl
  apart := by
    refine (List.pairwise_map.mp hd).imp_of_mem fun {f g} hf _ hne => ?_
    rw [Bool.eq_false_iff, ne_eq, (h.factors f (mem_nonNumbers.mp hf).1).factor.1.same_iff]
    exact hne

lemma Writable.raised_again {f : Expr} (h : Writable f) (o : Overflow) (n : Nat) :
    Meets anyHalt (powerAt o n f.baseExponent.1 f.baseExponent.2) (· = f) := by
  cases n with
  | zero => trivial
  | succ n =>
    obtain ⟨-, k, hk, ⟨rfl, hf⟩ | ⟨h0, h1, hkeeps, hf⟩⟩ := h.factor
    · rw [hk, hf, powerAt, powerStep_one]
      rfl
    · rw [hk, powerAt, powerStep_kept h0 h1 hkeeps]
      exact hf.symm

lemma product_distinct {o : Overflow} {fs : List Expr} (hw : ∀ f ∈ fs, Writable f) (h : DistinctFactors fs) :
    Meets anyHalt (Expr.product o fs) fun r => ∃ gs : List Expr, gs.Perm fs ∧ r = collapse 1 .times gs := by
  show Meets anyHalt (productAt o (callDepth (productSize fs)) fs) _
  cases callDepth (productSize fs) with
  | zero => trivial
  | succ n =>
    have hfactors := flatMap_factors h.flat
    have hargs : nonNumbers (fs.flatMap factors) = fs := by rw [hfactors, nonNumbers_eq h.number]
    refine meets_anyHalt_iff.mpr fun r hr => ?_
    obtain ⟨c, hc, hone⟩ := (productStep_distinct hargs h fun f hf => (hw f hf).raised_again o n).value hr
    rw [hone hfactors] at hc
    exact finishProduct_one.value hc

end PlaneCalculus.Formula
