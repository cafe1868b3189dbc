import PlaneCalculus.Proofs.Calc.Agreement
import PlaneCalculus.Proofs.Expr.Termination

/-! The constructors and the written form respect every comparison of calculations. They give the same result in both
policies, where none is refused, and the same result at every depth that is enough. -/

namespace PlaneCalculus

namespace Expr

open Calc

variable {o o' : Overflow} (R : Comparison o o') {sum sum' product product' : List Expr → Calc Expr}
  {pow pow' : Expr → Expr → Calc Expr} {text text' : Expr → Calc String}

lemma addCoefficient_respects (rest : Expr) (c : Number) (entries : List (Expr × Number)) :
    R.rel (addCoefficient o rest c entries) (addCoefficient o' rest c entries) := by
  induction entries with
  | nil => exact R.refl _
  | cons p entries ih => exact R.ite (R.bind (R.settle _ _) fun _ => R.refl _) (R.bind ih fun _ => R.refl _)

lemma push_collected_respects (s : Collected) (e : Expr) : R.rel (s.push o e) (s.push o' e) := by
  cases e with
  | num n => exact R.bind (R.settle _ _) fun _ => R.refl _
  | symbol | constant | plus | times | power | call => exact R.bind (addCoefficient_respects R _ _ _) fun _ => R.refl _

lemma sortTerms_respects (ht : ∀ e, R.rel (text e) (text' e)) (es : List Expr) :
    R.rel (sortTerms text es) (sortTerms text' es) := by
  rcases es with _ | ⟨a, _ | ⟨b, es⟩⟩
  · exact R.refl _
  · exact R.refl _
  · refine R.bind (R.mapM (fun e => ?_) (a :: b :: es)) fun _ => R.refl _
    exact R.bind (R.bind (ht _) fun _ => R.refl _) fun _ => R.refl _

lemma sortFactors_respects (ht : ∀ e, R.rel (text e) (text' e)) (es : List Expr) :
    R.rel (sortFactors text es) (sortFactors text' es) := by
  refine R.bind (R.mapM (fun e => ?_) es) fun _ => R.refl _
  exact R.ite (R.refl _) (R.bind (R.bind (ht _) fun _ => R.refl _) fun _ => R.refl _)

lemma sumStep_respects (hp : ∀ args, R.rel (product args) (product' args)) (ht : ∀ e, R.rel (text e) (text' e))
    (args : List Expr) : R.rel (sumStep o product text args) (sumStep o' product' text' args) := by
  refine R.bind (R.foldlM (push_collected_respects R) _ _) fun s => ?_
  refine R.bind (R.mapM (fun p => hp _) _) fun ts => ?_
  exact R.bind (sortTerms_respects R ht ts) fun _ => R.refl _

lemma addExponent_respects (hs : ∀ args, R.rel (sum args) (sum' args)) (b e : Expr) (bases : List (Expr × Expr)) :
    R.rel (addExponent sum b e bases) (addExponent sum' b e bases) := by
  induction bases with
  | nil => exact R.refl _
  | cons p bases ih => exact R.ite (R.bind (hs _) fun _ => R.refl _) (R.bind ih fun _ => R.refl _)

lemma push_gathered_respects (hs : ∀ args, R.rel (sum args) (sum' args)) (s : Gathered) (e : Expr) :
    R.rel (s.push o sum e) (s.push o' sum' e) := by
  have hbase (b x : Expr) : R.rel (do return { s with bases := ← addExponent sum b x s.bases } : Calc Gathered)
      (do return { s with bases := ← addExponent sum' b x s.bases }) :=
    R.bind (addExponent_respects R hs b x s.bases) fun _ => R.refl _
  cases e with
  | num n => exact R.bind (R.settle _ _) fun _ => R.refl _
  | symbol | constant | plus | times | power => exact hbase _ _
  | call f a =>
    unfold Gathered.push
    split
    · exact R.bind (R.settle _ _) fun _ => R.refl _
    · exact R.refl _
    · exact hbase _ _

lemma putExponential_respects (s : Gathered) (a : Expr) : R.rel (s.putExponential o a) (s.putExponential o' a) := by
  unfold Gathered.putExponential
  split
  · exact R.bind (R.settle _ _) fun _ => R.refl _
  · exact R.refl _

lemma mergeExponentials_respects (hs : ∀ args, R.rel (sum args) (sum' args)) (s : Gathered) :
    R.rel (s.mergeExponentials o sum) (s.mergeExponentials o' sum') := by
  unfold Gathered.mergeExponentials
  split
  · exact R.refl _
  · exact putExponential_respects R s _
  · exact R.bind (hs _) fun _ => putExponential_respects R s _

lemma absorb_respects (s : Number × List Expr) (e : Expr) : R.rel (absorb o s e) (absorb o' s e) := by
  cases e with
  | num n => exact R.bind (R.settle _ _) fun _ => R.refl _
  | symbol | constant | plus | times | power | call => exact R.refl _

lemma productStep_respects (hs : ∀ args, R.rel (sum args) (sum' args))
    (hp : ∀ args, R.rel (product args) (product' args)) (hw : ∀ b e, R.rel (pow b e) (pow' b e))
    (ht : ∀ e, R.rel (text e) (text' e)) (args : List Expr) :
    R.rel (productStep o sum product pow text args) (productStep o' sum' product' pow' text' args) := by
  refine R.bind (R.foldlM (push_gathered_respects R hs) _ _) fun g => R.ite (R.refl _) ?_
  refine R.bind (mergeExponentials_respects R hs g) fun g => ?_
  refine R.bind (R.mapM (fun (p : Expr × Expr) => hw p.1 p.2) _) fun built => ?_
  refine R.bind (R.foldlM (absorb_respects R) _ _) fun s => R.ite (R.refl _) ?_
  split
  · exact R.bind (R.mapM (fun t => hp _) _) fun _ => hs _
  · exact R.bind (sortFactors_respects R ht _) fun _ => R.refl _

lemma numericPower_respects (b e : Number) : R.rel (numericPower o b e) (numericPower o' b e) := by
  unfold numericPower
  split
  · exact R.ite (R.ite (R.refl _) (R.bind (R.settle _ _) fun _ => R.refl _)) (R.refl _)
  · exact R.refl _

lemma foldPower_respects (b e : Expr) : R.rel (foldPower o b e) (foldPower o' b e) := by
  unfold foldPower
  split
  · exact R.ite (R.refl _) (numericPower_respects R _ _)
  · exact R.refl _

lemma distributePower_respects (hp : ∀ args, R.rel (product args) (product' args))
    (hw : ∀ b e, R.rel (pow b e) (pow' b e)) (b e : Expr) :
    R.rel (distributePower product pow b e) (distributePower product' pow' b e) := by
  unfold distributePower
  split
  · exact R.refl _
  · exact R.bind (hp _) fun _ => hw _ _
  · exact R.bind (R.mapM (fun f => hw f _) _) fun _ => hp _
  · exact R.bind (hp _) fun _ => R.refl _
  · exact R.refl _

lemma powerStep_respects (hp : ∀ args, R.rel (product args) (product' args))
    (hw : ∀ b e, R.rel (pow b e) (pow' b e)) (b e : Expr) :
    R.rel (powerStep o product pow b e) (powerStep o' product' pow' b e) := by
  refine R.ite (R.refl _) (R.ite (R.refl _) (R.ite (R.refl _) (R.bind (foldPower_respects R b e) fun r => ?_)))
  cases r with
  | some x => exact R.refl _
  | none => exact distributePower_respects R hp hw b e

/-! ### The written form -/

lemma push_fraction_respects (hw : ∀ b e, R.rel (pow b e) (pow' b e)) (s : Fraction) (f : Expr) :
    R.rel (Fraction.push o pow s f) (Fraction.push o' pow' s f) := by
  unfold Fraction.push
  split
  · exact R.bind (R.settle _ _) fun _ => R.refl _
  · exact R.ite (R.bind (R.settle _ _) fun _ => R.bind (hw _ _) fun _ => R.refl _) (R.refl _)
  · exact R.refl _

lemma factorText_respects (ht : ∀ e, R.rel (text e) (text' e)) (e : Expr) :
    R.rel (factorText text e) (factorText text' e) := by
  unfold factorText
  split
  · exact R.bind (ht _) fun _ => R.refl _
  · exact ht _

lemma denominatorText_respects (ht : ∀ e, R.rel (text e) (text' e)) (es : List Expr) :
    R.rel (denominatorText text es) (denominatorText text' es) := by
  unfold denominatorText
  split
  · exact R.refl _
  · exact R.bind (ht _) fun _ => R.refl _
  · exact R.bind (factorText_respects R ht _) fun _ => R.refl _
  · exact R.bind (R.mapM (factorText_respects R ht) _) fun _ => R.refl _

lemma productText_respects (hw : ∀ b e, R.rel (pow b e) (pow' b e)) (ht : ∀ e, R.rel (text e) (text' e))
    (fs : List Expr) : R.rel (productText o pow text fs) (productText o' pow' text' fs) := by
  refine R.bind (R.foldlM (push_fraction_respects R hw) fs _) fun s => ?_
  refine R.bind (R.settle _ _) fun c => ?_
  refine R.bind (R.mapM (factorText_respects R ht) _) fun _ => ?_
  exact R.bind (denominatorText_respects R ht _) fun _ => R.refl _

lemma powerText_respects (hw : ∀ b e, R.rel (pow b e) (pow' b e)) (ht : ∀ e, R.rel (text e) (text' e))
    (b e : Expr) : R.rel (powerText o pow text b e) (powerText o' pow' text' b e) := by
  refine R.ite (R.bind (ht b) fun _ => R.refl _) (R.ite (productText_respects R hw ht _) ?_)
  exact R.bind (ht b) fun _ => R.bind (ht e) fun _ => R.refl _

lemma restText_respects (hp : ∀ args, R.rel (product args) (product' args)) (ht : ∀ e, R.rel (text e) (text' e))
    (e : Expr) : R.rel (restText product text e) (restText product' text' e) :=
  R.ite (R.bind (hp _) fun _ => R.bind (ht _) fun _ => R.refl _) (R.bind (ht _) fun _ => R.refl _)

lemma textStep_respects (hp : ∀ args, R.rel (product args) (product' args))
    (hw : ∀ b e, R.rel (pow b e) (pow' b e)) (ht : ∀ e, R.rel (text e) (text' e)) (e : Expr) :
    R.rel (textStep o product pow text e) (textStep o' product' pow' text' e) := by
  unfold textStep
  split
  · exact R.refl _
  · exact R.refl _
  · exact R.refl _
  · exact R.refl _
  · exact R.refl _
  · exact R.bind (ht _) fun _ => R.bind (R.mapM (restText_respects R hp ht) _) fun _ => R.refl _
  · exact productText_respects R hw ht _
  · exact powerText_respects R hw ht _ _
  · exact R.bind (ht _) fun _ => R.refl _

/-! ### Every depth -/

lemma respects_at (k n : Nat) :
    (∀ args, R.rel (sumAt o n args) (sumAt o' (n + k) args)) ∧
    (∀ args, R.rel (productAt o n args) (productAt o' (n + k) args)) ∧
    (∀ b e, R.rel (powerAt o n b e) (powerAt o' (n + k) b e)) ∧
    ∀ e, R.rel (textAt o n e) (textAt o' (n + k) e) := by
  induction n with
  | zero => exact ⟨fun _ => R.exhausted _, fun _ => R.exhausted _, fun _ _ => R.exhausted _, fun _ => R.exhausted _⟩
  | succ n ih =>
    obtain ⟨hs, hp, hw, ht⟩ := ih
    rw [Nat.add_right_comm]
    exact ⟨sumStep_respects R hp ht, productStep_respects R hs hp hw ht, powerStep_respects R hp hw,
      textStep_respects R hp hw ht⟩

lemma sum_consistent (args : List Expr) : Consistent (Expr.sum · args) :=
  ⟨fun o => (sum_ends o args).mono fun _ _ => trivial, (respects_at agreement 0 _).1 args⟩

lemma product_consistent (args : List Expr) : Consistent (Expr.product · args) :=
  ⟨fun o => (product_ends o args).mono fun _ _ => trivial, (respects_at agreement 0 _).2.1 args⟩

lemma pow_consistent (b e : Expr) : Consistent (Expr.pow · b e) :=
  ⟨fun o => (pow_ends o b e).mono fun _ _ => trivial, (respects_at agreement 0 _).2.2.1 b e⟩

lemma text_consistent (e : Expr) : Consistent (Expr.text · e) :=
  ⟨fun o => text_ends o e, (respects_at agreement 0 _).2.2.2 e⟩

lemma neg_consistent (e : Expr) : Consistent (neg · e) := product_consistent _

lemma sub_consistent (a b : Expr) : Consistent (sub · a b) := (neg_consistent b).bind fun _ => sum_consistent _

lemma div_consistent (a b : Expr) : Consistent (div · a b) := (pow_consistent b _).bind fun _ => product_consistent _

/-! ### Enough depth -/

lemma eq_of_extends {α : Type} {f : Nat → Calc α} (h : ∀ n k, Extends (f n) (f (n + k))) {m n : Nat}
    (hm : f m ≠ .error .exhausted) (hn : f n ≠ .error .exhausted) : f m = f n := by
  have h₁ := h m n hm
  have h₂ := h n m hn
  rw [Nat.add_comm] at h₂
  exact h₁.symm.trans h₂

lemma sumAt_eq {n : Nat} {args : List Expr} (h : sumAt o n args ≠ .error .exhausted) :
    sumAt o n args = Expr.sum o args :=
  eq_of_extends (fun n k => (respects_at (extension o) k n).1 args) h (sum_ends o args).ne_exhausted

lemma productAt_eq {n : Nat} {args : List Expr} (h : productAt o n args ≠ .error .exhausted) :
    productAt o n args = Expr.product o args :=
  eq_of_extends (fun n k => (respects_at (extension o) k n).2.1 args) h (product_ends o args).ne_exhausted

lemma powerAt_eq {n : Nat} {b e : Expr} (h : powerAt o n b e ≠ .error .exhausted) : powerAt o n b e = Expr.pow o b e :=
  eq_of_extends (fun n k => (respects_at (extension o) k n).2.2.1 b e) h (pow_ends o b e).ne_exhausted

lemma textAt_eq {n : Nat} {e : Expr} (h : textAt o n e ≠ .error .exhausted) : textAt o n e = Expr.text o e :=
  eq_of_extends (fun n k => (respects_at (extension o) k n).2.2.2 e) h (text_ends o e).ne_exhausted

end Expr

end PlaneCalculus
