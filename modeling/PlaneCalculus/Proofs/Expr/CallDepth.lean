import PlaneCalculus.Proofs.Expr.Agreement

/-! The constructors return. A depth of calls linear in the sizes of the operands is enough for them and for the written
form they sort by, whatever leaves the operands have, and nothing but the depth decides whether they are cut short. -/

namespace PlaneCalculus

namespace Expr

open Calc

variable {α : Type}

/-- From a depth on, the mutually recursive calls end with one and the same value, unless a number is refused. -/
def ReturnsFrom (depth : Nat) (run : Overflow → Nat → Calc α) (post : α → Prop) : Prop :=
  ∃ r, post r ∧ ∀ n, depth ≤ n →
    run .approximate n = .ok r ∧ (run .refuse n = .ok r ∨ run .refuse n = .error .overflow)

lemma returnsFrom_of_ends {depth : Nat} {run : Overflow → Nat → Calc α} {c : Overflow → Calc α} {post : α → Prop}
    (hends : ∀ o n, depth ≤ n → Meets (refusal o) (run o n) post)
    (heq : ∀ o n, run o n ≠ .error .exhausted → run o n = c o) (hc : Consistent c) : ReturnsFrom depth run post := by
  have hrun (o : Overflow) (n : Nat) (h : depth ≤ n) : run o n = c o := heq o n (hends o n h).ne_exhausted
  obtain ⟨r, hr, hpost⟩ := (hends .approximate depth le_rfl).exists_value
  rw [hrun _ _ le_rfl] at hr
  refine ⟨r, hpost, fun n h => ⟨(hrun _ n h).trans hr, ?_⟩⟩
  rw [hrun .refuse n h]
  have hrefused := hc.ends .refuse
  cases hs : c .refuse with
  | ok s =>
    have hsr := (hc.agrees s hs).symm.trans hr
    exact Or.inl hsr
  | error e =>
    rw [hs] at hrefused
    exact Or.inr (congrArg _ hrefused.2)

lemma sum_returns (args : List Expr) :
    ReturnsFrom (callDepth (sumSize args)) (fun o n => sumAt o n args) (SumBound (sumSize args)) :=
  returnsFrom_of_ends (fun _ n h => (ends_at n).sum_ends args h) (fun _ _ => sumAt_eq) (sum_consistent args)

lemma product_returns (args : List Expr) :
    ReturnsFrom (callDepth (productSize args)) (fun o n => productAt o n args)
      (·.size.product ≤ productSize args) :=
  returnsFrom_of_ends (fun _ n h => (ends_at n).product_ends args h) (fun _ _ => productAt_eq)
    (product_consistent args)

lemma pow_returns (b e : Expr) :
    ReturnsFrom (callDepth (b.size.base * e.size.sum)) (fun o n => powerAt o n b e) (PowerBound b e) :=
  returnsFrom_of_ends (fun _ n h => (ends_at n).pow_ends b e h) (fun _ _ => powerAt_eq) (pow_consistent b e)

lemma text_returns (e : Expr) :
    ReturnsFrom (callDepth e.size.product) (fun o n => textAt o n e) fun _ => True :=
  returnsFrom_of_ends (fun _ n h => (ends_at n).text_of_size e h) (fun _ _ => textAt_eq) (text_consistent e)

/-- The constructors return for all operands, numbers of either kind among the leaves: each within a depth linear in the
sizes of its operands, and with a result no larger than these allow. A call asks for no other constructor, and the written
form, which sums and products are sorted by, returns as well. -/
theorem constructors_return :
    (∀ args, ReturnsFrom (callDepth (sumSize args)) (fun o n => sumAt o n args) (SumBound (sumSize args))) ∧
    (∀ args, ReturnsFrom (callDepth (productSize args)) (fun o n => productAt o n args)
      (·.size.product ≤ productSize args)) ∧
    (∀ b e, ReturnsFrom (callDepth (b.size.base * e.size.sum)) (fun o n => powerAt o n b e) (PowerBound b e)) ∧
    (∀ (f : Func) (a : Expr), (f.of a).size.product ≤ (call f a).size.product) ∧
    ∀ e, ReturnsFrom (callDepth e.size.product) (fun o n => textAt o n e) fun _ => True :=
  ⟨sum_returns, product_returns, pow_returns, of_size, text_returns⟩

end Expr

end PlaneCalculus
