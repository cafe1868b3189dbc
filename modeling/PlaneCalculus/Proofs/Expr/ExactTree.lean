import PlaneCalculus.Proofs.Expr.SoundTree

/-! Trees in which every number is exact. The constructors lead from such trees to such trees, since nothing is rounded as long
as nothing leaves the exact range; only an absolute value is rounded even so. -/

namespace PlaneCalculus.Expr

open Calc

-- Where the exact range ends does not matter here.
attribute [local irreducible] Number.fits

abbrev ExactTree (e : Expr) : Prop := Everywhere ExactNode e

variable {a b e x : Expr} {sum product : List Expr → Calc Expr} {pow : Expr → Expr → Calc Expr} {text : Expr → Calc String}

lemma exactTree_num (q : ℚ) : ExactTree (.num (.exact q)) := rfl

lemma exactTree_int (k : Int) : ExactTree (int k) := rfl

lemma SoundIn.exact {T : String → Prop} (h : SoundIn T e) : ExactTree e := by
  refine Everywhere.mono (fun n hn => ?_) e h
  cases n with
  | num => exact hn
  | symbol | constant | plus | times | power | call => trivial

lemma ExactTree.of {f : Func} (hf : f ≠ .abs) (ha : ExactTree a) : ExactTree (f.of a) := by
  rcases f.of_cases a with (⟨k, hk, -⟩ | ⟨c, hc⟩ | ⟨g, hg⟩ | ⟨n, rfl, -⟩) | ⟨v, w, rfl, -⟩ | hof
  · exact hk ▸ exactTree_int k
  · exact hc ▸ trivial
  · rw [hg] at ha
    exact ha.2
  · obtain ⟨q, rfl⟩ := Number.exists_exact ha
    unfold Func.of
    cases hv : f.exactValue? (.num (.exact q)) with
    | some r => exact (exactValue?_sound (T := anySymbol) hf hv).exact
    | none => exact ⟨trivial, ha⟩
  · cases ha
  · exact hof ▸ ⟨trivial, ha⟩

/-! ### Sums -/

structure KeepsExact (sum product : List Expr → Calc Expr) (pow : Expr → Expr → Calc Expr) : Prop where
  sum_exact : ∀ args, (∀ e ∈ args, ExactTree e) → Meets anyHalt (sum args) ExactTree
  product_exact : ∀ args, (∀ e ∈ args, ExactTree e) → Meets anyHalt (product args) ExactTree
  pow_exact : ∀ b x, ExactTree b → ExactTree x → Meets anyHalt (pow b x) ExactTree

lemma ExactTree.factors (h : ExactTree e) : ∀ f ∈ e.factors, ExactTree f := by
  cases e with
  | times fs => exact ((everywhere_times fs).mp h).2
  | num | symbol | constant | plus | power | call => exact List.forall_mem_singleton.mpr h

lemma ExactTree.coeffRest (h : ExactTree e) : (∃ q, e.coeffRest.1 = .exact q) ∧ ExactTree e.coeffRest.2 := by
  unfold Expr.coeffRest
  split
  · obtain ⟨-, hall⟩ := (everywhere_times _).mp h
    exact ⟨Number.exists_exact (hall (.num _) (by simp)), hall _ (by simp)⟩
  · obtain ⟨-, hall⟩ := (everywhere_times _).mp h
    rw [List.forall_mem_cons] at hall
    exact ⟨Number.exists_exact hall.1, (everywhere_times _).mpr ⟨trivial, hall.2⟩⟩
  · exact ⟨Number.exists_exact h, exactTree_int 1⟩
  · exact ⟨⟨1, rfl⟩, h⟩

lemma ExactTree.multiple (h : ExactTree e) : IsMultipleOf ExactTree e := by
  cases e with
  | num n => exact Or.inl ((Number.exists_exact h).imp fun _ hq => congrArg _ hq)
  | symbol | constant | plus | times | power | call => exact Or.inr ⟨rfl, h.coeffRest⟩

lemma exactTree_collapse {k : Int} {node : List Expr → Expr} {es : List Expr} (h : ∀ e ∈ es, ExactTree e)
    (hnode : ExactTree (node es)) : ExactTree (collapse k node es) := by
  rcases es with _ | ⟨e, _ | ⟨f, es⟩⟩
  · exact exactTree_int k
  · exact h e List.mem_cons_self
  · exact hnode

lemma sumStep_exactTree (K : KeepsExact sum product pow) {args : List Expr} (h : ∀ e ∈ args, ExactTree e) :
    Meets anyHalt (sumStep .refuse product text args) ExactTree := by
  have hterms : ∀ t ∈ args.flatMap terms, IsMultipleOf ExactTree t := by
    intro t ht
    obtain ⟨e, he, ht⟩ := List.mem_flatMap.mp ht
    exact ExactTree.multiple (terms_nodes (h e he) t ht)
  refine (sumStep_multiples hterms fun q _ r hr => K.product_exact _ (by simpa using ⟨exactTree_num q, hr⟩)).mono ?_
  rintro r ⟨ts, hts, rfl⟩
  have hall : ∀ t ∈ ts, ExactTree t := fun t ht => (hts t ht).elim (fun ⟨q, hq⟩ => hq ▸ exactTree_num q) id
  exact exactTree_collapse hall ((everywhere_plus _).mpr ⟨trivial, hall⟩)

/-! ### Products -/

lemma keepsGathered_exactTree : KeepsGathered .refuse ExactTree where
  mul _ _ := meets_mul_exact
  one := exactTree_int 1
  base e h := by
    cases e with
    | power b x => exact ⟨h.2.1, h.2.2⟩
    | num | symbol | constant | plus | times | call => exact ⟨h, exactTree_int 1⟩
  arg _ h := h.2
  exp _ h := h.of (by decide)

lemma finishProduct_exactTree (K : KeepsExact sum product pow) {c : Number} {fs : List Expr} (hc : ExactTree (.num c))
    (h : ∀ f ∈ fs, ExactTree f) : Meets anyHalt (finishProduct sum product text (c, fs)) ExactTree := by
  unfold finishProduct
  split
  · exact hc
  split
  · next ts hts _ =>
    cases hts
    have hall := terms_nodes (h _ List.mem_cons_self)
    have hscaled : Meets anyHalt (ts.mapM fun t => product [.num c, t]) fun us => ∀ u ∈ us, ExactTree u :=
      meets_mapM_forall fun t ht => K.product_exact _ (by simpa using ⟨hc, hall t ht⟩)
    exact hscaled.bind fun us hus => K.sum_exact us hus
  · refine (meets_sortFactors_perm text fs).bind fun gs hperm => ?_
    have hgs : ∀ g ∈ if c.isOne then gs else .num c :: gs, ExactTree g := by
      have hgs : ∀ g ∈ gs, ExactTree g := fun g hg => h g (hperm.mem_iff.mp hg)
      split
      · exact hgs
      · exact List.forall_mem_cons.mpr ⟨hc, hgs⟩
    exact exactTree_collapse hgs ((everywhere_times _).mpr ⟨trivial, hgs⟩)

lemma productStep_exactTree (K : KeepsExact sum product pow) {args : List Expr} (h : ∀ e ∈ args, ExactTree e) :
    Meets anyHalt (productStep .refuse sum product pow text args) ExactTree :=
  productStep_gathered (keepsGathered_exactTree.law K.sum_exact) (fun _ hf => hf) (fun _ hn => hn) (fun _ => ExactTree.factors)
    (fun b x hx => K.pow_exact b x hx.1 hx.2)
    (fun _ _ hc hfs => finishProduct_exactTree K hc fun f hf => (hfs f hf).1) h

/-! ### Powers -/

lemma foldPower_exactTree (hb : ExactTree b) (hx : ExactTree x) :
    Meets anyHalt (foldPower .refuse b x) fun r => ∀ e, r = some e → ExactTree e := by
  cases b with
  | num n =>
    cases x with
    | num m =>
      cases hz : n.isZero with
      | false => exact (foldPower_sound (b := .num n) (e := .num m) (T := anySymbol) hb hz hx).mono fun r hr e he =>
        SoundIn.exact (T := anySymbol) (hr e he).sound
      | true =>
        obtain ⟨p, rfl⟩ := Number.exists_exact hb
        obtain ⟨q, rfl⟩ := Number.exists_exact hx
        obtain rfl : p = 0 := (Number.isZero_exact p).mp hz
        show Meets anyHalt (if (Number.exact 0).isZero && !(Number.exact q).isNegative then pure (some (int 0))
          else numericPower .refuse (.exact 0) (.exact q)) _
        split
        · rintro e ⟨⟩
          exact exactTree_int 0
        · next hneg =>
          have hq : q.num < 0 := by simpa [Number.isNegative] using hneg
          unfold numericPower
          dsimp only
          split
          · rw [if_pos ⟨rfl, hq⟩]
            rintro e ⟨⟩
          · rw [if_neg (by omega), if_neg (by simp)]
            rintro e ⟨⟩
    | symbol | constant | plus | times | power | call => rintro e ⟨⟩
  | symbol | constant | plus | times | power | call => rintro e ⟨⟩

lemma distributePower_exactTree (K : KeepsExact sum product pow) (hb : ExactTree b) (hx : ExactTree x) :
    Meets anyHalt (distributePower product pow b x) ExactTree := by
  have hscaled {y : Expr} (hy : ExactTree y) : Meets anyHalt (product [y, x]) ExactTree :=
    K.product_exact _ (by simpa using ⟨hy, hx⟩)
  unfold distributePower
  split
  · exact hx.of (by decide)
  · next b y _ _ => exact (hscaled hb.2.2).bind fun z hz => K.pow_exact b z hb.2.1 hz
  · next fs _ _ =>
    have hpowers := meets_mapM_forall fun f hf => K.pow_exact f x (((everywhere_times fs).mp hb).2 f hf) hx
    exact hpowers.bind fun gs hgs => K.product_exact gs hgs
  · exact (hscaled hb.2).bind fun y hy => hy.of (by decide)
  · exact ⟨trivial, hb, hx⟩

lemma powerStep_exactTree (K : KeepsExact sum product pow) (hb : ExactTree b) (hx : ExactTree x) :
    Meets anyHalt (powerStep .refuse product pow b x) ExactTree := by
  unfold powerStep
  split
  · exact exactTree_int 1
  split
  · exact hb
  split
  · exact exactTree_int 1
  refine (foldPower_exactTree hb hx).bind fun r hr => ?_
  cases r with
  | some e => exact hr e rfl
  | none => exact distributePower_exactTree K hb hx

/-! ### Every depth -/

lemma keepsExact_at (n : ℕ) : KeepsExact (sumAt .refuse n) (productAt .refuse n) (powerAt .refuse n) := by
  induction n with
  | zero => exact ⟨fun _ _ => trivial, fun _ _ => trivial, fun _ _ _ _ => trivial⟩
  | succ n K =>
    exact
      { sum_exact := fun _ => sumStep_exactTree K
        product_exact := fun _ => productStep_exactTree K
        pow_exact := fun _ _ => powerStep_exactTree K }

end PlaneCalculus.Expr
