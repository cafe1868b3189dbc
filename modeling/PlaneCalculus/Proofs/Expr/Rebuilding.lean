import PlaneCalculus.Proofs.Expr.NodeLaw
import PlaneCalculus.Proofs.Expr.Settling

/-! Products of factors that have nothing to merge. When such a product is built again, whatever numbers it is multiplied
by, its factors come out as they went in, up to their order. -/

namespace PlaneCalculus.Expr

open Calc

/-- Factors other than numbers, products and exponentials, no two of them with the same base. -/
structure DistinctFactors (fs : List Expr) : Prop where
  number : ∀ f ∈ fs, f.isNumber = false
  flat : ∀ f ∈ fs, ∀ gs, f ≠ .times gs
  plain : ∀ f ∈ fs, f.isExponential = false
  apart : fs.Pairwise fun f g => (f.baseExponent.1 == g.baseExponent.1) = false

lemma DistinctFactors.sublist {fs gs : List Expr} (h : DistinctFactors fs) (hs : gs.Sublist fs) : DistinctFactors gs :=
  ⟨fun f hf => h.number f (hs.subset hf), fun f hf => h.flat f (hs.subset hf), fun f hf => h.plain f (hs.subset hf),
    h.apart.sublist hs⟩

variable {o : Overflow} {sum product : List Expr → Calc Expr} {pow : Expr → Expr → Calc Expr}
  {text : Expr → Calc String}

/-! ### Powers -/

lemma int_exponent {k : Int} (h0 : k ≠ 0) (h1 : k ≠ 1) : (int k).isZero = false ∧ (int k).isInt 1 = false := by
  simp [isZero, int, isInt, integer?, Number.toInt?, Number.ofInt, Number.isZero, h0, h1]

/-- A power whose exponent stays with its base is given back. -/
lemma powerStep_kept {b : Expr} {k : Int} (h0 : k ≠ 0) (h1 : k ≠ 1) (hb : b.KeepsExponent k) :
    powerStep o product pow b (int k) = .ok (.power b (int k)) := by
  obtain ⟨hz, hone⟩ := int_exponent h0 h1
  unfold powerStep
  rw [if_neg (by simp [hz]), if_neg (by simp [hone])]
  cases b with
  | num n =>
    obtain ⟨rfl, hk⟩ := hb
    have hneg : (Number.ofInt k).isNegative = true := by simpa using hk
    have hfold : foldPower o (.num (.ofInt 0)) (int k) = .ok none := by
      show (if (Number.ofInt 0).isZero && !(Number.ofInt k).isNegative then _ else _) = _
      rw [hneg]
      exact (numericPower_int o ((0 : Int) : ℚ) k).trans (if_pos ⟨rfl, hk⟩)
    rw [if_neg (by decide), hfold]
    rfl
  | symbol | plus => rfl
  | constant c =>
    cases c with
    | pi => rfl
    | e => exact hb.elim
  | call f a =>
    cases f with
    | exp => exact hb.elim
    | _ => rfl
  | times | power => exact hb.elim

lemma powerStep_zero {k : Int} (hk : 0 < k) : powerStep o product pow (int 0) (int k) = .ok (int 0) := by
  by_cases h1 : k = 1
  · subst h1
    rfl
  · obtain ⟨hz, hone⟩ := int_exponent (by omega : k ≠ 0) h1
    have hneg : (Number.ofInt k).isNegative = false := by simpa using hk.le
    have hfold : foldPower o (int 0) (int k) = .ok (some (int 0)) := by
      show (if (Number.ofInt 0).isZero && !(Number.ofInt k).isNegative then _ else _) = _
      rw [hneg]
      rfl
    unfold powerStep
    rw [if_neg (by simp [hz]), if_neg (by simp [hone]), if_neg (by decide), hfold]
    rfl

/-! ### Products -/

lemma push_base {s : Gathered} {f : Expr} (hn : f.isNumber = false) (hx : f.isExponential = false) : s.push o sum f =
    do return { s with bases := ← addExponent sum f.baseExponent.1 f.baseExponent.2 s.bases } := by
  cases f with
  | num n => cases hn
  | symbol | constant | plus | times | power => rfl
  | call g a =>
    cases g with
    | exp => cases hx
    | _ => rfl

lemma push_plain {s : Gathered} {f : Expr} (hn : f.isNumber = false) (hx : f.isExponential = false)
    (h : ∀ p ∈ s.bases, (p.1 == f.baseExponent.1) = false) :
    s.push o sum f = .ok { s with bases := s.bases ++ [f.baseExponent] } := by
  rw [push_base hn hx, addExponent_append h]
  rfl

lemma gathered_distinct {es fs : List Expr} (hes : nonNumbers es = fs) (h : DistinctFactors fs) :
    Meets anyHalt (es.foldlM (Gathered.push o sum) ⟨.ofInt 1, [], []⟩) fun s =>
      s.bases = fs.map baseExponent ∧ s.exponentials = [] := by
  refine (meets_foldlM (fun rest s => ∃ done, done ++ nonNumbers rest = fs ∧ s.bases = done.map baseExponent ∧
    s.exponentials = []) ?_ ⟨[], hes, rfl, rfl⟩).mono ?_
  · rintro e rest s ⟨done, hdone, hbases, hexp⟩
    have hpush (he : e.isNumber = false) : Meets anyHalt (s.push o sum e) fun t =>
        ∃ done, done ++ nonNumbers rest = fs ∧ t.bases = done.map baseExponent ∧ t.exponentials = [] := by
      have hcons : nonNumbers (e :: rest) = e :: nonNumbers rest := by simp [nonNumbers, he]
      rw [hcons] at hdone
      have hmem : e ∈ fs := hdone ▸ by simp
      have hapart := h.apart
      rw [← hdone, List.pairwise_append] at hapart
      rw [push_plain he (h.plain e hmem) ?_]
      · exact ⟨done ++ [e], by simp [hdone], by simp [hbases], hexp⟩
      · intro p hp
        rw [hbases] at hp
        obtain ⟨f, hf, rfl⟩ := List.mem_map.mp hp
        exact hapart.2.2 f hf e List.mem_cons_self
    cases e with
    | num n => exact (meets_anyHalt_true _).bind fun _ _ => ⟨done, hdone, hbases, hexp⟩
    | symbol | constant | plus | times | power | call => exact hpush rfl
  · rintro s ⟨done, hdone, hbases, hexp⟩
    rw [show nonNumbers ([] : List Expr) = [] from rfl, List.append_nil] at hdone
    exact ⟨hdone ▸ hbases, hexp⟩

lemma powers_distinct {fs : List Expr} (h : ∀ f ∈ fs, Meets anyHalt (pow f.baseExponent.1 f.baseExponent.2) (· = f)) :
    Meets anyHalt ((fs.map baseExponent).mapM fun p => pow p.1 p.2) (· = fs) := by
  induction fs with
  | nil => rfl
  | cons f fs ih =>
    rw [List.forall_mem_cons] at h
    rw [List.map_cons, List.mapM_cons]
    refine h.1.bind fun r hr => ?_
    refine (ih h.2).bind fun rs hrs => ?_
    rw [hr, hrs]
    rfl

lemma push_coeff {s : Gathered} {e : Expr} (he : e.isNumber = false) :
    Meets anyHalt (s.push o sum e) (·.coeff = s.coeff) := by
  have hbase : Meets anyHalt
      (do return { s with bases := ← addExponent sum e.baseExponent.1 e.baseExponent.2 s.bases } : Calc Gathered)
      (·.coeff = s.coeff) := (meets_anyHalt_true _).bind fun _ _ => rfl
  cases e with
  | num n => cases he
  | symbol | constant | plus | times | power => exact hbase
  | call f a =>
    cases f with
    | exp => rfl
    | _ => exact hbase

lemma gathered_coeff {es : List Expr} (h : ∀ e ∈ es, e.isNumber = false) :
    Meets anyHalt (es.foldlM (Gathered.push o sum) ⟨.ofInt 1, [], []⟩) (·.coeff = .ofInt 1) := by
  refine (meets_foldlM (fun rest s => (∀ e ∈ rest, e.isNumber = false) ∧ s.coeff = .ofInt 1) ?_ ⟨h, rfl⟩).mono
    fun s hs => hs.2
  rintro e rest s ⟨hrest, hs⟩
  rw [List.forall_mem_cons] at hrest
  exact (push_coeff hrest.1).mono fun t ht => ⟨hrest.2, ht.trans hs⟩

/-- All but the coefficient is known when the last part of the product begins; the coefficient is the one that was gathered. -/
lemma productStep_rebuilt {P : Number → Prop} {args fs : List Expr} (hfs : nonNumbers (args.flatMap factors) = fs)
    (h : DistinctFactors fs) (hpow : ∀ f ∈ fs, Meets anyHalt (pow f.baseExponent.1 f.baseExponent.2) (· = f))
    (hcoeff : Meets anyHalt ((args.flatMap factors).foldlM (Gathered.push o sum) ⟨.ofInt 1, [], []⟩) (P ·.coeff)) :
    Meets anyHalt (productStep o sum product pow text args) fun r =>
      ∃ c, finishProduct sum product text (c, fs) = .ok r ∧ P c := by
  refine ((gathered_distinct hfs h).and hcoeff).bind fun g ⟨⟨hbases, hexp⟩, hone⟩ => ?_
  split
  · next hz => exact ⟨g.coeff, if_pos hz, hone⟩
  · have hmerge : g.mergeExponentials o sum = .ok g := by
      unfold Gathered.mergeExponentials
      rw [hexp]
      rfl
    rw [hmerge]
    show Meets anyHalt (g.bases.mapM (fun p => pow p.1 p.2) >>= _) _
    rw [hbases]
    refine (powers_distinct hpow).bind fun built hbuilt => ?_
    rw [hbuilt, flatMap_factors h.flat, absorb_factors h.number]
    exact meets_anyHalt_iff.mpr fun r hr => ⟨_, hr, hone⟩

/-- There is no coefficient when there are no numbers among the factors. -/
lemma productStep_distinct {args fs : List Expr} (hfs : nonNumbers (args.flatMap factors) = fs) (h : DistinctFactors fs)
    (hpow : ∀ f ∈ fs, Meets anyHalt (pow f.baseExponent.1 f.baseExponent.2) (· = f)) :
    Meets anyHalt (productStep o sum product pow text args) fun r =>
      ∃ c, finishProduct sum product text (c, fs) = .ok r ∧ (args.flatMap factors = fs → c = .ofInt 1) :=
  productStep_rebuilt hfs h hpow (meets_anyHalt_iff.mpr fun _ hs hargs =>
    (gathered_coeff fun e he => h.number e (hargs ▸ he)).value hs)

/-- Factors other than numbers and products, no two with bases that compare equal and no two exponentials. -/
structure ApartFactors (fs : List Expr) : Prop where
  number : ∀ f ∈ fs, f.isNumber = false
  flat : ∀ f ∈ fs, ∀ gs, f ≠ .times gs
  apart : fs.Pairwise fun f g =>
    (f.baseExponent.1 == g.baseExponent.1) = false ∧ (f.isExponential && g.isExponential) = false
  normal : ∀ a, .call .exp a ∈ fs → Func.exp.of a = .call .exp a

lemma ApartFactors.exponentials {fs : List Expr} (h : ApartFactors fs) : (fs.filter isExponential).length ≤ 1 := by
  have hapart := h.apart.filter isExponential
  rcases hx : fs.filter isExponential with _ | ⟨f, _ | ⟨g, rest⟩⟩
  · exact Nat.zero_le 1
  · exact le_rfl
  · have hexp : ∀ x ∈ f :: g :: rest, x.isExponential = true := fun x hx' => (List.mem_filter.mp (hx ▸ hx')).2
    rw [hx, List.pairwise_cons] at hapart
    have hboth := (hapart.1 g List.mem_cons_self).2
    rw [hexp f (by simp), hexp g (by simp)] at hboth
    cases hboth

lemma gathered_apart {P : Number → Prop} {es fs : List Expr} (hes : nonNumbers es = fs) (h : ApartFactors fs)
    (hcoeff : Meets anyHalt (es.foldlM (Gathered.push o sum) ⟨.ofInt 1, [], []⟩) (P ·.coeff)) :
    Meets anyHalt (es.foldlM (Gathered.push o sum) ⟨.ofInt 1, [], []⟩) fun s => s = gatheredOf s.coeff fs ∧ P s.coeff := by
  refine Meets.and ((meets_foldlM (fun rest s => ∃ done, done ++ nonNumbers rest = fs ∧ s = gatheredOf s.coeff done) ?_
    ⟨[], hes, rfl⟩).mono ?_) hcoeff
  · rintro e rest s ⟨done, hdone, hs⟩
    have hpush (he : e.isNumber = false) : Meets anyHalt (s.push o sum e) fun t =>
        ∃ done, done ++ nonNumbers rest = fs ∧ t = gatheredOf t.coeff done := by
      have hcons : nonNumbers (e :: rest) = e :: nonNumbers rest := by simp [nonNumbers, he]
      rw [hcons] at hdone
      have hapart := h.apart
      rw [← hdone, List.pairwise_append] at hapart
      rw [hs, push_gatheredOf he fun g hg => (hapart.2.2 g hg e List.mem_cons_self).1]
      exact ⟨done ++ [e], by simp [hdone], rfl⟩
    cases e with
    | num n =>
      refine (meets_anyHalt_true _).bind fun c _ => ⟨done, hdone, ?_⟩
      rw [hs]
      rfl
    | symbol | constant | plus | times | power | call => exact hpush rfl
  · rintro s ⟨done, hdone, hs⟩
    rw [show nonNumbers ([] : List Expr) = [] from rfl, List.append_nil] at hdone
    exact hdone ▸ hs

/-- Factors that have nothing to merge come out of a product as they went in, if each of them is given back when it is
raised again. -/
lemma productStep_apart {P : Number → Prop} {args fs : List Expr} (hfs : nonNumbers (args.flatMap factors) = fs)
    (h : ApartFactors fs) (hpow : ∀ f ∈ fs, Meets anyHalt (pow f.baseExponent.1 f.baseExponent.2) (· = f))
    (hcoeff : Meets anyHalt ((args.flatMap factors).foldlM (Gathered.push o sum) ⟨.ofInt 1, [], []⟩) (P ·.coeff)) :
    Meets anyHalt (productStep o sum product pow text args) fun r =>
      ∃ c gs, gs.Perm fs ∧ finishProduct sum product text (c, gs) = .ok r ∧ P c := by
  refine (gathered_apart hfs h hcoeff).bind fun g ⟨hg, hP⟩ => ?_
  split
  · next hz => exact ⟨g.coeff, fs, .refl fs, if_pos hz, hP⟩
  · obtain ⟨exponentials, hmerge⟩ := mergeExponentials_factors o sum g.coeff h.normal h.exponentials
    rw [hg, hmerge]
    have hperm := rebuilt_perm fs
    refine (powers_distinct fun f hf => hpow f (hperm.mem_iff.mp hf)).bind fun built hbuilt => ?_
    rw [hbuilt, flatMap_factors fun f hf => h.flat f (hperm.mem_iff.mp hf),
      absorb_factors fun f hf => h.number f (hperm.mem_iff.mp hf)]
    exact meets_anyHalt_iff.mpr fun r hr => ⟨_, _, hperm, hr, hP⟩

/-- What holds at all nodes of the factors holds at all nodes of their product, if it holds of numbers and products. -/
lemma assembled_everywhere {P : Expr → Prop} {c : Number} {fs : List Expr} (hone : P (int 1)) (hc : P (.num c))
    (htimes : ∀ gs, P (.times gs)) (h : ∀ f ∈ fs, Everywhere P f) : Everywhere P (assembled c fs) := by
  have hall : ∀ f ∈ if c.isOne then fs else .num c :: fs, Everywhere P f := by
    split
    · exact h
    · exact List.forall_mem_cons.mpr ⟨hc, h⟩
  unfold assembled
  rcases hfs : (if c.isOne then fs else .num c :: fs) with _ | ⟨f, _ | ⟨g, gs⟩⟩ <;> rw [hfs] at hall
  · exact hone
  · exact hall f List.mem_cons_self
  · exact (everywhere_times _).mpr ⟨htimes _, hall⟩

lemma finishProduct_apart {c : Number} {fs : List Expr} (h : ∀ ts, fs ≠ [.plus ts]) :
    Meets anyHalt (finishProduct sum product text (c, fs)) fun r =>
      r = .num c ∨ ∃ gs : List Expr, gs.Perm fs ∧ r = assembled c gs := by
  unfold finishProduct
  split
  · exact Or.inl rfl
  · split
    · next ts hts _ => exact absurd hts (h ts)
    · exact (meets_sortFactors_perm text fs).bind fun gs hp => Or.inr ⟨gs, hp, rfl⟩

lemma finishProduct_one {fs : List Expr} : Meets anyHalt (finishProduct sum product text (.ofInt 1, fs)) fun r =>
    ∃ gs : List Expr, gs.Perm fs ∧ r = collapse 1 .times gs := by
  unfold finishProduct
  rw [if_neg (show ¬ (Number.ofInt 1).isZero = true by decide)]
  split
  · next hone => cases hone
  · exact (meets_sortFactors_perm text fs).bind fun gs hp => ⟨gs, hp, rfl⟩

end PlaneCalculus.Expr
