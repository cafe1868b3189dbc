import PlaneCalculus.Proofs.Expr.Rebuilding
import PlaneCalculus.Proofs.Formula.Writable
import PlaneCalculus.Proofs.Latex.Undefined
import PlaneCalculus.Proofs.Number.LowestTerms

/-! Typesetting computes no new numbers where there is nothing to merge. The powers below the line are those above it with
the exponent negated, and a term after a minus sign is negated factor by factor, unless two of its factors have like bases:
these are merged once more, and their exponents may leave the exact range. -/

open PlaneCalculus.Expr

namespace PlaneCalculus

namespace Expr

open Calc

/-- No two factors have bases that compare equal, and no two are exponentials. -/
def NothingToMerge (e : Expr) : Prop := (nonNumbers e.factors).Pairwise fun f g =>
  (f.baseExponent.1 == g.baseExponent.1) = false ∧ (f.isExponential && g.isExponential) = false

/-- The terms that are written after a minus sign have nothing to merge. -/
def MinusApart : Expr → Prop
  | .plus ts => ∀ t ∈ ts.tail, t.isNegativeTerm = true → t.NothingToMerge
  | _ => True

/-- Numbers, products, powers and calls as the constructors leave them. -/
def StandingNode : Expr → Prop
  | .num n => n.Bounded
  | .times fs => ProductShape fs ∧ ∀ n ts, fs ≠ [.num n, .plus ts]
  | .power b e => e.isZero = false ∧ e.isInt 1 = false ∧ (∀ k, e.integer? = some k → b.KeepsExponent k) ∧ Uncomputed b e
  | .call f a => f.of a = .call f a
  | _ => True

lemma standingNode_readingLaw : Formula.ReadingLaw StandingNode where
  real _ := trivial
  parts _ _ hn hd := Number.ofParts_bounded hn hd
  abs _ h := Number.abs_bounded h
  constant _ := trivial
  call _ _ h := h
  plus _ _ := trivial
  times _ h hapart := ⟨h, hapart⟩
  shape _ h := h.1
  power _ _ hz hone hk hu := ⟨hz, hone, hk, hu⟩
  symbol _ _ := trivial

/-- Expressions that are typeset without computing new numbers. -/
structure Plain (e : Expr) : Prop where
  standing : Everywhere StandingNode e
  exact : Everywhere ExactNode e
  minus : Everywhere MinusApart e

/-! ### Numbers -/

lemma plain_num {n : Number} : Plain (.num n) ↔ n.Bounded ∧ n.isExact = true :=
  ⟨fun h => ⟨h.standing, h.exact⟩, fun h => ⟨h.1, h.2, trivial⟩⟩

lemma exists_canonical {n : Number} (h : Plain (.num n)) : ∃ q : ℚ, n = .exact q ∧ (Number.exact q).IsCanonical := by
  obtain ⟨hb, he⟩ := plain_num.mp h
  obtain ⟨q, rfl⟩ := Number.exists_exact he
  exact ⟨q, rfl, Number.isCanonical_iff.mpr hb⟩

lemma plain_exact {q : ℚ} (h : (Number.exact q).IsCanonical) : Plain (.num (.exact q)) :=
  plain_num.mpr ⟨Number.isCanonical_iff.mp h, rfl⟩

lemma plain_neg {n : Number} (h : Plain (.num n)) : Plain (.num n.neg) := by
  obtain ⟨q, rfl, hq⟩ := exists_canonical h
  rw [Number.neg_canonical hq]
  exact plain_exact hq.neg

lemma plain_abs {n : Number} (h : Plain (.num n)) : Plain (.num n.abs) := by
  obtain ⟨q, rfl, hq⟩ := exists_canonical h
  rw [Number.abs_canonical hq]
  exact plain_exact hq.abs

lemma plain_int {k : Int} (h : (k.natAbs : Int) < Number.bound) : Plain (int k) :=
  plain_num.mpr ⟨⟨h, (by decide : (1 : Int) < Number.bound)⟩, rfl⟩

lemma plain_unit_mul {k : Int} (hk : k.natAbs = 1) {n : Number} (h : Plain (.num n)) :
    Plain (.num ((Number.ofInt k).mul n)) := by
  obtain ⟨q, rfl, hq⟩ := exists_canonical h
  have hfits : Number.PartsFit ((k : ℚ).num * q.num) ((k : ℚ).den * q.den) := by
    rw [← Number.bounded_iff, Rat.num_intCast, Rat.den_intCast, Int.natAbs_mul, hk, Nat.one_mul, Int.natAbs_mul,
      Int.natAbs_natCast, Int.natAbs_natCast, Nat.one_mul]
    exact Number.isCanonical_iff.mp hq
  exact plain_num.mpr ⟨Number.bounded_resultLaw.mul _ _, Number.mul_isExact.mpr hfits⟩

lemma plain_coeffParts {c : Number} (h : Plain (.num c)) :
    Plain (.num (Fraction.coeffParts c).1) ∧ Plain (.num (Fraction.coeffParts c).2) := by
  obtain ⟨q, rfl, hq⟩ := exists_canonical h
  obtain ⟨hnum, hden⟩ := Number.isCanonical_iff.mp hq
  exact ⟨plain_int hnum, plain_int (k := q.den) hden⟩

/-! ### Parts -/

lemma Plain.term {t : Expr} {ts : List Expr} (h : Plain (.plus ts)) (ht : t ∈ ts) : Plain t :=
  ⟨((everywhere_plus ts).mp h.standing).2 t ht, ((everywhere_plus ts).mp h.exact).2 t ht,
    ((everywhere_plus ts).mp h.minus).2 t ht⟩

lemma Plain.factor {f : Expr} {fs : List Expr} (h : Plain (.times fs)) (hf : f ∈ fs) : Plain f :=
  ⟨((everywhere_times fs).mp h.standing).2 f hf, ((everywhere_times fs).mp h.exact).2 f hf,
    ((everywhere_times fs).mp h.minus).2 f hf⟩

lemma Plain.factors {e : Expr} (h : Plain e) : ∀ f ∈ e.factors, Plain f := by
  cases e with
  | times fs => exact fun f hf => h.factor hf
  | num | symbol | constant | plus | power | call => simpa [Expr.factors] using h

lemma Plain.base {b x : Expr} (h : Plain (.power b x)) : Plain b := ⟨h.standing.2.1, h.exact.2.1, h.minus.2.1⟩

lemma Plain.exponent {b x : Expr} (h : Plain (.power b x)) : Plain x := ⟨h.standing.2.2, h.exact.2.2, h.minus.2.2⟩

lemma Plain.argument {f : Func} {a : Expr} (h : Plain (.call f a)) : Plain a := ⟨h.standing.2, h.exact.2, h.minus.2⟩

/-! ### Powers below the line -/

lemma foldPower_opposite {b : Expr} {n : Number} (h : Plain (.power b (.num n))) (hneg : n.isNegative = true) :
    foldPower .approximate b (.num n.neg) = .ok none ∨ foldPower .approximate b (.num n.neg) = .ok (some (int 0)) := by
  cases b with
  | num c =>
    obtain ⟨p, rfl, -⟩ := exists_canonical h.base
    obtain ⟨q, rfl, hq⟩ := exists_canonical h.exponent
    have hpos : (Number.exact q).neg.isNegative = false := Number.isNegative_neg hneg
    rw [Number.neg_canonical hq] at hpos ⊢
    by_cases hp : p = 0
    · right
      subst hp
      show (if (Number.exact 0).isZero && !(Number.exact (-q)).isNegative then _ else _) = _
      rw [hpos]
      rfl
    · left
      have hz : (Number.exact p).isZero = false := by simpa [Bool.eq_false_iff] using hp
      have hfold : numericPower .approximate (.exact p) (.exact (- -q)) = .ok none := by
        rw [neg_neg]
        rcases h.standing.1.2.2.2.number with hfold | ⟨hhalf, -⟩
        · simpa [foldPower, hz] using hfold
        · cases hhalf
          exact absurd hneg (by decide)
      show (if (Number.exact p).isZero && _ then _ else numericPower .approximate (.exact p) (.exact (-q))) = _
      rw [hz, Bool.false_and, if_neg Bool.false_ne_true]
      exact Latex.numericPower_opposite_exact hp (by simpa [Number.isNegative] using hpos) hfold
  | symbol | constant | plus | times | power | call => exact .inl rfl

lemma pow_below_plain {b : Expr} {n : Number} (h : Plain (.power b (.num n))) (hneg : n.isNegative = true) :
    Meets anyHalt (Expr.pow .approximate b (.num n.neg)) Plain := by
  have hb := h.base
  have hn := plain_neg h.exponent
  have hstanding : Meets anyHalt (Expr.pow .approximate b (.num n.neg)) (Everywhere StandingNode) :=
    standingNode_readingLaw.toNodeLaw.kept.pow hb.standing hn.standing
  have hpower : Everywhere ExactNode (.power b (.num n.neg)) ∧ Everywhere MinusApart (.power b (.num n.neg)) :=
    ⟨⟨trivial, hb.exact, hn.exact⟩, trivial, hb.minus, hn.minus⟩
  have hint (k : Int) : Everywhere ExactNode (int k) ∧ Everywhere MinusApart (int k) := ⟨rfl, trivial⟩
  have hkept : Meets anyHalt (Expr.pow .approximate b (.num n.neg)) fun q =>
      Everywhere ExactNode q ∧ Everywhere MinusApart q := by
    have hkeeps (k : Int) (hk : (Expr.num n.neg).integer? = some k) : b.KeepsExponent (-k) :=
      h.standing.1.2.2.1 (-k) (Latex.toInt?_of_neg hk)
    unfold Expr.pow
    generalize callDepth _ = depth
    cases depth with
    | zero => trivial
    | succ depth =>
      rw [powerAt]
      unfold powerStep
      split
      · exact hint 1
      · split
        · exact ⟨hb.exact, hb.minus⟩
        · split
          · exact hint 1
          · rcases foldPower_opposite h hneg with hfold | hfold
            · rw [hfold]
              show Meets anyHalt (distributePower _ _ b (.num n.neg)) _
              unfold distributePower
              split
              · exact absurd rfl h.standing.1.2.2.2.base
              · next hk _ => exact (hkeeps _ hk).elim
              · next hk _ => exact (hkeeps _ hk).elim
              · next hk _ => exact (hkeeps _ hk).elim
              · exact hpower
            · rw [hfold]
              exact hint 0
  exact (hstanding.and hkept).mono fun q hq => ⟨hq.1, hq.2.1, hq.2.2⟩

/-! ### Terms after a minus sign -/

variable {sum product : List Expr → Calc Expr} {pow : Expr → Expr → Calc Expr} {text : Expr → Calc String}

lemma powerStep_standing {b e : Expr} (h : StandingNode (.power b e)) :
    powerStep .approximate product pow b e = .ok (.power b e) := by
  obtain ⟨hz, hone, hkeeps, hbase, hbone, hfold⟩ := h
  unfold powerStep
  rw [if_neg (by simp [hz]), if_neg (by simp [hone]), if_neg (by simp [hbone])]
  rcases hfold with hfold | ⟨-, hfold⟩
  · rw [hfold]
    show distributePower product pow b e = _
    unfold distributePower
    split
    · exact absurd rfl hbase
    · next k hk => exact (hkeeps k hk).elim
    · next k hk => exact (hkeeps k hk).elim
    · next k hk => exact (hkeeps k hk).elim
    · rfl
  · rw [hfold]
    rfl

lemma Plain.raised_again {f : Expr} (h : Plain f) (n : Nat) :
    Meets anyHalt (powerAt .approximate n f.baseExponent.1 f.baseExponent.2) (· = f) := by
  cases n with
  | zero => trivial
  | succ n =>
    rw [powerAt]
    cases f with
    | power b e =>
      rw [baseExponent, powerStep_standing h.standing.1]
      rfl
    | num | symbol | constant | plus | times | call =>
      dsimp only [baseExponent]
      rw [powerStep_one]
      rfl

lemma Plain.apartFactors {t : Expr} (h : Plain t) (hm : t.NothingToMerge) : ApartFactors (nonNumbers t.factors) where
  number _ hf := (mem_nonNumbers.mp hf).2
  flat f hf := (standingNode_readingLaw.factors h.standing f (mem_nonNumbers.mp hf).1).2
  apart := hm
  normal _ ha := (h.factors _ (mem_nonNumbers.mp ha).1).standing.1

/-- A negative term is a negative number, or has one in front of its other factors. -/
lemma Plain.negative_factors {t : Expr} (h : Plain t) (hneg : t.isNegativeTerm = true) :
    ∃ c, t.factors = .num c :: nonNumbers t.factors ∧ ∀ us, nonNumbers t.factors ≠ [.plus us] := by
  cases t with
  | num n => exact ⟨n, rfl, nofun⟩
  | times fs =>
    obtain ⟨hshape, hapart⟩ := h.standing.1
    rcases hshape.cases with hfs | ⟨c, hfs, -⟩
    · cases fs with
      | nil => cases hneg
      | cons f fs =>
        have hf : f.isNumber = false := (mem_nonNumbers.mp (hfs ▸ List.mem_cons_self : f ∈ nonNumbers (f :: fs))).2
        cases f with
        | num => cases hf
        | symbol | constant | plus | times | power | call => cases hneg
    · exact ⟨c, hfs, fun us hus => hapart c us (hfs.trans (congrArg _ hus))⟩
  | symbol | constant | plus | power | call => cases hneg

lemma gathered_negative (sum : List Expr → Calc Expr) {c : Number} {fs : List Expr} (hc : Plain (.num c))
    (hfs : ∀ f ∈ fs, f.isNumber = false) :
    Meets anyHalt ((int (-1) :: .num c :: fs).foldlM (Gathered.push .approximate sum) ⟨.ofInt 1, [], []⟩) fun s =>
      Plain (.num s.coeff) := by
  rw [List.foldlM_cons]
  have hmul (a b : Number) : Meets anyHalt (Overflow.approximate.mul a b) (· = a.mul b) := meets_mul fun _ => trivial
  have hsign : Meets anyHalt (Gathered.push .approximate sum ⟨.ofInt 1, [], []⟩ (int (-1)))
      (· = ⟨.ofInt (-1), [], []⟩) := (hmul _ _).bind fun a ha => ha ▸ rfl
  refine hsign.bind fun s hs => ?_
  subst hs
  rw [List.foldlM_cons]
  refine ((hmul _ _).bind fun a ha => ?_).bind fun s (hs : Plain (.num s.coeff)) => ?_
  · exact ha ▸ plain_unit_mul rfl hc
  · refine (meets_foldlM (fun rest s => (∀ f ∈ rest, f.isNumber = false) ∧ Plain (.num s.coeff)) ?_ ⟨hfs, hs⟩).mono
      fun s hs => hs.2
    rintro f rest s ⟨hrest, hs⟩
    rw [List.forall_mem_cons] at hrest
    exact (push_coeff hrest.1).mono fun t ht => ⟨hrest.2, ht ▸ hs⟩

lemma negated_plain {t : Expr} (h : Plain t) (hneg : t.isNegativeTerm = true) (hm : t.NothingToMerge) :
    Meets anyHalt (Expr.neg .approximate t) Plain := by
  have hstanding : Meets anyHalt (Expr.neg .approximate t) (Everywhere StandingNode) :=
    standingNode_readingLaw.toNodeLaw.kept.neg h.standing
  obtain ⟨c, hfactors, hapart⟩ := h.negative_factors hneg
  have hc : Plain (.num c) := h.factors _ (hfactors ▸ List.mem_cons_self)
  have hargs : [int (-1), t].flatMap factors = int (-1) :: .num c :: nonNumbers t.factors := by
    rw [← hfactors]
    simp [int, Expr.factors]
  have hkept : Meets anyHalt (Expr.neg .approximate t) fun u => Everywhere ExactNode u ∧ Everywhere MinusApart u := by
    unfold Expr.neg Expr.product
    generalize callDepth _ = depth
    cases depth with
    | zero => trivial
    | succ depth =>
      have hfs := h.apartFactors hm
      have hcoeff := gathered_negative (sumAt .approximate depth) hc hfs.number
      rw [← hargs] at hcoeff
      have hargs' : nonNumbers ([int (-1), t].flatMap factors) = nonNumbers t.factors := by
        simp [factors, int, nonNumbers_num]
      have hall : ∀ f ∈ nonNumbers t.factors, Plain f := fun f hf => h.factors f (mem_nonNumbers.mp hf).1
      refine meets_anyHalt_iff.mpr fun r hr => ?_
      obtain ⟨c, gs, hp, hfinish, hc⟩ := (productStep_apart (P := fun c => Plain (.num c)) hargs' hfs
        (fun f hf => (hall f hf).raised_again depth) hcoeff).value hr
      have hgs : ∀ g ∈ gs, Plain g := fun g hg => hall g (hp.mem_iff.mp hg)
      have happart' : ∀ us, gs ≠ [.plus us] := fun us hus => hapart us (List.perm_singleton.mp (hus ▸ hp.symm))
      rcases (finishProduct_apart happart').value hfinish with rfl | ⟨ks, hp', rfl⟩
      · exact ⟨hc.exact, trivial⟩
      · exact ⟨assembled_everywhere rfl hc.exact (fun _ => trivial) fun k hk => (hgs k (hp'.mem_iff.mp hk)).exact,
          assembled_everywhere trivial trivial (fun _ => trivial) fun k hk => (hgs k (hp'.mem_iff.mp hk)).minus⟩
  exact (hstanding.and hkept).mono fun q hq => ⟨hq.1, hq.2.1, hq.2.2⟩

end Expr

namespace Latex

open Calc

/-! ### Rows -/

structure PlainFraction (s : Fraction) : Prop where
  coeff : Plain (.num s.coeff)
  above : ∀ e ∈ s.above, Plain e
  below : ∀ e ∈ s.below, Plain e

lemma push_plainFraction {s : Fraction} (hs : PlainFraction s) {e : Expr} (he : Plain e) (hn : e.isNumber = false) :
    Meets anyHalt (s.push .approximate (Expr.pow .approximate) e) PlainFraction := by
  have habove : PlainFraction { s with above := s.above ++ [e] } :=
    ⟨hs.coeff, List.forall_mem_append.mpr ⟨hs.above, by simpa using he⟩, hs.below⟩
  unfold Fraction.push
  split
  · cases hn
  · split
    · next hneg =>
      refine (meets_neg fun _ => trivial).bind fun m hm => ?_
      subst hm
      refine (pow_below_plain he hneg).bind fun q hq => ?_
      exact ⟨hs.coeff, hs.above, List.forall_mem_append.mpr ⟨hs.below, by simpa using hq⟩⟩
    · exact habove
  · exact habove

/-- There is at most one number among the factors, and it is the first of them. -/
lemma ofFactors_plain {fs : List Expr} (h : ∀ f ∈ fs, Plain f)
    (hnum : fs = nonNumbers fs ∨ ∃ c, fs = .num c :: nonNumbers fs) :
    Meets anyHalt (Fraction.ofFactors .approximate (Expr.pow .approximate) fs) PlainFraction := by
  have hrest {s : Fraction} (hs : PlainFraction s) : Meets anyHalt
      ((nonNumbers fs).foldlM (Fraction.push .approximate (Expr.pow .approximate)) s) PlainFraction := by
    refine (meets_foldlM (fun rest s => (∀ e ∈ rest, Plain e ∧ e.isNumber = false) ∧ PlainFraction s) ?_ ?_).mono
      fun s hs => hs.2
    · rintro e rest s ⟨hrest, hs⟩
      rw [List.forall_mem_cons] at hrest
      exact (push_plainFraction hs hrest.1.1 hrest.1.2).mono fun t ht => ⟨hrest.2, ht⟩
    · exact ⟨fun e he => ⟨h e (mem_nonNumbers.mp he).1, (mem_nonNumbers.mp he).2⟩, hs⟩
  have hone : Plain (.num (.ofInt 1)) := plain_int (by decide)
  unfold Fraction.ofFactors
  rcases hnum with hfs | ⟨c, hfs⟩
  · rw [hfs]
    exact hrest ⟨hone, nofun, nofun⟩
  · have hc : Plain (.num c) := h _ (hfs ▸ List.mem_cons_self)
    rw [hfs, List.foldlM_cons]
    refine ((meets_mul fun _ => trivial).bind fun m hm => ?_).bind fun s hs => hrest hs
    exact ⟨hm ▸ plain_unit_mul rfl hc, nofun, nofun⟩

lemma rows_plain {e : Expr} {fs : List Expr} (h : Plain e) (hf : factors? e = some fs) :
    Meets anyHalt (rows .approximate fs) fun r => (∀ p ∈ r.1, Plain p) ∧ ∀ p ∈ r.2, Plain p := by
  have hfactors : (∀ f ∈ fs, Plain f) ∧ (fs = nonNumbers fs ∨ ∃ c, fs = .num c :: nonNumbers fs) := by
    cases e with
    | times gs =>
      cases hf
      refine ⟨fun f hf => h.factor hf, ?_⟩
      rcases h.standing.1.1.cases with hgs | ⟨c, hgs, -⟩
      · exact .inl hgs
      · exact .inr ⟨c, hgs⟩
    | power b x =>
      simp only [factors?, Option.ite_none_right_eq_some, Option.some.injEq] at hf
      obtain ⟨-, rfl⟩ := hf
      exact ⟨List.forall_mem_singleton.mpr h, .inl rfl⟩
    | num | symbol | constant | plus | call => cases hf
  refine (ofFactors_plain hfactors.1 hfactors.2).bind fun s hs => ?_
  refine (meets_abs fun _ => trivial).bind fun c hc => ?_
  obtain ⟨habove, hbelow⟩ := plain_coeffParts (hc ▸ plain_abs hs.coeff)
  exact ⟨forall_mem_numerator habove hs.above, forall_mem_denominator hbelow hs.below⟩

/-! ### What is set -/

lemma part_plain {e p : Expr} (h : Plain e) (hp : Part .approximate e p) : Plain p := by
  cases hp with
  | factor hf hr hmem =>
    obtain ⟨habove, hbelow⟩ := (rows_plain h hf).value hr
    exact hmem.elim (habove p) (hbelow p)
  | first => exact h.term List.mem_cons_self
  | added hmem => exact h.term (List.mem_cons_of_mem _ hmem)
  | subtracted hmem hneg hu =>
    have hmerge := h.minus.node _ hmem hneg
    exact (negated_plain (h.term (List.mem_cons_of_mem _ hmem)) hneg hmerge).value hu
  | base => exact h.base
  | exponent => exact h.exponent
  | arg => exact h.argument

lemma not_setsUndefined_of_plain {e : Expr} (h : Plain e) : ¬ SetsUndefined .approximate e := by
  intro hu
  induction hu with
  | number => cases h.exact
  | part hp _ ih => exact ih (part_plain h hp)

/-- Both written forms of a formula are total. The plain one always exists. Typesetting ends, and it gives a text unless a
number without a value stands in what is set; in particular if the formula has no double and no term after a minus sign
has anything to merge. -/
theorem rendering_total {text : String} {e : Expr} (h : Formula.read .approximate text = .ok e) :
    (∃ s, e.text .approximate = .ok s) ∧ ((∃ s, e.latex .approximate = .ok s) ↔ ¬ SetsUndefined .approximate e) ∧
      (SetsUndefined .approximate e → e.latex .approximate = .error .notANumber) ∧
      (Everywhere ExactNode e → Everywhere MinusApart e → ∃ s, e.latex .approximate = .ok s) := by
  have htext : ∃ s, e.text .approximate = .ok s := ((text_ends .approximate e).exists_value).imp fun s hs => hs.1
  have hset : (∃ s, e.latex .approximate = .ok s) ↔ ¬ SetsUndefined .approximate e := by
    rcases latex_answers e with ⟨hu, hs⟩ | ⟨hu, hs⟩
    · exact iff_of_true hs hu
    · exact iff_of_false (by rw [hs]; nofun) hu
  refine ⟨htext, hset, fun hu => ?_, fun hexact hminus => ?_⟩
  · rcases latex_answers e with ⟨hn, -⟩ | ⟨-, hs⟩
    · exact absurd hu hn
    · exact hs
  · have hplain : Plain e := ⟨Formula.read_nodes standingNode_readingLaw text e h, hexact, hminus⟩
    exact hset.mpr (not_setsUndefined_of_plain hplain)

/-- The product subtracted in `x**2 - exp(x)/y` has one base and one exponential. -/
theorem rendering_total_difference : ∃ e, Formula.read .approximate "x**2 - exp(x)/y" = .ok e ∧
    Everywhere ExactNode e ∧ Everywhere MinusApart e ∧ ¬ SetsUndefined .approximate e ∧
    ∃ s, e.latex .approximate = .ok s := by
  let t : Expr := .times [int (-1), .power (.symbol "y") (int (-1)), .call .exp (.symbol "x")]
  let e : Expr := .plus [.power (.symbol "x") (int 2), t]
  have hread : Formula.read .approximate "x**2 - exp(x)/y" = .ok e := by cbv
  have hexact : Everywhere ExactNode e := by
    simp [e, t, Everywhere, EverywhereAll, ExactNode, int, Number.ofInt, Number.isExact]
  have hmerge : t.NothingToMerge := by
    simp only [NothingToMerge, t, factors, nonNumbers_num, int]
    exact List.pairwise_pair.mpr ⟨by decide, by decide⟩
  have hminus : Everywhere MinusApart e := by
    refine ⟨fun s hs _ => List.mem_singleton.mp hs ▸ hmerge, ?_⟩
    simp [t, Everywhere, EverywhereAll, MinusApart, int]
  obtain ⟨-, hset, -, htotal⟩ := rendering_total hread
  exact ⟨e, hread, hexact, hminus, hset.mp (htotal hexact hminus), htotal hexact hminus⟩

end Latex

end PlaneCalculus
