import PlaneCalculus.Analysis.Domain
import PlaneCalculus.Proofs.Expr.PowerForm
import PlaneCalculus.Proofs.Formula.Writable

/-! What the denominator of a rational expression says about where the expression is defined. The denominator is collected
from the factors of the terms; the bases that they raise to negative exponents must not vanish. The other factors are not
looked into, so that a division inside of them goes unnoticed. -/

open PlaneCalculus.Formula

namespace PlaneCalculus.Expr

open Calc

variable {ρ : String → ℚ} {b : Expr} {k : Int}

/-! ### Expressions that do not vanish at a point -/

/-- There is a value at the point, and it is not zero. -/
def NonVanishing (ρ : String → ℚ) (e : Expr) : Prop := Defined ρ e ∧ value ρ e ≠ 0

lemma nonVanishing_collapse (fs : List Expr) : NonVanishing ρ (collapse 1 .times fs) ↔ ∀ f ∈ fs, NonVanishing ρ f := by
  rcases fs with _ | ⟨f, _ | ⟨g, fs⟩⟩
  · simp [collapse, NonVanishing]
  · simp [collapse]
  · simp [collapse, NonVanishing, forall_and, and_and_and_comm]

/-- Under a negative exponent the base must not vanish, and under no exponent does it begin or cease to. -/
lemma defined_negative_power (hk : k < 0) : Defined ρ (.power b (int k)) ↔ NonVanishing ρ b := by
  rw [defined_power, raisable_rat, or_iff_left (by omega), NonVanishing]

lemma nonVanishing_power (hk : 0 < k) : NonVanishing ρ (.power b (int k)) ↔ NonVanishing ρ b := by
  rw [NonVanishing, NonVanishing, defined_power, value_power, wholePower_rat]
  constructor
  · rintro ⟨⟨hb, -⟩, h0⟩
    exact ⟨hb, fun h => h0 (by rw [h, zero_zpow k hk.ne'])⟩
  · rintro ⟨hb, h0⟩
    exact ⟨⟨hb, Or.inr hk.le⟩, zpow_ne_zero k h0⟩

lemma nonVanishing_atomPower (hk : 0 < k) : NonVanishing ρ (atomPower b (.ofInt k)) ↔ NonVanishing ρ b := by
  unfold atomPower
  rw [if_neg (by simp; omega)]
  split
  · exact Iff.rfl
  · exact nonVanishing_power hk

/-! ### Divisors among the factors -/

mutual

/-- The factors of all terms. -/
def termFactors : Expr → List Expr
  | .plus ts => termFactorsAll ts
  | e => e.factors

def termFactorsAll : List Expr → List Expr
  | [] => []
  | e :: es => termFactors e ++ termFactorsAll es

end

/-- What a factor divides by: the base of a negative exponent, unless no symbol occurs in it. -/
def divisor? : Expr → Option Expr
  | .power b e => e.integer?.bind fun k =>
    if k < 0 ∧ b.freeSymbols.isEmpty = false then some (atomPower b (.ofInt (-k))) else none
  | _ => none

def divisors (e : Expr) : List Expr := e.termFactors.filterMap divisor?

/-- The factors that divide by nothing themselves. Nobody looks for divisions inside of them. -/
def unexamined (e : Expr) : List Expr := e.termFactors.filter fun f => (divisor? f).isNone

mutual

lemma defined_iff_termFactors : (e : Expr) → (Defined ρ e ↔ ∀ f ∈ e.termFactors, Defined ρ f)
  | .plus ts => by
    rw [defined_plus, termFactors]
    exact allDefined_iff_termFactors ts
  | .times fs => defined_times ρ fs
  | .num _ | .symbol _ | .constant _ | .power _ _ | .call _ _ => by simp [termFactors, factors]

lemma allDefined_iff_termFactors : (es : List Expr) →
    ((∀ e ∈ es, Defined ρ e) ↔ ∀ f ∈ termFactorsAll es, Defined ρ f)
  | [] => by simp [termFactorsAll]
  | e :: es => by
    rw [List.forall_mem_cons, defined_iff_termFactors e, allDefined_iff_termFactors es, termFactorsAll,
      List.forall_mem_append]

end

lemma divisor?_eq_some {f d : Expr} (h : divisor? f = some d) :
    ∃ b k, f = .power b (int k) ∧ k < 0 ∧ b.freeSymbols.isEmpty = false ∧ d = atomPower b (.ofInt (-k)) := by
  cases f with
  | power b e =>
    obtain ⟨k, hk, hd⟩ := Option.bind_eq_some_iff.mp h
    split at hd
    · next hif => exact ⟨b, k, by rw [eq_int_of_integer? hk], hif.1, hif.2, (Option.some.inj hd).symm⟩
    · cases hd
  | num | symbol | constant | plus | times | call => cases h

lemma defined_divisor {f d : Expr} (h : divisor? f = some d) : Defined ρ f ↔ NonVanishing ρ d := by
  obtain ⟨b, k, rfl, hk, -, rfl⟩ := divisor?_eq_some h
  rw [defined_negative_power hk, nonVanishing_atomPower (by omega)]

/-- The expression is defined where its divisors do not vanish and the other factors are defined. -/
lemma defined_iff_divisors (e : Expr) :
    Defined ρ e ↔ (∀ d ∈ e.divisors, NonVanishing ρ d) ∧ ∀ f ∈ e.unexamined, Defined ρ f := by
  rw [defined_iff_termFactors, divisors, unexamined]
  induction e.termFactors with
  | nil => simp
  | cons f fs ih =>
    rw [List.forall_mem_cons, ih, List.filterMap_cons, List.filter_cons]
    cases hd : divisor? f with
    | none => simp [and_left_comm]
    | some d => simp [defined_divisor hd, and_assoc]

/-! ### The divisors are collected -/

lemma KeepsExponent.atom (h : b.KeepsExponent k) : b = int 0 ∨ b.IsAtom := by
  cases b with
  | num n => exact Or.inl (congrArg num h.1)
  | symbol | plus => exact Or.inr trivial
  | constant c =>
    cases c with
    | pi => exact Or.inr trivial
    | e => exact h.elim
  | call f a =>
    cases f with
    | exp => exact h.elim
    | _ => exact Or.inr nofun
  | times | power => exact h.elim

@[simp] lemma freeSymbols_int (k : Int) : (int k).freeSymbols = [] := by simp [freeSymbols, int, occurrences]

lemma freeSymbols_atomPower {n : Number} (hn : n.isZero = false) : (atomPower b n).freeSymbols = b.freeSymbols := by
  unfold atomPower
  rw [hn]
  split
  · next h => cases h
  · split
    · rfl
    · simp [freeSymbols, occurrences]

/-- What stands below the line, numeric factors left out. -/
def keptBelow (s : Fraction) : List Expr := s.below.filter fun d => !d.freeSymbols.isEmpty

lemma push_keptBelow {s : Fraction} {f : Expr} (hf : Writable f) :
    Meets anyHalt (Fraction.push .refuse (pow .refuse) s f) fun t =>
      keptBelow t = keptBelow s ++ (divisor? f).toList := by
  cases f with
  | num n => exact (meets_anyHalt_true _).bind fun c _ => (List.append_nil _).symm
  | power b e =>
    obtain ⟨k, rfl⟩ := hf.exponent
    have hdivisor : divisor? (.power b (int k)) =
      if k < 0 ∧ b.freeSymbols.isEmpty = false then some (atomPower b (.ofInt (-k))) else none := rfl
    show Meets anyHalt (if (Number.ofInt k).isNegative then _ else _) _
    split
    · next hk =>
      have hk : k < 0 := by simpa using hk
      refine (Overflow.meets_refuse_neg k).bind ?_
      rintro c rfl
      rw [← Int.cast_neg]
      rcases hf.power.2.2.2.2.atom with rfl | hb
      · have hzero : pow .refuse (int 0) (.num (.exact (-k : ℤ))) = .ok (int 0) := powerStep_zero (by omega)
        rw [hzero, hdivisor, if_neg (by simp)]
        simp [keptBelow]
      · refine (powerAt_atom _ hb (.ofInt (-k))).bind ?_
        rintro r rfl
        have hz : (Number.ofInt (-k)).isZero = false := by simp; omega
        rw [meets_pure, hdivisor, keptBelow, List.filter_append, List.filter_singleton, freeSymbols_atomPower hz]
        cases hs : b.freeSymbols.isEmpty with
        | true => simp [keptBelow]
        | false => simp [hk, keptBelow]
    · next hk =>
      rw [hdivisor, if_neg fun h => hk (by simpa using h.1)]
      exact (List.append_nil _).symm
  | symbol | constant | plus | times | call => exact (List.append_nil _).symm

lemma denominatorsOf_eq {fs : List Expr} (h : ∀ f ∈ fs, Writable f) :
    Meets anyHalt (denominatorsOf .refuse fs) (· = fs.filterMap divisor?) := by
  have hfold : Meets anyHalt (Fraction.ofFactors .refuse (pow .refuse) fs)
      (keptBelow · = fs.filterMap divisor?) := by
    refine (meets_foldlM (fun rest s => (∀ f ∈ rest, Writable f) ∧
      keptBelow s ++ rest.filterMap divisor? = fs.filterMap divisor?) ?_ ⟨h, rfl⟩).mono
      fun s hs => (List.append_nil _).symm.trans hs.2
    rintro f rest s ⟨hrest, hs⟩
    rw [List.forall_mem_cons] at hrest
    refine (push_keptBelow hrest.1).mono fun t ht => ⟨hrest.2, ?_⟩
    rw [ht, List.append_assoc, ← hs, List.filterMap_cons]
    cases divisor? f <;> rfl
  exact hfold.bind fun s hs => hs

mutual

lemma denominatorFactors_eq : (e : Expr) → Writable e → Meets anyHalt (e.denominatorFactors .refuse) (· = e.divisors)
  | .plus ts, h => denominatorFactorsAll_eq ts h.terms
  | .times fs, h => denominatorsOf_eq h.factors
  | .power b e, h => denominatorsOf_eq (by simpa using h)
  | .num _, _ | .symbol _, _ | .constant _, _ | .call _ _, _ => rfl

lemma denominatorFactorsAll_eq : (es : List Expr) → (∀ e ∈ es, Writable e) →
    Meets anyHalt (denominatorFactorsAll .refuse es) (· = (termFactorsAll es).filterMap divisor?)
  | [], _ => rfl
  | e :: es, h => by
    rw [List.forall_mem_cons] at h
    refine (denominatorFactors_eq e h.1).bind fun ds hds => ?_
    refine (denominatorFactorsAll_eq es h.2).bind fun rest hrest => ?_
    rw [meets_pure, hds, hrest, termFactorsAll, List.filterMap_append, divisors]

end

/-! ### The product of the divisors -/

/-- A base and its exponent, when the base is an atom and the exponent is positive. -/
structure IsDivisorEntry (p : Expr × Expr) : Prop where
  atom : p.1.IsAtom
  inRange : Everywhere InRangeNode p.1
  exponent : ∃ k : Int, 0 < k ∧ p.2 = int k

lemma IsDivisorEntry.plain {d : Expr} (h : IsDivisorEntry d.baseExponent) :
    d.isNumber = false ∧ d.isExponential = false ∧ ∀ gs, d ≠ .times gs := by
  have hatom := h.atom
  cases d with
  | num | times => exact hatom.elim
  | symbol | constant | plus | power => exact ⟨rfl, rfl, nofun⟩
  | call f a =>
    cases f with
    | exp => exact absurd rfl hatom
    | _ => exact ⟨rfl, rfl, nofun⟩

lemma IsDivisorEntry.nonVanishing {d : Expr} (h : IsDivisorEntry d.baseExponent) :
    NonVanishing ρ d ↔ NonVanishing ρ d.baseExponent.1 := by
  cases d with
  | power b e =>
    obtain ⟨k, hk, rfl : e = int k⟩ := h.exponent
    exact nonVanishing_power hk
  | num | symbol | constant | plus | times | call => exact Iff.rfl

section Product

variable (ρ) {sum product : List Expr → Calc Expr} {pow : Expr → Expr → Calc Expr} {text : Expr → Calc String}
  (hsum : ∀ a c, Meets anyHalt (sum [int a, int c]) (· = int (a + c)))
  (hpow : ∀ (b : Expr) n, b.IsAtom → Meets anyHalt (pow b (.num n)) (· = atomPower b n))

include hsum in
lemma addExponent_nonVanishing {x : Expr} (hx : IsDivisorEntry (b, x)) {bases : List (Expr × Expr)}
    (h : ∀ p ∈ bases, IsDivisorEntry p) : Meets anyHalt (addExponent sum b x bases) fun out =>
      (∀ p ∈ out, IsDivisorEntry p) ∧
        ((∀ p ∈ out, NonVanishing ρ p.1) ↔ (∀ p ∈ bases, NonVanishing ρ p.1) ∧ NonVanishing ρ b) := by
  induction bases with
  | nil => exact ⟨List.forall_mem_singleton.mpr hx, by simp⟩
  | cons p bases ih =>
    obtain ⟨c, y⟩ := p
    rw [List.forall_mem_cons] at h
    unfold addExponent
    split
    · next hsame =>
      obtain rfl : c = b := (same_iff c b h.1.inRange).mp hsame
      obtain ⟨i, hi, rfl : x = int i⟩ := hx.exponent
      obtain ⟨j, hj, rfl : y = int j⟩ := h.1.exponent
      refine (hsum j i).bind ?_
      rintro z rfl
      exact ⟨List.forall_mem_cons.mpr ⟨⟨hx.atom, hx.inRange, j + i, by omega, rfl⟩, h.2⟩, by simp; tauto⟩
    · refine (ih h.2).bind fun out hout => ⟨List.forall_mem_cons.mpr ⟨h.1, hout.1⟩, ?_⟩
      rw [List.forall_mem_cons, List.forall_mem_cons, hout.2, and_assoc]

include hsum in
lemma gathered_nonVanishing {ds : List Expr} (h : ∀ d ∈ ds, IsDivisorEntry d.baseExponent) :
    Meets anyHalt (ds.foldlM (Gathered.push .refuse sum) ⟨.ofInt 1, [], []⟩) fun s =>
      s.exponentials = [] ∧ (∀ p ∈ s.bases, IsDivisorEntry p) ∧
        ((∀ p ∈ s.bases, NonVanishing ρ p.1) ↔ ∀ d ∈ ds, NonVanishing ρ d) := by
  refine (meets_foldlM (fun rest s => (∀ d ∈ rest, IsDivisorEntry d.baseExponent) ∧ s.exponentials = [] ∧
    (∀ p ∈ s.bases, IsDivisorEntry p) ∧
      ((∀ p ∈ s.bases, NonVanishing ρ p.1) ∧ (∀ d ∈ rest, NonVanishing ρ d) ↔ ∀ d ∈ ds, NonVanishing ρ d)) ?_
    ⟨h, rfl, by simp, by simp⟩).mono fun s ⟨_, hexp, hbases, hs⟩ => ⟨hexp, hbases, by simpa using hs⟩
  rintro d rest s ⟨hrest, hexp, hbases, hs⟩
  rw [List.forall_mem_cons] at hrest
  obtain ⟨hn, hx, -⟩ := hrest.1.plain
  rw [push_base hn hx]
  have hadd := addExponent_nonVanishing ρ hsum (b := d.baseExponent.1) (x := d.baseExponent.2) hrest.1 hbases
  refine hadd.bind fun out hout => ⟨hrest.2, hexp, hout.1, ?_⟩
  rw [← hs, hout.2, List.forall_mem_cons, hrest.1.nonVanishing, and_assoc]

include hpow in
lemma powers_nonVanishing {bases : List (Expr × Expr)} (h : ∀ p ∈ bases, IsDivisorEntry p) :
    Meets anyHalt (bases.mapM fun p => pow p.1 p.2) fun fs =>
      (∀ f ∈ fs, f.isNumber = false ∧ ∀ gs, f ≠ .times gs) ∧
        ((∀ f ∈ fs, NonVanishing ρ f) ↔ ∀ p ∈ bases, NonVanishing ρ p.1) := by
  induction bases with
  | nil => exact ⟨nofun, by simp⟩
  | cons p bases ih =>
    obtain ⟨b, e⟩ := p
    rw [List.forall_mem_cons] at h
    obtain ⟨k, hk, rfl : e = int k⟩ := h.1.exponent
    have hz : (Number.ofInt k).isZero = false := by simp; omega
    rw [List.mapM_cons]
    refine (hpow b (.ofInt k) h.1.atom).bind ?_
    rintro r rfl
    refine (ih h.2).bind fun fs hfs => ⟨List.forall_mem_cons.mpr ⟨⟨?_, ?_⟩, hfs.1⟩, ?_⟩
    · exact (atomFactor_single (p := (b, .ofInt k)) h.1.atom hz).2
    · exact atomFactor_flat (p := (b, .ofInt k)) h.1.atom hz
    · rw [List.forall_mem_cons, List.forall_mem_cons, hfs.2, nonVanishing_atomPower hk]

include hsum hpow in
lemma productStep_nonVanishing {ds : List Expr} (h : ∀ d ∈ ds, IsDivisorEntry d.baseExponent) :
    Meets anyHalt (productStep .refuse sum product pow text ds) fun r =>
      NonVanishing ρ r ↔ ∀ d ∈ ds, NonVanishing ρ d := by
  unfold productStep
  rw [flatMap_factors fun d hd => (h d hd).plain.2.2]
  have hcoeff : Meets anyHalt (ds.foldlM (Gathered.push .refuse sum) ⟨.ofInt 1, [], []⟩) (·.coeff = .ofInt 1) :=
    gathered_coeff fun d hd => (h d hd).plain.1
  refine ((gathered_nonVanishing ρ hsum h).and hcoeff).bind fun g ⟨⟨hexp, hbases, hg⟩, hone⟩ => ?_
  have hmerge : g.mergeExponentials .refuse sum = .ok g := by
    unfold Gathered.mergeExponentials
    rw [hexp]
    rfl
  rw [hmerge, if_neg (by rw [hone]; decide)]
  refine (powers_nonVanishing ρ hpow hbases).bind fun fs hfs => ?_
  rw [flatMap_factors fun f hf => (hfs.1 f hf).2, hone, absorb_factors fun f hf => (hfs.1 f hf).1]
  refine finishProduct_one.mono ?_
  rintro r ⟨gs, hp, rfl⟩
  rw [nonVanishing_collapse, ← hg, ← hfs.2]
  exact ⟨fun h f hf => h f (hp.mem_iff.mpr hf), fun h f hf => h f (hp.mem_iff.mp hf)⟩

end Product

lemma product_nonVanishing (ρ : String → ℚ) {ds : List Expr} (h : ∀ d ∈ ds, IsDivisorEntry d.baseExponent) :
    Meets anyHalt (Expr.product .refuse ds) fun r => NonVanishing ρ r ↔ ∀ d ∈ ds, NonVanishing ρ d :=
  productStep_nonVanishing ρ (keepsValues_at ρ _).sum_ints (fun _ n hb => powerAt_atom _ hb n) h

/-! ### The denominator -/

lemma mem_foldl_insertNew {es : List Expr} (h : ∀ e ∈ es, Everywhere InRangeNode e) (ds : List Expr) (d : Expr) :
    d ∈ es.foldl insertNew ds ↔ d ∈ ds ∨ d ∈ es := by
  induction es generalizing ds with
  | nil => simp
  | cons e es ih =>
    rw [List.forall_mem_cons] at h
    rw [List.foldl_cons, ih h.2, List.mem_cons, ← or_assoc]
    refine or_congr_left ?_
    unfold insertNew
    split
    · next hmem =>
      rw [List.contains_eq_any_beq, List.any_eq_true] at hmem
      obtain ⟨c, hc, hsame⟩ := hmem
      obtain rfl : e = c := (same_iff e c h.1).mp hsame
      exact (or_iff_left_of_imp fun hd => hd ▸ hc).symm
    · simp

lemma mem_distinct {es : List Expr} (h : ∀ e ∈ es, Everywhere InRangeNode e) (d : Expr) : d ∈ distinct es ↔ d ∈ es := by
  simp [distinct, mem_foldl_insertNew h]

mutual

lemma termFactors_writable : (e : Expr) → Writable e → ∀ f ∈ e.termFactors, Writable f
  | .plus ts, h => termFactorsAll_writable ts h.terms
  | .times _, h => h.factors
  | .num _, h | .symbol _, h | .constant _, h | .power _ _, h | .call _ _, h => by simpa [termFactors, factors] using h

lemma termFactorsAll_writable : (es : List Expr) → (∀ e ∈ es, Writable e) → ∀ f ∈ termFactorsAll es, Writable f
  | [], _ => List.forall_mem_nil _
  | e :: es, h => by
    rw [List.forall_mem_cons] at h
    exact List.forall_mem_append.mpr ⟨termFactors_writable e h.1, termFactorsAll_writable es h.2⟩

end

lemma divisors_entries {e : Expr} (h : Writable e) :
    ∀ d ∈ e.divisors, Everywhere InRangeNode d ∧ IsDivisorEntry d.baseExponent := by
  intro d hd
  obtain ⟨f, hf, hfd⟩ := List.mem_filterMap.mp hd
  obtain ⟨b, k, rfl, hk, hs, rfl⟩ := divisor?_eq_some hfd
  obtain ⟨hb, hbound, -, -, hkeeps⟩ := (termFactors_writable e h _ hf).power
  have hatom : b.IsAtom := hkeeps.atom.resolve_left (by rintro rfl; simp at hs)
  have hrange := inRange_of_writable b hb.nodes hb.rational
  have hz : (Number.ofInt (-k)).isZero = false := by simp; omega
  refine ⟨?_, ?_⟩
  · unfold atomPower
    rw [hz]
    split
    · exact Number.inRange_ofInt (by decide)
    · split
      · exact hrange
      · exact ⟨trivial, hrange, Number.inRange_ofInt (by omega)⟩
  · have hbase : (atomPower b (.ofInt (-k))).baseExponent = (b, int (-k)) :=
      atomFactor_base (p := (b, .ofInt (-k))) hatom hz
    rw [hbase]
    exact ⟨hatom, hrange, -k, by omega, rfl⟩

lemma denominator_nonVanishing (ρ : String → ℚ) {e : Expr} (h : Writable e) :
    Meets anyHalt (e.denominator .refuse) fun d => (∀ D, d = some D → NonVanishing ρ D) ↔
      ∀ d ∈ e.divisors, NonVanishing ρ d := by
  refine (denominatorFactors_eq e h).bind ?_
  rintro ds rfl
  have hentries := divisors_entries h
  have hmem := mem_distinct fun d hd => (hentries d hd).1
  split
  · next hnil =>
    simp only [hnil] at hmem
    simpa using fun d hd => absurd ((hmem d).mpr hd) (List.not_mem_nil)
  · refine (product_nonVanishing ρ fun d hd => (hentries d ((hmem d).mp hd)).2).bind fun r hr => ?_
    simpa [hmem] using hr

lemma push_fraction_consistent (s : Fraction) (f : Expr) : Consistent fun o => Fraction.push o (pow o) s f := by
  unfold Fraction.push
  split
  · exact .bind (.settle _ _) fun _ => .pure _
  · exact .ite (.bind (.settle _ _) fun _ => (pow_consistent _ _).bind fun _ => .pure _) (.pure _)
  · exact .pure _

lemma denominatorsOf_consistent (fs : List Expr) : Consistent (denominatorsOf · fs) :=
  (Consistent.foldlM push_fraction_consistent fs _).bind fun _ => .pure _

mutual

lemma denominatorFactors_consistent : (e : Expr) → Consistent (denominatorFactors · e)
  | .plus ts => denominatorFactorsAll_consistent ts
  | .times fs => denominatorsOf_consistent fs
  | .power b e => denominatorsOf_consistent [.power b e]
  | .num _ | .symbol _ | .constant _ | .call _ _ => .pure []

lemma denominatorFactorsAll_consistent : (es : List Expr) → Consistent (denominatorFactorsAll · es)
  | [] => .pure []
  | e :: es => (denominatorFactors_consistent e).bind fun _ => (denominatorFactorsAll_consistent es).bind fun _ => .pure _

end

lemma denominator_consistent (e : Expr) : Consistent (denominator · e) := by
  refine (denominatorFactors_consistent e).bind fun ds => ?_
  split
  · exact .pure none
  · exact (product_consistent _).bind fun _ => .pure _

/-- No exponent at the node is negative. -/
def UndividedNode : Expr → Prop
  | .power _ e => e.isNegativeNumber = false
  | _ => True

mutual

lemma defined_of_undivided : (e : Expr) → e.IsRational → Everywhere UndividedNode e → Defined ρ e
  | .num _, hr, _ => hr
  | .symbol _, _, _ => trivial
  | .plus ts, hr, h => allDefined_of_undivided ts hr h.2
  | .times fs, hr, h => allDefined_of_undivided fs hr h.2
  | .power b _, ⟨hb, k, hk⟩, ⟨hneg, h, _⟩ => by
    obtain rfl := eq_int_of_integer? hk
    have hk : 0 ≤ k := by simpa [UndividedNode, isNegativeNumber, int] using hneg
    exact (defined_power ρ b k).mpr ⟨defined_of_undivided b hb h, Or.inr hk⟩

lemma allDefined_of_undivided : (es : List Expr) → AllRational es → EverywhereAll UndividedNode es → AllDefined ρ es
  | [], _, _ => trivial
  | e :: es, ⟨hr, hrs⟩, ⟨h, hs⟩ => ⟨defined_of_undivided e hr h, allDefined_of_undivided es hrs hs⟩

end

/-- An expression that has been read is defined where its denominator does not vanish and the factors that nobody looked
into are defined. When nothing is divided by inside of those factors, the denominator alone decides. -/
theorem read_defined_iff_denominator {text : String} {e : Expr} (he : read .approximate text = .ok e) (hr : e.IsRational)
    (ho : e.denominator .refuse ≠ .error .overflow) : ∃ d, e.denominator .approximate = .ok d ∧ ∀ ρ : String → ℚ,
      (Defined ρ e ↔ (∀ D, d = some D → NonVanishing ρ D) ∧ ∀ f ∈ e.unexamined, Defined ρ f) ∧
      ((∀ f ∈ e.unexamined, Everywhere UndividedNode f) → (Defined ρ e ↔ ∀ D, d = some D → NonVanishing ρ D)) := by
  have hw := read_writable he hr
  have hall : Meets anyHalt (e.denominator .refuse) fun d => ∀ ρ : String → ℚ,
      (∀ D, d = some D → NonVanishing ρ D) ↔ ∀ d ∈ e.divisors, NonVanishing ρ d :=
    meets_anyHalt_iff.mpr fun d hd ρ => (denominator_nonVanishing ρ hw).value hd
  obtain ⟨d, hd, hdivisors⟩ := (denominator_consistent e).exists_value hall ho
  refine ⟨d, hd, fun ρ => ?_⟩
  have hdefined : Defined ρ e ↔ (∀ D, d = some D → NonVanishing ρ D) ∧ ∀ f ∈ e.unexamined, Defined ρ f := by
    rw [hdivisors ρ, defined_iff_divisors]
  refine ⟨hdefined, fun hundivided => hdefined.trans (and_iff_left fun f hf => ?_)⟩
  have hrational := (termFactors_writable e hw f (List.mem_filter.mp hf).1).rational
  exact defined_of_undivided f hrational (hundivided f hf)

/-- The inverse of `x` added to `x` over `y`. -/
def twoFractions : Expr :=
  .plus [.power (.symbol "x") (int (-1)), .times [.symbol "x", .power (.symbol "y") (int (-1))]]

theorem twoFractions_defined_iff : read .approximate "x/y + 1/x" = .ok twoFractions ∧
    twoFractions.denominator .approximate = .ok (some (.times [.symbol "x", .symbol "y"])) ∧
    ∀ ρ : String → ℚ, Defined ρ twoFractions ↔ ρ "x" ≠ 0 ∧ ρ "y" ≠ 0 := by
  have hread : read .approximate "x/y + 1/x" = .ok twoFractions := by cbv
  have hr : twoFractions.IsRational := ⟨⟨trivial, -1, rfl⟩, ⟨trivial, ⟨trivial, -1, rfl⟩, trivial⟩, trivial⟩
  have hrefuse : twoFractions.denominator .refuse = .ok (some (.times [.symbol "x", .symbol "y"])) := by cbv
  have hden := (denominator_consistent twoFractions).agrees _ hrefuse
  obtain ⟨d, hd, h⟩ := read_defined_iff_denominator hread hr (by simp [hrefuse])
  obtain rfl := Except.ok.inj (hden.symm.trans hd)
  have hundivided : ∀ f ∈ twoFractions.unexamined, Everywhere UndividedNode f := by
    have hf : twoFractions.unexamined = [.symbol "x"] := by cbv
    simp [hf, Everywhere, UndividedNode]
  refine ⟨hread, hden, fun ρ => ?_⟩
  rw [(h ρ).2 hundivided]
  simp [NonVanishing]

end PlaneCalculus.Expr
