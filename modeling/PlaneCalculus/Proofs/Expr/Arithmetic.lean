import Mathlib.Algebra.BigOperators.Ring.List
import Mathlib.Tactic.Ring
import PlaneCalculus.Expr.Canonical
import PlaneCalculus.Proofs.Calc.Meets
import PlaneCalculus.Proofs.Expr.Sorting
import PlaneCalculus.Proofs.Expr.Value
import PlaneCalculus.Proofs.Number.Exact

/-! The constructors keep values: a sum, product or whole power of rational expressions, built without leaving the exact
range, is defined wherever its operands are and has there the value it is named for. -/

namespace PlaneCalculus

open Calc

-- Nothing here depends on where the exact range ends; left open, it would be computed with.
attribute [local irreducible] Number.fits

namespace Overflow

variable {a b : Number} {p q : ℚ}

lemma meets_refuse_settle {r : Number} : Meets anyHalt (refuse.settle true r) fun s => s = r ∧ s.isExact = true := by
  refine meets_anyHalt_iff.mpr fun s hs => ?_
  obtain ⟨rfl, he⟩ := refuse_settle hs
  exact ⟨rfl, he rfl⟩

lemma meets_refuse_add (p q : ℚ) : Meets anyHalt (refuse.add (.exact p) (.exact q)) (· = .exact (p + q)) := by
  refine meets_refuse_settle.mono fun s ⟨hs, he⟩ => ?_
  cases s with
  | exact r => rw [Number.add_exact hs.symm]
  | approx v => cases he

lemma meets_refuse_mul (p q : ℚ) : Meets anyHalt (refuse.mul (.exact p) (.exact q)) (· = .exact (p * q)) := by
  refine meets_refuse_settle.mono fun s ⟨hs, he⟩ => ?_
  cases s with
  | exact r => rw [Number.mul_exact hs.symm]
  | approx v => cases he

lemma meets_refuse_neg (q : ℚ) : Meets anyHalt (refuse.neg (.exact q)) (· = .exact (-q)) := by
  refine (meets_refuse_mul q (-1)).mono fun r hr => ?_
  rw [hr, mul_neg_one]

lemma meets_refuse_sub (p q : ℚ) : Meets anyHalt (refuse.sub (.exact p) (.exact q)) (· = .exact (p - q)) := by
  refine (meets_refuse_neg q).bind fun r hr => ?_
  rw [hr, sub_eq_add_neg]
  exact meets_refuse_add p (-q)

lemma meets_refuse_div (p q : ℚ) : Meets anyHalt (refuse.div (.exact p) (.exact q)) (· = .exact (p / q)) := by
  refine meets_refuse_settle.mono fun s ⟨hs, he⟩ => ?_
  cases s with
  | exact r => rw [Number.div_exact hs.symm]
  | approx v => cases he

lemma meets_refuse_powInt (q : ℚ) (k : Int) :
    Meets anyHalt (refuse.powInt (.exact q) k) fun r => r = .exact (q ^ k) ∧ (q ≠ 0 ∨ 0 ≤ k) := by
  refine meets_refuse_settle.mono fun s ⟨hs, he⟩ => ?_
  cases s with
  | exact r =>
    obtain ⟨hr, hq⟩ := Number.powInt_exact hs.symm
    exact ⟨congrArg Number.exact hr, hq⟩
  | approx v => cases he

end Overflow

lemma Number.exists_exact {n : Number} (h : n.isExact = true) : ∃ q, n = .exact q := by
  cases n with
  | exact q => exact ⟨q, rfl⟩
  | approx v => cases h

namespace Expr

variable {R : Type} [CommRing R] [Algebra ℚ R] [Inv R] {ρ : String → R}

lemma integer?_same {a b : Expr} (h : same a b = true) : a.integer? = b.integer? := by
  cases a with
  | num n =>
    cases b with
    | num m =>
      simp only [same] at h
      cases n with
      | exact p =>
        cases m with
        | exact q => rw [show p = q by simpa [BEq.beq, Number.same] using h]
        | approx w => cases h
      | approx v =>
        cases m with
        | exact q => cases h
        | approx w => rfl
    | symbol | constant | plus | times | power | call => cases h
  | symbol | constant | plus | times | power | call => cases b <;> first | rfl | cases h

variable (ρ) in
mutual

lemma value_same : (a b : Expr) → same a b = true → value ρ a = value ρ b ∧ (Defined ρ a ↔ Defined ρ b)
  | .num n, b, h => by
    cases b with
    | num m =>
      simp only [same] at h
      cases n with
      | exact p =>
        cases m with
        | exact q => simp [show p = q by simpa [BEq.beq, Number.same] using h]
        | approx w => cases h
      | approx v =>
        cases m with
        | exact q => cases h
        | approx w => exact ⟨rfl, Iff.rfl⟩
    | symbol | constant | plus | times | power | call => cases h
  | .symbol s, b, h => by
    cases b with
    | symbol t =>
      have hs : s = t := by simpa [same] using h
      simp [hs]
    | num | constant | plus | times | power | call => cases h
  | .constant c, b, h => by
    cases b with
    | constant d => exact ⟨rfl, Iff.rfl⟩
    | num | symbol | plus | times | power | call => cases h
  | .plus as, b, h => by
    cases b with
    | plus bs =>
      have hs := values_same as bs h
      simp only [value, Defined, hs, and_self]
    | num | symbol | constant | times | power | call => cases h
  | .times as, b, h => by
    cases b with
    | times bs =>
      have hs := values_same as bs h
      simp only [value, Defined, hs, and_self]
    | num | symbol | constant | plus | power | call => cases h
  | .power a x, b, h => by
    cases b with
    | power b y =>
      simp only [same, Bool.and_eq_true] at h
      have hs := value_same a b h.1
      simp only [value, Defined, hs, integer?_same h.2, and_self]
    | num | symbol | constant | plus | times | call => cases h
  | .call _ _, b, h => by
    cases b with
    | call => exact ⟨rfl, Iff.rfl⟩
    | num | symbol | constant | plus | times | power => cases h

lemma values_same : (as bs : List Expr) → sameAll as bs = true →
    sumValue ρ as = sumValue ρ bs ∧ productValue ρ as = productValue ρ bs ∧ (AllDefined ρ as ↔ AllDefined ρ bs)
  | [], bs, h => by
    cases bs with
    | nil => simp
    | cons => cases h
  | a :: as, bs, h => by
    cases bs with
    | nil => cases h
    | cons b bs =>
      simp only [sameAll, Bool.and_eq_true] at h
      have ha := value_same a b h.1
      have has := values_same as bs h.2
      simp only [sumValue, productValue, AllDefined, ha, has, and_self]

end

/-! ### Taking expressions apart -/

def HasValue (ρ : String → R) (e : Expr) (x : R) : Prop := Defined ρ e ∧ value ρ e = x

lemma values_of_operands {es fs : List Expr} (h : List.Forall₂ (fun e f => HasValue ρ f (value ρ e)) es fs) :
    (∀ f ∈ fs, Defined ρ f) ∧ fs.map (value ρ) = es.map (value ρ) := by
  induction h with
  | nil => exact ⟨nofun, rfl⟩
  | cons hf _ ih => exact ⟨List.forall_mem_cons.mpr ⟨hf.1, ih.1⟩, by rw [List.map_cons, List.map_cons, hf.2, ih.2]⟩

lemma terms_value {e : Expr} (h : Defined ρ e) :
    (∀ t ∈ e.terms, Defined ρ t) ∧ (e.terms.map (value ρ)).sum = value ρ e := by
  cases e with
  | plus ts => exact ⟨(defined_plus ρ ts).mp h, (value_plus ρ ts).symm⟩
  | num | symbol | constant | times | power | call => simpa [terms] using h

lemma factors_value {e : Expr} (h : Defined ρ e) :
    (∀ f ∈ e.factors, Defined ρ f) ∧ (e.factors.map (value ρ)).prod = value ρ e := by
  cases e with
  | times fs => exact ⟨(defined_times ρ fs).mp h, (value_times ρ fs).symm⟩
  | num | symbol | constant | plus | power | call => simpa [factors] using h

lemma allTerms_value {args : List Expr} (h : ∀ e ∈ args, Defined ρ e) :
    (∀ t ∈ args.flatMap terms, Defined ρ t) ∧
      ((args.flatMap terms).map (value ρ)).sum = (args.map (value ρ)).sum := by
  induction args with
  | nil => simp
  | cons e es ih =>
    rw [List.forall_mem_cons] at h
    obtain ⟨he, hev⟩ := terms_value h.1
    obtain ⟨hes, hesv⟩ := ih h.2
    simp only [List.flatMap_cons, List.forall_mem_append, List.map_append, List.sum_append, List.map_cons,
      List.sum_cons]
    exact ⟨⟨he, hes⟩, by rw [hev, hesv]⟩

lemma allFactors_value {args : List Expr} (h : ∀ e ∈ args, Defined ρ e) :
    (∀ f ∈ args.flatMap factors, Defined ρ f) ∧
      ((args.flatMap factors).map (value ρ)).prod = (args.map (value ρ)).prod := by
  induction args with
  | nil => simp
  | cons e es ih =>
    rw [List.forall_mem_cons] at h
    obtain ⟨he, hev⟩ := factors_value h.1
    obtain ⟨hes, hesv⟩ := ih h.2
    simp only [List.flatMap_cons, List.forall_mem_append, List.map_append, List.prod_append, List.map_cons,
      List.prod_cons]
    exact ⟨⟨he, hes⟩, by rw [hev, hesv]⟩

lemma coeffRest_value {e : Expr} (h : Defined ρ e) : ∃ c : ℚ, e.coeffRest.1 = .exact c ∧ Defined ρ e.coeffRest.2 ∧
    algebraMap ℚ R c * value ρ e.coeffRest.2 = value ρ e := by
  unfold coeffRest
  split
  · next c r =>
    simp only [defined_times, List.forall_mem_cons] at h
    obtain ⟨q, rfl⟩ := Number.exists_exact h.1
    exact ⟨q, rfl, h.2.1, by simp⟩
  · next c rest _ =>
    simp only [defined_times, List.forall_mem_cons] at h
    obtain ⟨q, rfl⟩ := Number.exists_exact h.1
    exact ⟨q, rfl, (defined_times ρ rest).mpr h.2, by simp⟩
  · next c =>
    obtain ⟨q, rfl⟩ := Number.exists_exact h
    exact ⟨q, rfl, defined_int ρ 1, by simp⟩
  · exact ⟨1, rfl, h, by simp⟩

lemma baseExponent_value {e : Expr} (h : Defined ρ e) : ∃ k : Int, e.baseExponent.2 = int k ∧
    Defined ρ e.baseExponent.1 ∧ Raisable (value ρ e.baseExponent.1) k ∧
    wholePower (value ρ e.baseExponent.1) k = value ρ e := by
  cases e with
  | power b x =>
    obtain ⟨k, rfl⟩ := exists_int_of_defined_power ρ h
    obtain ⟨hb, hk⟩ := (defined_power ρ b k).mp h
    exact ⟨k, rfl, hb, hk, (value_power ρ b k).symm⟩
  | num | symbol | constant | plus | times | call => exact ⟨1, rfl, h, raisable_one _, wholePower_one _⟩

/-! ### Sums -/

def entriesValue (ρ : String → R) (entries : List (Expr × Number)) : R :=
  (entries.map fun p => algebraMap ℚ R p.2.value * value ρ p.1).sum

def EntriesDefined (ρ : String → R) (entries : List (Expr × Number)) : Prop :=
  ∀ p ∈ entries, (∃ c, p.2 = .exact c) ∧ Defined ρ p.1

lemma addCoefficient_value {rest : Expr} (hr : Defined ρ rest) (c : ℚ) {entries : List (Expr × Number)}
    (he : EntriesDefined ρ entries) : Meets anyHalt (addCoefficient .refuse rest (.exact c) entries) fun es =>
      EntriesDefined ρ es ∧ entriesValue ρ es = entriesValue ρ entries + algebraMap ℚ R c * value ρ rest := by
  induction entries with
  | nil => simp [addCoefficient, EntriesDefined, entriesValue, hr]
  | cons p entries ih =>
    obtain ⟨e, d⟩ := p
    simp only [EntriesDefined, List.forall_mem_cons] at he ih
    obtain ⟨⟨⟨d, rfl⟩, hed⟩, hes⟩ := he
    simp only [addCoefficient]
    split
    · next hsame =>
      refine (Overflow.meets_refuse_add d c).bind fun s hs => ?_
      have hv := (value_same ρ e rest hsame).1
      simp only [meets_pure, EntriesDefined, List.forall_mem_cons, entriesValue, List.map_cons, List.sum_cons, hs, hv,
        Number.value_exact, map_add]
      exact ⟨⟨⟨⟨_, rfl⟩, hed⟩, hes⟩, by ring⟩
    · refine (ih hes).bind ?_
      rintro es ⟨hd, hv⟩
      simp only [entriesValue] at hv
      simp only [meets_pure, EntriesDefined, List.forall_mem_cons, entriesValue, List.map_cons, List.sum_cons, hv]
      exact ⟨⟨⟨⟨_, rfl⟩, hed⟩, hd⟩, by ring⟩

def Collected.value (ρ : String → R) (s : Collected) : R := algebraMap ℚ R s.number.value + entriesValue ρ s.entries

def Collected.Defined (ρ : String → R) (s : Collected) : Prop := (∃ c, s.number = .exact c) ∧ EntriesDefined ρ s.entries

lemma push_collected_value {s : Collected} {e : Expr} (hs : s.Defined ρ) (he : Expr.Defined ρ e) :
    Meets anyHalt (s.push .refuse e) fun t => t.Defined ρ ∧ t.value ρ = s.value ρ + Expr.value ρ e := by
  obtain ⟨⟨c, hc⟩, hes⟩ := hs
  have hterm : Meets anyHalt
      (do return { s with entries := ← addCoefficient .refuse e.coeffRest.2 e.coeffRest.1 s.entries } : Calc Collected)
      fun t => t.Defined ρ ∧ t.value ρ = s.value ρ + Expr.value ρ e := by
    obtain ⟨d, hd, hr, hv⟩ := coeffRest_value he
    rw [hd]
    refine (addCoefficient_value hr d hes).bind fun es ⟨hdef, hval⟩ => ?_
    refine ⟨⟨⟨c, hc⟩, hdef⟩, ?_⟩
    simp only [Collected.value, hval, hv]
    ring
  cases e with
  | num n =>
    obtain ⟨q, rfl⟩ := Number.exists_exact he
    simp only [Collected.push, hc]
    refine (Overflow.meets_refuse_add c q).bind fun x hx => ?_
    refine ⟨⟨⟨_, hx⟩, hes⟩, ?_⟩
    simp only [Collected.value, hx, hc, Number.value_exact, map_add, value_exact]
    ring
  | symbol | constant | plus | times | power | call => exact hterm

lemma collected_value {es : List Expr} (h : ∀ e ∈ es, Expr.Defined ρ e) :
    Meets anyHalt (es.foldlM (Collected.push .refuse) ⟨.ofInt 0, []⟩) fun s =>
      s.Defined ρ ∧ s.value ρ = (es.map (Expr.value ρ)).sum := by
  refine (meets_foldlM (fun rest s => (∀ e ∈ rest, Expr.Defined ρ e) ∧ s.Defined ρ ∧
    s.value ρ + (rest.map (Expr.value ρ)).sum = (es.map (Expr.value ρ)).sum) ?_ ?_).mono fun s ⟨_, hs, hv⟩ => ?_
  · rintro e rest s ⟨hrest, hs, hv⟩
    rw [List.forall_mem_cons] at hrest
    refine (push_collected_value hs hrest.1).mono fun t ⟨ht, htv⟩ => ⟨hrest.2, ht, ?_⟩
    rw [← hv, htv, List.map_cons, List.sum_cons, add_assoc]
  · refine ⟨h, ⟨⟨0, rfl⟩, by simp [EntriesDefined]⟩, ?_⟩
    simp [Collected.value, entriesValue, Number.ofInt]
  · exact ⟨hs, by simpa using hv⟩

structure KeepsValues (ρ : String → R) (sum product : List Expr → Calc Expr) (pow : Expr → Expr → Calc Expr) :
    Prop where
  sum_value : ∀ args, (∀ e ∈ args, Defined ρ e) →
    Meets anyHalt (sum args) (HasValue ρ · (args.map (value ρ)).sum)
  product_value : ∀ args, (∀ e ∈ args, Defined ρ e) →
    Meets anyHalt (product args) (HasValue ρ · (args.map (value ρ)).prod)
  pow_value : ∀ b k, Defined ρ b → Raisable (value ρ b) k →
    Meets anyHalt (pow b (int k)) (HasValue ρ · (wholePower (value ρ b) k))
  sum_ints : ∀ a b, Meets anyHalt (sum [int a, int b]) (· = int (a + b))
  product_ints : ∀ a b, Meets anyHalt (product [int a, int b]) (· = int (a * b))

variable {sum product : List Expr → Calc Expr} {pow : Expr → Expr → Calc Expr} {text : Expr → Calc String}

lemma collapse_plus_value {es : List Expr} (h : ∀ e ∈ es, Defined ρ e) :
    HasValue ρ (collapse 0 .plus es) (es.map (value ρ)).sum := by
  rcases es with _ | ⟨a, _ | ⟨b, es⟩⟩
  · exact ⟨defined_int ρ 0, by simp [collapse]⟩
  · simpa [collapse, HasValue] using h
  · exact ⟨(defined_plus ρ _).mpr h, value_plus ρ _⟩

lemma collapse_times_value {es : List Expr} (h : ∀ e ∈ es, Defined ρ e) :
    HasValue ρ (collapse 1 .times es) (es.map (value ρ)).prod := by
  rcases es with _ | ⟨a, _ | ⟨b, es⟩⟩
  · exact ⟨defined_int ρ 1, by simp [collapse]⟩
  · simpa [collapse, HasValue] using h
  · exact ⟨(defined_times ρ _).mpr h, value_times ρ _⟩

lemma entriesValue_filter {entries : List (Expr × Number)} (h : ∀ p ∈ entries, ∃ c, p.2 = .exact c) :
    entriesValue ρ (entries.filter fun p => !p.2.isZero) = entriesValue ρ entries := by
  induction entries with
  | nil => rfl
  | cons p entries ih =>
    rw [List.forall_mem_cons] at h
    obtain ⟨⟨c, hc⟩, hes⟩ := h
    have htail := ih hes
    simp only [entriesValue] at htail ⊢
    rw [List.filter_cons]
    split
    · simp only [List.map_cons, List.sum_cons, htail]
    · next hz =>
      have hzero : c = 0 := by simpa [hc] using hz
      simp [htail, hc, hzero]

lemma values_of_entries {entries : List (Expr × Number)} {ts : List Expr}
    (h : List.Forall₂ (fun p t => HasValue ρ t (algebraMap ℚ R p.2.value * value ρ p.1)) entries ts) :
    (∀ t ∈ ts, Defined ρ t) ∧ (ts.map (value ρ)).sum = entriesValue ρ entries := by
  unfold entriesValue
  induction h with
  | nil => simp
  | cons ht _ ih => exact ⟨List.forall_mem_cons.mpr ⟨ht.1, ih.1⟩, by simp [ht.2, ih.2]⟩

lemma sumStep_value (hk : KeepsValues ρ sum product pow) {args : List Expr} (h : ∀ e ∈ args, Defined ρ e) :
    Meets anyHalt (sumStep .refuse product text args) (HasValue ρ · (args.map (value ρ)).sum) := by
  obtain ⟨hflat, hval⟩ := allTerms_value h
  unfold sumStep
  rw [← hval]
  refine (collected_value hflat).bind ?_
  rintro s ⟨⟨⟨c, hc⟩, hes⟩, hs⟩
  rw [← hs]
  have hterms : Meets anyHalt ((s.entries.filter fun p => !p.2.isZero).mapM fun p => product [.num p.2, p.1])
      (List.Forall₂ (fun p t => HasValue ρ t (algebraMap ℚ R p.2.value * value ρ p.1))
        (s.entries.filter fun p => !p.2.isZero)) := by
    refine meets_mapM fun p hp => ?_
    obtain ⟨⟨d, hd⟩, hr⟩ := hes p (List.mem_of_mem_filter hp)
    refine (hk.product_value [.num p.2, p.1] (by simp [hd, hr])).mono fun t ht => ?_
    simpa [hd] using ht
  refine hterms.bind fun ts hts => ?_
  have hts' := values_of_entries hts
  have hfilter : entriesValue ρ (s.entries.filter fun p => !p.2.isZero) = entriesValue ρ s.entries :=
    entriesValue_filter fun p hp => (hes p hp).1
  refine (meets_sortTerms_perm text ts).bind fun us hperm => ?_
  have hus : (∀ t ∈ us, Defined ρ t) ∧ (us.map (value ρ)).sum = entriesValue ρ s.entries :=
    ⟨fun t ht => hts'.1 t (hperm.mem_iff.mp ht), ((hperm.map _).sum_eq.trans hts'.2).trans hfilter⟩
  rw [meets_pure]
  split
  · have hall : ∀ t ∈ us ++ [.num s.number], Defined ρ t := by
      simpa [hc, or_imp, forall_and] using hus.1
    have hsum := collapse_plus_value hall
    rw [List.map_append, List.sum_append, hus.2] at hsum
    simpa [Collected.value, hc, add_comm] using hsum
  · next hz =>
    have hzero : c = 0 := by
      simp only [hc, Bool.or_eq_true, not_or, Bool.not_eq_true, Bool.not_eq_false', Number.isZero_exact] at hz
      exact hz.1
    have hsum := collapse_plus_value hus.1
    rw [hus.2] at hsum
    simpa [Collected.value, hc, hzero] using hsum

/-! ### Products -/

def basesValue (ρ : String → R) (bases : List (Expr × Expr)) : R := (bases.map fun p => value ρ (.power p.1 p.2)).prod

def BasesDefined (ρ : String → R) (bases : List (Expr × Expr)) : Prop := ∀ p ∈ bases, Defined ρ (.power p.1 p.2)

lemma built_value (hk : KeepsValues ρ sum product pow) {bases : List (Expr × Expr)} (h : BasesDefined ρ bases) :
    Meets anyHalt (bases.mapM fun p => pow p.1 p.2) fun built =>
      (∀ f ∈ built, Defined ρ f) ∧ (built.map (value ρ)).prod = basesValue ρ bases := by
  have hm : Meets anyHalt (bases.mapM fun p => pow p.1 p.2)
      (List.Forall₂ (fun p f => HasValue ρ f (value ρ (.power p.1 p.2))) bases) := by
    refine meets_mapM fun p hp => ?_
    obtain ⟨b, e⟩ := p
    have hd := h _ hp
    obtain ⟨k, rfl⟩ := exists_int_of_defined_power ρ hd
    obtain ⟨hb, hr⟩ := (defined_power ρ b k).mp hd
    exact hk.pow_value b k hb hr
  refine hm.mono fun built hbuilt => ?_
  clear h hm
  unfold basesValue
  induction hbuilt with
  | nil => simp
  | cons hf _ ih => exact ⟨List.forall_mem_cons.mpr ⟨hf.1, ih.1⟩, by simp [hf.2, ih.2]⟩

lemma absorbed_value (c : ℚ) {es : List Expr} (h : ∀ e ∈ es, Defined ρ e) :
    Meets anyHalt (es.foldlM (absorb .refuse) (.exact c, [])) fun s => ∃ d, s.1 = .exact d ∧
      (∀ f ∈ s.2, Defined ρ f) ∧
      algebraMap ℚ R d * (s.2.map (value ρ)).prod = algebraMap ℚ R c * (es.map (value ρ)).prod := by
  refine (meets_foldlM (fun rest s => (∀ e ∈ rest, Defined ρ e) ∧ ∃ d, s.1 = .exact d ∧ (∀ f ∈ s.2, Defined ρ f) ∧
    algebraMap ℚ R d * (s.2.map (value ρ)).prod * (rest.map (value ρ)).prod =
      algebraMap ℚ R c * (es.map (value ρ)).prod) ?_ ?_).mono fun s ⟨_, d, hd, hs, hv⟩ => ?_
  · rintro e rest ⟨x, fs⟩ ⟨hrest, d, rfl, hs, hv⟩
    rw [List.forall_mem_cons] at hrest
    unfold absorb
    split
    · next n =>
      obtain ⟨q, rfl⟩ := Number.exists_exact hrest.1
      refine (Overflow.meets_refuse_mul d q).bind fun y hy => ?_
      refine ⟨hrest.2, _, hy, hs, ?_⟩
      rw [← hv, List.map_cons, List.prod_cons, value_exact, map_mul]
      ring
    · refine ⟨hrest.2, d, rfl, ?_, ?_⟩
      · simpa [or_imp, forall_and] using ⟨hs, hrest.1⟩
      · rw [← hv, List.map_append, List.prod_append, List.map_cons, List.prod_cons]
        simp [mul_assoc]
  · exact ⟨h, c, rfl, by simp, by simp⟩
  · exact ⟨d, hd, hs, by simpa using hv⟩

lemma distributed_value (hk : KeepsValues ρ sum product pow) (c : ℚ) {ts : List Expr} (h : ∀ t ∈ ts, Defined ρ t) :
    Meets anyHalt (do sum (← ts.mapM fun t => product [.num (.exact c), t]))
      (HasValue ρ · (algebraMap ℚ R c * (ts.map (value ρ)).sum)) := by
  have hm : Meets anyHalt (ts.mapM fun t => product [.num (.exact c), t])
      (List.Forall₂ (fun t r => HasValue ρ r (algebraMap ℚ R c * value ρ t)) ts) := by
    refine meets_mapM fun t ht => ?_
    refine (hk.product_value [.num (.exact c), t] (by simpa using h t ht)).mono fun r hr => ?_
    simpa using hr
  refine hm.bind fun rs hrs => ?_
  have hvalues : (∀ r ∈ rs, Defined ρ r) ∧ (rs.map (value ρ)).sum = algebraMap ℚ R c * (ts.map (value ρ)).sum := by
    clear h hm
    induction hrs with
    | nil => simp
    | cons hr _ ih => exact ⟨List.forall_mem_cons.mpr ⟨hr.1, ih.1⟩, by simp [hr.2, ih.2, mul_add]⟩
  exact hvalues.2 ▸ hk.sum_value rs hvalues.1

section

variable [HasInverses R]

lemma addExponent_value (hk : KeepsValues ρ sum product pow) {b : Expr} {k : Int} (hb : Defined ρ (.power b (int k)))
    {bases : List (Expr × Expr)} (h : BasesDefined ρ bases) : Meets anyHalt (addExponent sum b (int k) bases) fun bs =>
      BasesDefined ρ bs ∧ basesValue ρ bs = basesValue ρ bases * value ρ (.power b (int k)) := by
  induction bases with
  | nil => simp [addExponent, BasesDefined, basesValue, (defined_power ρ b k).mp hb]
  | cons p bases ih =>
    obtain ⟨c, e⟩ := p
    simp only [BasesDefined, List.forall_mem_cons] at h ih
    obtain ⟨hc, hbases⟩ := h
    simp only [addExponent]
    split
    · next hsame =>
      obtain ⟨l, rfl⟩ := exists_int_of_defined_power ρ hc
      obtain ⟨hcd, hcr⟩ := (defined_power ρ c l).mp hc
      obtain ⟨-, hbr⟩ := (defined_power ρ b k).mp hb
      have hv := (value_same ρ c b hsame).1
      obtain ⟨hr, hw⟩ := wholePower_add hcr (hv ▸ hbr)
      refine (hk.sum_ints l k).bind fun e he => ?_
      subst he
      simp only [meets_pure, BasesDefined, List.forall_mem_cons, basesValue, List.map_cons, List.prod_cons]
      refine ⟨⟨(defined_power ρ c _).mpr ⟨hcd, hr⟩, hbases⟩, ?_⟩
      rw [value_power, value_power, value_power, hw, ← hv]
      ring
    · refine (ih hbases).bind ?_
      rintro bs ⟨hd, hv⟩
      simp only [basesValue] at hv
      simp only [meets_pure, BasesDefined, List.forall_mem_cons, basesValue, List.map_cons, List.prod_cons, hv]
      exact ⟨⟨hc, hd⟩, by ring⟩

def Gathered.value (ρ : String → R) (s : Gathered) : R := algebraMap ℚ R s.coeff.value * basesValue ρ s.bases

def Gathered.Defined (ρ : String → R) (s : Gathered) : Prop :=
  (∃ c, s.coeff = .exact c) ∧ BasesDefined ρ s.bases ∧ s.exponentials = []

lemma push_gathered_value (hk : KeepsValues ρ sum product pow) {s : Gathered} {e : Expr} (hs : s.Defined ρ)
    (he : Expr.Defined ρ e) :
    Meets anyHalt (s.push .refuse sum e) fun t => t.Defined ρ ∧ t.value ρ = s.value ρ * Expr.value ρ e := by
  obtain ⟨⟨c, hc⟩, hbases, hexp⟩ := hs
  have hbase : Meets anyHalt
      (do return { s with bases := ← addExponent sum e.baseExponent.1 e.baseExponent.2 s.bases } : Calc Gathered)
      fun t => t.Defined ρ ∧ t.value ρ = s.value ρ * Expr.value ρ e := by
    obtain ⟨k, hx, hb, hr, hv⟩ := baseExponent_value he
    rw [hx]
    have hpower := (defined_power ρ e.baseExponent.1 k).mpr ⟨hb, hr⟩
    refine (addExponent_value hk hpower hbases).bind fun bs ⟨hd, hval⟩ => ?_
    refine ⟨⟨⟨c, hc⟩, hd, hexp⟩, ?_⟩
    simp only [Gathered.value, hval, value_power, hv]
    ring
  cases e with
  | num n =>
    obtain ⟨q, rfl⟩ := Number.exists_exact he
    simp only [Gathered.push, hc]
    refine (Overflow.meets_refuse_mul c q).bind fun x hx => ?_
    refine ⟨⟨⟨_, hx⟩, hbases, hexp⟩, ?_⟩
    simp only [Gathered.value, hx, hc, Number.value_exact, map_mul, value_exact]
    ring
  | constant | call => exact he.elim
  | symbol | plus | times | power => exact hbase

lemma gathered_value (hk : KeepsValues ρ sum product pow) {es : List Expr} (h : ∀ e ∈ es, Expr.Defined ρ e) :
    Meets anyHalt (es.foldlM (Gathered.push .refuse sum) ⟨.ofInt 1, [], []⟩) fun s =>
      s.Defined ρ ∧ s.value ρ = (es.map (Expr.value ρ)).prod := by
  refine (meets_foldlM (fun rest s => (∀ e ∈ rest, Expr.Defined ρ e) ∧ s.Defined ρ ∧
    s.value ρ * (rest.map (Expr.value ρ)).prod = (es.map (Expr.value ρ)).prod) ?_ ?_).mono fun s ⟨_, hs, hv⟩ => ?_
  · rintro e rest s ⟨hrest, hs, hv⟩
    rw [List.forall_mem_cons] at hrest
    refine (push_gathered_value hk hs hrest.1).mono fun t ⟨ht, htv⟩ => ⟨hrest.2, ht, ?_⟩
    rw [← hv, htv, List.map_cons, List.prod_cons, mul_assoc]
  · refine ⟨h, ⟨⟨1, rfl⟩, by simp [BasesDefined], rfl⟩, ?_⟩
    simp [Gathered.value, basesValue, Number.ofInt]
  · exact ⟨hs, by simpa using hv⟩

lemma productStep_value (hk : KeepsValues ρ sum product pow) {args : List Expr} (h : ∀ e ∈ args, Defined ρ e) :
    Meets anyHalt (productStep .refuse sum product pow text args) (HasValue ρ · (args.map (value ρ)).prod) := by
  obtain ⟨hflat, hval⟩ := allFactors_value h
  unfold productStep
  rw [← hval]
  refine (gathered_value hk hflat).bind fun g ⟨⟨⟨c, hc⟩, hbases, hexp⟩, hg⟩ => ?_
  rw [← hg]
  split
  · next hz =>
    have hzero : c = 0 := by simpa [hc] using hz
    simp [HasValue, Gathered.value, hc, hzero]
  simp only [Gathered.mergeExponentials, hexp, pure_bind]
  refine (built_value hk hbases).bind fun built ⟨hbuilt, hbv⟩ => ?_
  obtain ⟨hbflat, hbflatv⟩ := allFactors_value hbuilt
  rw [hc]
  refine (absorbed_value c hbflat).bind fun ⟨x, fs⟩ hx => ?_
  obtain ⟨d, rfl, hfs, hv⟩ := hx
  rw [hbflatv, hbv] at hv
  have hvalue : g.value ρ = algebraMap ℚ R d * (fs.map (value ρ)).prod := by simp [Gathered.value, hc, hv]
  rw [hvalue]
  dsimp only
  split
  · next hz =>
    have hzero : d = 0 := by simpa using hz
    simp [HasValue, hzero]
  split
  · next ts _ =>
    have hts : ∀ t ∈ ts, Defined ρ t := by simpa using hfs
    simpa using distributed_value hk d hts
  · refine (meets_sortFactors_perm text _).bind fun us hperm => ?_
    have hus : ∀ f ∈ us, Defined ρ f := fun f hf => hfs f (hperm.mem_iff.mp hf)
    rw [meets_pure, ← (hperm.map (value ρ)).prod_eq]
    split
    · next hone =>
      have hd : d = 1 := Number.isOne_exact hone
      simpa [hd] using collapse_times_value hus
    · have hcons : ∀ f ∈ .num (.exact d) :: us, Defined ρ f := by simpa using hus
      simpa using collapse_times_value hcons

/-! ### Powers -/

lemma wholePower_list {fs : List Expr} {k : Int} (h : Raisable (fs.map (value ρ)).prod k) :
    (∀ f ∈ fs, Raisable (value ρ f) k) ∧
      wholePower (fs.map (value ρ)).prod k = (fs.map fun f => wholePower (value ρ f) k).prod := by
  induction fs with
  | nil => simp
  | cons f fs ih =>
    rw [List.map_cons, List.prod_cons] at h
    obtain ⟨hf, hfs, hv⟩ := wholePower_mul h
    obtain ⟨hall, hprod⟩ := ih hfs
    rw [List.map_cons, List.prod_cons, List.map_cons, List.prod_cons, hv, hprod]
    exact ⟨List.forall_mem_cons.mpr ⟨hf, hall⟩, rfl⟩

omit [HasInverses R] in
lemma numericPower_int (o : Overflow) (q : ℚ) (k : Int) : numericPower o (.exact q) (.ofInt k) =
    if q.num = 0 ∧ k < 0 then pure none else do return some (.num (← o.powInt (.exact q) k)) := rfl

lemma foldPower_value {b : Expr} {k : Int} (hk : k ≠ 0) (hb : Defined ρ b) :
    Meets anyHalt (foldPower .refuse b (int k)) fun r => ∀ e, r = some e → HasValue ρ e (wholePower (value ρ b) k) := by
  cases b with
  | num n =>
    obtain ⟨q, rfl⟩ := Number.exists_exact hb
    simp only [foldPower, int]
    split
    · next hz =>
      simp only [Bool.and_eq_true, Number.isZero_exact, Number.isNegative_ofInt, Bool.not_eq_true',
        decide_eq_false_iff_not, not_lt] at hz
      obtain ⟨rfl, hneg⟩ := hz
      simp only [meets_pure, Option.some.injEq, forall_eq']
      refine ⟨defined_int ρ 0, ?_⟩
      rw [value_exact, wholePower_algebraMap (Or.inr hneg), zero_zpow k hk, map_zero]
      exact (value_int ρ 0).trans Int.cast_zero
    · rw [numericPower_int]
      split
      · simp
      · refine (Overflow.meets_refuse_powInt q k).bind ?_
        rintro r ⟨hr, hq⟩
        simp only [meets_pure, Option.some.injEq, forall_eq', hr]
        exact ⟨defined_exact ρ _, by rw [value_exact, value_exact, wholePower_algebraMap hq]⟩
  | symbol | constant | plus | times | power | call => simp [foldPower]

lemma distributePower_value (hk : KeepsValues ρ sum product pow) {b : Expr} {k : Int} (hb : Defined ρ b)
    (hr : Raisable (value ρ b) k) :
    Meets anyHalt (distributePower product pow b (int k)) (HasValue ρ · (wholePower (value ρ b) k)) := by
  cases b with
  | constant | call => exact hb.elim
  | num | symbol | plus => exact ⟨(defined_power ρ _ k).mpr ⟨hb, hr⟩, value_power ρ _ k⟩
  | power b e =>
    obtain ⟨a, rfl⟩ := exists_int_of_defined_power ρ hb
    obtain ⟨hd, ha⟩ := (defined_power ρ b a).mp hb
    rw [value_power] at hr
    obtain ⟨hra, hv⟩ := wholePower_wholePower ha hr
    simp only [distributePower, integer?_int]
    refine (hk.product_ints a k).bind fun e he => ?_
    rw [he, value_power, ← hv]
    exact hk.pow_value b (a * k) hd hra
  | times fs =>
    rw [value_times] at hr
    rw [defined_times] at hb
    obtain ⟨hall, hprod⟩ := wholePower_list hr
    simp only [distributePower, integer?_int]
    have hm : Meets anyHalt (fs.mapM fun f => pow f (int k))
        (List.Forall₂ (fun f r => HasValue ρ r (wholePower (value ρ f) k)) fs) :=
      meets_mapM fun f hf => hk.pow_value f k (hb f hf) (hall f hf)
    refine hm.bind fun rs hrs => ?_
    have hvalues : (∀ r ∈ rs, Defined ρ r) ∧
        (rs.map (value ρ)).prod = (fs.map fun f => wholePower (value ρ f) k).prod := by
      clear hb hr hall hprod hm
      induction hrs with
      | nil => simp
      | cons hr _ ih => exact ⟨List.forall_mem_cons.mpr ⟨hr.1, ih.1⟩, by simp [hr.2, ih.2]⟩
    rw [value_times, hprod, ← hvalues.2]
    exact hk.product_value rs hvalues.1

lemma powerStep_value (hk : KeepsValues ρ sum product pow) {b : Expr} {k : Int} (hb : Defined ρ b)
    (hr : Raisable (value ρ b) k) :
    Meets anyHalt (powerStep .refuse product pow b (int k)) (HasValue ρ · (wholePower (value ρ b) k)) := by
  unfold powerStep
  split
  · next hz =>
    obtain rfl : k = 0 := by simpa [isZero, int] using hz
    exact ⟨defined_int ρ 1, by simp⟩
  next hz =>
  split
  · next hone =>
    obtain rfl : k = 1 := by simpa [isInt] using hone
    exact ⟨hb, (wholePower_one _).symm⟩
  split
  · next hone =>
    have hb1 : b = int 1 := eq_int_of_integer? (by simpa [isInt] using hone)
    exact ⟨defined_int ρ 1, by simp [hb1]⟩
  have hk0 : k ≠ 0 := by
    rintro rfl
    exact hz rfl
  refine (foldPower_value hk0 hb).bind fun r hfold => ?_
  split
  · exact hfold _ rfl
  · exact distributePower_value hk hb hr

/-! ### Every depth -/

omit [HasInverses R] in
lemma push_collected_int {s : Collected} {c : Int} (hs : s = ⟨.ofInt c, []⟩) (a : Int) :
    Meets anyHalt (s.push .refuse (int a)) (· = ⟨.ofInt (c + a), []⟩) := by
  subst hs
  refine (Overflow.meets_refuse_add c a).bind fun x hx => ?_
  simp [hx, Number.ofInt]

omit [HasInverses R] in
lemma sumStep_ints (a b : Int) : Meets anyHalt (sumStep .refuse product text [int a, int b]) (· = int (a + b)) := by
  have hfold : Meets anyHalt ([int a, int b].foldlM (Collected.push .refuse) ⟨.ofInt 0, []⟩)
      (· = ⟨.ofInt (a + b), []⟩) := by
    rw [List.foldlM_cons]
    refine (push_collected_int rfl a).bind fun s hs => ?_
    rw [zero_add] at hs
    exact (push_collected_int hs b).bind fun t ht => ht
  refine hfold.bind fun s hs => ?_
  subst hs
  simp [sortTerms, collapse, int]

omit [HasInverses R] in
lemma push_gathered_int {s : Gathered} {c : Int} (hs : s = ⟨.ofInt c, [], []⟩) (a : Int) :
    Meets anyHalt (s.push .refuse sum (int a)) (· = ⟨.ofInt (c * a), [], []⟩) := by
  subst hs
  refine (Overflow.meets_refuse_mul c a).bind fun x hx => ?_
  simp [hx, Number.ofInt]

omit [HasInverses R] in
lemma productStep_ints (a b : Int) :
    Meets anyHalt (productStep .refuse sum product pow text [int a, int b]) (· = int (a * b)) := by
  have hfold : Meets anyHalt ([int a, int b].foldlM (Gathered.push .refuse sum) ⟨.ofInt 1, [], []⟩)
      (· = ⟨.ofInt (a * b), [], []⟩) := by
    rw [List.foldlM_cons]
    refine (push_gathered_int rfl a).bind fun s hs => ?_
    rw [one_mul] at hs
    exact (push_gathered_int hs b).bind fun t ht => ht
  refine hfold.bind fun s hs => ?_
  subst hs
  have hsort : sortFactors text [] = pure [] := by simp [sortFactors, sortByKey]
  simp only [Gathered.mergeExponentials, pure_bind, List.mapM_nil, List.flatMap_nil, List.foldlM_nil, hsort]
  split
  · rfl
  split
  · next hone =>
    rw [meets_pure, collapse, int, int, Number.eq_of_isOne hone]
  · rfl

lemma KeepsValues.step (hk : KeepsValues ρ sum product pow) :
    KeepsValues ρ (sumStep .refuse product text) (productStep .refuse sum product pow text)
      (powerStep .refuse product pow) where
  sum_value _ h := sumStep_value hk h
  product_value _ h := productStep_value hk h
  pow_value _ _ hb hr := powerStep_value hk hb hr
  sum_ints := sumStep_ints
  product_ints := productStep_ints

lemma keepsValues_at (ρ : String → R) (n : Nat) :
    KeepsValues ρ (sumAt .refuse n) (productAt .refuse n) (powerAt .refuse n) := by
  induction n with
  | zero =>
    exact ⟨fun _ _ => trivial, fun _ _ => trivial, fun _ _ _ _ => trivial, fun _ _ => trivial, fun _ _ => trivial⟩
  | succ n ih => exact ih.step

lemma sum_value {args : List Expr} (h : ∀ e ∈ args, Defined ρ e) :
    Meets anyHalt (Expr.sum .refuse args) (HasValue ρ · (args.map (value ρ)).sum) :=
  (keepsValues_at ρ _).sum_value args h

lemma product_value {args : List Expr} (h : ∀ e ∈ args, Defined ρ e) :
    Meets anyHalt (Expr.product .refuse args) (HasValue ρ · (args.map (value ρ)).prod) :=
  (keepsValues_at ρ _).product_value args h

lemma pow_value {b : Expr} {k : Int} (hb : Defined ρ b) (hr : Raisable (value ρ b) k) :
    Meets anyHalt (Expr.pow .refuse b (int k)) (HasValue ρ · (wholePower (value ρ b) k)) :=
  (keepsValues_at ρ _).pow_value b k hb hr

lemma sum_ints (a b : Int) : Meets anyHalt (Expr.sum .refuse [int a, int b]) (· = int (a + b)) :=
  (keepsValues_at (fun _ => PUnit.unit) _).sum_ints a b

lemma pow_isRational {b : Expr} (k : Int) (hb : b.IsRational) :
    Meets anyHalt (Expr.pow .refuse b (int k)) IsRational :=
  (pow_value (defined_of_isRational b hb) (Or.inl (isUnit_of_subsingleton _))).mono fun r hr =>
    isRational_of_defined _ r hr.1

/-! ### A zero among the factors -/

lemma factors_isRational {e : Expr} (h : e.IsRational) : ∀ f ∈ e.factors, f.IsRational := by
  cases e with
  | times fs => exact (allRational_iff fs).mp h
  | num | symbol | constant | plus | power | call => simpa [factors] using h

lemma push_gathered_zero {s : Gathered} {e : Expr} (hs : s.coeff = .exact 0) (he : e.IsRational) :
    Meets anyHalt (s.push .refuse sum e) (·.coeff = .exact 0) := by
  have hbase : Meets anyHalt
      (do return { s with bases := ← addExponent sum e.baseExponent.1 e.baseExponent.2 s.bases } : Calc Gathered)
      (·.coeff = .exact 0) := (meets_anyHalt_true _).bind fun _ _ => hs
  cases e with
  | num n =>
    obtain ⟨q, rfl⟩ := Number.exists_exact he
    simp only [Gathered.push, hs]
    refine (Overflow.meets_refuse_mul 0 q).bind fun x hx => ?_
    simpa using hx
  | constant | call => exact he.elim
  | symbol | plus | times | power => exact hbase

lemma productStep_zero {args : List Expr} (h : ∀ e ∈ args, e.IsRational) :
    Meets anyHalt (productStep .refuse sum product pow text (int 0 :: args)) (· = .num (.exact 0)) := by
  have hfold : Meets anyHalt ((int 0 :: args.flatMap factors).foldlM (Gathered.push .refuse sum) ⟨.ofInt 1, [], []⟩)
      (·.coeff = .exact 0) := by
    rw [List.foldlM_cons]
    refine (push_gathered_int rfl 0).bind fun s hs => ?_
    refine (meets_foldlM (fun rest s => (∀ e ∈ rest, e.IsRational) ∧ s.coeff = .exact 0) ?_ ?_).mono fun t ht => ht.2
    · rintro e rest t ⟨hrest, ht⟩
      rw [List.forall_mem_cons] at hrest
      exact (push_gathered_zero ht hrest.1).mono fun u hu => ⟨hrest.2, hu⟩
    · refine ⟨fun e he => ?_, by rw [hs]; simp [Number.ofInt]⟩
      obtain ⟨a, ha, hea⟩ := List.mem_flatMap.mp he
      exact factors_isRational (h a ha) e hea
  refine hfold.bind fun g hg => ?_
  rw [hg]
  rfl

lemma product_zero {args : List Expr} (h : ∀ e ∈ args, e.IsRational) :
    Meets anyHalt (Expr.product .refuse (int 0 :: args)) (· = .num (.exact 0)) :=
  productStep_zero h

end

end Expr

end PlaneCalculus
