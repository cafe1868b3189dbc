import PlaneCalculus.Proofs.Expr.LinearForm
import PlaneCalculus.Proofs.Expr.Monomial

/-! Products as a coefficient and an exponent for each base. Products of powers of symbols, sums and calls multiply
their coefficients and add their exponents, and both determine the product, as long as no two bases are written alike.
Only where a number is multiplied into a lone sum do they not survive. -/

namespace PlaneCalculus.Expr

open Calc Finsupp

attribute [local irreducible] Number.fits

/-- Bases that stay as they are under every exponent. -/
def IsAtom : Expr → Prop
  | .symbol _ => True
  | .plus _ => True
  | .constant .pi => True
  | .call f _ => f ≠ .exp
  | _ => False

def numberValue : Expr → ℚ
  | .num n => n.value
  | _ => 0

/-- The product of the numbers among the factors. -/
def coefficient (fs : List Expr) : ℚ :=
  (fs.map fun f => if f.isNumber then numberValue f else 1).prod

/-- The exponent of each base; numbers are left out. -/
noncomputable def powerForm (fs : List Expr) : Expr →₀ ℚ :=
  (fs.map fun f => if f.isNumber then 0 else single f.baseExponent.1 (numberValue f.baseExponent.2)).sum

/-- A number, or a power of an atom with an exact number as exponent. -/
def IsPower (f : Expr) : Prop := f.isNumber = false → f.baseExponent.1.IsAtom ∧ f.baseExponent.2.isNumber = true

def IsPowerProduct (e : Expr) : Prop := ∀ f ∈ e.factors, f.IsPower

def SettledPower (f : Expr) : Prop := Settled f ∧ f.IsPower

lemma isPower_num (n : Number) : IsPower (.num n) := nofun

lemma coefficient_append (fs gs : List Expr) : coefficient (fs ++ gs) = coefficient fs * coefficient gs := by
  simp [coefficient]

lemma powerForm_append (fs gs : List Expr) : powerForm (fs ++ gs) = powerForm fs + powerForm gs := by
  simp [powerForm]

@[simp] lemma coefficient_num (n : Number) (fs : List Expr) :
    coefficient (.num n :: fs) = n.value * coefficient fs := rfl

@[simp] lemma powerForm_num (n : Number) (fs : List Expr) : powerForm (.num n :: fs) = powerForm fs := zero_add _

lemma coefficient_cons {f : Expr} (h : f.isNumber = false) (fs : List Expr) :
    coefficient (f :: fs) = coefficient fs := by
  simp [coefficient, h]

lemma powerForm_cons {f : Expr} (h : f.isNumber = false) (fs : List Expr) :
    powerForm (f :: fs) = single f.baseExponent.1 (numberValue f.baseExponent.2) + powerForm fs := by
  simp [powerForm, h]

lemma powerForm_perm {fs gs : List Expr} (h : fs.Perm gs) : powerForm fs = powerForm gs := (h.map _).sum_eq

/-! ### Powers of atoms -/

def atomPower (b : Expr) (n : Number) : Expr := if n.isZero then int 1 else if n.isOne then b else .power b (.num n)

lemma IsAtom.isNumber {b : Expr} (h : b.IsAtom) : b.isNumber = false := by
  cases b <;> first | rfl | exact h.elim

lemma IsAtom.baseExponent {b : Expr} (h : b.IsAtom) : b.baseExponent = (b, int 1) := by
  cases b <;> first | rfl | exact h.elim

lemma IsAtom.factors {b : Expr} (h : b.IsAtom) : b.factors = [b] := by
  cases b <;> first | rfl | exact h.elim

lemma IsAtom.isPowerProduct {b : Expr} (h : b.IsAtom) : b.IsPowerProduct := by
  intro f hf _
  rw [h.factors, List.mem_singleton] at hf
  subst hf
  rw [h.baseExponent]
  exact ⟨h, rfl⟩

lemma isInt_one (n : Number) : (Expr.num n).isInt 1 = n.isOne := by
  cases n with
  | approx v => rfl
  | exact q =>
    show ((if q.den = 1 then some q.num else none) == some 1) = (decide (q.num = 1) && decide (q.den = 1))
    by_cases h : q.den = 1
    · rw [if_pos h, decide_eq_true h, Bool.and_true]
      rfl
    · rw [if_neg h, decide_eq_false h, Bool.and_false]
      rfl

lemma powerStep_atom {product : List Expr → Calc Expr} {pow : Expr → Expr → Calc Expr} {b : Expr} (hb : b.IsAtom)
    (n : Number) : powerStep .refuse product pow b (.num n) = .ok (atomPower b n) := by
  unfold powerStep atomPower
  rw [isInt_one]
  show (if n.isZero = true then _ else _) = _
  split
  · rfl
  split
  · rfl
  have hone : b.isInt 1 = false := by
    cases b <;> first | rfl | exact hb.elim
  rw [hone]
  cases b with
  | num | times | power => exact hb.elim
  | symbol | plus => rfl
  | constant c =>
    cases c with
    | pi => rfl
    | e => exact hb.elim
  | call f a => cases f <;> first | rfl | exact absurd rfl hb

/-! ### Gathering factors -/

/-- Exponents gathered so far, each base once. -/
structure AtomEntries (entries : List (Expr × Number)) : Prop where
  atom : ∀ p ∈ entries, p.1.IsAtom ∧ Settled p.1
  number : ∀ p ∈ entries, p.2.InRange
  nodup : (entries.map (·.1)).Nodup

lemma atomEntries_cons {p : Expr × Number} {entries : List (Expr × Number)} : AtomEntries (p :: entries) ↔
    ((p.1.IsAtom ∧ Settled p.1) ∧ p.2.InRange) ∧ p.1 ∉ entries.map (·.1) ∧ AtomEntries entries := by
  constructor
  · rintro ⟨ha, hn, hd⟩
    rw [List.forall_mem_cons] at ha hn
    rw [List.map_cons, List.nodup_cons] at hd
    exact ⟨⟨ha.1, hn.1⟩, hd.1, ha.2, hn.2, hd.2⟩
  · rintro ⟨⟨ha, hn⟩, hd, h⟩
    refine ⟨List.forall_mem_cons.mpr ⟨ha, h.atom⟩, List.forall_mem_cons.mpr ⟨hn, h.number⟩, ?_⟩
    rw [List.map_cons, List.nodup_cons]
    exact ⟨hd, h.nodup⟩

def asBase (p : Expr × Number) : Expr × Expr := (p.1, .num p.2)

lemma sumAt_numbers (d : Nat) {m n : Number} (hm : m.InRange) (hn : n.InRange) :
    Meets anyHalt (sumAt .refuse d [.num m, .num n]) fun r =>
      ∃ k : Number, r = .num k ∧ k.InRange ∧ k.value = m.value + n.value := by
  have hsettled : ∀ e ∈ [Expr.num m, Expr.num n], Settled e := by simpa using ⟨hm, hn⟩
  have hdefined : ∀ e ∈ [Expr.num m, Expr.num n], Defined (fun _ => (0 : ℚ)) e := by
    simpa using ⟨hm.isExact, hn.isExact⟩
  have hnumbers := (keepsMonomials_at .refuse d).sum_numbers [.num m, .num n] (by simp [isNumber])
  have hvalues := (keepsValues_at (fun _ => (0 : ℚ)) d).sum_value _ hdefined
  refine ((hnumbers.and hvalues).and ((keepsSettled_at d).sum_settled _ hsettled)).mono ?_
  rintro r ⟨⟨hr, hv⟩, hs⟩
  cases r with
  | num k => exact ⟨k, rfl, hs, by simpa [value] using hv.2⟩
  | symbol | constant | plus | times | power | call => cases hr

lemma addExponent_form (d : Nat) {b : Expr} {n : Number} (hb : b.IsAtom ∧ Settled b) (hn : n.InRange)
    {entries : List (Expr × Number)} (h : AtomEntries entries) :
    Meets anyHalt (addExponent (sumAt .refuse d) b (.num n) (entries.map asBase)) fun out =>
      ∃ entries', out = entries'.map asBase ∧ AtomEntries entries' ∧
        (∀ e ∈ entries'.map (·.1), e = b ∨ e ∈ entries.map (·.1)) ∧
        entriesForm entries' = entriesForm entries + single b n.value := by
  induction entries with
  | nil =>
    refine ⟨[(b, n)], rfl, atomEntries_cons.mpr ⟨⟨hb, hn⟩, by simp, h⟩, by simp, ?_⟩
    rw [entriesForm_cons, add_comm]
  | cons p entries ih =>
    obtain ⟨c, m⟩ := p
    obtain ⟨⟨hc, hm⟩, hnew, hentries⟩ := atomEntries_cons.mp h
    rw [List.map_cons, asBase, addExponent]
    split
    · next hsame =>
      rw [beq_iff_of_settled hc.2] at hsame
      subst hsame
      refine (sumAt_numbers d hm hn).bind ?_
      rintro r ⟨k, rfl, hk, hkv⟩
      refine ⟨(c, k) :: entries, rfl, atomEntries_cons.mpr ⟨⟨hc, hk⟩, hnew, hentries⟩, fun x hx => Or.inr hx, ?_⟩
      rw [entriesForm_cons, entriesForm_cons, hkv, single_add]
      exact add_right_comm _ _ _
    · next hne =>
      rw [beq_iff_of_settled hc.2] at hne
      refine (ih hentries).bind ?_
      rintro out ⟨entries', rfl, hatoms, hkeys, hform⟩
      refine ⟨(c, m) :: entries', rfl, atomEntries_cons.mpr ⟨⟨hc, hm⟩, fun hmem => ?_, hatoms⟩, ?_, ?_⟩
      · rcases hkeys c hmem with hcb | hold
        · exact hne hcb
        · exact hnew hold
      · rw [List.map_cons, List.map_cons, List.forall_mem_cons]
        exact ⟨Or.inr List.mem_cons_self, fun x hx => (hkeys x hx).imp_right (List.mem_cons_of_mem c)⟩
      · rw [entriesForm_cons, hform, entriesForm_cons, add_assoc]

/-- What has been gathered has the given coefficient and exponents. -/
structure Gathered.HasForm (s : Gathered) (c : ℚ) (form : Expr →₀ ℚ) : Prop where
  coeff : s.coeff.InRange ∧ s.coeff.value = c
  bases : ∃ entries, s.bases = entries.map asBase ∧ AtomEntries entries ∧ entriesForm entries = form
  exponentials : s.exponentials = []

lemma baseExponent_power {f : Expr} (hs : Settled f) (hp : f.IsPower) (hn : f.isNumber = false) :
    ∃ b n, f.baseExponent = (b, .num n) ∧ (b.IsAtom ∧ Settled b) ∧ n.InRange := by
  obtain ⟨hatom, hnumber⟩ := hp hn
  obtain ⟨hb, hx⟩ := baseExponent_settled hs
  rcases hbase : f.baseExponent with ⟨b, x⟩
  rw [hbase] at hatom hnumber hb hx
  cases x with
  | num n => exact ⟨b, n, rfl, ⟨hatom, hb⟩, hx⟩
  | symbol | constant | plus | times | power | call => cases hnumber

lemma push_gathered_form (d : Nat) {s : Gathered} {c : ℚ} {form : Expr →₀ ℚ} (h : s.HasForm c form) {f : Expr}
    (hs : Settled f) (hp : f.IsPower) : Meets anyHalt (s.push .refuse (sumAt .refuse d) f) fun t =>
      t.HasForm (c * coefficient [f]) (form + powerForm [f]) := by
  obtain ⟨⟨hc, hcv⟩, ⟨entries, hentries, hatoms, hform⟩, hexp⟩ := h
  have hbase (hn : f.isNumber = false) : Meets anyHalt
      (do return { s with bases := ← addExponent (sumAt .refuse d) f.baseExponent.1 f.baseExponent.2 s.bases } :
        Calc Gathered) fun t => t.HasForm (c * coefficient [f]) (form + powerForm [f]) := by
    obtain ⟨b, n, hf, hb, hr⟩ := baseExponent_power hs hp hn
    rw [coefficient_cons hn, powerForm_cons hn, hf, hentries]
    refine (addExponent_form d hb hr hatoms).bind fun out ⟨entries', hout, hatoms', _, hform'⟩ => ?_
    refine ⟨⟨hc, hcv.trans (mul_one c).symm⟩, ⟨entries', hout, hatoms', ?_⟩, hexp⟩
    rw [hform', hform]
    exact congrArg (form + ·) (add_zero _).symm
  cases f with
  | num n =>
    obtain ⟨p, hsp, -⟩ := id hc
    obtain ⟨q, rfl, -⟩ := id hs
    have hmul := (Overflow.meets_refuse_mul p q).and (mul_settled (hsp ▸ hc) hs)
    rw [← hsp] at hmul
    refine hmul.bind fun m ⟨hm, hrange⟩ => ?_
    refine ⟨⟨hrange, ?_⟩, ⟨entries, hentries, hatoms, ?_⟩, hexp⟩
    · rw [← hcv, hm, hsp]
      exact congrArg (p * ·) (mul_one q).symm
    · rw [hform, powerForm_num]
      exact (add_zero form).symm
  | symbol | constant | plus | times | power => exact hbase rfl
  | call g a =>
    cases g with
    | exp => exact absurd rfl (hp rfl).1
    | _ => exact hbase rfl

lemma gathered_form (d : Nat) {es : List Expr} (h : ∀ f ∈ es, SettledPower f) :
    Meets anyHalt (es.foldlM (Gathered.push .refuse (sumAt .refuse d)) ⟨.ofInt 1, [], []⟩) fun s =>
      s.HasForm (coefficient es) (powerForm es) := by
  refine (meets_foldlM (fun rest s => (∀ f ∈ rest, SettledPower f) ∧ ∃ done, done ++ rest = es ∧
    s.HasForm (coefficient done) (powerForm done)) ?_ ?_).mono ?_
  · rintro f rest s ⟨hrest, done, hdone, hs⟩
    rw [List.forall_mem_cons] at hrest
    refine (push_gathered_form d hs hrest.1.1 hrest.1.2).mono fun t ht => ⟨hrest.2, done ++ [f], by simp [hdone], ?_⟩
    rwa [coefficient_append, powerForm_append]
  · exact ⟨h, [], rfl, ⟨Number.inRange_ofInt (by decide), rfl⟩, ⟨[], rfl, ⟨nofun, nofun, List.nodup_nil⟩, rfl⟩, rfl⟩
  · rintro s ⟨-, done, hdone, hs⟩
    rw [List.append_nil] at hdone
    exact hdone ▸ hs

/-! ### Products of a given form -/

def atomFactor (p : Expr × Number) : Expr := atomPower p.1 p.2

lemma powerAt_atom (d : Nat) {b : Expr} (hb : b.IsAtom) (n : Number) :
    Meets anyHalt (powerAt .refuse d b (.num n)) (· = atomPower b n) := by
  cases d with
  | zero => trivial
  | succ d =>
    rw [powerAt, powerStep_atom hb]
    rfl

lemma atomFactor_single {p : Expr × Number} (hb : p.1.IsAtom) (hn : p.2.isZero = false) :
    (atomFactor p).factors = [atomFactor p] ∧ (atomFactor p).isNumber = false := by
  unfold atomFactor atomPower
  rw [hn]
  cases p.2.isOne with
  | true => exact ⟨hb.factors, hb.isNumber⟩
  | false => exact ⟨rfl, rfl⟩

lemma atomFactor_flat {p : Expr × Number} (hb : p.1.IsAtom) (hn : p.2.isZero = false) (gs : List Expr) :
    atomFactor p ≠ .times gs := by
  unfold atomFactor atomPower
  rw [hn]
  cases p.2.isOne with
  | true =>
    rintro h : p.1 = .times gs
    rw [h] at hb
    exact hb
  | false => exact nofun

lemma mul_one_inRange {n : Number} (hn : n.InRange) : Meets anyHalt (Overflow.refuse.mul n (.ofInt 1)) (· = n) := by
  obtain ⟨q, rfl, -⟩ := hn
  refine (Overflow.meets_refuse_mul q (1 : Int)).mono fun m hm => ?_
  rw [hm, Int.cast_one, mul_one]

lemma absorbed_atoms {c : Number} (hc : c.InRange) {entries : List (Expr × Number)} (h : ∀ p ∈ entries, p.1.IsAtom)
    (gs : List Expr) : Meets anyHalt (((entries.map atomFactor).flatMap factors).foldlM (absorb .refuse) (c, gs))
      (· = (c, gs ++ (entries.filter fun p => !p.2.isZero).map atomFactor)) := by
  induction entries generalizing gs with
  | nil => simp
  | cons p entries ih =>
    rw [List.forall_mem_cons] at h
    rw [List.map_cons, List.flatMap_cons, List.foldlM_append, List.filter_cons]
    cases hz : p.2.isZero with
    | true =>
      have hone : (atomFactor p).factors = [int 1] := by
        rw [atomFactor, atomPower, hz, if_pos rfl]
        rfl
      have habsorb : Meets anyHalt (absorb .refuse (c, gs) (int 1)) (· = (c, gs)) :=
        (mul_one_inRange hc).bind fun m hm => by rw [hm]; rfl
      rw [hone, List.foldlM_cons, bind_assoc]
      refine habsorb.bind ?_
      rintro _ rfl
      exact ih h.2 gs
    | false =>
      obtain ⟨hfactors, hnumber⟩ := atomFactor_single h.1 hz
      have habsorb := absorb_factors (o := .refuse) (List.forall_mem_singleton.mpr hnumber) c gs
      rw [hfactors, habsorb]
      refine (ih h.2 (gs ++ [atomFactor p])).mono ?_
      rintro _ rfl
      simp

/-- The parts of a product as the constructor makes it, with the given coefficient and exponents. -/
structure ProductParts (c : ℚ) (form : Expr →₀ ℚ) (n : Number) (entries : List (Expr × Number)) : Prop extends
    ProperEntries entries where
  atom : ∀ p ∈ entries, p.1.IsAtom ∧ Settled p.1
  coeff : n.InRange
  coeff_eq : n.value = c
  form_eq : entriesForm entries = form

def ProductOf (c : ℚ) (form : Expr →₀ ℚ) (r : Expr) : Prop :=
  (c = 0 ∧ r = int 0) ∨ c ≠ 0 ∧ ∃ n entries, ProductParts c form n entries ∧
    finishProduct (Expr.sum .refuse) (Expr.product .refuse) (text .refuse) (n, entries.map atomFactor) = .ok r

lemma finishProduct_respects {o o' : Overflow} (R : Comparison o o') {sum sum' product product' : List Expr → Calc Expr}
    {text text' : Expr → Calc String} (hs : ∀ args, R.rel (sum args) (sum' args))
    (hp : ∀ args, R.rel (product args) (product' args)) (ht : ∀ e, R.rel (text e) (text' e)) (s : Number × List Expr) :
    R.rel (finishProduct sum product text s) (finishProduct sum' product' text' s) := by
  refine R.ite (R.refl _) ?_
  split
  · exact R.bind (R.mapM (fun t => hp _) _) fun _ => hs _
  · exact R.bind (sortFactors_respects R ht _) fun _ => R.refl _

lemma finishProduct_at {d : Nat} {s : Number × List Expr} {r : Expr}
    (h : finishProduct (sumAt .refuse d) (productAt .refuse d) (textAt .refuse d) s = .ok r) :
    finishProduct (Expr.sum .refuse) (Expr.product .refuse) (text .refuse) s = .ok r := by
  refine finishProduct_respects agreement (fun args => ?_) (fun args => ?_) (fun e => ?_) s r h
  · exact fun a ha => (sumAt_eq (by simp [ha])).symm.trans ha
  · exact fun a ha => (productAt_eq (by simp [ha])).symm.trans ha
  · exact fun a ha => (textAt_eq (by simp [ha])).symm.trans ha

lemma eq_zero_of_inRange {n : Number} (h : n.InRange) (hz : n.isZero = true) : n.value = 0 ∧ Expr.num n = int 0 := by
  have h0 := (isZero_iff h).mp hz
  exact ⟨h0, congrArg Expr.num (value_inj h (Number.inRange_ofInt (k := 0) (by decide)) (h0.trans (by rfl)))⟩

lemma productAt_form (d : Nat) {args : List Expr} (h : ∀ f ∈ args.flatMap factors, SettledPower f) :
    Meets anyHalt (productAt .refuse (d + 1) args)
      (ProductOf (coefficient (args.flatMap factors)) (powerForm (args.flatMap factors))) := by
  refine (gathered_form d h).bind ?_
  rintro g ⟨⟨hc, hcv⟩, ⟨entries, hentries, hatoms, hform⟩, hexp⟩
  split
  · next hz =>
    obtain ⟨h0, hr⟩ := eq_zero_of_inRange hc hz
    exact Or.inl ⟨hcv.symm.trans h0, hr⟩
  next hz =>
  have hmerge : g.mergeExponentials .refuse (sumAt .refuse d) = .ok g := by
    unfold Gathered.mergeExponentials
    rw [hexp]
    rfl
  rw [hmerge]
  have hpowers : Meets anyHalt (g.bases.mapM fun p => powerAt .refuse d p.1 p.2) (· = entries.map atomFactor) := by
    rw [hentries, List.mapM_map]
    exact meets_mapM_eq fun p hp => powerAt_atom d (hatoms.atom p hp).1 p.2
  refine hpowers.bind fun built hbuilt => ?_
  rw [hbuilt]
  refine (absorbed_atoms hc (fun p hp => (hatoms.atom p hp).1) []).bind fun s hs => ?_
  rw [hs, List.nil_append]
  refine meets_anyHalt_iff.mpr fun r hr => Or.inr ⟨?_, g.coeff, _, ?_, finishProduct_at hr⟩
  · rw [← hcv]
    exact fun h0 => hz ((isZero_iff hc).mpr h0)
  · have hsub : (entries.filter fun p => !p.2.isZero).Sublist entries := List.filter_sublist
    exact
      { number := fun p hp => hatoms.number p (hsub.subset hp)
        nonzero := fun p hp => by simpa using (List.mem_filter.mp hp).2
        nodup := hatoms.nodup.sublist (hsub.map _)
        atom := fun p hp => hatoms.atom p (hsub.subset hp)
        coeff := hc
        coeff_eq := hcv
        form_eq := (entriesForm_filter hatoms.number).trans hform }

lemma product_form {args : List Expr} (h : ∀ f ∈ args.flatMap factors, SettledPower f) :
    Meets anyHalt (Expr.product .refuse args)
      (ProductOf (coefficient (args.flatMap factors)) (powerForm (args.flatMap factors))) :=
  productAt_form _ h

lemma atomFactor_base {p : Expr × Number} (hb : p.1.IsAtom) (hz : p.2.isZero = false) :
    (atomFactor p).baseExponent = (p.1, .num p.2) := by
  unfold atomFactor atomPower
  rw [hz]
  cases hone : p.2.isOne with
  | true => rw [Number.eq_of_isOne hone]; exact hb.baseExponent
  | false => rfl

lemma finishProduct_assembled {n : Number} {fs : List Expr} (h : ∀ ts, fs = [.plus ts] → n.isOne = true) :
    finishProduct (Expr.sum .refuse) (Expr.product .refuse) (text .refuse) (n, fs) =
      if n.isZero then .ok (.num n) else do return assembled n (← sortFactors (text .refuse) fs) := by
  unfold finishProduct
  split
  · rfl
  · split
    · next ts hts hone => exact absurd (h ts hts) (by simp [show n.isOne = false from hone])
    · rfl

lemma finishProduct_eq_of_perm {n : Number} {fs gs : List Expr} {r : Expr} (hp : fs.Perm gs)
    (hapart : FactorsApart (text .refuse) fs)
    (h : finishProduct (Expr.sum .refuse) (Expr.product .refuse) (text .refuse) (n, fs) = .ok r) :
    finishProduct (Expr.sum .refuse) (Expr.product .refuse) (text .refuse) (n, gs) = .ok r := by
  by_cases hsum : ∃ ts, fs = [.plus ts]
  · obtain ⟨ts, rfl⟩ := hsum
    rwa [List.perm_singleton.mp hp.symm]
  · rw [finishProduct_assembled fun ts hts => absurd ⟨ts, hts⟩ hsum] at h
    rw [finishProduct_assembled fun ts hts => ?_]
    · split at h
      · next hz => rwa [if_pos hz]
      · next hz =>
        obtain ⟨us, hus, hr⟩ := bind_ok h
        rw [if_neg hz, sortFactors_eq_of_apart hus hp hapart]
        exact hr
    · rw [hts] at hp
      exact absurd ⟨ts, List.perm_singleton.mp hp⟩ hsum

lemma ProductOf.unique {c : ℚ} {form : Expr →₀ ℚ} {r s : Expr} (hr : ProductOf c form r) (hs : ProductOf c form s)
    {es : List Expr} (hform : ∀ e, form e ≠ 0 → e ∈ es) (h : WrittenApart es) : r = s := by
  rcases hr with ⟨h0, hr⟩ | ⟨h0, n, entries, hparts, hr⟩
  · rcases hs with ⟨-, hs⟩ | ⟨hne, -⟩
    · rw [hr, hs]
    · exact absurd h0 hne
  rcases hs with ⟨h0', -⟩ | ⟨-, n', entries', hparts', hs⟩
  · exact absurd h0' h0
  have hn : n = n' := value_inj hparts.coeff hparts'.coeff (hparts.coeff_eq.trans hparts'.coeff_eq.symm)
  have hperm := hparts.perm hparts'.toProperEntries (hparts.form_eq.trans hparts'.form_eq.symm)
  have hmem {p : Expr × Number} (hp : p ∈ entries) : p.1 ∈ es :=
    hform _ (hparts.form_eq ▸ hparts.apply_ne_zero hp)
  have hapart : FactorsApart (text .refuse) (entries.map atomFactor) := by
    intro a ha b hb _ t hta htb
    obtain ⟨p, hp, rfl⟩ := List.mem_map.mp ha
    obtain ⟨q, hq, rfl⟩ := List.mem_map.mp hb
    rw [atomFactor_base (hparts.atom p hp).1 (hparts.nonzero p hp)] at hta
    rw [atomFactor_base (hparts.atom q hq).1 (hparts.nonzero q hq)] at htb
    rw [hparts.eq_of_fst hp hq (h _ (hmem hp) _ (hmem hq) t hta htb)]
  have hr' := finishProduct_eq_of_perm (hperm.map atomFactor) hapart hr
  rw [hn, hs] at hr'
  exact (Except.ok.inj hr').symm

/-- The number is multiplied into a sum that is the only factor besides it. -/
def ScalesSum (c : ℚ) (form : Expr →₀ ℚ) : Prop := c ≠ 0 ∧ c ≠ 1 ∧ ∃ ts, form = single (.plus ts) 1

/-! ### The factors of a product -/

lemma coefficient_eq_one {fs : List Expr} (h : ∀ f ∈ fs, f.isNumber = false) : coefficient fs = 1 := by
  induction fs with
  | nil => rfl
  | cons f fs ih =>
    rw [List.forall_mem_cons] at h
    rw [coefficient_cons h.1, ih h.2]

lemma powerForm_atoms {entries : List (Expr × Number)} (h : ∀ p ∈ entries, p.1.IsAtom)
    (hz : ∀ p ∈ entries, p.2.isZero = false) : powerForm (entries.map atomFactor) = entriesForm entries := by
  induction entries with
  | nil => rfl
  | cons p entries ih =>
    rw [List.forall_mem_cons] at h hz
    rw [List.map_cons, powerForm_cons (atomFactor_single h.1 hz.1).2, atomFactor_base h.1 hz.1, ih h.2 hz.2]
    rfl

lemma atomFactor_settled {p : Expr × Number} (hb : p.1.IsAtom ∧ Settled p.1) (hn : p.2.InRange)
    (hz : p.2.isZero = false) : Settled (atomFactor p) := by
  unfold atomFactor
  by_cases hone : p.2.isOne = true
  · rw [atomPower, hz, hone]
    exact hb.2
  · have hone : p.2.isOne = false := by simpa using hone
    have hpower : atomPower p.1 p.2 = .power p.1 (.num p.2) := by
      rw [atomPower, hz, hone]
      rfl
    rw [hpower]
    refine settled_power hb.2 hn hz ((isInt_one p.2).trans hone) fun product pow => ?_
    rw [powerStep_atom hb.1, hpower]

lemma factors_collapse {fs : List Expr} (hne : fs ≠ []) (h : ∀ f ∈ fs, ∀ gs, f ≠ .times gs) :
    (collapse 1 .times fs).factors = fs := by
  rcases fs with _ | ⟨f, _ | ⟨g, fs⟩⟩
  · exact absurd rfl hne
  · have hf := flatMap_factors h
    rwa [List.flatMap_cons, List.flatMap_nil, List.append_nil] at hf
  · rfl

lemma assembled_form {n : Number} {fs : List Expr} (hn : n.InRange) (hs : ∀ f ∈ fs, SettledPower f)
    (hnumber : ∀ f ∈ fs, f.isNumber = false) (hflat : ∀ f ∈ fs, ∀ gs, f ≠ .times gs) :
    (∀ f ∈ (assembled n fs).factors, SettledPower f) ∧ coefficient (assembled n fs).factors = n.value ∧
      powerForm (assembled n fs).factors = powerForm fs := by
  unfold assembled
  split
  · next hone =>
    rw [Number.eq_of_isOne hone]
    rcases eq_or_ne fs [] with rfl | hne
    · have hint : ∀ f ∈ [int 1], SettledPower f := by
        simpa using ⟨settled_int (by decide), isPower_num _⟩
      exact ⟨hint, mul_one _, zero_add _⟩
    · rw [factors_collapse hne hflat]
      exact ⟨hs, coefficient_eq_one hnumber, rfl⟩
  · have hflat' : ∀ f ∈ Expr.num n :: fs, ∀ gs, f ≠ .times gs := List.forall_mem_cons.mpr ⟨nofun, hflat⟩
    rw [factors_collapse (List.cons_ne_nil _ _) hflat', coefficient_num, powerForm_num, coefficient_eq_one hnumber,
      mul_one]
    exact ⟨List.forall_mem_cons.mpr ⟨⟨hn, isPower_num n⟩, hs⟩, rfl, rfl⟩

lemma ProductOf.factors {c : ℚ} {form : Expr →₀ ℚ} {r : Expr} (h : ProductOf c form r) (hscale : ¬ ScalesSum c form) :
    (∀ f ∈ r.factors, SettledPower f) ∧ coefficient r.factors = c ∧ (c ≠ 0 → powerForm r.factors = form) := by
  rcases h with ⟨rfl, rfl⟩ | ⟨h0, n, entries, hparts, hr⟩
  · have hint : ∀ f ∈ [int 0], SettledPower f := by
      simpa using ⟨settled_int (by decide), isPower_num _⟩
    exact ⟨hint, zero_mul _, fun h => absurd rfl h⟩
  have hnz : n.isZero = false := by
    rw [Bool.eq_false_iff, ne_eq, isZero_iff hparts.coeff, hparts.coeff_eq]
    exact h0
  have hlone (ts : List Expr) (hts : entries.map atomFactor = [.plus ts]) : n.isOne = true := by
    by_contra hone
    refine hscale ⟨h0, fun h1 => hone ?_, ts, ?_⟩
    · rw [value_inj hparts.coeff (Number.inRange_ofInt (k := 1) (by decide)) (hparts.coeff_eq.trans h1)]
      rfl
    · have hform := powerForm_atoms (fun p hp => (hparts.atom p hp).1) hparts.nonzero
      rw [← hparts.form_eq, ← hform, hts]
      exact add_zero _
  rw [finishProduct_assembled hlone, hnz] at hr
  obtain ⟨us, hus, hr⟩ := bind_ok hr
  obtain rfl : assembled n us = r := Except.ok.inj hr
  have hperm : us.Perm (entries.map atomFactor) := (meets_sortFactors_perm _ _).value hus
  have hpart {f : Expr} (hf : f ∈ us) : ∃ p ∈ entries, f = atomFactor p := by
    obtain ⟨p, hp, rfl⟩ := List.mem_map.mp (hperm.mem_iff.mp hf)
    exact ⟨p, hp, rfl⟩
  have hpowers : ∀ f ∈ us, SettledPower f := by
    intro f hf
    obtain ⟨p, hp, rfl⟩ := hpart hf
    refine ⟨atomFactor_settled (hparts.atom p hp) (hparts.number p hp) (hparts.nonzero p hp), fun _ => ?_⟩
    rw [atomFactor_base (hparts.atom p hp).1 (hparts.nonzero p hp)]
    exact ⟨(hparts.atom p hp).1, rfl⟩
  have hnumber : ∀ f ∈ us, f.isNumber = false := by
    intro f hf
    obtain ⟨p, hp, rfl⟩ := hpart hf
    exact (atomFactor_single (hparts.atom p hp).1 (hparts.nonzero p hp)).2
  have hflat : ∀ f ∈ us, ∀ gs, f ≠ .times gs := by
    intro f hf
    obtain ⟨p, hp, rfl⟩ := hpart hf
    exact atomFactor_flat (hparts.atom p hp).1 (hparts.nonzero p hp)
  obtain ⟨hall, hc, hform⟩ := assembled_form hparts.coeff hpowers hnumber hflat
  refine ⟨hall, hc.trans hparts.coeff_eq, fun _ => ?_⟩
  rw [hform, powerForm_perm hperm, powerForm_atoms (fun p hp => (hparts.atom p hp).1) hparts.nonzero, hparts.form_eq]

end PlaneCalculus.Expr
