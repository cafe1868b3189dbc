import Mathlib.Algebra.BigOperators.Finsupp.Basic
import PlaneCalculus.Proofs.Expr.Arithmetic
import PlaneCalculus.Proofs.Expr.Settling
import PlaneCalculus.Proofs.Expr.TermOrder

/-! Sums as linear forms in the rests of their terms. The form of a sum of settled trees is the sum of their forms, and
the form determines the sum, as long as no two rests are written alike. -/

namespace PlaneCalculus.Expr

open Calc Finsupp

attribute [local irreducible] Number.fits

/-- The coefficient of each rest; a number is a multiple of one. -/
noncomputable def linearForm (ts : List Expr) : Expr →₀ ℚ :=
  (ts.map fun t => single t.coeffRest.2 t.coeffRest.1.value).sum

@[simp] lemma linearForm_nil : linearForm [] = 0 := rfl

@[simp] lemma linearForm_cons (t : Expr) (ts : List Expr) :
    linearForm (t :: ts) = single t.coeffRest.2 t.coeffRest.1.value + linearForm ts := rfl

lemma linearForm_append (ts us : List Expr) : linearForm (ts ++ us) = linearForm ts + linearForm us := by
  simp [linearForm]

lemma linearForm_flatMap (args : List Expr) :
    linearForm (args.flatMap terms) = (args.map fun e => linearForm e.terms).sum := by
  induction args with
  | nil => rfl
  | cons e args ih => rw [List.flatMap_cons, linearForm_append, ih, List.map_cons, List.sum_cons]

lemma linearForm_perm {ts us : List Expr} (h : ts.Perm us) : linearForm ts = linearForm us := (h.map _).sum_eq

lemma mem_rests_of_linearForm {r : Expr} {ts : List Expr} (h : linearForm ts r ≠ 0) : r ∈ ts.map (·.coeffRest.2) := by
  induction ts with
  | nil => exact absurd rfl h
  | cons t ts ih =>
    rw [List.map_cons, List.mem_cons]
    by_cases hr : r = t.coeffRest.2
    · exact Or.inl hr
    · right
      refine ih fun h0 => h ?_
      rw [linearForm_cons, Finsupp.add_apply, single_eq_of_ne hr, h0, add_zero]

/-! ### Collecting terms -/

noncomputable def entriesForm (entries : List (Expr × Number)) : Expr →₀ ℚ :=
  (entries.map fun p => single p.1 p.2.value).sum

@[simp] lemma entriesForm_cons (p : Expr × Number) (entries : List (Expr × Number)) :
    entriesForm (p :: entries) = single p.1 p.2.value + entriesForm entries := rfl

lemma entriesForm_eq_zero {r : Expr} {entries : List (Expr × Number)} (h : r ∉ entries.map (·.1)) :
    entriesForm entries r = 0 := by
  induction entries with
  | nil => rfl
  | cons p entries ih =>
    rw [List.map_cons, List.mem_cons, not_or] at h
    rw [entriesForm_cons, Finsupp.add_apply, single_eq_of_ne h.1, ih h.2, add_zero]

lemma entriesForm_of_mem {p : Expr × Number} {entries : List (Expr × Number)} (hd : (entries.map (·.1)).Nodup)
    (h : p ∈ entries) : entriesForm entries p.1 = p.2.value := by
  induction entries with
  | nil => cases h
  | cons q entries ih =>
    rw [List.map_cons, List.nodup_cons] at hd
    rw [entriesForm_cons, Finsupp.add_apply]
    rcases List.mem_cons.mp h with rfl | h
    · rw [single_eq_same, entriesForm_eq_zero hd.1, add_zero]
    · have hne : p.1 ≠ q.1 := fun he => hd.1 (he ▸ List.mem_map_of_mem h)
      rw [single_eq_of_ne hne, ih hd.2 h, zero_add]

lemma entriesForm_filter {entries : List (Expr × Number)} (h : ∀ p ∈ entries, p.2.InRange) :
    entriesForm (entries.filter fun p => !p.2.isZero) = entriesForm entries := by
  induction entries with
  | nil => rfl
  | cons p entries ih =>
    rw [List.forall_mem_cons] at h
    rw [List.filter_cons]
    split
    · rw [entriesForm_cons, entriesForm_cons, ih h.2]
    · next hz =>
      obtain ⟨q, hq, -⟩ := h.1
      have h0 : q = 0 := by simpa [hq] using hz
      rw [ih h.2, entriesForm_cons, hq, h0, Number.value_exact, single_zero, zero_add]

lemma value_inj {a b : Number} (ha : a.InRange) (hb : b.InRange) (h : a.value = b.value) : a = b := by
  obtain ⟨p, rfl, -⟩ := ha
  obtain ⟨q, rfl, -⟩ := hb
  exact congrArg Number.exact h

lemma isZero_iff {n : Number} (h : n.InRange) : n.isZero = true ↔ n.value = 0 := by
  obtain ⟨q, rfl, -⟩ := h
  exact Number.isZero_exact q

/-- Entries that can be read off their form. -/
structure ProperEntries (entries : List (Expr × Number)) : Prop where
  number : ∀ p ∈ entries, p.2.InRange
  nonzero : ∀ p ∈ entries, p.2.isZero = false
  nodup : (entries.map (·.1)).Nodup

lemma ProperEntries.apply_ne_zero {entries : List (Expr × Number)} (h : ProperEntries entries) {p : Expr × Number}
    (hp : p ∈ entries) : entriesForm entries p.1 ≠ 0 := by
  rw [entriesForm_of_mem h.nodup hp, ne_eq, ← isZero_iff (h.number p hp), h.nonzero p hp]
  exact Bool.false_ne_true

lemma ProperEntries.subset {entries entries' : List (Expr × Number)} (h : ProperEntries entries)
    (h' : ProperEntries entries') (hform : entriesForm entries = entriesForm entries') : entries ⊆ entries' := by
  intro p hp
  have hmem : p.1 ∈ entries'.map (·.1) := by
    by_contra hout
    exact h.apply_ne_zero hp (hform ▸ entriesForm_eq_zero hout)
  obtain ⟨p', hp', hfst⟩ := List.mem_map.mp hmem
  have hsnd : p'.2 = p.2 := by
    refine value_inj (h'.number p' hp') (h.number p hp) ?_
    rw [← entriesForm_of_mem h.nodup hp, ← entriesForm_of_mem h'.nodup hp', hfst, hform]
  rwa [← Prod.ext hfst hsnd]

lemma ProperEntries.perm {entries entries' : List (Expr × Number)} (h : ProperEntries entries)
    (h' : ProperEntries entries') (hform : entriesForm entries = entriesForm entries') : entries.Perm entries' :=
  (List.perm_ext_iff_of_nodup (List.Nodup.of_map _ h.nodup) (List.Nodup.of_map _ h'.nodup)).mpr fun _ =>
    ⟨fun hp => h.subset h' hform hp, fun hp => h'.subset h hform.symm hp⟩

lemma ProperEntries.eq_of_fst {entries : List (Expr × Number)} (h : ProperEntries entries) {p q : Expr × Number}
    (hp : p ∈ entries) (hq : q ∈ entries) (hfst : p.1 = q.1) : p = q := List.inj_on_of_nodup_map h.nodup hp hq hfst

noncomputable def Collected.form (s : Collected) : Expr →₀ ℚ := entriesForm s.entries + single (int 1) s.number.value

lemma addCoefficient_form {rest : Expr} {c : Number} (hc : c.InRange) {entries : List (Expr × Number)}
    (h : SettledEntries entries) : Meets anyHalt (addCoefficient .refuse rest c entries) fun out =>
      entriesForm out = entriesForm entries + single rest c.value := by
  obtain ⟨q, rfl, -⟩ := hc
  induction entries with
  | nil => rw [addCoefficient, meets_pure, entriesForm_cons, add_comm]
  | cons p entries ih =>
    obtain ⟨e, d⟩ := p
    obtain ⟨⟨he, hd⟩, -, hentries⟩ := settledEntries_cons.mp h
    obtain ⟨d, rfl, -⟩ := hd
    unfold addCoefficient
    split
    · next hsame =>
      rw [beq_iff_of_settled he.settled] at hsame
      subst hsame
      refine (Overflow.meets_refuse_add d q).bind fun n hn => ?_
      rw [meets_pure, entriesForm_cons, hn, Number.value_exact, single_add]
      exact add_right_comm _ _ _
    · refine (ih hentries).bind fun out hout => ?_
      rw [meets_pure, entriesForm_cons, hout, entriesForm_cons, add_assoc]

lemma push_collected_form {s : Collected} {e : Expr} (hs : s.Settled) (he : Expr.Settled e) (hp : ∀ ts, e ≠ .plus ts) :
    Meets anyHalt (s.push .refuse e) fun t => t.form = s.form + single e.coeffRest.2 e.coeffRest.1.value := by
  obtain ⟨hn, hentries⟩ := hs
  have hterm (h : e.isNumber = false) : Meets anyHalt
      (do return { s with entries := ← addCoefficient .refuse e.coeffRest.2 e.coeffRest.1 s.entries } : Calc Collected)
      fun t => t.form = s.form + single e.coeffRest.2 e.coeffRest.1.value := by
    refine (addCoefficient_form (coeffRest_settled he h hp).2 hentries).bind fun out hout => ?_
    rw [meets_pure, Collected.form, hout]
    exact add_right_comm _ _ _
  cases e with
  | num n =>
    obtain ⟨p, hs, -⟩ := hn
    obtain ⟨q, rfl, -⟩ := he
    show Meets anyHalt (Overflow.refuse.add s.number (.exact q) >>= _) _
    rw [hs]
    refine (Overflow.meets_refuse_add p q).bind fun m hm => ?_
    rw [meets_pure, Collected.form, Collected.form, hm, hs, Number.value_exact, single_add, ← add_assoc]
    rfl
  | symbol | constant | plus | times | power | call => exact hterm rfl

lemma collected_form {es : List Expr} (h : ∀ e ∈ es, Settled e ∧ ∀ ts, e ≠ .plus ts) :
    Meets anyHalt (es.foldlM (Collected.push .refuse) ⟨.ofInt 0, []⟩) fun s => s.Settled ∧ s.form = linearForm es := by
  refine (meets_foldlM (fun rest s => (∀ e ∈ rest, Settled e ∧ ∀ ts, e ≠ .plus ts) ∧ s.Settled ∧
    s.form + linearForm rest = linearForm es) ?_ ?_).mono fun s ⟨_, hs, hform⟩ => ⟨hs, by simpa using hform⟩
  · rintro e rest s ⟨hrest, hs, hform⟩
    rw [List.forall_mem_cons] at hrest
    refine ((push_collected_settled hs hrest.1.1 hrest.1.2).and (push_collected_form hs hrest.1.1 hrest.1.2)).mono ?_
    rintro t ⟨ht, htform⟩
    refine ⟨hrest.2, ht, ?_⟩
    rw [← hform, htform, linearForm_cons, add_assoc]
  · refine ⟨h, ⟨Number.inRange_ofInt (by decide), nofun, nofun, List.nodup_nil⟩, ?_⟩
    simp [Collected.form, entriesForm, Number.ofInt, Number.value]

/-! ### Sums of a given form -/

def scaledTerm (p : Expr × Number) : Expr := assembled p.2 (nonNumbers p.1.factors)

/-- The parts of a sum as the constructor makes it, with the given linear form. -/
structure SumParts (form : Expr →₀ ℚ) (entries : List (Expr × Number)) (n : Number) : Prop extends
    ProperEntries entries where
  rest : ∀ p ∈ entries, IsRest p.1
  constant : n.InRange
  form_eq : entriesForm entries + single (int 1) n.value = form

def SumOf (form : Expr →₀ ℚ) (r : Expr) : Prop :=
  ∃ entries n us, SumParts form entries n ∧ sortTerms (text .refuse) (entries.map scaledTerm) = .ok us ∧
    r = collapse 0 .plus (if !n.isZero || us.isEmpty then us ++ [.num n] else us)

variable {sum product : List Expr → Calc Expr} {pow : Expr → Expr → Calc Expr} {text' : Expr → Calc String}

lemma IsRest.factors {e : Expr} (h : IsRest e) : e = collapse 1 .times (nonNumbers e.factors) ∧
    SettledFactors (nonNumbers e.factors) ∧ nonNumbers e.factors ≠ [] ∧ ∀ ts, nonNumbers e.factors ≠ [.plus ts] := by
  obtain ⟨fs, rfl, hfs, hne, hapart⟩ := h
  have hfactors : nonNumbers (collapse 1 .times fs).factors = fs := factors_assembled hfs.number hfs.flat (.ofInt 1)
  rw [hfactors]
  exact ⟨rfl, hfs, hne, hapart⟩

lemma sumStep_form (K : KeepsSettled sum product pow text') {args : List Expr} (h : ∀ e ∈ args, Settled e) :
    Meets anyHalt (sumStep .refuse product text' args) (SumOf (linearForm (args.flatMap terms))) := by
  have hterms : ∀ t ∈ args.flatMap terms, Settled t ∧ ∀ ts, t ≠ .plus ts := by
    intro t ht
    obtain ⟨e, he, ht⟩ := List.mem_flatMap.mp ht
    exact terms_settled (h e he) t ht
  refine (collected_form hterms).bind ?_
  rintro s ⟨⟨hn, hentries⟩, hform⟩
  have hsub : (s.entries.filter fun p => !p.2.isZero).Sublist s.entries := List.filter_sublist
  have hparts : SumParts (linearForm (args.flatMap terms)) (s.entries.filter fun p => !p.2.isZero) s.number :=
    { number := fun p hp => hentries.number p (hsub.subset hp)
      nonzero := fun p hp => by simpa using (List.mem_filter.mp hp).2
      nodup := hentries.nodup.sublist (hsub.map _)
      rest := fun p hp => hentries.rest p (hsub.subset hp)
      constant := hn
      form_eq := by rw [entriesForm_filter hentries.number, ← hform, Collected.form] }
  have hbuilt : Meets anyHalt ((s.entries.filter fun p => !p.2.isZero).mapM fun p => product [.num p.2, p.1])
      (· = (s.entries.filter fun p => !p.2.isZero).map scaledTerm) := by
    refine meets_mapM_eq fun p hp => ?_
    obtain ⟨heq, hfs, hne, hapart⟩ := (hparts.rest p hp).factors
    have hproduct := K.assembled_eq p.2 _ (hparts.number p hp) (hparts.nonzero p hp) hfs hne hapart
    rwa [← heq] at hproduct
  refine hbuilt.bind fun ts hts => ?_
  rw [hts]
  refine (Meets.self (meets_anyHalt_true (sortTerms text' _))).bind fun us hus => ?_
  exact ⟨_, _, us, hparts, sortTerms_respects agreement K.text_eq _ us hus, rfl⟩

lemma sum_form {args : List Expr} (h : ∀ e ∈ args, Settled e) :
    Meets anyHalt (Expr.sum .refuse args) (SumOf (args.map fun e => linearForm e.terms).sum) := by
  rw [← linearForm_flatMap]
  exact sumStep_form (keepsSettled_at _) h

lemma coeff_assembled {fs : List Expr} (hn : ∀ f ∈ fs, f.isNumber = false) (hne : fs ≠ [])
    (hflat : ∀ f ∈ fs, ∀ gs, f ≠ .times gs) (c : Number) : (assembled c fs).coeffRest.1 = c := by
  unfold assembled
  split
  · next hone =>
    rw [Number.eq_of_isOne hone]
    rcases fs with _ | ⟨f, _ | ⟨g, fs⟩⟩
    · exact absurd rfl hne
    · have hf := hn f List.mem_cons_self
      cases f with
      | num n => cases hf
      | times gs => exact absurd rfl (hflat _ List.mem_cons_self gs)
      | symbol | constant | plus | power | call => rfl
    · have hf := hn f List.mem_cons_self
      cases f with
      | num n => cases hf
      | symbol | constant | plus | times | power | call => rfl
  · rcases fs with _ | ⟨f, _ | ⟨g, fs⟩⟩
    · exact absurd rfl hne
    · rfl
    · rfl

lemma scaledTerm_coeffRest {p : Expr × Number} (h : IsRest p.1) : (scaledTerm p).coeffRest = (p.2, p.1) ∧
    (scaledTerm p).isNumber = false ∧ ∀ ts, scaledTerm p ≠ .plus ts := by
  obtain ⟨heq, hfs, hne, hapart⟩ := h.factors
  obtain ⟨hrest, hnumber⟩ := coeffRest_assembled hfs.number hne hfs.flat p.2
  refine ⟨Prod.ext (coeff_assembled hfs.number hne hfs.flat p.2) ?_, hnumber, assembled_ne_plus hapart p.2⟩
  exact hrest.trans heq.symm

/-- The form of a number is a multiple of one, which is no rest. -/
lemma IsRest.ne_int {e : Expr} (h : IsRest e) (k : Int) : e ≠ int k := by
  rintro rfl
  cases h.isNumber

lemma SumParts.apply_rest {form : Expr →₀ ℚ} {entries : List (Expr × Number)} {n : Number}
    (h : SumParts form entries n) {p : Expr × Number} (hp : p ∈ entries) : form p.1 = entriesForm entries p.1 := by
  rw [← h.form_eq, Finsupp.add_apply, single_eq_of_ne ((h.rest p hp).ne_int 1), add_zero]

lemma SumParts.apply_one {form : Expr →₀ ℚ} {entries : List (Expr × Number)} {n : Number}
    (h : SumParts form entries n) : form (int 1) = n.value := by
  have hout : int 1 ∉ entries.map (·.1) := by
    intro hmem
    obtain ⟨p, hp, hp1⟩ := List.mem_map.mp hmem
    exact (h.rest p hp).ne_int 1 hp1
  rw [← h.form_eq, Finsupp.add_apply, entriesForm_eq_zero hout, single_eq_same, zero_add]

/-- No two of the expressions are written alike. -/
def WrittenApart (es : List Expr) : Prop :=
  ∀ a ∈ es, ∀ b ∈ es, ∀ t, text .refuse a = .ok t → text .refuse b = .ok t → a = b

lemma SumOf.unique {form : Expr →₀ ℚ} {r s : Expr} (hr : SumOf form r) (hs : SumOf form s) {es : List Expr}
    (hform : ∀ e, form e ≠ 0 → e ∈ es) (h : WrittenApart es) : r = s := by
  obtain ⟨entries, n, us, hparts, hus, rfl⟩ := hr
  obtain ⟨entries', n', us', hparts', hus', rfl⟩ := hs
  have hn : n = n' :=
    value_inj hparts.constant hparts'.constant (hparts.apply_one.symm.trans hparts'.apply_one)
  have heq : entriesForm entries = entriesForm entries' := by
    have h := hparts.form_eq.trans hparts'.form_eq.symm
    rwa [hn, add_left_inj] at h
  have hmem {p : Expr × Number} (hp : p ∈ entries) : p.1 ∈ es :=
    hform _ (hparts.apply_rest hp ▸ hparts.apply_ne_zero hp)
  have hsort : sortTerms (text .refuse) (entries'.map scaledTerm) = .ok us := by
    refine sortTerms_eq_of_perm hus ((hparts.perm hparts'.toProperEntries heq).map _) ?_
    intro a ha b hb t hta htb
    obtain ⟨p, hp, rfl⟩ := List.mem_map.mp ha
    obtain ⟨q, hq, rfl⟩ := List.mem_map.mp hb
    rw [(scaledTerm_coeffRest (hparts.rest p hp)).1] at hta
    rw [(scaledTerm_coeffRest (hparts.rest q hq)).1] at htb
    rw [hparts.eq_of_fst hp hq (h _ (hmem hp) _ (hmem hq) t hta htb)]
  rw [hus'] at hsort
  rw [hn, Except.ok.inj hsort]

lemma terms_collapse {ts : List Expr} (hne : ts ≠ []) (h : ∀ t ∈ ts, ∀ us, t ≠ .plus us) :
    (collapse 0 .plus ts).terms = ts := by
  rcases ts with _ | ⟨t, _ | ⟨u, ts⟩⟩
  · exact absurd rfl hne
  · cases t with
    | plus us => exact absurd rfl (h _ List.mem_cons_self us)
    | num | symbol | constant | times | power | call => rfl
  · rfl

lemma linearForm_scaled {entries : List (Expr × Number)} (h : ∀ p ∈ entries, IsRest p.1) :
    linearForm (entries.map scaledTerm) = entriesForm entries := by
  induction entries with
  | nil => rfl
  | cons p entries ih =>
    rw [List.forall_mem_cons] at h
    rw [List.map_cons, linearForm_cons, (scaledTerm_coeffRest h.1).1, ih h.2, entriesForm_cons]

lemma SumOf.form {form : Expr →₀ ℚ} {r : Expr} (h : SumOf form r) : linearForm r.terms = form := by
  obtain ⟨entries, n, us, hparts, hus, rfl⟩ := h
  have hperm : us.Perm (entries.map scaledTerm) := (meets_sortTerms_perm _ _).value hus
  have hflat : ∀ t ∈ us, ∀ vs, t ≠ .plus vs := by
    intro t ht
    obtain ⟨p, hp, rfl⟩ := List.mem_map.mp (hperm.mem_iff.mp ht)
    exact (scaledTerm_coeffRest (hparts.rest p hp)).2.2
  have husform : linearForm us = entriesForm entries := by
    rw [linearForm_perm hperm, linearForm_scaled hparts.rest]
  rw [← hparts.form_eq]
  split
  · rw [terms_collapse (by simp) ?_, linearForm_append, husform, linearForm_cons, linearForm_nil, add_zero]
    · rfl
    · exact List.forall_mem_append.mpr ⟨hflat, by simp⟩
  · next hlast =>
    simp only [Bool.or_eq_true, Bool.not_eq_true', List.isEmpty_iff, not_or, Bool.not_eq_false] at hlast
    obtain ⟨q, hq, -⟩ := hparts.constant
    have h0 : q = 0 := by simpa [hq] using hlast.1
    rw [terms_collapse hlast.2 hflat, husform, hq, h0, Number.value_exact, single_zero, add_zero]

end PlaneCalculus.Expr
