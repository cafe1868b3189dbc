import PlaneCalculus.Proofs.Expr.Agreement
import PlaneCalculus.Proofs.Expr.Gathering
import PlaneCalculus.Proofs.Expr.SettledPower

/-! The constructors keep trees settled. Only a product of factors that have yet to be merged can be left unsettled, and
then its own factors show it. -/

namespace PlaneCalculus.Expr

open Calc

variable {sum product : List Expr → Calc Expr} {pow : Expr → Expr → Calc Expr} {text : Expr → Calc String}

/-! ### Sums -/

/-- The part of a term that is left without its coefficient. -/
def IsRest (e : Expr) : Prop := ∃ fs, e = collapse 1 .times fs ∧ SettledFactors fs ∧ fs ≠ [] ∧ ∀ ts, fs ≠ [.plus ts]

lemma IsRest.settled {e : Expr} (h : IsRest e) : Settled e := by
  obtain ⟨fs, rfl, hfs, -, hapart⟩ := h
  exact settled_assembled (Number.inRange_ofInt (k := 1) (by decide)) rfl (fun _ => hapart) hfs

/-- Terms collected so far, each rest once. -/
structure SettledEntries (entries : List (Expr × Number)) : Prop where
  rest : ∀ p ∈ entries, IsRest p.1
  number : ∀ p ∈ entries, p.2.InRange
  nodup : (entries.map (·.1)).Nodup

lemma settledEntries_cons {p : Expr × Number} {entries : List (Expr × Number)} :
    SettledEntries (p :: entries) ↔ (IsRest p.1 ∧ p.2.InRange) ∧ p.1 ∉ entries.map (·.1) ∧ SettledEntries entries := by
  constructor
  · rintro ⟨hr, hn, hd⟩
    rw [List.forall_mem_cons] at hr hn
    rw [List.map_cons, List.nodup_cons] at hd
    exact ⟨⟨hr.1, hn.1⟩, hd.1, hr.2, hn.2, hd.2⟩
  · rintro ⟨⟨hr, hn⟩, hd, h⟩
    refine ⟨List.forall_mem_cons.mpr ⟨hr, h.rest⟩, List.forall_mem_cons.mpr ⟨hn, h.number⟩, ?_⟩
    rw [List.map_cons, List.nodup_cons]
    exact ⟨hd, h.nodup⟩

lemma addCoefficient_settled {rest : Expr} {c : Number} (hr : IsRest rest) (hc : c.InRange)
    {entries : List (Expr × Number)} (h : SettledEntries entries) :
    Meets anyHalt (addCoefficient .refuse rest c entries) fun out => SettledEntries out ∧
      ∀ e ∈ out.map (·.1), e = rest ∨ e ∈ entries.map (·.1) := by
  induction entries with
  | nil => exact ⟨settledEntries_cons.mpr ⟨⟨hr, hc⟩, by simp, h⟩, by simp⟩
  | cons p entries ih =>
    obtain ⟨e, d⟩ := p
    obtain ⟨⟨he, hd⟩, hnew, hentries⟩ := settledEntries_cons.mp h
    unfold addCoefficient
    split
    · refine (meets_inRange (by rw [hd.isExact, hc.isExact]; rfl) (Number.inRange_resultLaw.add _ _)).bind fun n hn => ?_
      exact ⟨settledEntries_cons.mpr ⟨⟨he, hn.2⟩, hnew, hentries⟩, fun x hx => Or.inr hx⟩
    · next hne =>
      rw [beq_iff_of_settled he.settled] at hne
      refine (ih hentries).bind ?_
      rintro out ⟨hout, hkeys⟩
      refine ⟨settledEntries_cons.mpr ⟨⟨he, hd⟩, fun hmem => ?_, hout⟩, ?_⟩
      · rcases hkeys e hmem with h | h
        · exact hne h
        · exact hnew h
      · rw [List.map_cons, List.map_cons, List.forall_mem_cons]
        refine ⟨Or.inr List.mem_cons_self, fun x hx => ?_⟩
        exact (hkeys x hx).imp_right (List.mem_cons_of_mem e)

lemma coeffRest_settled {e : Expr} (h : Settled e) (hn : e.isNumber = false) (hp : ∀ ts, e ≠ .plus ts) :
    IsRest e.coeffRest.2 ∧ e.coeffRest.1.InRange := by
  obtain ⟨heq, hrange, hz, hne⟩ := h.eq_assembled hn
  have hf := h.factors
  refine ⟨⟨nonNumbers e.factors, ?_, hf, hne, fun ts hts => ?_⟩, hrange⟩
  · conv_lhs => rw [heq]
    exact (coeffRest_assembled hf.number hne hf.flat _).1
  · cases e with
    | times fs =>
      obtain ⟨⟨hform, -⟩, -⟩ := (everywhere_times fs).mp h
      have htwo := hform.two
      rcases hform.cases with hfs | ⟨n, hfs, -⟩
      · rw [hfs, show nonNumbers fs = [.plus ts] from hts] at htwo
        simp at htwo
      · rw [show nonNumbers fs = [.plus ts] from hts] at hfs
        exact hform.apart n ts hfs
    | plus us => exact hp us rfl
    | num n => cases hn
    | symbol | constant | power | call => cases hts

def Collected.Settled (s : Collected) : Prop := s.number.InRange ∧ SettledEntries s.entries

lemma push_collected_settled {s : Collected} {e : Expr} (hs : s.Settled) (he : Expr.Settled e)
    (hp : ∀ ts, e ≠ .plus ts) : Meets anyHalt (s.push .refuse e) Collected.Settled := by
  obtain ⟨hn, hentries⟩ := hs
  have hterm (h : e.isNumber = false) : Meets anyHalt
      (do return { s with entries := ← addCoefficient .refuse e.coeffRest.2 e.coeffRest.1 s.entries } : Calc Collected)
      Collected.Settled := by
    obtain ⟨hr, hc⟩ := coeffRest_settled he h hp
    exact (addCoefficient_settled hr hc hentries).bind fun out hout => ⟨hn, hout.1⟩
  cases e with
  | num n =>
    refine (meets_inRange (by rw [hn.isExact, he.isExact]; rfl) (Number.inRange_resultLaw.add _ _)).bind fun m hm => ?_
    exact ⟨hm.2, hentries⟩
  | symbol | constant | plus | times | power | call => exact hterm rfl

lemma terms_settled {e : Expr} (h : Settled e) : ∀ t ∈ e.terms, Settled t ∧ ∀ ts, t ≠ .plus ts := by
  cases e with
  | plus ts =>
    obtain ⟨hts, hall⟩ := (everywhere_plus ts).mp h
    exact fun t ht => ⟨hall t ht, hts.flat t ht⟩
  | num | symbol | constant | times | power | call => simpa [terms] using h

lemma collected_settled {es : List Expr} (h : ∀ e ∈ es, Settled e ∧ ∀ ts, e ≠ .plus ts) :
    Meets anyHalt (es.foldlM (Collected.push .refuse) ⟨.ofInt 0, []⟩) Collected.Settled := by
  refine (meets_foldlM (fun rest s => (∀ e ∈ rest, Settled e ∧ ∀ ts, e ≠ .plus ts) ∧ s.Settled) ?_ ?_).mono
    fun s hs => hs.2
  · rintro e rest s ⟨hrest, hs⟩
    rw [List.forall_mem_cons] at hrest
    exact (push_collected_settled hs hrest.1.1 hrest.1.2).mono fun t ht => ⟨hrest.2, ht⟩
  · exact ⟨h, Number.inRange_ofInt (by decide), nofun, nofun, List.nodup_nil⟩

lemma IsRest.isNumber {e : Expr} (h : IsRest e) : e.isNumber = false := by
  obtain ⟨fs, rfl, hfs, hne, -⟩ := h
  exact (coeffRest_assembled hfs.number hne hfs.flat (.ofInt 1)).2

structure SettledTerm (t : Expr) : Prop where
  settled : Settled t
  number : t.isNumber = false
  flat : ∀ ts, t ≠ .plus ts
  rest : IsRest t.coeffRest.2

lemma term_settled (K : KeepsSettled sum product pow text) {rest : Expr} {c : Number} (hr : IsRest rest)
    (hc : c.InRange) (hz : c.isZero = false) :
    Meets anyHalt (product [.num c, rest]) fun t => SettledTerm t ∧ t.coeffRest.2 = rest := by
  obtain ⟨fs, rfl, hfs, hne, hapart⟩ := id hr
  refine (K.assembled_eq c fs hc hz hfs hne hapart).mono ?_
  rintro t rfl
  obtain ⟨hrest, hn⟩ := coeffRest_assembled hfs.number hne hfs.flat c
  exact ⟨⟨settled_assembled hc hz (fun _ => hapart) hfs, hn, assembled_ne_plus hapart c, hrest ▸ hr⟩, hrest⟩

lemma terms_of_entries {entries : List (Expr × Number)} {ts : List Expr}
    (h : List.Forall₂ (fun p t => SettledTerm t ∧ t.coeffRest.2 = p.1) entries ts) :
    (∀ t ∈ ts, SettledTerm t) ∧ ts.map (·.coeffRest.2) = entries.map (·.1) := by
  induction h with
  | nil => exact ⟨nofun, rfl⟩
  | cons ht _ ih => exact ⟨List.forall_mem_cons.mpr ⟨ht.1, ih.1⟩, by rw [List.map_cons, List.map_cons, ht.2, ih.2]⟩

lemma settled_plus {ts last : List Expr} (htwo : 2 ≤ (ts ++ last).length) (hts : ∀ t ∈ ts, SettledTerm t)
    (hrests : (ts.map (·.coeffRest.2)).Nodup)
    (hlast : last = [] ∨ ∃ n : Number, last = [.num n] ∧ n.isZero = false ∧ n.InRange) :
    Settled (.plus (ts ++ last)) := by
  refine (everywhere_plus _).mpr ⟨⟨htwo, ?_, ⟨ts, last, rfl, fun t ht => (hts t ht).number, ?_⟩, ?_⟩, ?_⟩
  · refine List.forall_mem_append.mpr ⟨fun t ht => (hts t ht).flat, ?_⟩
    rcases hlast with rfl | ⟨n, rfl, -⟩
    · nofun
    · simp
  · rcases hlast with rfl | ⟨n, rfl, hn, -⟩
    · exact Or.inl rfl
    · exact Or.inr ⟨n, rfl, hn⟩
  · rcases hlast with rfl | ⟨n, rfl, -⟩
    · rwa [List.append_nil]
    · rw [List.map_append, List.nodup_append]
      refine ⟨hrests, List.nodup_singleton _, ?_⟩
      rintro e he x hx rfl
      obtain ⟨t, ht, rfl⟩ := List.mem_map.mp he
      have hnum := (hts t ht).rest.isNumber
      rw [List.mem_singleton.mp hx] at hnum
      cases hnum
  · refine List.forall_mem_append.mpr ⟨fun t ht => (hts t ht).settled, ?_⟩
    rcases hlast with rfl | ⟨n, rfl, -, hn⟩
    · nofun
    · rintro t ht
      obtain rfl := List.mem_singleton.mp ht
      exact hn

lemma settled_collapse {ts : List Expr} {n : Number} (hts : ∀ t ∈ ts, SettledTerm t)
    (hrests : (ts.map (·.coeffRest.2)).Nodup) (hn : n.InRange) :
    Settled (collapse 0 .plus (if !n.isZero || ts.isEmpty then ts ++ [.num n] else ts)) := by
  cases hz : n.isZero with
  | false =>
    rcases ts with _ | ⟨t, ts⟩
    · exact hn
    · have htwo : 2 ≤ ((t :: ts) ++ [Expr.num n]).length := by simp
      have hs := settled_plus htwo hts hrests (Or.inr ⟨n, rfl, hz, hn⟩)
      rcases ts with _ | ⟨u, ts⟩ <;> exact hs
  | true =>
    rcases ts with _ | ⟨t, _ | ⟨u, ts⟩⟩
    · exact hn
    · exact (hts t List.mem_cons_self).settled
    · have htwo : 2 ≤ ((t :: u :: ts) ++ []).length := by simp
      have hs := settled_plus htwo hts hrests (Or.inl rfl)
      rwa [List.append_nil] at hs

lemma sumStep_settled (K : KeepsSettled sum product pow text) {args : List Expr} (h : ∀ e ∈ args, Settled e) :
    Meets anyHalt (sumStep .refuse product text args) Settled := by
  have hterms : ∀ t ∈ args.flatMap terms, Settled t ∧ ∀ ts, t ≠ .plus ts := by
    intro t ht
    obtain ⟨e, he, ht⟩ := List.mem_flatMap.mp ht
    exact terms_settled (h e he) t ht
  refine (collected_settled hterms).bind ?_
  rintro s ⟨hn, hentries⟩
  have hbuilt : Meets anyHalt ((s.entries.filter fun p => !p.2.isZero).mapM fun p => product [.num p.2, p.1])
      (List.Forall₂ (fun p t => SettledTerm t ∧ t.coeffRest.2 = p.1) (s.entries.filter fun p => !p.2.isZero)) := by
    refine meets_mapM fun p hp => ?_
    obtain ⟨hp, hz⟩ := List.mem_filter.mp hp
    exact term_settled K (hentries.rest p hp) (hentries.number p hp) (by simpa using hz)
  refine hbuilt.bind fun ts hts => ?_
  obtain ⟨hsettled, hrests⟩ := terms_of_entries hts
  refine (meets_sortTerms_perm text ts).bind fun us hperm => ?_
  refine settled_collapse (fun t ht => hsettled t (hperm.mem_iff.mp ht)) ?_ hn
  rw [(hperm.map _).nodup_iff, hrests]
  exact hentries.nodup.sublist (List.filter_sublist.map _)

/-! ### Products -/

lemma Built.factors {e : Expr} (h : Built e) : ∀ f ∈ e.factors, Settled f ∧ ∀ gs, f ≠ .times gs := by
  rcases h with h | ⟨fs, rfl, hform, hall⟩
  · cases e with
    | times fs =>
      obtain ⟨⟨hform, -⟩, hall⟩ := (everywhere_times fs).mp h
      exact fun f hf => ⟨hall f hf, hform.flat f hf⟩
    | num | symbol | constant | plus | power | call => simpa [Expr.factors] using h
  · exact fun f hf => ⟨hall f hf, hform.flat f hf⟩

lemma baseExponent_settled {e : Expr} (h : Settled e) : Settled e.baseExponent.1 ∧ Settled e.baseExponent.2 := by
  have hone : Settled (int 1) := settled_int (by decide)
  cases e with
  | power b x => exact h.2
  | num | symbol | constant | plus | times | call => exact ⟨h, hone⟩

lemma mul_settled {a b : Number} (ha : a.InRange) (hb : b.InRange) :
    Meets anyHalt (Overflow.refuse.mul a b) Number.InRange :=
  (meets_inRange (by rw [ha.isExact, hb.isExact]; rfl) (Number.inRange_resultLaw.mul _ _)).mono fun _ h => h.2

lemma keepsFactors_settled : KeepsFactors .refuse Settled Built where
  mul _ _ ha hb := mul_settled ha hb
  one := settled_int (by decide)
  number _ hn := Or.inl hn
  base _ he := baseExponent_settled he
  arg _ ha := ha.2
  exp _ ha := Func.of_settled .exp ha
  factors _ he := he.factors

lemma SettledFactors.proper {fs : List Expr} (h : SettledFactors fs) : ProperFactors Settled fs :=
  ⟨h.settled, h.number, h.flat⟩

lemma distributed_settled (K : KeepsSettled sum product pow text) {c : Number} (hc : c.InRange) {ts : List Expr}
    (h : Settled (.plus ts)) : Meets anyHalt (do sum (← ts.mapM fun t => product [.num c, t])) Settled := by
  obtain ⟨-, hts⟩ := (everywhere_plus ts).mp h
  have hscaled := meets_mapM_forall fun t ht => K.scaled c t hc (hts t ht)
  exact hscaled.bind fun us hus => K.sum_settled us hus

lemma sortFactors_text (K : KeepsSettled sum product pow text) {fs gs : List Expr}
    (h : sortFactors text fs = .ok gs) : sortFactors (Expr.text .refuse) fs = .ok gs :=
  sortFactors_respects agreement K.text_eq fs gs h

lemma finishProduct_built (K : KeepsSettled sum product pow text) {c : Number} {fs : List Expr} (hc : c.InRange)
    (hfs : ProperFactors Settled fs) : Meets anyHalt (finishProduct sum product text (c, fs)) Built := by
  unfold finishProduct
  split
  · exact Or.inl hc
  · next hz =>
    split
    · next ts hts _ =>
      cases hts
      exact (distributed_settled K hc (hfs.all _ List.mem_cons_self)).mono fun r hr => Or.inl hr
    · next hapart =>
      cases hsort : sortFactors text fs with
      | error h => trivial
      | ok gs =>
        have hp : gs.Perm fs := (meets_sortFactors_perm text fs).value hsort
        have hgs := hfs.perm hp
        refine built_assembled hc (by simpa using hz) (fun hone ts hts => ?_) hgs.all hgs.number hgs.flat
          ⟨fs, sortFactors_text K hsort⟩
        subst hts
        exact hapart ts (List.perm_singleton.mp hp.symm) hone

lemma finishProduct_settled (K : KeepsSettled sum product pow text) {c : Number} {fs gs : List Expr} (hc : c.InRange)
    (hfs : SettledFactors fs) (hp : gs.Perm fs) : Meets anyHalt (finishProduct sum product text (c, gs)) fun r =>
      Settled r ∧ (c.isZero = false → (∀ ts, fs ≠ [.plus ts]) → r = assembled c fs) := by
  unfold finishProduct
  split
  · next hz => exact ⟨hc, fun h => absurd hz (by simp [h])⟩
  · next hz =>
    split
    · next ts hts _ =>
      cases hts
      obtain rfl := List.perm_singleton.mp hp.symm
      refine (distributed_settled K hc (hfs.settled _ List.mem_cons_self)).mono fun r hr => ⟨hr, fun _ h => ?_⟩
      exact absurd rfl (h ts)
    · next hapart =>
      cases hsort : sortFactors text gs with
      | error h => trivial
      | ok hs =>
        have heq := sortFactors_eq_of_perm hfs.sorted hp.symm hfs.merged.keys
        rw [sortFactors_text K hsort] at heq
        cases heq
        refine ⟨settled_assembled hc (by simpa using hz) (fun hone ts hts => ?_) hfs, fun _ _ => rfl⟩
        subst hts
        exact hapart ts (List.perm_singleton.mp hp) hone

lemma productStep_built (K : KeepsSettled sum product pow text) {args : List Expr} (h : ∀ e ∈ args, Built e) :
    Meets anyHalt (productStep .refuse sum product pow text args) Built :=
  productStep_all keepsFactors_settled K.sum_settled K.pow_built (fun _ _ => finishProduct_built K) h

/-! ### Products of factors that are settled together -/

def exponentialArg : Expr → Expr
  | .call _ a => a
  | e => e

/-- What is gathered from factors that have nothing to merge. -/
def gatheredOf (c : Number) (fs : List Expr) : Gathered where
  coeff := c
  bases := (fs.filter fun f => !f.isExponential).map baseExponent
  exponentials := (fs.filter isExponential).map exponentialArg

def scaleBy (c : Number) : Expr → Number
  | .num n => c.mul n
  | _ => c

lemma push_gatheredOf {o : Overflow} {c : Number} {fs : List Expr} {f : Expr} (hn : f.isNumber = false)
    (hnew : ∀ g ∈ fs, (g.baseExponent.1 == f.baseExponent.1) = false) :
    (gatheredOf c fs).push o sum f = .ok (gatheredOf c (fs ++ [f])) := by
  have hbases : ∀ p ∈ (gatheredOf c fs).bases, (p.1 == f.baseExponent.1) = false := by
    intro p hp
    obtain ⟨g, hg, rfl⟩ := List.mem_map.mp hp
    exact hnew g (List.mem_filter.mp hg).1
  have hbase (hf : f.isExponential = false) : (do
      return { gatheredOf c fs with
        bases := ← addExponent sum f.baseExponent.1 f.baseExponent.2 (gatheredOf c fs).bases } : Calc Gathered) =
      .ok (gatheredOf c (fs ++ [f])) := by
    rw [addExponent_append hbases]
    simp [gatheredOf, hf, List.filter_append, bind, Except.bind, pure, Except.pure]
  cases f with
  | num n => cases hn
  | symbol | constant | plus | times | power => exact hbase rfl
  | call f a =>
    by_cases hf : f = .exp
    · subst hf
      have hbases : [call .exp a].filter (fun f => !f.isExponential) = [] := rfl
      have hexp : [call .exp a].filter isExponential = [call .exp a] := rfl
      simp [Gathered.push, gatheredOf, List.filter_append, hbases, hexp, exponentialArg, pure, Except.pure]
    · cases f <;> first | exact hbase rfl | exact absurd rfl hf

lemma gathered_factors {es : List Expr} (hes : SettledFactors (nonNumbers es)) (hn : ∀ n, .num n ∈ es → n.InRange) :
    Meets anyHalt (es.foldlM (Gathered.push .refuse sum) ⟨.ofInt 1, [], []⟩) fun g =>
      g.coeff.InRange ∧ g.coeff = es.foldl scaleBy (.ofInt 1) ∧ g = gatheredOf g.coeff (nonNumbers es) := by
  refine (meets_foldlM (fun rest g => (∀ n, .num n ∈ rest → n.InRange) ∧ ∃ fs, nonNumbers es = fs ++ nonNumbers rest ∧
    g.coeff.InRange ∧ rest.foldl scaleBy g.coeff = es.foldl scaleBy (.ofInt 1) ∧ g = gatheredOf g.coeff fs)
    ?_ ?_).mono ?_
  · rintro e rest g ⟨hrest, fs, hsplit, hc, hcoeff, hg⟩
    have hpush (he : e.isNumber = false) : Meets anyHalt (g.push .refuse sum e) fun g =>
        (∀ n, .num n ∈ rest → n.InRange) ∧ ∃ fs, nonNumbers es = fs ++ nonNumbers rest ∧
          g.coeff.InRange ∧ rest.foldl scaleBy g.coeff = es.foldl scaleBy (.ofInt 1) ∧ g = gatheredOf g.coeff fs := by
      have hcons : nonNumbers (e :: rest) = e :: nonNumbers rest := by simp [nonNumbers, he]
      rw [hcons] at hsplit
      have hbases := hes.merged.bases
      rw [hsplit, List.map_append, List.nodup_append] at hbases
      rw [hg, push_gatheredOf he fun f hf => ?_]
      · refine ⟨fun n hm => hrest n (List.mem_cons_of_mem e hm), fs ++ [e], by simp [hsplit], hc, ?_, rfl⟩
        rw [← hcoeff, List.foldl_cons]
        cases e with
        | num n => cases he
        | symbol | constant | plus | times | power | call => rfl
      · rw [Bool.eq_false_iff, ne_eq, beq_iff_of_settled (baseExponent_settled (hes.settled f (by simp [hsplit, hf]))).1]
        exact hbases.2.2 _ (List.mem_map_of_mem hf) _ (List.mem_cons_self)
    cases e with
    | num n =>
      have hnr := hrest n List.mem_cons_self
      refine (meets_inRange (by rw [hc.isExact, hnr.isExact]; rfl) (Number.inRange_resultLaw.mul _ _)).bind fun m hm => ?_
      refine ⟨fun k hk => hrest k (List.mem_cons_of_mem _ hk), fs, hsplit, hm.2, ?_, ?_⟩
      · rw [← hcoeff, List.foldl_cons]
        exact congrArg (rest.foldl scaleBy) hm.1
      · rw [hg]
        rfl
    | symbol | constant | plus | times | power | call => exact hpush rfl
  · exact ⟨hn, [], rfl, Number.inRange_ofInt (by decide), rfl, rfl⟩
  · rintro g ⟨-, fs, hsplit, hc, hcoeff, hg⟩
    rw [show nonNumbers ([] : List Expr) = [] from rfl, List.append_nil] at hsplit
    exact ⟨hc, hcoeff, hsplit ▸ hg⟩

def rebuilt (fs : List Expr) : List Expr := fs.filter (fun f => !f.isExponential) ++ fs.filter isExponential

lemma rebuilt_perm (fs : List Expr) : (rebuilt fs).Perm fs := by
  have h := List.filter_append_perm (fun f => !isExponential f) fs
  simpa [rebuilt] using h

lemma putExponential_factor {o : Overflow} {s : Gathered} {a : Expr} (h : Func.exp.of a = .call .exp a) :
    s.putExponential o a = .ok { s with bases := s.bases ++ [(Expr.call .exp a).baseExponent] } := by
  simp only [Gathered.putExponential, h]
  rfl

lemma mergeExponentials_factors (o : Overflow) (sum : List Expr → Calc Expr) (c : Number) {fs : List Expr}
    (hnormal : ∀ a, .call .exp a ∈ fs → Func.exp.of a = .call .exp a) (hlen : (fs.filter isExponential).length ≤ 1) :
    ∃ exponentials, (gatheredOf c fs).mergeExponentials o sum =
      .ok ⟨c, (rebuilt fs).map baseExponent, exponentials⟩ := by
  simp only [gatheredOf, rebuilt]
  rcases hx : fs.filter isExponential with _ | ⟨f, _ | ⟨g, rest⟩⟩
  · exact ⟨[], by simp [Gathered.mergeExponentials, pure, Except.pure]⟩
  · obtain ⟨hf, hexp⟩ := List.mem_filter.mp (hx ▸ List.mem_cons_self : f ∈ fs.filter isExponential)
    obtain ⟨a, rfl⟩ : ∃ a, f = .call .exp a := by
      unfold isExponential at hexp
      split at hexp
      · exact ⟨_, rfl⟩
      · cases hexp
    refine ⟨[a], ?_⟩
    simp only [Gathered.mergeExponentials, List.map_cons, List.map_nil, List.map_append]
    exact putExponential_factor (hnormal a hf)
  · rw [hx] at hlen
    simp at hlen

lemma powers_factors (K : KeepsSettled sum product pow text) {fs : List Expr} (hs : ∀ f ∈ fs, Settled f) :
    Meets anyHalt ((fs.map baseExponent).mapM fun p => pow p.1 p.2) (· = fs) := by
  induction fs with
  | nil => rfl
  | cons f fs ih =>
    rw [List.forall_mem_cons] at hs
    rw [List.map_cons, List.mapM_cons]
    refine (K.pow_factor f hs.1).bind fun r hr => ?_
    refine (ih hs.2).bind fun rs hrs => ?_
    rw [hr, hrs]
    rfl

lemma flatMap_factors {fs : List Expr} (h : ∀ f ∈ fs, ∀ gs, f ≠ .times gs) : fs.flatMap factors = fs := by
  induction fs with
  | nil => rfl
  | cons f fs ih =>
    rw [List.forall_mem_cons] at h
    rw [List.flatMap_cons, ih h.2]
    cases f with
    | times gs => exact absurd rfl (h.1 gs)
    | num | symbol | constant | plus | power | call => rfl

lemma absorb_factors {o : Overflow} {fs : List Expr} (h : ∀ f ∈ fs, f.isNumber = false) (c : Number) (gs : List Expr) :
    fs.foldlM (absorb o) (c, gs) = .ok (c, gs ++ fs) := by
  induction fs generalizing gs with
  | nil => simp [pure, Except.pure]
  | cons f fs ih =>
    rw [List.forall_mem_cons] at h
    have hf : absorb o (c, gs) f = .ok (c, gs ++ [f]) := by
      cases f with
      | num n => cases h.1
      | symbol | constant | plus | times | power | call => rfl
    rw [List.foldlM_cons, hf]
    show fs.foldlM (absorb o) (c, gs ++ [f]) = _
    rw [ih h.2, List.append_assoc, List.singleton_append]

lemma productStep_factors (K : KeepsSettled sum product pow text) {args : List Expr}
    (hfs : SettledFactors (nonNumbers (args.flatMap factors))) (hn : ∀ n, .num n ∈ args.flatMap factors → n.InRange) :
    Meets anyHalt (productStep .refuse sum product pow text args) fun r => Settled r ∧
      ∃ c, c = (args.flatMap factors).foldl scaleBy (.ofInt 1) ∧ c.InRange ∧ (c.isZero = false →
        (∀ ts, nonNumbers (args.flatMap factors) ≠ [.plus ts]) →
          r = assembled c (nonNumbers (args.flatMap factors))) := by
  refine (gathered_factors hfs hn).bind fun g ⟨hc, hcoeff, hg⟩ => ?_
  split
  · next hz => exact ⟨hc, g.coeff, hcoeff, hc, fun h => absurd hz (by simp [h])⟩
  · generalize nonNumbers (args.flatMap factors) = fs at hfs hg
    obtain ⟨exponentials, hmerge⟩ := mergeExponentials_factors .refuse sum g.coeff
      (fun a ha => (hfs.settled _ ha).node) hfs.merged.exponentials
    rw [hg, hmerge]
    have hproper := hfs.proper.perm (rebuilt_perm fs)
    refine (powers_factors K hproper.all).bind fun built hbuilt => ?_
    rw [hbuilt, flatMap_factors hproper.flat, absorb_factors hproper.number]
    exact (finishProduct_settled K hc hfs (rebuilt_perm fs)).mono fun r hr => ⟨hr.1, g.coeff, hcoeff, hc, hr.2⟩

lemma one_mul_inRange {n : Number} (hn : n.InRange) (h : ((Number.ofInt 1).mul n).InRange) :
    (Number.ofInt 1).mul n = n := by
  obtain ⟨q, rfl, -⟩ := hn
  obtain ⟨r, hr, -⟩ := h
  rw [hr, Number.mul_exact hr]
  exact congrArg Number.exact (one_mul q)

lemma productStep_scaled (K : KeepsSettled sum product pow text) {n : Number} {e : Expr} (hn : n.InRange)
    (he : Settled e) : Meets anyHalt (productStep .refuse sum product pow text [.num n, e]) Settled ∧
      Meets anyHalt (productStep .refuse sum product pow text [e, .num n]) Settled := by
  have hnumbers : ∀ m, .num m ∈ e.factors → m.InRange := fun m hm => (Built.factors (Or.inl he) _ hm).1
  have hleft : [.num n, e].flatMap factors = .num n :: e.factors := by simp [factors]
  have hright : [e, .num n].flatMap factors = e.factors ++ [.num n] := by simp [factors]
  have hnil : nonNumbers [.num n] = [] := rfl
  constructor
  · refine (productStep_factors K ?_ fun m hm => ?_).mono fun r hr => hr.1
    · rw [hleft, nonNumbers_num]
      exact he.factors
    · rw [hleft, List.mem_cons] at hm
      rcases hm with hm | hm
      · cases hm
        exact hn
      · exact hnumbers m hm
  · refine (productStep_factors K ?_ fun m hm => ?_).mono fun r hr => hr.1
    · rw [hright, nonNumbers_append, hnil, List.append_nil]
      exact he.factors
    · rw [hright, List.mem_append, List.mem_singleton] at hm
      rcases hm with hm | hm
      · exact hnumbers m hm
      · cases hm
        exact hn

lemma foldl_scaleBy {fs : List Expr} (h : ∀ f ∈ fs, f.isNumber = false) (c : Number) : fs.foldl scaleBy c = c := by
  induction fs with
  | nil => rfl
  | cons f fs ih =>
    rw [List.forall_mem_cons] at h
    cases f with
    | num n => cases h.1
    | symbol | constant | plus | times | power | call => exact ih h.2

lemma productStep_assembled (K : KeepsSettled sum product pow text) {n : Number} {fs : List Expr} (hn : n.InRange)
    (hz : n.isZero = false) (hfs : SettledFactors fs) (hne : fs ≠ []) (hapart : ∀ ts, fs ≠ [.plus ts]) :
    Meets anyHalt (productStep .refuse sum product pow text [.num n, collapse 1 .times fs]) (· = assembled n fs) := by
  have hargs : [.num n, collapse 1 .times fs].flatMap factors = .num n :: fs := by
    rcases fs with _ | ⟨f, _ | ⟨g, fs⟩⟩
    · exact absurd rfl hne
    · have hf := flatMap_factors hfs.flat
      rw [List.flatMap_cons, List.flatMap_nil, List.append_nil] at hf
      simp only [collapse, List.flatMap_cons, List.flatMap_nil, List.append_nil, hf]
      rfl
    · simp [collapse, factors]
  have hnon : nonNumbers (.num n :: fs) = fs := by rw [nonNumbers_num, nonNumbers_eq hfs.number]
  refine (productStep_factors K ?_ fun m hm => ?_).mono fun r hr => ?_
  · rwa [hargs, hnon]
  · rw [hargs, List.mem_cons] at hm
    rcases hm with hm | hm
    · cases hm
      exact hn
    · cases hfs.number _ hm
  · obtain ⟨-, c, hc, hrange, hr⟩ := hr
    rw [hargs, List.foldl_cons, foldl_scaleBy hfs.number] at hc
    obtain rfl : c = n := by
      rw [hc] at hrange ⊢
      exact one_mul_inRange hn hrange
    rw [hargs, hnon] at hr
    exact hr hz hapart

/-! ### Every depth -/

lemma keepsSettled_at (n : Nat) :
    KeepsSettled (sumAt .refuse n) (productAt .refuse n) (powerAt .refuse n) (textAt .refuse n) := by
  have htext (n : Nat) (e : Expr) (t : String) (h : textAt .refuse n e = .ok t) : Expr.text .refuse e = .ok t := by
    rw [← h]
    exact (textAt_eq (by simp [h])).symm
  induction n with
  | zero =>
    exact ⟨fun _ _ => trivial, fun _ _ => trivial, fun _ _ _ _ => trivial, fun _ _ _ _ => trivial,
      fun _ _ _ _ _ _ _ => trivial, fun _ _ _ _ => trivial, fun _ _ => trivial, htext 0⟩
  | succ n K =>
    exact
      { sum_settled := fun args => sumStep_settled K
        product_built := fun args => productStep_built K
        scaled := fun n e hn he => (productStep_scaled K hn he).1
        scaled_right := fun n e hn he => (productStep_scaled K hn he).2
        assembled_eq := fun n fs => productStep_assembled K
        pow_built := fun b e => powerStep_settled K
        pow_factor := fun f hf => by
          rw [powerAt, powerStep_factor hf]
          rfl
        text_eq := htext (n + 1) }

lemma sum_settled {args : List Expr} (h : ∀ e ∈ args, Settled e) : Meets anyHalt (Expr.sum .refuse args) Settled :=
  (keepsSettled_at _).sum_settled args h

lemma product_built {args : List Expr} (h : ∀ e ∈ args, Built e) : Meets anyHalt (Expr.product .refuse args) Built :=
  (keepsSettled_at _).product_built args h

lemma neg_settled {e : Expr} (h : Settled e) : Meets anyHalt (neg .refuse e) Settled :=
  (keepsSettled_at _).scaled (.ofInt (-1)) e (Number.inRange_ofInt (by decide)) h

lemma sub_settled {a b : Expr} (ha : Settled a) (hb : Settled b) : Meets anyHalt (sub .refuse a b) Settled := by
  refine (neg_settled hb).bind fun n hn => ?_
  have hargs : ∀ e ∈ [a, n], Settled e := by simpa using ⟨ha, hn⟩
  exact sum_settled hargs

lemma pow_built {b e : Expr} (hb : Settled b) (he : Settled e) : Meets anyHalt (Expr.pow .refuse b e) Built :=
  (keepsSettled_at _).pow_built b e hb he

lemma div_built {a b : Expr} (ha : Settled a) (hb : Settled b) : Meets anyHalt (div .refuse a b) Built := by
  refine (pow_built hb (settled_int (by decide))).bind fun r hr => ?_
  have hargs : ∀ e ∈ [a, r], Built e := by simpa using ⟨Or.inl ha, hr⟩
  exact product_built hargs

end PlaneCalculus.Expr
