import PlaneCalculus.Proofs.Expr.NormalForm

/-! Collecting the terms of a sum. What is added up is a number and coefficients, so that a property of the rests is kept, and
the sum consists of what the scaled rests come to. -/

namespace PlaneCalculus.Expr

open Calc

variable {sum product : List Expr → Calc Expr} {text : Expr → Calc String} {Q R : Expr → Prop}

/-- The number and the coefficients are exact, and every rest has the property. -/
structure Collected.Exact (Q : Expr → Prop) (s : Collected) : Prop where
  number : s.number.isExact = true
  entries : ∀ p ∈ s.entries, (∃ q, p.2 = .exact q) ∧ Q p.1

/-- An exact number, or an exact multiple of something with the property. -/
def IsMultipleOf (Q : Expr → Prop) (e : Expr) : Prop :=
  IsExact e ∨ e.isNumber = false ∧ (∃ q, e.coeffRest.1 = .exact q) ∧ Q e.coeffRest.2

lemma addCoefficient_exact {rest : Expr} {c : Number} (hr : Q rest) (hc : ∃ q, c = .exact q)
    {entries : List (Expr × Number)} (h : ∀ p ∈ entries, (∃ q, p.2 = .exact q) ∧ Q p.1) :
    Meets anyHalt (addCoefficient .refuse rest c entries) fun out => ∀ p ∈ out, (∃ q, p.2 = .exact q) ∧ Q p.1 := by
  induction entries with
  | nil => simpa [addCoefficient] using ⟨hc, hr⟩
  | cons p entries ih =>
    obtain ⟨e, d⟩ := p
    rw [List.forall_mem_cons] at h
    unfold addCoefficient
    split
    · obtain ⟨⟨⟨p, rfl⟩, he⟩, hrest⟩ := h
      obtain ⟨q, rfl⟩ := hc
      exact (Overflow.meets_refuse_add p q).bind fun n hn => List.forall_mem_cons.mpr ⟨⟨⟨p + q, hn⟩, he⟩, hrest⟩
    · exact (ih h.2).bind fun out hout => List.forall_mem_cons.mpr ⟨h.1, hout⟩

lemma push_collected_exact {s : Collected} {e : Expr} (hs : s.Exact Q) (he : IsMultipleOf Q e) :
    Meets anyHalt (s.push .refuse e) (Collected.Exact Q) := by
  obtain ⟨q, rfl⟩ | ⟨hn, hc, hr⟩ := he
  · obtain ⟨p, hp⟩ := Number.exists_exact hs.number
    have hadd := Overflow.meets_refuse_add p q
    rw [← hp] at hadd
    exact hadd.bind fun m hm => ⟨by rw [hm]; rfl, hs.entries⟩
  · rw [push_collected_eq hn]
    exact (addCoefficient_exact hr hc hs.entries).bind fun out hout => ⟨hs.number, hout⟩

lemma collected_exact {es : List Expr} (h : ∀ e ∈ es, IsMultipleOf Q e) :
    Meets anyHalt (es.foldlM (Collected.push .refuse) ⟨.ofInt 0, []⟩) (Collected.Exact Q) := by
  refine (meets_foldlM (fun rest s => (∀ e ∈ rest, IsMultipleOf Q e) ∧ s.Exact Q) ?_ ⟨h, rfl, nofun⟩).mono fun s hs => hs.2
  rintro e rest s ⟨hrest, hs⟩
  rw [List.forall_mem_cons] at hrest
  exact (push_collected_exact hs hrest.1).mono fun t ht => ⟨hrest.2, ht⟩

/-- A sum is put together of scaled rests, a number last. -/
lemma sumStep_scaled {args : List Expr} (h : ∀ t ∈ args.flatMap terms, IsMultipleOf Q t)
    (hscaled : ∀ q ≠ 0, ∀ r, Q r → Meets anyHalt (product [.num (.exact q), r]) R) :
    Meets anyHalt (sumStep .refuse product text args) fun e => ∃ us n, (∀ u ∈ us, R u) ∧ n.isExact = true ∧
      e = collapse 0 .plus (if !n.isZero || us.isEmpty then us ++ [.num n] else us) := by
  refine (collected_exact h).bind fun s hs => ?_
  have hbuilt : Meets anyHalt ((s.entries.filter fun p => !p.2.isZero).mapM fun p => product [.num p.2, p.1])
      fun ts => ∀ t ∈ ts, R t := by
    refine meets_mapM_forall fun p hp => ?_
    obtain ⟨hmem, hz⟩ := List.mem_filter.mp hp
    obtain ⟨⟨q, hq⟩, hrest⟩ := hs.entries p hmem
    rw [hq] at hz ⊢
    exact hscaled q (by rintro rfl; cases hz) p.1 hrest
  refine hbuilt.bind fun ts hts => (meets_sortTerms_perm text ts).bind fun us hperm => ?_
  exact ⟨us, s.number, fun u hu => hts u (hperm.mem_iff.mp hu), hs.number, rfl⟩

/-- The operands of a sum are scaled rests and numbers. -/
lemma sumStep_multiples {args : List Expr} (h : ∀ t ∈ args.flatMap terms, IsMultipleOf Q t)
    (hscaled : ∀ q ≠ 0, ∀ r, Q r → Meets anyHalt (product [.num (.exact q), r]) R) :
    Meets anyHalt (sumStep .refuse product text args) fun e =>
      ∃ ts, (∀ t ∈ ts, IsExact t ∨ R t) ∧ e = collapse 0 .plus ts := by
  refine (sumStep_scaled h hscaled).mono ?_
  rintro e ⟨us, n, hus, hn, rfl⟩
  obtain ⟨q, rfl⟩ := Number.exists_exact hn
  have hall : ∀ u ∈ us, IsExact u ∨ R u := fun u hu => Or.inr (hus u hu)
  refine ⟨_, ?_, rfl⟩
  split
  · exact List.forall_mem_append.mpr ⟨hall, List.forall_mem_singleton.mpr (Or.inl ⟨q, rfl⟩)⟩
  · exact hall

end PlaneCalculus.Expr
