import PlaneCalculus.Expr.Canonical
import PlaneCalculus.Proofs.Expr.FactorOrder
import PlaneCalculus.Proofs.Expr.Nodes

/-! Canonical forms. A sum collects like terms and a product collects like bases, with the numbers in their place. What
the constructors rely on is a little more: a settled tree is built of numbers in range, and its products, powers and
calls are given back when they are built again. -/

namespace PlaneCalculus.Expr

open Calc

def nonNumbers (es : List Expr) : List Expr := es.filter fun e => !e.isNumber

def isExponential : Expr → Bool
  | .call .exp _ => true
  | _ => false

/-! ### Canonical trees -/

structure CanonicalSum (ts : List Expr) : Prop where
  two : 2 ≤ ts.length
  flat : ∀ t ∈ ts, ∀ us, t ≠ .plus us
  number : ∃ body last, ts = body ++ last ∧ (∀ t ∈ body, t.isNumber = false) ∧
    (last = [] ∨ ∃ n, last = [.num n] ∧ n.isZero = false)
  rests : (ts.map fun t => t.coeffRest.2).Nodup

/-- Factors that are no products, after at most one number other than zero and one. -/
structure ProductShape (fs : List Expr) : Prop where
  two : 2 ≤ fs.length
  flat : ∀ f ∈ fs, ∀ gs, f ≠ .times gs
  number : ∃ first body, fs = first ++ body ∧ (∀ f ∈ body, f.isNumber = false) ∧
    (first = [] ∨ ∃ n, first = [.num n] ∧ n.isZero = false ∧ n.isOne = false)

structure CanonicalProduct (fs : List Expr) : Prop extends ProductShape fs where
  bases : ((nonNumbers fs).map fun f => f.baseExponent.1).Nodup

def CanonicalNode : Expr → Prop
  | .plus ts => CanonicalSum ts
  | .times fs => CanonicalProduct fs
  | .power _ e => e.isZero = false ∧ e.isInt 1 = false
  | _ => True

def Canonical (e : Expr) : Prop := Everywhere CanonicalNode e

/-- No two factors have the same base; a tree that is no product is its own only factor. -/
def DistinctBases (e : Expr) : Prop := ((nonNumbers e.factors).map fun f => f.baseExponent.1).Nodup

/-! ### Merged products -/

/-- No two factors have bases that are written alike, and at most one is an exponential. -/
structure MergedFactors (fs : List Expr) : Prop where
  keys : (fs.map (orderKey (text .refuse))).Nodup
  exponentials : (fs.filter isExponential).length ≤ 1

def Merged : Expr → Prop
  | .times fs => MergedFactors (nonNumbers fs)
  | _ => True

/-! ### Settled trees -/

/-- A product as the constructor makes it, except that its factors may have bases alike. -/
structure BuiltProduct (fs : List Expr) : Prop extends ProductShape fs where
  apart : ∀ n ts, fs ≠ [.num n, .plus ts]
  sorted : ∃ gs, sortFactors (text .refuse) gs = .ok (nonNumbers fs)

def SettledNode : Expr → Prop
  | .num n => n.InRange
  | .plus ts => CanonicalSum ts
  | .times fs => BuiltProduct fs ∧ MergedFactors (nonNumbers fs)
  | .power b e => e.isZero = false ∧ e.isInt 1 = false ∧
      ∀ product pow, powerStep .refuse product pow b e = .ok (.power b e)
  | .call f a => f.of a = .call f a
  | _ => True

def Settled (e : Expr) : Prop := Everywhere SettledNode e

/-- A settled tree, or a product of settled factors that have yet to be merged. -/
def Built (e : Expr) : Prop := Settled e ∨ ∃ fs, e = .times fs ∧ BuiltProduct fs ∧ ∀ f ∈ fs, Settled f

lemma Built.settled {e : Expr} (h : Built e) (hm : Merged e) : Settled e := by
  rcases h with h | ⟨fs, rfl, hfs, hall⟩
  · exact h
  · exact (everywhere_times fs).mpr ⟨⟨hfs, hm⟩, hall⟩

lemma Settled.merged {e : Expr} (h : Settled e) : Everywhere Merged e :=
  Everywhere.mono (fun e he => by cases e <;> first | trivial | exact he.2) e h

lemma Settled.inRange {e : Expr} (h : Settled e) : Everywhere InRangeNode e :=
  Everywhere.mono (fun e he => by cases e <;> trivial) e h

lemma beq_iff_of_settled {a b : Expr} (h : Settled a) : (a == b) = true ↔ a = b := same_iff a b h.inRange

lemma settled_int {k : Int} (h : k ≠ -Number.bound) : Settled (int k) := Number.inRange_ofInt h

/-! ### Factors -/

lemma nonNumbers_eq {es : List Expr} (h : ∀ e ∈ es, e.isNumber = false) : nonNumbers es = es :=
  List.filter_eq_self.mpr fun e he => by simp [h e he]

lemma mem_nonNumbers {e : Expr} {es : List Expr} : e ∈ nonNumbers es ↔ e ∈ es ∧ e.isNumber = false := by
  simp [nonNumbers]

lemma nonNumbers_append (as bs : List Expr) : nonNumbers (as ++ bs) = nonNumbers as ++ nonNumbers bs :=
  List.filter_append as bs

lemma nonNumbers_num (n : Number) (es : List Expr) : nonNumbers (.num n :: es) = nonNumbers es := rfl

lemma productShape_plain {fs : List Expr} (htwo : 2 ≤ fs.length) (hn : ∀ f ∈ fs, f.isNumber = false)
    (hflat : ∀ f ∈ fs, ∀ gs, f ≠ .times gs) : ProductShape fs :=
  ⟨htwo, hflat, [], fs, rfl, hn, Or.inl rfl⟩

lemma productShape_scaled {c : Number} {fs : List Expr} (hz : c.isZero = false) (hone : c.isOne = false) (hne : fs ≠ [])
    (hn : ∀ f ∈ fs, f.isNumber = false) (hflat : ∀ f ∈ fs, ∀ gs, f ≠ .times gs) : ProductShape (.num c :: fs) where
  two := Nat.succ_le_succ (List.length_pos_iff.mpr hne)
  flat := List.forall_mem_cons.mpr ⟨nofun, hflat⟩
  number := ⟨[.num c], fs, rfl, hn, Or.inr ⟨c, rfl, hz, hone⟩⟩

lemma ProductShape.cases {fs : List Expr} (h : ProductShape fs) : fs = nonNumbers fs ∨
    ∃ n, fs = .num n :: nonNumbers fs ∧ n.isZero = false ∧ n.isOne = false := by
  obtain ⟨first, body, rfl, hbody, rfl | ⟨n, rfl, hn⟩⟩ := h.number
  · left
    exact (nonNumbers_eq hbody).symm
  · right
    refine ⟨n, ?_, hn⟩
    rw [List.singleton_append, nonNumbers_num, nonNumbers_eq hbody]

lemma orderKey_eq {text : Expr → Calc String} {f : Expr} (h : f.isNumber = false) :
    orderKey text f = (max 1 f.baseExponent.1.rank, text f.baseExponent.1) := by
  cases f with
  | num n => cases h
  | power b e => rfl
  | symbol | constant | plus | times | call => rfl

lemma MergedFactors.bases {fs : List Expr} (h : MergedFactors (nonNumbers fs)) :
    ((nonNumbers fs).map fun f => f.baseExponent.1).Nodup := by
  have hkeys := h.keys
  rw [List.map_congr_left fun f hf => orderKey_eq (mem_nonNumbers.mp hf).2] at hkeys
  refine List.Nodup.of_map (fun b => (max 1 b.rank, text .refuse b)) ?_
  rwa [List.map_map]

lemma SettledNode.canonical {e : Expr} (h : SettledNode e) : CanonicalNode e := by
  cases e with
  | plus ts => exact h
  | times fs => exact ⟨h.1.toProductShape, h.2.bases⟩
  | power b e => exact ⟨h.1, h.2.1⟩
  | num | symbol | constant | call => trivial

lemma Settled.canonical {e : Expr} (h : Settled e) : Canonical e := Everywhere.mono (fun _ => SettledNode.canonical) e h

lemma Built.canonical_iff {e : Expr} (h : Built e) : Canonical e ↔ DistinctBases e := by
  constructor
  · intro hc
    cases e with
    | times fs => exact hc.node.bases
    | num n => exact List.nodup_nil
    | symbol | constant | plus | power | call => exact List.nodup_singleton _
  · intro hd
    rcases h with h | ⟨fs, rfl, hform, hall⟩
    · exact h.canonical
    · exact (everywhere_times fs).mpr ⟨⟨hform.toProductShape, hd⟩, fun f hf => (hall f hf).canonical⟩

/-- The factors of a settled product, without the coefficient. -/
structure SettledFactors (fs : List Expr) : Prop where
  settled : ∀ f ∈ fs, Settled f
  number : ∀ f ∈ fs, f.isNumber = false
  flat : ∀ f ∈ fs, ∀ gs, f ≠ .times gs
  merged : MergedFactors fs
  sorted : sortFactors (text .refuse) fs = .ok fs

lemma sortFactors_singleton (text : Expr → Calc String) (f : Expr) : sortFactors text [f] = .ok [f] := by
  simp [sortFactors, sortByKey, pure, Except.pure, bind, Except.bind]

lemma sortFactors_nil (text : Expr → Calc String) : sortFactors text [] = .ok [] := by
  simp [sortFactors, sortByKey, pure, Except.pure, bind, Except.bind]

lemma settledFactors_nil : SettledFactors [] :=
  ⟨nofun, nofun, nofun, ⟨List.nodup_nil, Nat.zero_le 1⟩, sortFactors_nil _⟩

lemma settledFactors_singleton {e : Expr} (h : Settled e) (hn : e.isNumber = false) (ht : ∀ gs, e ≠ .times gs) :
    SettledFactors [e] where
  settled := by simpa using h
  number := by simpa using hn
  flat := by simpa using ht
  merged := ⟨List.nodup_singleton _, List.length_filter_le _ _⟩
  sorted := sortFactors_singleton _ e

lemma sortFactors_again {gs fs : List Expr} (h : sortFactors (text .refuse) gs = .ok fs) (hm : MergedFactors fs) :
    sortFactors (text .refuse) fs = .ok fs := by
  have hp : fs.Perm gs := (meets_sortFactors_perm _ gs).value h
  exact sortFactors_eq_of_perm h hp.symm ((hp.map _).nodup_iff.mp hm.keys)

lemma Settled.factors {e : Expr} (h : Settled e) : SettledFactors (nonNumbers e.factors) := by
  have hsingle (hn : e.isNumber = false) (ht : ∀ gs, e ≠ .times gs) : SettledFactors (nonNumbers [e]) := by
    rw [nonNumbers_eq (by simpa using hn)]
    exact settledFactors_singleton h hn ht
  cases e with
  | num n => exact settledFactors_nil
  | times fs =>
    obtain ⟨⟨hform, hmerged⟩, hall⟩ := (everywhere_times fs).mp h
    obtain ⟨gs, hgs⟩ := hform.sorted
    exact ⟨fun f hf => hall f (mem_nonNumbers.mp hf).1, fun f hf => (mem_nonNumbers.mp hf).2,
      fun f hf => hform.flat f (mem_nonNumbers.mp hf).1, hmerged, sortFactors_again hgs hmerged⟩
  | symbol | constant | plus | power | call => exact hsingle rfl nofun

/-! ### Putting a product together -/

def assembled (c : Number) (fs : List Expr) : Expr := collapse 1 .times (if c.isOne then fs else .num c :: fs)

lemma factors_assembled {fs : List Expr} (hn : ∀ f ∈ fs, f.isNumber = false) (hflat : ∀ f ∈ fs, ∀ gs, f ≠ .times gs)
    (c : Number) : nonNumbers (assembled c fs).factors = fs := by
  unfold assembled
  split
  · rcases fs with _ | ⟨f, _ | ⟨g, fs⟩⟩
    · rfl
    · have hf : f.factors = [f] := by
        cases f with
        | times gs => exact absurd rfl (hflat _ List.mem_cons_self gs)
        | num | symbol | constant | plus | power | call => rfl
      show nonNumbers f.factors = [f]
      rw [hf, nonNumbers_eq hn]
    · exact nonNumbers_eq hn
  · cases fs with
    | nil => rfl
    | cons f fs => exact nonNumbers_eq hn

lemma merged_of_factors {e : Expr} (h : MergedFactors (nonNumbers e.factors)) : Merged e := by
  cases e with
  | times fs => exact h
  | num | symbol | constant | plus | power | call => trivial

section Assembled

variable {c : Number} {fs : List Expr} (hc : c.InRange) (hz : c.isZero = false)
  (hapart : c.isOne = false → ∀ ts, fs ≠ [.plus ts])
include hc hz hapart

lemma built_assembled (hs : ∀ f ∈ fs, Settled f) (hn : ∀ f ∈ fs, f.isNumber = false)
    (hflat : ∀ f ∈ fs, ∀ gs, f ≠ .times gs) (hsorted : ∃ gs, sortFactors (text .refuse) gs = .ok fs) :
    Built (assembled c fs) := by
  unfold assembled
  cases hone : c.isOne with
  | true =>
    rcases fs with _ | ⟨f, _ | ⟨g, fs⟩⟩
    · exact Or.inl (settled_int (by decide))
    · exact Or.inl (hs f List.mem_cons_self)
    · refine Or.inr ⟨f :: g :: fs, rfl, ⟨productShape_plain (by simp) hn hflat, ?_, ?_⟩, hs⟩
      · rintro n ts heq
        cases heq
        cases hn _ List.mem_cons_self
      · rwa [nonNumbers_eq hn]
  | false =>
    cases fs with
    | nil => exact Or.inl hc
    | cons f fs =>
      refine Or.inr ⟨_, rfl, ⟨productShape_scaled hz hone nofun hn hflat, ?_, ?_⟩, List.forall_mem_cons.mpr ⟨hc, hs⟩⟩
      · rintro n ts heq
        cases heq
        exact hapart hone ts rfl
      · rwa [nonNumbers_num, nonNumbers_eq hn]

lemma settled_assembled (h : SettledFactors fs) : Settled (assembled c fs) := by
  refine (built_assembled hc hz hapart h.settled h.number h.flat ⟨fs, h.sorted⟩).settled (merged_of_factors ?_)
  rw [factors_assembled h.number h.flat]
  exact h.merged

end Assembled

lemma coeffRest_assembled {fs : List Expr} (hn : ∀ f ∈ fs, f.isNumber = false) (hne : fs ≠ [])
    (hflat : ∀ f ∈ fs, ∀ gs, f ≠ .times gs) (c : Number) :
    (assembled c fs).coeffRest.2 = collapse 1 .times fs ∧ (assembled c fs).isNumber = false := by
  unfold assembled
  split
  · rcases fs with _ | ⟨f, _ | ⟨g, fs⟩⟩
    · exact absurd rfl hne
    · have hf := hn f List.mem_cons_self
      cases f with
      | num n => cases hf
      | times gs => exact absurd rfl (hflat _ List.mem_cons_self gs)
      | symbol | constant | plus | power | call => exact ⟨rfl, rfl⟩
    · have hf := hn f List.mem_cons_self
      cases f with
      | num n => cases hf
      | symbol | constant | plus | times | power | call => exact ⟨rfl, rfl⟩
  · rcases fs with _ | ⟨f, _ | ⟨g, fs⟩⟩
    · exact absurd rfl hne
    · exact ⟨rfl, rfl⟩
    · exact ⟨rfl, rfl⟩

lemma assembled_ne_plus {fs : List Expr} (h : ∀ us, fs ≠ [.plus us]) (c : Number) (ts : List Expr) :
    assembled c fs ≠ .plus ts := by
  unfold assembled
  split
  · rcases fs with _ | ⟨f, _ | ⟨g, fs⟩⟩
    · nofun
    · rintro rfl
      exact h ts rfl
    · nofun
  · cases fs <;> nofun

lemma Settled.eq_assembled {e : Expr} (h : Settled e) (hn : e.isNumber = false) :
    e = assembled e.coeffRest.1 (nonNumbers e.factors) ∧ e.coeffRest.1.InRange ∧ e.coeffRest.1.isZero = false ∧
      nonNumbers e.factors ≠ [] := by
  have hone : (Number.ofInt 1).InRange := Number.inRange_ofInt (by decide)
  cases e with
  | num n => cases hn
  | times fs =>
    obtain ⟨⟨hform, -⟩, hall⟩ := (everywhere_times fs).mp h
    have htwo := hform.two
    show Expr.times fs = assembled (Expr.times fs).coeffRest.1 (nonNumbers fs) ∧ _ ∧ _ ∧ nonNumbers fs ≠ []
    rcases hform.cases with hfs | ⟨n, hfs, hz, hnone⟩
    · rw [← hfs]
      rcases fs with _ | ⟨f, _ | ⟨g, fs⟩⟩
      · cases htwo
      · simp at htwo
      · have hf := (mem_nonNumbers.mp (hfs ▸ List.mem_cons_self : f ∈ nonNumbers (f :: g :: fs))).2
        cases f with
        | num n => cases hf
        | symbol | constant | plus | times | power | call => exact ⟨rfl, hone, rfl, nofun⟩
    · generalize nonNumbers fs = gs at hfs
      subst hfs
      have hr : n.InRange := hall (.num n) List.mem_cons_self
      rcases gs with _ | ⟨f, _ | ⟨g, gs⟩⟩
      · simp at htwo
      · exact ⟨by simp [assembled, coeffRest, hnone, collapse], hr, hz, nofun⟩
      · exact ⟨by simp [assembled, coeffRest, hnone, collapse], hr, hz, nofun⟩
  | symbol | constant | plus | power | call => exact ⟨rfl, hone, rfl, nofun⟩

end PlaneCalculus.Expr
