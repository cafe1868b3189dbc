import Mathlib.Data.List.Forall2
import Mathlib.Order.Antisymmetrization
import PlaneCalculus.Proofs.Expr.Agreement
import PlaneCalculus.Proofs.Expr.TermOrder

/-! Comparing the terms of a sum. The comparison always has a result and is a total preorder on expressions: any two are
in order one way or the other, and terms in both orders are tied. All ways of sorting terms by it give the same sum, up
to an exchange of tied terms. -/

namespace PlaneCalculus

open Calc

/-! ### What decides a comparison -/

/-- Of the symbols in which the degrees differ, `a` has the higher one in the first of the alphabet. -/
def Leads (a b : List (String × Int)) : Prop :=
  ∃ name, degreeOf name b < degreeOf name a ∧ ∀ other < name, degreeOf other a = degreeOf other b

/-- Monomials are before all other terms and among each other in the order of degrees; the text decides the rest. -/
def TermKey.Before (a b : TermKey) : Prop :=
  match a.degrees, b.degrees with
  | some da, some db => Leads da db ∨ (∀ name, degreeOf name da = degreeOf name db) ∧ a.text < b.text
  | some _, none => True
  | none, some _ => False
  | none, none => a.text < b.text

lemma compareDegreesOver_lt {a b : List (String × Int)} {names : List String} (h : names.Pairwise (· < ·)) :
    compareDegreesOver a b names = .lt ↔ ∃ name ∈ names, degreeOf name b < degreeOf name a ∧
      ∀ other ∈ names, other < name → degreeOf other a = degreeOf other b := by
  induction names with
  | nil => simp [compareDegreesOver]
  | cons n names ih =>
    rw [List.pairwise_cons] at h
    rw [compareDegreesOver, Ordering.then_eq_lt, compare_lt_iff_lt, compare_eq_iff_eq, ih h.2]
    constructor
    · rintro (hlt | ⟨heq, name, hname, hlt, hbefore⟩)
      · refine ⟨n, List.mem_cons_self, hlt, fun other hother hn => ?_⟩
        rcases List.mem_cons.mp hother with rfl | hother
        · exact absurd hn (lt_irrefl _)
        · exact absurd hn (h.1 other hother).not_gt
      · refine ⟨name, List.mem_cons_of_mem n hname, hlt, fun other hother hn => ?_⟩
        rcases List.mem_cons.mp hother with rfl | hother
        · exact heq.symm
        · exact hbefore other hother hn
    · rintro ⟨name, hname, hlt, hbefore⟩
      rcases List.mem_cons.mp hname with rfl | hname
      · exact Or.inl hlt
      · refine Or.inr ⟨(hbefore n List.mem_cons_self (h.1 name hname)).symm, name, hname, hlt, fun other hother => ?_⟩
        exact hbefore other (List.mem_cons_of_mem n hother)

/-- Symbols that neither monomial has do not count, whichever pair of monomials is compared. -/
lemma compareDegrees_lt {a b : List (String × Int)} : compareDegrees a b = .lt ↔ Leads a b := by
  have hout {name : String} (h : name ∉ alphabet (a.map (·.1) ++ b.map (·.1))) :
      degreeOf name a = 0 ∧ degreeOf name b = 0 := by
    rw [mem_alphabet, List.mem_append, not_or] at h
    exact ⟨degreeOf_eq_zero h.1, degreeOf_eq_zero h.2⟩
  refine (compareDegreesOver_lt (alphabet_sorted _)).trans ⟨?_, ?_⟩
  · rintro ⟨name, -, hlt, hbefore⟩
    refine ⟨name, hlt, fun other hother => ?_⟩
    by_cases h : other ∈ alphabet (a.map (·.1) ++ b.map (·.1))
    · exact hbefore other h hother
    · rw [(hout h).1, (hout h).2]
  · rintro ⟨name, hlt, hbefore⟩
    refine ⟨name, by_contra fun h => ?_, hlt, fun other _ => hbefore other⟩
    rw [(hout h).1, (hout h).2] at hlt
    exact lt_irrefl 0 hlt

lemma TermKey.compare_lt {a b : TermKey} : TermKey.compare a b = .lt ↔ a.Before b := by
  obtain ⟨a, s⟩ := a
  obtain ⟨b, t⟩ := b
  cases a with
  | none =>
    cases b with
    | none => exact compare_lt_iff_lt
    | some db => simp [TermKey.compare, Before]
  | some da =>
    cases b with
    | none => simp [TermKey.compare, Before]
    | some db =>
      show (compareDegrees da db).then (Ord.compare s t) = .lt ↔ _
      rw [Ordering.then_eq_lt, compareDegrees_lt, compareDegrees_eq, compare_lt_iff_lt]
      rfl

/-! ### Sorting by a preorder -/

/-- Two arrangements of a list in the same order agree up to elements in both orders. -/
lemma forall₂_antisymmRel {α : Type} [Preorder α] {l l' : List α} (hp : l.Perm l') (h : l.Pairwise (· ≤ ·))
    (h' : l'.Pairwise (· ≤ ·)) : List.Forall₂ (AntisymmRel (· ≤ ·)) l l' := by
  have hclasses : l.map (toAntisymmetrization (· ≤ ·)) = l'.map (toAntisymmetrization (· ≤ ·)) :=
    List.Perm.eq_of_pairwise (fun _ _ _ _ => le_antisymm) (List.pairwise_map.mpr h) (List.pairwise_map.mpr h')
      (hp.map _)
  rw [← List.forall₂_eq_eq_eq, List.forall₂_map_left_iff, List.forall₂_map_right_iff] at hclasses
  exact hclasses.imp fun _ _ heq => Quotient.exact heq

lemma Calc.bind_of_ok {α β : Type} {c : Calc α} {a : α} (h : c = .ok a) (f : α → Calc β) : c >>= f = f a := by
  rw [h]
  rfl

namespace Expr

variable {o : Overflow}

/-! ### The comparison -/

/-- The comparison by which terms are sorted. -/
def compareTerms (o : Overflow) (a b : Expr) : Calc Ordering := do
  return TermKey.compare (← termKey (text o) a) (← termKey (text o) b)

/-- The comparison puts `a` before `b` or has them tied. -/
def AtMost (a b : Expr) : Prop := ∃ r, compareTerms .approximate a b = .ok r ∧ r.isLE = true

def Tied (a b : Expr) : Prop := compareTerms .approximate a b = .ok .eq

lemma compareTerms_eq {a b : Expr} {x y : TermKey} (hx : termKey (text o) a = .ok x) (hy : termKey (text o) b = .ok y) :
    compareTerms o a b = .ok (TermKey.compare x y) := by
  rw [compareTerms, hx, hy]
  rfl

lemma exists_termKey (e : Expr) : ∃ x, termKey (text .approximate) e = .ok x := by
  obtain ⟨t, ht, -⟩ := (text_ends .approximate e.coeffRest.2).exists_value
  refine ⟨⟨e.coeffRest.2.degrees?, t⟩, ?_⟩
  rw [termKey, ht]
  rfl

lemma atMost_iff_inOrder {a b : Expr} : AtMost a b ↔ InOrder (text .approximate) a b := by
  constructor
  · rintro ⟨r, hr, hle⟩
    obtain ⟨x, hx⟩ := exists_termKey a
    obtain ⟨y, hy⟩ := exists_termKey b
    rw [compareTerms_eq hx hy] at hr
    cases hr
    exact ⟨x, y, hx, hy, hle⟩
  · rintro ⟨x, y, hx, hy, hle⟩
    exact ⟨_, compareTerms_eq hx hy, hle⟩

lemma compareTerms_swap (a b : Expr) :
    ∃ r, compareTerms .approximate a b = .ok r ∧ compareTerms .approximate b a = .ok r.swap := by
  obtain ⟨x, hx⟩ := exists_termKey a
  obtain ⟨y, hy⟩ := exists_termKey b
  have hswap : TermKey.compare y x = (TermKey.compare x y).swap := Std.OrientedCmp.eq_swap
  refine ⟨TermKey.compare x y, compareTerms_eq hx hy, ?_⟩
  rw [compareTerms_eq hy hx, hswap]

lemma compareTerms_self (a : Expr) : compareTerms .approximate a a = .ok .eq := by
  obtain ⟨x, hx⟩ := exists_termKey a
  have hself : TermKey.compare x x = .eq := Std.ReflCmp.compare_self
  rw [compareTerms_eq hx hx, hself]

lemma AtMost.trans {a b c : Expr} (hab : AtMost a b) (hbc : AtMost b c) : AtMost a c := by
  rw [atMost_iff_inOrder] at hab hbc ⊢
  obtain ⟨x, y, hx, hy, hxy⟩ := hab
  obtain ⟨y', z, hy', hz, hyz⟩ := hbc
  obtain rfl : y = y' := Except.ok.inj (hy.symm.trans hy')
  exact ⟨x, z, hx, hz, Std.TransCmp.isLE_trans hxy hyz⟩

/-- The order of terms. It is total; terms at most each other are tied. -/
@[reducible]
def termPreorder : Preorder Expr where
  le := AtMost
  le_refl a := ⟨.eq, compareTerms_self a, rfl⟩
  le_trans _ _ _ := AtMost.trans

lemma tied_of_atMost {a b : Expr} (h : AtMost a b) (h' : AtMost b a) : Tied a b := by
  obtain ⟨r, hr, hswap⟩ := compareTerms_swap a b
  obtain ⟨s, hs, hle⟩ := h
  obtain ⟨t, ht, hge⟩ := h'
  obtain rfl : r = s := Except.ok.inj (hr.symm.trans hs)
  obtain rfl : r.swap = t := Except.ok.inj (hswap.symm.trans ht)
  cases r with
  | eq => exact hr
  | lt => cases hge
  | gt => cases hle

/-! ### Sums -/

/-- Arranges every list of terms in their order. -/
def SortsTerms (sort : List Expr → Calc (List Expr)) : Prop :=
  ∀ es, ∃ us, sort es = .ok us ∧ us.Perm es ∧ us.Pairwise AtMost

/-- The sum with its collected terms arranged by the given sort. -/
def sumBy (o : Overflow) (product : List Expr → Calc Expr) (sort : List Expr → Calc (List Expr)) (args : List Expr) :
    Calc Expr := do
  let s ← (args.flatMap terms).foldlM (Collected.push o) ⟨.ofInt 0, []⟩
  let ts ← (s.entries.filter fun (_, c) => !c.isZero).mapM fun (rest, c) => product [.num c, rest]
  let ts ← sort ts
  return collapse 0 .plus (if !s.number.isZero || ts.isEmpty then ts ++ [.num s.number] else ts)

lemma sumStep_eq_sumBy (product : List Expr → Calc Expr) (text : Expr → Calc String) (args : List Expr) :
    sumStep o product text args = sumBy o product (sortTerms text) args := rfl

/-- The depths allotted to the calls inside do not show. -/
lemma sum_eq_sumBy (args : List Expr) :
    Expr.sum o args = sumBy o (Expr.product o) (sortTerms (Expr.text o)) args := by
  have hstep : Expr.sum o args = sumStep o (productAt o (4 * sumSize args + 3)) (textAt o (4 * sumSize args + 3)) args :=
    rfl
  have hends := (sum_ends o args).ne_exhausted
  rw [hstep] at hends ⊢
  rw [← sumStep_eq_sumBy]
  exact (sumStep_respects (extension o) (fun _ h => (productAt_eq h).symm) (fun _ h => (textAt_eq h).symm) args
    hends).symm

lemma sortTerms_sorts : SortsTerms (sortTerms (text .approximate)) := by
  intro es
  have hends : Meets (refusal .approximate) (sortTerms (text .approximate) es) (·.Perm es) :=
    meets_sortTerms fun e _ _ => text_ends .approximate e.coeffRest.2
  obtain ⟨us, hus, hp⟩ := hends.exists_value
  exact ⟨us, hus, hp, (sortTerms_sorted hus).imp atMost_iff_inOrder.mpr⟩

lemma SortsTerms.agree {sort sort' : List Expr → Calc (List Expr)} (h : SortsTerms sort) (h' : SortsTerms sort')
    (es : List Expr) : ∃ us us', sort es = .ok us ∧ sort' es = .ok us' ∧ us.Perm us' ∧ List.Forall₂ Tied us us' := by
  obtain ⟨us, hus, hp, hsorted⟩ := h es
  obtain ⟨us', hus', hp', hsorted'⟩ := h' es
  have hperm := hp.trans hp'.symm
  refine ⟨us, us', hus, hus', hperm, ?_⟩
  exact (@forall₂_antisymmRel _ termPreorder _ _ hperm hsorted hsorted').imp fun _ _ h => tied_of_atMost h.1 h.2

/-- The same terms in two arrangements that differ among tied terms only. -/
structure SameUpToTies (e e' : Expr) : Prop where
  perm : e.terms.Perm e'.terms
  tied : List.Forall₂ Tied e.terms e'.terms

lemma SameUpToTies.refl (e : Expr) : SameUpToTies e e :=
  ⟨.refl _, List.forall₂_same.mpr fun t _ => compareTerms_self t⟩

lemma sameUpToTies_collapse {us us' : List Expr} (hp : us.Perm us') (ht : List.Forall₂ Tied us us') :
    SameUpToTies (collapse 0 .plus us) (collapse 0 .plus us') := by
  rcases us with _ | ⟨a, _ | ⟨b, us⟩⟩
  · rw [List.nil_perm.mp hp]
    exact .refl _
  · rw [List.singleton_perm.mp hp]
    exact .refl _
  · rcases us' with _ | ⟨a', _ | ⟨b', us'⟩⟩
    · simpa using hp.length_eq
    · simpa using hp.length_eq
    · exact ⟨hp, ht⟩

lemma sum_agrees_sumBy {sort : List Expr → Calc (List Expr)} (h : SortsTerms sort) (args : List Expr) :
    ∃ e e', Expr.sum .approximate args = .ok e ∧
      sumBy .approximate (Expr.product .approximate) sort args = .ok e' ∧ SameUpToTies e e' := by
  obtain ⟨e, he, -⟩ := (sum_ends .approximate args).exists_value
  have hsum := he
  rw [sum_eq_sumBy] at hsum
  obtain ⟨s, hs, hsum⟩ := bind_ok hsum
  obtain ⟨ts, hts, hsum⟩ := bind_ok hsum
  obtain ⟨us, hus, hsum⟩ := bind_ok hsum
  cases hsum
  obtain ⟨us', vs, hus', hvs, hp, htied⟩ := sortTerms_sorts.agree h ts
  obtain rfl : us = us' := Except.ok.inj (hus.symm.trans hus')
  refine ⟨_, collapse 0 .plus (if !s.number.isZero || vs.isEmpty then vs ++ [.num s.number] else vs), he, ?_, ?_⟩
  · rw [sumBy, bind_of_ok hs, bind_of_ok hts, bind_of_ok hvs]
    rfl
  · rw [hp.isEmpty_eq]
    split
    · exact sameUpToTies_collapse (hp.append_right _)
        (List.rel_append htied (.cons (compareTerms_self _) .nil))
    · exact sameUpToTies_collapse hp htied

/-- The comparison of terms is a total preorder: it has a result for any two expressions, reversed for the reversed pair,
an expression is tied with itself, and being at most another is transitive. It puts monomials with the higher degree in
the first symbol of difference first, then monomials before other terms, then the lesser text first. Every list can be
sorted by it, and a sum comes out the same, up to the places of tied terms, by whichever algorithm its terms are
sorted. -/
theorem compareTerms_orders :
    (∀ a b, ∃ r, compareTerms .approximate a b = .ok r ∧ compareTerms .approximate b a = .ok r.swap) ∧
    (∀ a, compareTerms .approximate a a = .ok .eq) ∧
    (∀ a b c, AtMost a b → AtMost b c → AtMost a c) ∧
    (∀ a b, ∃ x y, termKey (text .approximate) a = .ok x ∧ termKey (text .approximate) b = .ok y ∧
      (compareTerms .approximate a b = .ok .lt ↔ x.Before y)) ∧
    (∀ args, Expr.sum .approximate args =
      sumBy .approximate (Expr.product .approximate) (sortTerms (text .approximate)) args) ∧
    SortsTerms (sortTerms (text .approximate)) ∧
    ∀ sort, SortsTerms sort → ∀ args, ∃ e e', Expr.sum .approximate args = .ok e ∧
      sumBy .approximate (Expr.product .approximate) sort args = .ok e' ∧ SameUpToTies e e' := by
  refine ⟨compareTerms_swap, compareTerms_self, fun _ _ _ => AtMost.trans, fun a b => ?_, sum_eq_sumBy, sortTerms_sorts,
    fun _ => sum_agrees_sumBy⟩
  obtain ⟨x, hx⟩ := exists_termKey a
  obtain ⟨y, hy⟩ := exists_termKey b
  refine ⟨x, y, hx, hy, ?_⟩
  rw [compareTerms_eq hx hy, Except.ok.injEq, TermKey.compare_lt]

/-- Each two of `3 * x ^ 2`, `x * z` and `y ^ 5` have other symbols. The sine of `x` and that of a sum with the only term
`x` are tied, and sorting a list from its end exchanges them. -/
theorem compareTerms_orders_exchanged :
    (AtMost (.times [int 3, .power (.symbol "x") (int 2)]) (.times [.symbol "x", .symbol "z"]) ∧
      AtMost (.times [.symbol "x", .symbol "z"]) (.power (.symbol "y") (int 5)) ∧
      AtMost (.times [int 3, .power (.symbol "x") (int 2)]) (.power (.symbol "y") (int 5))) ∧
    SortsTerms (fun es => sortTerms (text .approximate) es.reverse) ∧
    ∃ e e', e ≠ e' ∧ SameUpToTies e e' ∧
      Expr.sum .approximate [.call .sin (.symbol "x"), .symbol "y", .call .sin (.plus [.symbol "x"])] = .ok e ∧
      sumBy .approximate (Expr.product .approximate) (fun es => sortTerms (text .approximate) es.reverse)
        [.call .sin (.symbol "x"), .symbol "y", .call .sin (.plus [.symbol "x"])] = .ok e' := by
  obtain ⟨-, -, htrans, -, -, hsorts, hagree⟩ := compareTerms_orders
  have hsquare : AtMost (.times [int 3, .power (.symbol "x") (int 2)]) (.times [.symbol "x", .symbol "z"]) :=
    ⟨.lt, by cbv, rfl⟩
  have hproduct : AtMost (.times [.symbol "x", .symbol "z"]) (.power (.symbol "y") (int 5)) := ⟨.lt, by cbv, rfl⟩
  have hback : SortsTerms fun es => sortTerms (text .approximate) es.reverse := fun es => by
    obtain ⟨us, hus, hp, hsorted⟩ := hsorts es.reverse
    exact ⟨us, hus, hp.trans es.reverse_perm, hsorted⟩
  refine ⟨⟨hsquare, hproduct, htrans _ _ _ hsquare hproduct⟩, hback, ?_⟩
  obtain ⟨e, e', he, he', hties⟩ :=
    hagree _ hback [.call .sin (.symbol "x"), .symbol "y", .call .sin (.plus [.symbol "x"])]
  refine ⟨e, e', ?_, hties, he, he'⟩
  have hsum : Expr.sum .approximate [.call .sin (.symbol "x"), .symbol "y", .call .sin (.plus [.symbol "x"])] =
      .ok (.plus [.symbol "y", .call .sin (.symbol "x"), .call .sin (.plus [.symbol "x"])]) := by cbv
  have hback : sumBy .approximate (Expr.product .approximate) (fun es => sortTerms (text .approximate) es.reverse)
      [.call .sin (.symbol "x"), .symbol "y", .call .sin (.plus [.symbol "x"])] =
      .ok (.plus [.symbol "y", .call .sin (.plus [.symbol "x"]), .call .sin (.symbol "x")]) := by cbv
  obtain rfl := Except.ok.inj (he.symm.trans hsum)
  obtain rfl := Except.ok.inj (he'.symm.trans hback)
  simp

end Expr

end PlaneCalculus
