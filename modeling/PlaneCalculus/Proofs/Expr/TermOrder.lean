import Mathlib.Data.List.Sort
import Mathlib.Data.String.Basic
import PlaneCalculus.Proofs.Expr.FactorOrder

/-! The order of the terms of a sum. Monomials are compared by the degree of the first symbol, in alphabetical order, in
which they differ; which symbols are looked at besides does not matter. Sorting therefore brings terms with different
keys into the one order there is for them. -/

namespace PlaneCalculus

open Calc

/-! ### Degrees -/

lemma degreeOf_eq_zero {name : String} {ds : List (String × Int)} (h : name ∉ ds.map (·.1)) :
    degreeOf name ds = 0 := by
  induction ds with
  | nil => rfl
  | cons d ds ih =>
    rw [List.map_cons, List.mem_cons, not_or] at h
    have hne : (d.1 == name) = false := by simpa using Ne.symm h.1
    rw [degreeOf, hne, ih h.2]
    rfl

/-- The names in alphabetical order, each once. -/
def alphabet (names : List String) : List String := (names.mergeSort (· ≤ ·)).eraseDups

lemma mem_alphabet {name : String} {names : List String} : name ∈ alphabet names ↔ name ∈ names := by
  simp [alphabet]

lemma eraseDups_sorted {names : List String} (h : names.Pairwise (· ≤ ·)) : names.eraseDups.Pairwise (· < ·) := by
  induction hn : names.length using Nat.strong_induction_on generalizing names with
  | h n ih =>
    cases names with
    | nil => exact List.Pairwise.nil
    | cons a names =>
      rw [List.pairwise_cons] at h
      rw [List.eraseDups_cons, List.pairwise_cons]
      constructor
      · intro b hb
        rw [List.mem_eraseDups, List.mem_filter] at hb
        exact lt_of_le_of_ne (h.1 b hb.1) (Ne.symm (by simpa using hb.2))
      · have hlen := List.length_filter_le (fun b => !b == a) names
        exact ih _ (by rw [← hn, List.length_cons]; omega) (h.2.sublist List.filter_sublist) rfl

lemma alphabet_sorted (names : List String) : (alphabet names).Pairwise (· < ·) := by
  refine eraseDups_sorted ?_
  have h : (names.mergeSort (· ≤ ·)).Pairwise fun a b => decide (a ≤ b) = true :=
    List.pairwise_mergeSort
      (fun a b c hab hbc => by simpa using le_trans (of_decide_eq_true hab) (of_decide_eq_true hbc))
      (fun a b => by simpa using le_total a b) names
  simpa using h

lemma compareDegreesOver_filter {a b : List (String × Int)} {p : String → Bool} {names : List String}
    (h : ∀ name ∈ names, p name = false → degreeOf name a = degreeOf name b) :
    compareDegreesOver a b (names.filter p) = compareDegreesOver a b names := by
  induction names with
  | nil => rfl
  | cons name names ih =>
    rw [List.forall_mem_cons] at h
    rw [List.filter_cons]
    split
    · rw [compareDegreesOver, compareDegreesOver, ih h.2]
    · next hp =>
      rw [ih h.2, compareDegreesOver, h.1 (by simpa using hp), compare_eq_iff_eq.mpr rfl]
      rfl

/-- More names may be looked at. -/
lemma compareDegrees_eq_over {a b : List (String × Int)} {names : List String}
    (h : ∀ name ∈ a.map (·.1) ++ b.map (·.1), name ∈ names) :
    compareDegrees a b = compareDegreesOver a b (alphabet names) := by
  have hfilter : alphabet (a.map (·.1) ++ b.map (·.1)) =
      (alphabet names).filter (a.map (·.1) ++ b.map (·.1)).contains := by
    refine List.Pairwise.eq_of_mem_iff (alphabet_sorted _) ((alphabet_sorted names).sublist List.filter_sublist) ?_
    intro name
    rw [List.mem_filter, mem_alphabet, mem_alphabet, List.contains_iff_mem]
    exact ⟨fun hn => ⟨h name hn, hn⟩, fun hn => hn.2⟩
  rw [show compareDegrees a b = compareDegreesOver a b (alphabet (a.map (·.1) ++ b.map (·.1))) from rfl, hfilter]
  refine compareDegreesOver_filter fun name _ hn => ?_
  have hout : name ∉ a.map (·.1) ++ b.map (·.1) := by
    rw [← List.contains_iff_mem, hn]
    exact Bool.false_ne_true
  rw [List.mem_append, not_or] at hout
  rw [degreeOf_eq_zero hout.1, degreeOf_eq_zero hout.2]

lemma compareDegreesOver_transCmp (names : List String) : Std.TransCmp (compareDegreesOver · · names) := by
  induction names with
  | nil => exact { eq_swap := rfl, isLE_trans := fun _ _ => rfl }
  | cons name names ih =>
    have hname : Std.TransCmp fun a b : List (String × Int) => compare (degreeOf name b) (degreeOf name a) :=
      @Std.TransCmp.opposite _ (compareOn (degreeOf name)) _
    exact inferInstanceAs (Std.TransCmp (compareLex (fun a b => compare (degreeOf name b) (degreeOf name a))
      (compareDegreesOver · · names)))

lemma compareDegrees_among (ds : List (List (String × Int))) : ∃ names, ∀ a ∈ ds, ∀ b ∈ ds,
    compareDegrees a b = compareDegreesOver a b names := by
  refine ⟨alphabet (ds.flatMap fun d => d.map (·.1)), fun a ha b hb => compareDegrees_eq_over fun name hn => ?_⟩
  rw [List.mem_flatMap]
  rcases List.mem_append.mp hn with hn | hn
  · exact ⟨a, ha, hn⟩
  · exact ⟨b, hb, hn⟩

instance : Std.TransCmp compareDegrees where
  eq_swap {a b} := by
    obtain ⟨names, h⟩ := compareDegrees_among [a, b]
    rw [h a (by simp) b (by simp), h b (by simp) a (by simp)]
    exact (compareDegreesOver_transCmp names).eq_swap
  isLE_trans {a b c} := by
    obtain ⟨names, h⟩ := compareDegrees_among [a, b, c]
    rw [h a (by simp) b (by simp), h b (by simp) c (by simp), h a (by simp) c (by simp)]
    exact (compareDegreesOver_transCmp names).isLE_trans

lemma compareDegreesOver_eq {a b : List (String × Int)} {names : List String} :
    compareDegreesOver a b names = .eq ↔ ∀ name ∈ names, degreeOf name a = degreeOf name b := by
  induction names with
  | nil => simp [compareDegreesOver]
  | cons name names ih =>
    rw [compareDegreesOver, Ordering.then_eq_eq, ih, List.forall_mem_cons, Std.LawfulEqCmp.compare_eq_iff_eq, eq_comm]

lemma compareDegrees_eq {a b : List (String × Int)} :
    compareDegrees a b = .eq ↔ ∀ name, degreeOf name a = degreeOf name b := by
  refine compareDegreesOver_eq.trans ⟨fun h name => ?_, fun h name _ => h name⟩
  by_cases hn : name ∈ a.map (·.1) ++ b.map (·.1)
  · exact h name (mem_alphabet.mpr hn)
  · rw [List.mem_append, not_or] at hn
    rw [degreeOf_eq_zero hn.1, degreeOf_eq_zero hn.2]

/-! ### Keys -/

/-- Monomials come before everything else. -/
def compareGroups : Option (List (String × Int)) → Option (List (String × Int)) → Ordering
  | some a, some b => compareDegrees a b
  | some _, none => .lt
  | none, some _ => .gt
  | none, none => .eq

instance : Std.TransCmp compareGroups where
  eq_swap {a b} := by
    cases a <;> cases b <;> first | rfl | exact @Std.OrientedCmp.eq_swap _ compareDegrees _ _ _
  isLE_trans {a b c} := by
    cases a <;> cases b <;> cases c <;>
      first | exact @Std.TransCmp.isLE_trans _ compareDegrees _ _ _ _ | simp [compareGroups]

lemma TermKey.compare_eq (a b : TermKey) :
    TermKey.compare a b = (compareGroups a.degrees b.degrees).then (Ord.compare a.text b.text) := by
  obtain ⟨a, s⟩ := a
  obtain ⟨b, t⟩ := b
  cases a <;> cases b <;> rfl

instance : Std.TransCmp TermKey.compare := by
  have hgroups : Std.TransCmp fun a b : TermKey => compareGroups a.degrees b.degrees :=
    { eq_swap := Std.OrientedCmp.eq_swap, isLE_trans := Std.TransCmp.isLE_trans }
  have hkeys : TermKey.compare =
      compareLex (fun a b => compareGroups a.degrees b.degrees) (compareOn TermKey.text) :=
    funext fun a => funext fun b => TermKey.compare_eq a b
  rw [hkeys]
  infer_instance

lemma TermKey.text_eq_of_compare {a b : TermKey} (h : TermKey.compare a b = .eq) : a.text = b.text := by
  rw [TermKey.compare_eq, Ordering.then_eq_eq] at h
  exact Std.LawfulEqCmp.eq_of_compare h.2

namespace Expr

variable {text : Expr → Calc String}

/-- The terms are in the order of their keys. -/
def InOrder (text : Expr → Calc String) (a b : Expr) : Prop :=
  ∃ x y, termKey text a = .ok x ∧ termKey text b = .ok y ∧ (TermKey.compare x y).isLE = true

lemma sortTerms_sorted {es us : List Expr} (h : sortTerms text es = .ok us) : us.Pairwise (InOrder text) := by
  rcases es with _ | ⟨a, _ | ⟨b, es⟩⟩
  · cases h
    exact List.Pairwise.nil
  · cases h
    exact List.pairwise_singleton _ _
  · obtain ⟨entries, hentries, h⟩ := bind_ok h
    cases h
    have hkey : ∀ p ∈ entries, termKey text p.2 = .ok p.1 := by
      intro p hp
      obtain ⟨e, -, he⟩ := mem_of_mapM hentries hp
      obtain ⟨k, hk, he⟩ := bind_ok he
      cases he
      exact hk
    rw [sortByKey, List.pairwise_map]
    refine (mergeSort_sorted TermKey.compare entries).imp_of_mem fun {p q} hp hq hle => ?_
    exact ⟨p.1, q.1, hkey p (List.mem_mergeSort.mp hp), hkey q (List.mem_mergeSort.mp hq), hle⟩

/-- Terms whose rests are written differently are sorted in one way only. -/
lemma sortTerms_eq_of_perm {L L' F : List Expr} (hF : sortTerms text L = .ok F) (hp : L.Perm L')
    (hL : ∀ a ∈ L, ∀ b ∈ L, ∀ t, text a.coeffRest.2 = .ok t → text b.coeffRest.2 = .ok t → a = b) :
    sortTerms text L' = .ok F := by
  have hkeyed {a : Expr} {x : TermKey × Expr} (h : (do return (← termKey text a, a)) = .ok x) :
      x.2 = a ∧ text a.coeffRest.2 = .ok x.1.text := by
    obtain ⟨k, hk, h⟩ := bind_ok h
    cases h
    obtain ⟨t, ht, hk⟩ := bind_ok hk
    cases hk
    exact ⟨rfl, ht⟩
  rcases L with _ | ⟨a, _ | ⟨b, L⟩⟩
  · rw [List.nil_perm.mp hp]
    exact hF
  · rw [List.perm_singleton.mp hp.symm]
    exact hF
  · obtain ⟨K, hK, hF⟩ := bind_ok hF
    obtain ⟨K', hK', hperm⟩ := mapM_perm hp hK
    have heq : sortByKey TermKey.compare K = sortByKey TermKey.compare K' := by
      refine sortByKey_eq_of_perm _ hperm fun x hx y hy h => ?_
      obtain ⟨c, hc, hx⟩ := mem_of_mapM hK hx
      obtain ⟨d, hd, hy⟩ := mem_of_mapM hK' hy
      obtain rfl : c = d := by
        refine hL c hc d (hp.mem_iff.mpr hd) x.1.text (hkeyed hx).2 ?_
        rw [TermKey.text_eq_of_compare h]
        exact (hkeyed hy).2
      exact Except.ok.inj (hx.symm.trans hy)
    rw [heq] at hF
    rcases L' with _ | ⟨a', _ | ⟨b', L'⟩⟩
    · simpa using hp.length_eq
    · simpa using hp.length_eq
    · show (do return sortByKey TermKey.compare (← (a' :: b' :: L').mapM fun e => do return (← termKey text e, e))) = _
      rw [hK']
      exact hF

end Expr

end PlaneCalculus
