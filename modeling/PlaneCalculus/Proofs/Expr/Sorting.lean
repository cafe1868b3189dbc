import Mathlib.Data.List.Count
import PlaneCalculus.Expr.Order
import PlaneCalculus.Proofs.Calc.Meets

/-! Sorting the terms of a sum or the factors of a product rearranges them. Texts are asked for only where there is
something to compare. -/

namespace PlaneCalculus

open Calc

variable {κ α : Type} {allowed : Halt → Prop} {text : Expr → Calc String}

lemma sortByKey_perm (cmp : κ → κ → Ordering) (entries : List (κ × α)) :
    (sortByKey cmp entries).Perm (entries.map (·.2)) :=
  (List.mergeSort_perm _ _).map _

section Order

variable (cmp : κ → κ → Ordering) [Std.TransCmp cmp]

lemma isLE_total (a b : κ) : (cmp a b).isLE || (cmp b a).isLE := by
  have hswap : cmp b a = (cmp a b).swap := Std.OrientedCmp.eq_swap
  rw [hswap]
  cases cmp a b <;> rfl

lemma mergeSort_sorted (entries : List (κ × α)) :
    (entries.mergeSort fun a b => (cmp a.1 b.1).isLE).Pairwise fun a b => (cmp a.1 b.1).isLE :=
  List.pairwise_mergeSort (fun _ _ _ => Std.TransCmp.isLE_trans) (fun a b => isLE_total cmp a.1 b.1) entries

/-- Entries with different keys are sorted in one way only. -/
lemma sortByKey_eq_of_perm {entries entries' : List (κ × α)} (hp : entries.Perm entries')
    (h : ∀ a ∈ entries, ∀ b ∈ entries', cmp a.1 b.1 = .eq → a = b) :
    sortByKey cmp entries = sortByKey cmp entries' := by
  refine congrArg (List.map (·.2))
    (List.Perm.eq_of_pairwise (fun a b ha hb hle hge => ?_) (mergeSort_sorted cmp entries)
      (mergeSort_sorted cmp entries') ?_)
  · exact h a (List.mem_mergeSort.mp ha) b (List.mem_mergeSort.mp hb) (Std.OrientedCmp.isLE_antisymm hle hge)
  · exact (List.mergeSort_perm _ _).trans (hp.trans (List.mergeSort_perm _ _).symm)

end Order

def Keyed (a : α) (entry : κ × α) : Prop := entry.2 = a

lemma map_snd_of_keyed {as : List α} {entries : List (κ × α)} (h : List.Forall₂ Keyed as entries) :
    entries.map (·.2) = as := by
  induction h with
  | nil => rfl
  | cons he _ ih => rw [List.map_cons, he, ih]

namespace Expr

lemma meets_sortTerms {es : List Expr}
    (ht : ∀ e ∈ es, 2 ≤ es.length → Meets allowed (text e.coeffRest.2) fun _ => True) :
    Meets allowed (sortTerms text es) (·.Perm es) := by
  rcases es with _ | ⟨a, _ | ⟨b, es⟩⟩
  · exact List.Perm.refl _
  · exact List.Perm.refl _
  · have hm : Meets allowed ((a :: b :: es).mapM fun e => do return (← termKey text e, e))
        (List.Forall₂ Keyed (a :: b :: es)) := by
      refine meets_mapM fun e he => ?_
      have hk : Meets allowed (termKey text e) fun _ => True := (ht e he (by simp)).bind fun _ _ => trivial
      exact hk.bind fun k _ => rfl
    refine hm.bind fun entries hk => ?_
    have hp := sortByKey_perm TermKey.compare entries
    rwa [map_snd_of_keyed hk] at hp

lemma meets_sortFactors {es : List Expr}
    (ht : ∀ e ∈ es, 2 ≤ es.length → Meets allowed (text e.baseExponent.1) fun _ => True) :
    Meets allowed (sortFactors text es) (·.Perm es) := by
  unfold sortFactors
  have hm : Meets allowed (es.mapM fun e => do
      if (es.map rank).count e.rank ≤ 1 then return (⟨e.rank, ""⟩, e) else return (← factorKey text e, e))
      (List.Forall₂ Keyed es) := by
    refine meets_mapM fun e he => ?_
    split
    · rfl
    · next hc =>
      have hl : (es.map rank).count e.rank ≤ (es.map rank).length := List.count_le_length
      rw [List.length_map] at hl
      have hk : Meets allowed (factorKey text e) fun _ => True := (ht e he (by omega)).bind fun _ _ => trivial
      exact hk.bind fun k _ => rfl
  refine hm.bind fun entries hk => ?_
  have hp := sortByKey_perm FactorKey.compare entries
  rw [map_snd_of_keyed hk] at hp
  exact hp

lemma meets_sortTerms_perm (text : Expr → Calc String) (es : List Expr) :
    Meets anyHalt (sortTerms text es) (·.Perm es) :=
  meets_sortTerms fun _ _ _ => meets_anyHalt_true _

lemma meets_sortFactors_perm (text : Expr → Calc String) (es : List Expr) :
    Meets anyHalt (sortFactors text es) (·.Perm es) :=
  meets_sortFactors fun _ _ _ => meets_anyHalt_true _

end Expr

end PlaneCalculus
