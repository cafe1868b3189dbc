import Mathlib.Data.List.Nodup
import Mathlib.Data.List.Perm.Subperm
import PlaneCalculus.Proofs.Expr.Sorting

/-! The order of the factors of a product does not depend on the order in which they came, as long as no two of them
have bases that are written alike. -/

namespace PlaneCalculus

open Calc

instance : Std.TransCmp FactorKey.compare :=
  inferInstanceAs (Std.TransCmp (compareLex (compareOn FactorKey.rank) (compareOn FactorKey.text)))

lemma FactorKey.eq_of_compare {a b : FactorKey} (h : FactorKey.compare a b = .eq) : a = b := by
  obtain ⟨r, s⟩ := a
  obtain ⟨r', s'⟩ := b
  simp only [FactorKey.compare, Ordering.then_eq_eq] at h
  rw [Std.LawfulEqCmp.eq_of_compare h.1, Std.LawfulEqCmp.eq_of_compare h.2]

namespace Calc

variable {α β : Type}

lemma mapM_perm {f : α → Calc β} {l l' : List α} (hp : l.Perm l') {r : List β} (h : l.mapM f = .ok r) :
    ∃ r', l'.mapM f = .ok r' ∧ r.Perm r' := by
  induction hp generalizing r with
  | nil => exact ⟨r, h, .refl _⟩
  | cons a _ ih =>
    rw [List.mapM_cons] at h
    obtain ⟨b, hb, h⟩ := bind_ok h
    obtain ⟨bs, hbs, h⟩ := bind_ok h
    cases h
    obtain ⟨bs', hbs', hperm⟩ := ih hbs
    refine ⟨b :: bs', ?_, hperm.cons b⟩
    rw [List.mapM_cons, hb, hbs']
    rfl
  | swap a a' l =>
    rw [List.mapM_cons, List.mapM_cons] at h
    obtain ⟨b, hb, h⟩ := bind_ok h
    obtain ⟨cs, hcs, h⟩ := bind_ok h
    cases h
    obtain ⟨b', hb', hcs⟩ := bind_ok hcs
    obtain ⟨bs, hbs, hcs⟩ := bind_ok hcs
    cases hcs
    refine ⟨b' :: b :: bs, ?_, .swap b' b bs⟩
    rw [List.mapM_cons, List.mapM_cons, hb, hb', hbs]
    rfl
  | trans _ _ ih ih' =>
    obtain ⟨r', h', hp'⟩ := ih h
    obtain ⟨r'', h'', hp''⟩ := ih' h'
    exact ⟨r'', h'', hp'.trans hp''⟩

lemma mem_of_mapM {f : α → Calc β} {l : List α} {r : List β} (h : l.mapM f = .ok r) {b : β} (hb : b ∈ r) :
    ∃ a ∈ l, f a = .ok b := by
  induction l generalizing r with
  | nil =>
    cases h
    cases hb
  | cons a l ih =>
    rw [List.mapM_cons] at h
    obtain ⟨c, hc, h⟩ := bind_ok h
    obtain ⟨cs, hcs, h⟩ := bind_ok h
    cases h
    rcases List.mem_cons.mp hb with rfl | hb
    · exact ⟨a, List.mem_cons_self, hc⟩
    · obtain ⟨x, hx, hfx⟩ := ih hcs hb
      exact ⟨x, List.mem_cons_of_mem a hx, hfx⟩

end Calc

namespace Expr

/-- What a factor is sorted by: its group, and how its base is written. -/
def orderKey (text : Expr → Calc String) (f : Expr) : Nat × Calc String := (f.rank, text f.baseExponent.1)

def keyAmong (text : Expr → Calc String) (ranks : List Nat) (e : Expr) : Calc (FactorKey × Expr) :=
  if ranks.count e.rank ≤ 1 then return (⟨e.rank, ""⟩, e) else do return (← factorKey text e, e)

variable {text : Expr → Calc String}

lemma keyAmong_ok {ranks : List Nat} {e : Expr} {entry : FactorKey × Expr} (h : keyAmong text ranks e = .ok entry) :
    entry.2 = e ∧ entry.1.rank = e.rank ∧
      (2 ≤ ranks.count e.rank → text e.baseExponent.1 = .ok entry.1.text) := by
  unfold keyAmong at h
  split at h
  · cases h
    exact ⟨rfl, rfl, fun _ => by omega⟩
  · obtain ⟨k, hk, h⟩ := bind_ok h
    cases h
    obtain ⟨t, ht, hk⟩ := bind_ok hk
    cases hk
    exact ⟨rfl, rfl, fun _ => ht⟩

lemma two_le_count_rank {L : List Expr} {a b : Expr} (ha : a ∈ L) (hb : b ∈ L) (hne : a ≠ b) (hr : a.rank = b.rank) :
    2 ≤ (L.map rank).count a.rank := by
  obtain ⟨l, hl, hsub⟩ : [a, b].Subperm L := List.subperm_of_subset (by simpa using hne) (by simp [ha, hb])
  have hcount := (hsub.map rank).count_le a.rank
  rw [(hl.map rank).count_eq] at hcount
  simpa [hr] using hcount

/-- No two factors of the same group have bases that are written alike. -/
def FactorsApart (text : Expr → Calc String) (L : List Expr) : Prop :=
  ∀ a ∈ L, ∀ b ∈ L, a.rank = b.rank → ∀ t, text a.baseExponent.1 = .ok t → text b.baseExponent.1 = .ok t → a = b

lemma factorsApart_of_nodup {L : List Expr} (h : (L.map (orderKey text)).Nodup) : FactorsApart text L := by
  intro a ha b hb hr t hta htb
  refine List.inj_on_of_nodup_map h ha hb ?_
  rw [orderKey, orderKey, hr, hta, htb]

lemma eq_of_compare_keyAmong {L : List Expr} (hL : FactorsApart text L) {a b : Expr} (ha : a ∈ L) (hb : b ∈ L)
    {x y : FactorKey × Expr} (hx : keyAmong text (L.map rank) a = .ok x) (hy : keyAmong text (L.map rank) b = .ok y)
    (h : FactorKey.compare x.1 y.1 = .eq) : x = y := by
  have hxy := FactorKey.eq_of_compare h
  obtain ⟨-, hrx, htx⟩ := keyAmong_ok hx
  obtain ⟨-, hry, hty⟩ := keyAmong_ok hy
  have hr : a.rank = b.rank := by rw [← hrx, ← hry, hxy]
  obtain rfl : a = b := by
    by_contra hne
    have hc := two_le_count_rank ha hb hne hr
    refine hne (hL a ha b hb hr x.1.text (htx hc) ?_)
    rw [hxy]
    exact hty (hr ▸ hc)
  rw [hx] at hy
  exact Except.ok.inj hy

lemma sortFactors_eq_of_apart {L L' F : List Expr} (hF : sortFactors text L = .ok F) (hp : L.Perm L')
    (hL : FactorsApart text L) : sortFactors text L' = .ok F := by
  have hranks : keyAmong text (L'.map rank) = keyAmong text (L.map rank) := by
    funext e
    rw [keyAmong, keyAmong, ((hp.map rank).count_eq _)]
  have hsort (l : List Expr) : sortFactors text l =
      (do return sortByKey FactorKey.compare (← l.mapM (keyAmong text (l.map rank)))) := rfl
  rw [hsort] at hF ⊢
  rw [hranks]
  obtain ⟨K, hK, hF⟩ := bind_ok hF
  obtain ⟨K', hK', hperm⟩ := mapM_perm hp hK
  have heq : sortByKey FactorKey.compare K = sortByKey FactorKey.compare K' := by
    refine sortByKey_eq_of_perm _ hperm fun a ha b hb h => ?_
    obtain ⟨x, hx, ha⟩ := mem_of_mapM hK ha
    obtain ⟨y, hy, hb⟩ := mem_of_mapM hK' hb
    exact eq_of_compare_keyAmong hL hx (hp.mem_iff.mpr hy) ha hb h
  rw [heq] at hF
  rw [hK']
  exact hF

lemma sortFactors_eq_of_perm {L L' F : List Expr} (hF : sortFactors text L = .ok F) (hp : L.Perm L')
    (hL : (L.map (orderKey text)).Nodup) : sortFactors text L' = .ok F :=
  sortFactors_eq_of_apart hF hp (factorsApart_of_nodup hL)

end Expr

end PlaneCalculus
