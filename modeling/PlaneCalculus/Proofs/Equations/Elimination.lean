import Mathlib.Data.List.Perm.Basic
import PlaneCalculus.Equations.Elimination
import PlaneCalculus.Proofs.Calc.Agreement
import PlaneCalculus.Proofs.Expr.Arithmetic

/-! Elimination over exact numbers keeps the solutions of a system. It is followed on scaled systems, in which all right
sides are multiplied by one number: scaled by one a system is itself, scaled by zero it is the homogeneous system, whose
solutions tell whether elimination may give up. -/

namespace PlaneCalculus

open Calc

namespace Row

variable {α β : Type}

lemma exchange_map (f : Row α → Row β) (i : Nat) (rows : List (Row α)) :
    exchange i (rows.map f) = (exchange i rows).map fun p => (f p.1, p.2.map f) := by
  cases rows with
  | nil => rfl
  | cons r rows =>
    cases i with
    | zero => rfl
    | succ i => cases h : rows[i]? <;> simp [exchange, h, List.map_set]

lemma cons_set_perm {r p : Row α} {rows : List (Row α)} {i : Nat} (h : rows[i]? = some p) :
    (p :: rows.set i r).Perm (r :: rows) := by
  induction rows generalizing i with
  | nil => simp at h
  | cons a rows ih =>
    cases i with
    | zero =>
      cases h
      exact .swap r p rows
    | succ i => exact ((List.Perm.swap a p _).trans ((ih h).cons a)).trans (.swap r a rows)

lemma exchange_perm {i : Nat} {rows rest : List (Row α)} {p : Row α} (h : exchange i rows = some (p, rest)) :
    (p :: rest).Perm rows := by
  cases rows with
  | nil => cases h
  | cons r rows =>
    cases i with
    | zero =>
      cases h
      exact .refl _
    | succ i =>
      simp only [exchange, Option.map_eq_some_iff, Prod.mk.injEq] at h
      obtain ⟨p, hp, rfl, rfl⟩ := h
      exact cons_set_perm hp

lemma exists_exchange {i : Nat} {rows : List (Row α)} (h : i < rows.length) :
    ∃ rest, exchange i rows = some (rows[i], rest) := by
  cases rows with
  | nil => cases h
  | cons r rows =>
    cases i with
    | zero => exact ⟨rows, rfl⟩
    | succ i => simp [exchange, List.getElem?_eq_getElem (Nat.lt_of_succ_lt_succ h)]

/-- The row of exact numbers. -/
def ofRationals (r : Row ℚ) : Row Number := ⟨r.coeffs.map .exact, .exact r.rhs⟩

def dot (cs zs : List ℚ) : ℚ := (cs.zipWith (· * ·) zs).sum

/-- What the unknowns leave of the scaled right side. -/
def remainder (t : ℚ) (zs : List ℚ) (r : Row ℚ) : ℚ := t * r.rhs - dot r.coeffs zs

@[simp] lemma dot_nil (cs : List ℚ) : dot cs [] = 0 := by simp [dot]

@[simp] lemma nil_dot (zs : List ℚ) : dot [] zs = 0 := by simp [dot]

@[simp] lemma dot_cons (c z : ℚ) (cs zs : List ℚ) : dot (c :: cs) (z :: zs) = c * z + dot cs zs := by simp [dot]

lemma remainder_nil (t : ℚ) : remainder t [] = fun r => t * r.rhs := by
  funext r
  rw [remainder, dot_nil, sub_zero]

@[simp] lemma dot_replicate_zero (cs : List ℚ) (n : Nat) : dot cs (List.replicate n 0) = 0 := by
  induction n generalizing cs with
  | zero => exact dot_nil cs
  | succ n ih => cases cs <;> simp [List.replicate_succ, ih]

lemma dot_map_div (c : ℚ) (cs zs : List ℚ) : dot (cs.map (· / c)) zs = dot cs zs / c := by
  induction cs generalizing zs with
  | nil => simp
  | cons a cs ih =>
    cases zs with
    | nil => simp
    | cons z zs =>
      rw [List.map_cons, dot_cons, dot_cons, ih]
      ring

lemma dot_zip_map_sub (c : ℚ) {as bs : List ℚ} (h : as.length = bs.length) (zs : List ℚ) :
    dot ((as.zip bs).map fun p => p.1 - c * p.2) zs = dot as zs - c * dot bs zs := by
  induction as generalizing bs zs with
  | nil =>
    obtain rfl := List.length_eq_zero_iff.mp h.symm
    simp
  | cons a as ih =>
    cases bs with
    | nil => cases h
    | cons b bs =>
      cases zs with
      | nil => simp
      | cons z zs =>
        rw [List.zip_cons_cons, List.map_cons, dot_cons, dot_cons, dot_cons, ih (Nat.succ.inj h)]
        ring

end Row

namespace Elimination

open Row

/-! ### Steps on rows -/

lemma leads_ofRationals {r : Row ℚ} {c : ℚ} {cs : List ℚ} (h : r.coeffs = c :: cs) :
    leads r.ofRationals = true ↔ c ≠ 0 := by
  simp [leads, ofRationals, h, Number.isZero]

lemma normalize_spec {r : Row ℚ} {c : ℚ} {cs : List ℚ} (hr : r.coeffs = c :: cs) (hc : c ≠ 0) :
    Meets anyHalt (normalize .refuse r.ofRationals) fun s => ∃ p : Row ℚ, s = p.ofRationals ∧
      p.coeffs.length = cs.length ∧ ∀ t z zs, r.remainder t (z :: zs) = c * (p.remainder t zs - z) := by
  have hdiv : Meets anyHalt ((cs.map Number.exact).mapM (Overflow.refuse.div · (.exact c)))
      (· = (cs.map (· / c)).map Number.exact) := by
    rw [List.mapM_map, List.map_map]
    exact meets_mapM_eq fun a _ => Overflow.meets_refuse_div a c
  simp only [normalize, ofRationals, hr, List.map_cons]
  refine hdiv.bind fun ds hds => (Overflow.meets_refuse_div r.rhs c).bind fun d hd => ?_
  refine ⟨⟨cs.map (· / c), r.rhs / c⟩, by rw [hds, hd], by simp, fun t z zs => ?_⟩
  rw [remainder, remainder, hr, dot_cons, dot_map_div]
  field_simp
  ring

lemma subtractMultiple_spec (c a b : ℚ) :
    Meets anyHalt (subtractMultiple .refuse (.exact c) (.exact a) (.exact b)) (· = .exact (a - c * b)) := by
  refine (Overflow.meets_refuse_mul c b).bind fun m hm => ?_
  rw [hm]
  exact Overflow.meets_refuse_sub a (c * b)

lemma clear_spec {p r : Row ℚ} (h : r.coeffs.length = p.coeffs.length + 1) :
    Meets anyHalt (clear .refuse p.ofRationals r.ofRationals) fun s => ∃ q : Row ℚ, s = q.ofRationals ∧
      q.coeffs.length = p.coeffs.length ∧ ∀ t zs, q.remainder t zs = r.remainder t (p.remainder t zs :: zs) := by
  obtain ⟨c, cs, hr⟩ := List.exists_cons_of_length_eq_add_one h
  have hlen : cs.length = p.coeffs.length := by simpa [hr] using h
  simp only [clear, ofRationals, hr, List.map_cons]
  split
  · next hz =>
    obtain rfl := (Number.isZero_exact c).mp hz
    exact ⟨⟨cs, r.rhs⟩, rfl, hlen, fun t zs => by simp [remainder, hr]⟩
  · have hsub : Meets anyHalt (((cs.map Number.exact).zip (p.coeffs.map Number.exact)).mapM
        fun x => subtractMultiple .refuse (.exact c) x.1 x.2)
        (· = ((cs.zip p.coeffs).map fun x => x.1 - c * x.2).map Number.exact) := by
      rw [List.zip_map, List.mapM_map, List.map_map]
      exact meets_mapM_eq fun x _ => subtractMultiple_spec c x.1 x.2
    refine hsub.bind fun ds hds => (subtractMultiple_spec c r.rhs p.rhs).bind fun d hd => ?_
    refine ⟨⟨(cs.zip p.coeffs).map fun x => x.1 - c * x.2, r.rhs - c * p.rhs⟩, by rw [hds, hd], by simp [hlen],
      fun t zs => ?_⟩
    simp only [remainder, hr, dot_cons, dot_zip_map_sub c hlen]
    ring

lemma clear_all_spec {n : Nat} {p : Row ℚ} (hp : p.coeffs.length = n) {rows : List (Row ℚ)}
    (h : ∀ r ∈ rows, r.coeffs.length = n + 1) :
    Meets anyHalt ((rows.map ofRationals).mapM (clear .refuse p.ofRationals)) fun l => ∃ qs : List (Row ℚ),
      l = qs.map ofRationals ∧ (∀ q ∈ qs, q.coeffs.length = n) ∧
      ∀ t zs, qs.map (remainder t zs) = rows.map (remainder t (p.remainder t zs :: zs)) := by
  rw [List.mapM_map]
  have hall := meets_mapM fun r hr => clear_spec (p := p) (by rw [h r hr, hp])
  refine hall.mono fun l hl => ?_
  clear h hall
  induction hl with
  | nil => exact ⟨[], rfl, nofun, fun _ _ => rfl⟩
  | cons hq _ ih =>
    obtain ⟨q, rfl, hlen, hq⟩ := hq
    obtain ⟨qs, rfl, hlens, hqs⟩ := ih
    exact ⟨q :: qs, rfl, List.forall_mem_cons.mpr ⟨hlen.trans hp, hlens⟩, fun t zs => by
      rw [List.map_cons, List.map_cons, hq, hqs]⟩

/-! ### Rounds -/

/-- The unknowns satisfy the scaled system: `ys` are those eliminated, one for each finished row, `zs` the others. -/
structure Solves (t : ℚ) (finished remaining : List (Row ℚ)) (ys zs : List ℚ) : Prop where
  eliminated : ys = finished.map (remainder t zs)
  satisfied : ∀ r ∈ remaining, r.remainder t zs = 0

lemma solves_iff_all {t : ℚ} {finished remaining : List (Row ℚ)} {ys zs : List ℚ} :
    Solves t finished remaining ys zs ↔
      ys = finished.map (remainder t zs) ∧ ∀ x ∈ remaining.map (remainder t zs), x = 0 := by
  rw [List.forall_mem_map]
  exact ⟨fun h => ⟨h.1, h.2⟩, fun h => ⟨h.1, h.2⟩⟩

/-- A round eliminates the first of the unknowns: the pivot row determines it. -/
lemma solves_round {finished finished' remaining rest rest' : List (Row ℚ)} {r p : Row ℚ} {c : ℚ} (hc : c ≠ 0)
    (hperm : (r :: rest).Perm remaining) (hr : ∀ t z zs, r.remainder t (z :: zs) = c * (p.remainder t zs - z))
    (hf : ∀ t zs, finished'.map (remainder t zs) = finished.map (remainder t (p.remainder t zs :: zs)))
    (hrest : ∀ t zs, rest'.map (remainder t zs) = rest.map (remainder t (p.remainder t zs :: zs)))
    (t z : ℚ) (ys zs : List ℚ) :
    Solves t finished remaining ys (z :: zs) ↔ Solves t (finished' ++ [p]) rest' (ys ++ [z]) zs := by
  have hpivot : r.remainder t (z :: zs) = 0 ↔ z = p.remainder t zs := by
    rw [hr, mul_eq_zero, or_iff_right hc, sub_eq_zero, eq_comm]
  have hall : (∀ x ∈ remaining.map (remainder t (z :: zs)), x = 0) ↔
      z = p.remainder t zs ∧ ∀ x ∈ rest.map (remainder t (z :: zs)), x = 0 := by
    simp only [← (hperm.map _).mem_iff, List.map_cons, List.forall_mem_cons, hpivot]
  rw [solves_iff_all, solves_iff_all, hall, List.map_append, List.map_singleton, List.append_singleton_inj, hf, hrest]
  constructor
  · rintro ⟨hys, rfl, hz⟩
    exact ⟨⟨hys, rfl⟩, hz⟩
  · rintro ⟨⟨hys, rfl⟩, hz⟩
    exact ⟨hys, rfl, hz⟩

/-- What elimination with `n` unknowns left may answer: the one solution of the system, for every scale, or else that
the homogeneous system has a solution that is not zero. -/
def Settles (n : Nat) (finished remaining : List (Row ℚ)) : Option (List Number) → Prop
  | some values => ∃ qs : List ℚ, values = qs.map .exact ∧ qs.length = finished.length + n ∧
      ∀ t ys zs, zs.length = n → (Solves t finished remaining ys zs ↔ ys ++ zs = qs.map (t * ·))
  | none => ∃ ys zs, zs.length = n ∧ (∃ z ∈ zs, z ≠ 0) ∧ Solves 0 finished remaining ys zs

lemma settles_finished (finished : List (Row ℚ)) :
    Settles 0 finished [] (some (finished.map fun r => .exact r.rhs)) := by
  refine ⟨finished.map (·.rhs), by simp, by simp, fun t ys zs hz => ?_⟩
  obtain rfl := List.length_eq_zero_iff.mp hz
  simp [solves_iff_all, Function.comp_def, remainder_nil]

lemma settles_stuck {n : Nat} {finished remaining : List (Row ℚ)}
    (h : ∀ r ∈ remaining, ∃ cs, r.coeffs = 0 :: cs) : Settles (n + 1) finished remaining none := by
  refine ⟨_, 1 :: List.replicate n 0, by simp, ⟨1, by simp⟩, rfl, fun r hr => ?_⟩
  obtain ⟨cs, hcs⟩ := h r hr
  simp [remainder, hcs]

lemma Settles.before {n : Nat} {finished finished' remaining rest : List (Row ℚ)} {p : Row ℚ}
    (hlen : finished'.length = finished.length)
    (hround : ∀ t z ys zs,
      Solves t finished remaining ys (z :: zs) ↔ Solves t (finished' ++ [p]) rest (ys ++ [z]) zs)
    {result : Option (List Number)} (h : Settles n (finished' ++ [p]) rest result) :
    Settles (n + 1) finished remaining result := by
  cases result with
  | some values =>
    obtain ⟨qs, hvalues, hqs, h⟩ := h
    have hcount : qs.length = finished.length + (n + 1) := by
      rw [hqs, List.length_append, List.length_singleton, hlen, Nat.add_assoc, Nat.add_comm 1]
    refine ⟨qs, hvalues, hcount, fun t ys zs hz => ?_⟩
    obtain ⟨z, zs, rfl⟩ := List.exists_cons_of_length_eq_add_one hz
    rw [hround, h t _ zs (Nat.succ.inj hz), List.append_assoc, List.singleton_append]
  | none =>
    obtain ⟨ys, zs, hz, ⟨z, hmem, hne⟩, hsolves⟩ := h
    obtain rfl := hsolves.eliminated
    rw [List.map_append, List.map_singleton] at hsolves
    have hlong : (p.remainder 0 zs :: zs).length = n + 1 := congrArg Nat.succ hz
    exact ⟨_, _, hlong, ⟨z, List.mem_cons_of_mem _ hmem, hne⟩, (hround _ _ _ _).mpr hsolves⟩

/-- The choice of the pivot row. -/
lemma pivot_cases (rows : List (Row ℚ)) :
    ((((rows.map ofRationals).findIdx? leads).bind fun i => exchange i (rows.map ofRationals)) = none ∧
      ∀ r ∈ rows, leads r.ofRationals = false) ∨
    ∃ r rest, (((rows.map ofRationals).findIdx? leads).bind fun i => exchange i (rows.map ofRationals)) =
        some (r.ofRationals, rest.map ofRationals) ∧ (r :: rest).Perm rows ∧ leads r.ofRationals = true := by
  rw [List.findIdx?_map]
  cases h : rows.findIdx? (leads ∘ ofRationals) with
  | none => exact .inl ⟨rfl, List.findIdx?_eq_none_iff.mp h⟩
  | some i =>
    obtain ⟨hi, hlead, -⟩ := List.findIdx?_eq_some_iff_getElem.mp h
    obtain ⟨rest, hrest⟩ := exists_exchange hi
    refine .inr ⟨rows[i], rest, ?_, exchange_perm hrest, hlead⟩
    rw [Option.bind_some, exchange_map, hrest, Option.map_some]

lemma rounds_spec {n : Nat} {finished remaining : List (Row ℚ)} (hlen : remaining.length = n)
    (hf : ∀ r ∈ finished, r.coeffs.length = n) (hr : ∀ r ∈ remaining, r.coeffs.length = n) :
    Meets anyHalt (rounds .refuse n (finished.map ofRationals) (remaining.map ofRationals))
      (Settles n finished remaining) := by
  induction n generalizing finished remaining with
  | zero =>
    obtain rfl := List.length_eq_zero_iff.mp hlen
    simpa [rounds, Function.comp_def, ofRationals] using settles_finished finished
  | succ n ih =>
    rw [rounds]
    obtain ⟨hnone, hlead⟩ | ⟨r, rest, hsome, hperm, hlead⟩ := pivot_cases remaining
    · rw [hnone]
      refine settles_stuck fun r hmem => ?_
      obtain ⟨c, cs, hcs⟩ := List.exists_cons_of_length_eq_add_one (hr r hmem)
      obtain rfl : c = 0 := by
        by_contra hc
        exact Bool.false_ne_true ((hlead r hmem).symm.trans ((leads_ofRationals hcs).mpr hc))
      exact ⟨cs, hcs⟩
    · rw [hsome]
      have hr' : ∀ q ∈ r :: rest, q.coeffs.length = n + 1 := fun q hq => hr q (hperm.mem_iff.mp hq)
      rw [List.forall_mem_cons] at hr'
      obtain ⟨c, cs, hcs⟩ := List.exists_cons_of_length_eq_add_one hr'.1
      have hc : c ≠ 0 := (leads_ofRationals hcs).mp hlead
      have hn : cs.length = n := by simpa [hcs] using hr'.1
      refine (normalize_spec hcs hc).bind fun s ⟨p, hs, hp, hpivot⟩ => ?_
      rw [hs]
      refine (clear_all_spec (hp.trans hn) hf).bind fun fs ⟨finished', hfs, hf', hfv⟩ => ?_
      refine (clear_all_spec (hp.trans hn) hr'.2).bind fun qs ⟨rest', hqs, hrest, hrv⟩ => ?_
      have hlenf : finished'.length = finished.length := by simpa using congrArg List.length (hfv 0 [])
      have hlenr : rest'.length = n := by
        have hmap : rest'.length = rest.length := by simpa using congrArg List.length (hrv 0 [])
        have hcount := hperm.length_eq
        rw [List.length_cons] at hcount
        omega
      have hall : ∀ q ∈ finished' ++ [p], q.coeffs.length = n := by
        simpa [or_imp, forall_and, hp.trans hn] using hf'
      have hnext := ih hlenr hall hrest
      rw [List.map_append, List.map_singleton, ← hfs, ← hqs] at hnext
      exact hnext.mono fun _ h => h.before hlenf (solves_round hc hperm hpivot hfv hrv)

/-! ### Agreement of the policies -/

lemma normalize_consistent (r : Row Number) : Consistent (normalize · r) := by
  unfold normalize
  split
  · exact .pure r
  · exact (Consistent.mapM (fun _ => .settle _ _) _).bind fun _ => (Consistent.settle _ _).bind fun _ => .pure _

lemma subtractMultiple_consistent (c a b : Number) : Consistent (subtractMultiple · c a b) :=
  (Consistent.settle _ _).bind fun _ => (Consistent.settle _ _).bind fun _ => .settle _ _

lemma clear_consistent (p r : Row Number) : Consistent (clear · p r) := by
  unfold clear
  split
  · exact .pure r
  · refine .ite (.pure _) ((Consistent.mapM (fun x => ?_) _).bind fun _ => ?_)
    · exact subtractMultiple_consistent _ x.1 x.2
    · exact (subtractMultiple_consistent _ _ _).bind fun _ => .pure _

lemma rounds_consistent (n : Nat) (finished remaining : List (Row Number)) :
    Consistent (rounds · n finished remaining) := by
  induction n generalizing finished remaining with
  | zero => exact .pure _
  | succ n ih =>
    simp only [rounds]
    split
    · exact .pure none
    · refine (normalize_consistent _).bind fun p => (Consistent.mapM (clear_consistent p) _).bind fun fs => ?_
      exact (Consistent.mapM (clear_consistent p) _).bind fun rest => ih _ rest

end Elimination

end PlaneCalculus
