import PlaneCalculus.Expr.Canonical
import PlaneCalculus.Proofs.Calc.Meets
import PlaneCalculus.Proofs.Expr.SpecialValues
import PlaneCalculus.Proofs.Expr.Size

/-! The sizes of what the constructors collect: like terms and like bases take no more room than the operands they come
from. -/

namespace PlaneCalculus.Expr

open Calc

variable {o : Overflow}

/-! ### Sums -/

def entriesSize (entries : List (Expr × Number)) : Nat := (entries.map fun p => p.1.size.product + 1).sum

lemma addCoefficient_size (rest : Expr) (c : Number) (entries : List (Expr × Number)) :
    Meets (refusal o) (addCoefficient o rest c entries)
      (entriesSize · ≤ entriesSize entries + (rest.size.product + 1)) := by
  induction entries with
  | nil => simp [addCoefficient, entriesSize]
  | cons p entries ih =>
    obtain ⟨e, d⟩ := p
    simp only [addCoefficient]
    split
    · refine (meets_add refusal_overflow).bind fun x _ => ?_
      simp only [meets_pure, entriesSize, List.map_cons, List.sum_cons]
      omega
    · refine ih.bind fun es hes => ?_
      simp only [meets_pure, entriesSize, List.map_cons, List.sum_cons] at hes ⊢
      omega

def numberSize (c : Number) : Nat := if c.isZero then 0 else 1

lemma numberSize_le (c : Number) : numberSize c ≤ 1 := by
  unfold numberSize
  split <;> omega

def Collected.size (s : Collected) : Nat := entriesSize s.entries + numberSize s.number

lemma push_collected_size (s : Collected) (e : Expr) :
    Meets (refusal o) (s.push o e) (·.size ≤ s.size + (e.size.product + 1)) := by
  have hr := coeffRest_product_le e
  have hterm : Meets (refusal o)
      (do return { s with entries := ← addCoefficient o e.coeffRest.2 e.coeffRest.1 s.entries } : Calc Collected)
      (·.size ≤ s.size + (e.size.product + 1)) := by
    refine (addCoefficient_size _ _ _).bind fun es hes => ?_
    simp only [meets_pure, Collected.size]
    omega
  cases e with
  | num n =>
    simp only [Collected.push]
    refine (meets_add refusal_overflow).bind fun x _ => ?_
    have hx := numberSize_le x
    simp only [meets_pure, Collected.size, size_num]
    omega
  | symbol | constant | plus | times | power | call => exact hterm

lemma collected_size (es : List Expr) :
    Meets (refusal o) (es.foldlM (Collected.push o) ⟨.ofInt 0, []⟩) (·.size ≤ termsSize es) := by
  refine (meets_foldlM (fun rest s => s.size + termsSize rest ≤ termsSize es) ?_ ?_).mono fun s hs => ?_
  · intro e rest s hs
    refine (push_collected_size s e).mono fun t ht => ?_
    simp only [termsSize] at hs
    omega
  · simp [Collected.size, entriesSize, numberSize, Number.ofInt, Number.isZero]
  · simpa [termsSize] using hs

def SumBound (size : Nat) (r : Expr) : Prop := r.size.sum ≤ max 1 size ∧ r.size.product ≤ size + 2

lemma collapse_plus_bound (es : List Expr) (h : es ≠ []) : SumBound (termsSize es) (collapse 0 .plus es) := by
  rcases es with _ | ⟨a, _ | ⟨b, es⟩⟩
  · exact absurd rfl h
  · have ha := sum_le a
    simp only [SumBound, collapse, termsSize]
    omega
  · simp only [SumBound, collapse, size, termsSize]
    omega

lemma entriesSize_filter_le (p : Expr × Number → Bool) (entries : List (Expr × Number)) :
    entriesSize (entries.filter p) ≤ entriesSize entries :=
  (List.filter_sublist.map _).sum_le_sum fun _ _ => Nat.zero_le _

lemma product_le_entriesSize {p : Expr × Number} {entries : List (Expr × Number)} (h : p ∈ entries) :
    p.1.size.product + 1 ≤ entriesSize entries :=
  List.single_le_sum (fun _ _ => Nat.zero_le _) _ (List.mem_map_of_mem h)

lemma termsSize_le_entriesSize {entries : List (Expr × Number)} {ts : List Expr}
    (h : List.Forall₂ (fun p t => t.size.product ≤ p.1.size.product) entries ts) :
    termsSize ts ≤ entriesSize entries := by
  induction h with
  | nil => exact Nat.le_refl _
  | cons ht _ ih =>
    simp only [termsSize, entriesSize, List.map_cons, List.sum_cons] at ih ⊢
    omega

/-! ### Products -/

def powerSize (p : Expr × Expr) : Nat := p.1.size.base * p.2.size.sum + 1

def powersSize (bases : List (Expr × Expr)) : Nat := (bases.map powerSize).sum

def exponentialsSize (args : List Expr) : Nat := (args.map fun a => a.size.sum + 4).sum

def Gathered.size (s : Gathered) : Nat := powersSize s.bases + exponentialsSize s.exponentials

lemma powerSize_le_powersSize {p : Expr × Expr} {bases : List (Expr × Expr)} (h : p ∈ bases) :
    powerSize p ≤ powersSize bases :=
  List.single_le_sum (fun _ _ => Nat.zero_le _) _ (List.mem_map_of_mem h)

lemma of_size (f : Func) (a : Expr) : (f.of a).size.product ≤ a.size.sum + 4 := by
  have hp := sum_pos a
  rcases f.of_cases a with (⟨k, h, -⟩ | ⟨c, h⟩ | ⟨g, h⟩ | ⟨n, -, h⟩) | ⟨v, w, -, h⟩ | h
  · simp [h]
  · simp only [h, size, Size.atom]
    omega
  · have hr := product_le_sum (f.of a)
    have hs : a.size.sum = (f.of a).size.sum + 5 := congrArg (·.size.sum) h
    omega
  · simp [h]
  · simp [h, real]
  · simp [h, size, Size.atom]

lemma putExponential_size (s : Gathered) (a : Expr) : Meets (refusal o) (s.putExponential o a) fun g =>
    g.bases = s.bases ∨ ∃ e, g.bases = s.bases ++ [(e, int 1)] ∧ e.size.product ≤ a.size.sum + 4 := by
  have he := of_size .exp a
  unfold Gathered.putExponential
  split
  · refine (meets_mul refusal_overflow).bind fun x _ => ?_
    exact Or.inl rfl
  · exact Or.inr ⟨_, rfl, he⟩

lemma absorb_size (c : Number) (es : List Expr) :
    Meets (refusal o) (es.foldlM (absorb o) (c, [])) fun s =>
      factorsSize s.2 ≤ factorsSize es ∧ ∀ f ∈ s.2, f.isNumber = false := by
  refine (meets_foldlM (fun rest s => factorsSize s.2 + factorsSize rest ≤ factorsSize es ∧
    ∀ f ∈ s.2, f.isNumber = false) ?_ ?_).mono fun s hs => ?_
  · rintro e rest ⟨c, fs⟩ ⟨hle, hn⟩
    unfold absorb
    split
    · refine (meets_mul refusal_overflow).bind fun x _ => ?_
      exact ⟨by simpa [factorsSize] using hle, hn⟩
    · next hnum =>
      refine ⟨?_, ?_⟩
      · simp only [factorsSize_append, factorsSize] at hle ⊢
        omega
      · intro f hf
        rcases List.mem_append.mp hf with hf | hf
        · exact hn f hf
        · obtain rfl := List.mem_singleton.mp hf
          cases f with
          | num m => exact absurd rfl (hnum m)
          | symbol | constant | plus | times | power | call => rfl
  · simp [factorsSize]
  · simpa [factorsSize] using hs

lemma collapse_times_size (fs : List Expr) : (collapse 1 .times fs).size.product ≤ factorsSize fs := by
  rcases fs with _ | ⟨f, _ | ⟨g, fs⟩⟩
  · simp [collapse]
  · simpa [collapse, factorsSize] using product_le_factor f
  · simp [collapse, size]

end PlaneCalculus.Expr
