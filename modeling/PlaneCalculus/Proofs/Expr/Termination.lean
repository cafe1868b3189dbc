import PlaneCalculus.Proofs.Expr.Growth
import PlaneCalculus.Proofs.Expr.Sorting
import PlaneCalculus.Proofs.Number.Sign

/-! The depth of calls allotted to the constructors and to the written form is always enough. The sizes decrease from
call to call, and no constructor makes them grow, so an induction on the depth carries both facts at once. -/

namespace PlaneCalculus.Expr

open Calc

def isBelow : Expr → Bool
  | .power _ e => e.isNegativeNumber
  | _ => false

/-- Decreases where the text of an expression asks for the text of one of the same size. -/
def writtenRank : Expr → Nat
  | .times fs => if fs.any isBelow then 3 else 2
  | .power _ e => if e.isNegativeNumber then 3 else 1
  | _ => 0

def writtenSize (e : Expr) : Nat := 4 * e.size.product + e.writtenRank

lemma writtenRank_le (e : Expr) : e.writtenRank ≤ 3 := by
  cases e with
  | num | symbol | constant | plus | call => simp [writtenRank]
  | times fs => simp only [writtenRank]; split <;> omega
  | power b x => simp only [writtenRank]; split <;> omega

lemma writtenSize_lt {e : Expr} {n : Nat} (h : callDepth e.size.product ≤ n) : e.writtenSize < n := by
  have hr := writtenRank_le e
  unfold callDepth at h
  unfold writtenSize
  omega

lemma arg_writtenSize (f : Func) (a : Expr) : a.writtenSize < (call f a).writtenSize := by
  have ha := product_le_sum a
  have hr := writtenRank_le a
  simp only [writtenSize, size, Size.atom] at hr ⊢
  omega

/-- A power that stays above the line is written in fewer steps than the one below the line it is taken from. -/
def PowerBound (b e r : Expr) : Prop :=
  r.size.product ≤ b.size.base * e.size.sum + 1 ∧
    (e.isNumber = true → e.isNegativeNumber = false → r.writtenSize < 4 * (b.size.base + 1) + 3)

/-- Four calls, one of each activity, that end within a depth and make nothing grow. -/
structure Ends (o : Overflow) (n : Nat) (sum product : List Expr → Calc Expr) (pow : Expr → Expr → Calc Expr)
    (text : Expr → Calc String) : Prop where
  sum_ends : ∀ args, callDepth (sumSize args) ≤ n → Meets (refusal o) (sum args) (SumBound (sumSize args))
  product_ends : ∀ args, callDepth (productSize args) ≤ n →
    Meets (refusal o) (product args) (·.size.product ≤ productSize args)
  scaled_ends : ∀ e k, callDepth e.size.product ≤ n → Meets (refusal o) (product [e, .num k]) (·.size.sum ≤ e.size.sum)
  pow_ends : ∀ b e, callDepth (b.size.base * e.size.sum) ≤ n → Meets (refusal o) (pow b e) (PowerBound b e)
  pow_one : 0 < n → ∀ b, pow b (int 1) = .ok b
  text_ends : ∀ e, e.writtenSize < n → Meets (refusal o) (text e) fun _ => True

variable {o : Overflow} {n : Nat} {sum product : List Expr → Calc Expr} {pow : Expr → Expr → Calc Expr}
  {text : Expr → Calc String} (hd : Ends o n sum product pow text)
include hd

lemma Ends.text_of_size (e : Expr) (h : callDepth e.size.product ≤ n) : Meets (refusal o) (text e) fun _ => True :=
  hd.text_ends e (writtenSize_lt h)

lemma sumStep_ends {args : List Expr} (h : callDepth (termsSize (args.flatMap terms)) ≤ n + 1) :
    Meets (refusal o) (sumStep o product text args) (SumBound (termsSize (args.flatMap terms))) := by
  unfold callDepth at h
  unfold sumStep
  generalize args.flatMap terms = flat at h ⊢
  refine (collected_size flat).bind fun s hs => ?_
  unfold Collected.size at hs
  have hterms : Meets (refusal o)
      ((s.entries.filter fun p => !p.2.isZero).mapM fun p => product [.num p.2, p.1])
      (List.Forall₂ (fun p t => t.size.product ≤ p.1.size.product) (s.entries.filter fun p => !p.2.isZero)) := by
    refine meets_mapM fun p hmem => ?_
    have hle := product_le_entriesSize (List.mem_of_mem_filter hmem)
    have hsize : productSize [.num p.2, p.1] = p.1.size.product := by simp [productSize]
    exact hsize ▸ hd.product_ends _ (by unfold callDepth; omega)
  refine hterms.bind fun ts hts => ?_
  have hsize := (termsSize_le_entriesSize hts).trans (entriesSize_filter_le _ _)
  have hsort : Meets (refusal o) (sortTerms text ts) (·.Perm ts) := by
    refine meets_sortTerms fun e he _ => hd.text_of_size _ ?_
    have hc := coeffRest_product_le e
    have hm := product_le_termsSize he
    unfold callDepth
    omega
  refine hsort.bind fun us hperm => ?_
  rw [← termsSize_perm hperm] at hsize
  rw [meets_pure]
  split
  · next hc =>
    -- A number stands at the end: a kept one has the room of the term it comes from, a bare zero stands alone.
    rcases us with _ | ⟨u, us⟩
    · simp [SumBound, collapse]
    · have hn : numberSize s.number = 1 := by
        unfold numberSize
        rw [if_neg (by simpa using hc)]
      have hb := collapse_plus_bound (u :: us ++ [.num s.number]) (by simp)
      rw [termsSize_append] at hb
      simp only [SumBound, termsSize, size_num] at hb hsize ⊢
      omega
  · next hc =>
    have hb := collapse_plus_bound us (by rintro rfl; simp at hc)
    simp only [SumBound] at hb ⊢
    omega

lemma addExponent_size (base exponent : Expr) (entries : List (Expr × Expr))
    (h : callDepth (powersSize entries + powerSize (base, exponent)) ≤ n + 1) :
    Meets (refusal o) (addExponent sum base exponent entries)
      (powersSize · ≤ powersSize entries + powerSize (base, exponent)) := by
  induction entries with
  | nil => simp [addExponent, powersSize]
  | cons p entries ih =>
    obtain ⟨b, e⟩ := p
    simp only [callDepth, powersSize, List.map_cons, List.sum_cons] at h ih ⊢
    simp only [addExponent]
    split
    · next hb =>
      have hbase : b.size = base.size := size_eq_of_same b base hb
      have he := sum_pos e
      have hx := sum_le_base_mul base exponent
      have hy := sum_le_base_mul base e
      have hsum : sumSize [e, exponent] = e.size.sum + exponent.size.sum := by simp [sumSize]
      simp only [powerSize, hbase] at h ⊢
      refine (hd.sum_ends [e, exponent] (by unfold callDepth; omega)).bind fun r hr => ?_
      have hm : base.size.base * r.size.sum ≤ base.size.base * (e.size.sum + exponent.size.sum) := by
        refine Nat.mul_le_mul_left _ (hr.1.trans ?_)
        omega
      rw [Nat.mul_add] at hm
      simp only [meets_pure, List.map_cons, List.sum_cons, powerSize, hbase]
      omega
    · refine (ih (by omega)).bind fun es hes => ?_
      simp only [meets_pure, List.map_cons, List.sum_cons]
      omega

lemma push_gathered_size (s : Gathered) (e : Expr) (h : callDepth (s.size + e.size.factor) ≤ n + 1) :
    Meets (refusal o) (s.push o sum e) (·.size ≤ s.size + e.size.factor) := by
  unfold callDepth Gathered.size at h
  have hbase (hn : e.isNumber = false) : Meets (refusal o)
      (do return { s with bases := ← addExponent sum e.baseExponent.1 e.baseExponent.2 s.bases } : Calc Gathered)
      (·.size ≤ s.size + e.size.factor) := by
    have hf : e.size.factor = powerSize (e.baseExponent.1, e.baseExponent.2) := factor_eq hn
    refine (addExponent_size hd _ _ _ (by unfold callDepth; omega)).bind fun es hes => ?_
    simp only [meets_pure, Gathered.size]
    omega
  cases e with
  | num m =>
    refine (meets_mul refusal_overflow).bind fun x _ => ?_
    simp [Gathered.size]
  | call f a =>
    by_cases hf : f = .exp
    · subst hf
      simp only [Gathered.push, meets_pure, Gathered.size, exponentialsSize, List.map_append, List.sum_append,
        List.map_cons, List.map_nil, List.sum_cons, List.sum_nil, size, Size.atom]
      omega
    · have hpush : s.push o sum (.call f a) =
          (do return { s with bases := ← addExponent sum (call f a) (int 1) s.bases } : Calc Gathered) := by
        cases f <;> first | rfl | exact absurd rfl hf
      rw [hpush]
      exact hbase rfl
  | symbol | constant | plus | times | power => exact hbase rfl

lemma gathered_size (es : List Expr) (h : callDepth (factorsSize es) ≤ n + 1) :
    Meets (refusal o) (es.foldlM (Gathered.push o sum) ⟨.ofInt 1, [], []⟩) (·.size ≤ factorsSize es) := by
  unfold callDepth at h
  refine (meets_foldlM (fun rest s => s.size + factorsSize rest ≤ factorsSize es) ?_ ?_).mono fun s hs => ?_
  · intro e rest s hle
    simp only [factorsSize] at hle
    refine (push_gathered_size hd s e (by unfold callDepth; omega)).mono fun t ht => ?_
    omega
  · simp [Gathered.size, powersSize, exponentialsSize]
  · simpa [factorsSize] using hs

lemma mergeExponentials_size (s : Gathered) (h : callDepth s.size ≤ n + 1) :
    Meets (refusal o) (s.mergeExponentials o sum) fun g => g.bases = s.bases ∨
      ∃ e, g.bases = s.bases ++ [(e, int 1)] ∧ e.size.product ≤ exponentialsSize s.exponentials := by
  unfold callDepth Gathered.size at h
  unfold Gathered.mergeExponentials
  generalize s.exponentials = args at h ⊢
  split
  · exact Or.inl rfl
  · next a => exact putExponential_size s a
  · next hne hone =>
    have hsize : sumSize args + 8 ≤ exponentialsSize args := by
      rcases args with _ | ⟨a, _ | ⟨b, args⟩⟩
      · exact absurd rfl hne
      · exact (hone a rfl).elim
      · have hle : (args.map fun a => a.size.sum).sum ≤ (args.map fun a => a.size.sum + 4).sum :=
          List.sum_le_sum fun _ _ => Nat.le_add_right _ _
        simp only [exponentialsSize, sumSize_eq, List.map_cons, List.sum_cons]
        omega
    refine (hd.sum_ends args (by unfold callDepth; omega)).bind fun r hr => ?_
    refine (putExponential_size s r).mono fun g hg => hg.imp_right ?_
    rintro ⟨e, hb, he⟩
    have h1 := hr.1
    exact ⟨e, hb, by omega⟩

lemma powers_size (bases : List (Expr × Expr)) (h : callDepth (powersSize bases) ≤ n + 1) :
    Meets (refusal o) (bases.mapM fun p => pow p.1 p.2) (productSize · ≤ powersSize bases) := by
  unfold callDepth at h
  have hm : Meets (refusal o) (bases.mapM fun p => pow p.1 p.2)
      (List.Forall₂ (fun p r => r.size.product ≤ powerSize p) bases) := by
    refine meets_mapM fun p hmem => (hd.pow_ends p.1 p.2 ?_).mono fun r hr => hr.1
    have hle := powerSize_le_powersSize hmem
    simp only [callDepth, powerSize] at hle ⊢
    omega
  refine hm.mono fun built hb => ?_
  clear h hm
  induction hb with
  | nil => exact Nat.le_refl _
  | cons hr _ ih =>
    simp only [productSize, powersSize, List.map_cons, List.sum_cons] at ih ⊢
    omega

lemma built_size {bases bases' : List (Expr × Expr)} {m : Nat} (h : callDepth (powersSize bases + m) ≤ n + 1)
    (hb : bases' = bases ∨ ∃ e, bases' = bases ++ [(e, int 1)] ∧ e.size.product ≤ m) :
    Meets (refusal o) (bases'.mapM fun p => pow p.1 p.2) (productSize · ≤ powersSize bases + m) := by
  unfold callDepth at h
  have hbases := powers_size hd bases (by unfold callDepth; omega)
  rcases hb with rfl | ⟨e, rfl, he⟩
  · exact hbases.mono fun built hle => hle.trans (Nat.le_add_right _ _)
  · have hlast : Meets (refusal o) ([(e, int 1)].mapM fun p => pow p.1 p.2) (· = [e]) := by
      simp only [List.mapM_cons, List.mapM_nil, hd.pow_one (by omega)]
      rfl
    rw [List.mapM_append]
    refine hbases.bind fun built hle => hlast.bind fun tail htail => ?_
    simp only [productSize_eq] at hle
    simp only [htail, meets_pure, productSize_eq, List.map_append, List.sum_append, List.map_cons, List.map_nil,
      List.sum_cons, List.sum_nil]
    omega

lemma distributed_size {c : Number} {ts : List Expr} (h : callDepth (termsSize ts) ≤ n) :
    Meets (refusal o) (do sum (← ts.mapM fun t => product [.num c, t])) (SumBound (termsSize ts)) := by
  unfold callDepth at h
  have hm : Meets (refusal o) (ts.mapM fun t => product [.num c, t])
      (List.Forall₂ (fun t r => r.size.product ≤ t.size.product) ts) := by
    refine meets_mapM fun t hmem => ?_
    have hle := product_le_termsSize hmem
    have hsize : productSize [.num c, t] = t.size.product := by simp [productSize]
    exact hsize ▸ hd.product_ends _ (by unfold callDepth; omega)
  refine hm.bind fun us hus => ?_
  have hsize : sumSize us ≤ termsSize ts := by
    clear h hm
    induction hus with
    | nil => exact Nat.le_refl _
    | @cons t u ts us hu _ ih =>
      have hsum := sum_le u
      simp only [sumSize, termsSize] at ih ⊢
      omega
  refine (hd.sum_ends us (by unfold callDepth; omega)).mono fun r hr => ?_
  unfold SumBound at hr ⊢
  omega

lemma meets_sorted_factors {fs : List Expr} (hn : ∀ f ∈ fs, f.isNumber = false)
    (h : callDepth (factorsSize fs) ≤ n + 1) : Meets (refusal o) (sortFactors text fs) (·.Perm fs) := by
  unfold callDepth at h
  refine meets_sortFactors fun f hmem hlen => hd.text_of_size _ ?_
  obtain ⟨as, bs, rfl⟩ := List.append_of_mem hmem
  have hf := factor_eq (hn f hmem)
  have hb := base_le_base_mul f.baseExponent.1 f.baseExponent.2
  have hp := product_le_base f.baseExponent.1
  -- The text asked for is no longer than the factor; what is gained is that there is another factor.
  have hother : 3 ≤ factorsSize as + factorsSize bs := by
    rcases as with _ | ⟨a, as⟩
    · rcases bs with _ | ⟨b, bs⟩
      · simp at hlen
      · have h3 := three_le_factor (hn b (by simp))
        simp only [factorsSize]
        omega
    · have h3 := three_le_factor (hn a (by simp))
      simp only [factorsSize]
      omega
  simp only [factorsSize_append, factorsSize] at h
  unfold callDepth
  omega

lemma productStep_ends {args : List Expr} (h : callDepth (productSize args) ≤ n + 1) :
    Meets (refusal o) (productStep o sum product pow text args) (·.size.product ≤ productSize args) := by
  rw [← factorsSize_flatten] at h ⊢
  unfold callDepth at h
  unfold productStep
  generalize args.flatMap factors = flat at h ⊢
  refine (gathered_size hd flat h).bind fun g hg => ?_
  unfold Gathered.size at hg
  split
  · simp
  refine (mergeExponentials_size hd g (by unfold callDepth Gathered.size; omega)).bind fun g' hg' => ?_
  refine (built_size hd (by unfold callDepth; omega) hg').bind fun built hbuilt => ?_
  rw [← factorsSize_flatten] at hbuilt
  refine (absorb_size _ _).bind fun s hs' => ?_
  obtain ⟨coeff, fs⟩ := s
  obtain ⟨hle, hn⟩ : factorsSize fs ≤ factorsSize (built.flatMap factors) ∧ ∀ f ∈ fs, f.isNumber = false := hs'
  dsimp only
  split
  · simp
  split
  · next ts _ =>
    have hts : max 2 (termsSize ts) + 2 ≤ factorsSize flat := by
      simp only [factorsSize, size] at hle
      omega
    refine (distributed_size hd (by unfold callDepth; omega)).mono fun r hr => ?_
    have h2 := hr.2
    omega
  · refine (meets_sorted_factors hd hn (by unfold callDepth; omega)).bind fun us hperm => ?_
    have hc := collapse_times_size us
    rw [factorsSize_perm hperm] at hc
    rw [meets_pure]
    split
    · omega
    · have hc' := collapse_times_size (.num coeff :: us)
      rw [factorsSize, factorsSize_perm hperm] at hc'
      simp only [size_num] at hc'
      omega

lemma scaled_step {e : Expr} {k : Number} (h : callDepth e.size.product ≤ n + 1) :
    Meets (refusal o) (productStep o sum product pow text [e, .num k]) (·.size.sum ≤ e.size.sum) := by
  have hsize : productSize [e, .num k] = e.size.product := by simp [productSize]
  by_cases hlt : e.size.product + 1 ≤ e.size.sum
  · refine (productStep_ends hd (hsize ▸ h)).mono fun r hr => ?_
    have hsum := sum_le r
    omega
  cases e with
  | num | symbol | constant | times | power | call => simp [size, Size.atom] at hlt
  | plus ts =>
    -- The numbers are multiplied into the terms, or nothing happens to the sum.
    have hone : pow (.plus ts) (int 1) = pure (.plus ts) := hd.pow_one (by unfold callDepth at h; omega) _
    have hts : max 2 (termsSize ts) + 2 = (plus ts).size.product := rfl
    have hsum : (plus ts).size.sum = max 2 (termsSize ts) := rfl
    unfold productStep
    simp only [List.flatMap_cons, List.flatMap_nil, factors, List.append_nil, List.cons_append, List.nil_append,
      List.foldlM_cons, List.foldlM_nil, Gathered.push, addExponent, baseExponent, pure_bind, bind_pure, bind_assoc]
    refine (meets_mul refusal_overflow).bind fun x _ => ?_
    split
    · simp [sum_pos]
    · next hx =>
      simp only [Gathered.mergeExponentials, pure_bind, List.mapM_cons, List.mapM_nil, hone, List.flatMap_cons,
        List.flatMap_nil, factors, List.append_nil, List.foldlM_cons, List.foldlM_nil, absorb, List.nil_append,
        if_neg hx]
      cases x.isOne with
      | false =>
        refine (distributed_size hd (by unfold callDepth at h ⊢; omega)).mono fun r hr => ?_
        have h1 := hr.1
        omega
      | true =>
        have hfs : callDepth (factorsSize [plus ts]) ≤ n + 1 := h
        refine (meets_sorted_factors hd (by simp [isNumber]) hfs).bind fun us hperm => ?_
        rw [List.perm_singleton.mp hperm]
        exact Nat.le_refl _

omit hd in
lemma powerStep_one (b : Expr) : powerStep o product pow b (int 1) = .ok b := rfl

omit hd in
lemma ofFraction?_bound {n d : Int} {e : Expr} (h : Radical.ofFraction? n d = some e) :
    e.size.product ≤ 3 ∧ e.writtenRank ≤ 2 := by
  unfold Radical.ofFraction? at h
  split at h
  · cases h
  dsimp only at h
  split at h
  · cases h
    exact ⟨by simp, by simp [writtenRank]⟩
  split at h
  · cases h
    refine ⟨by simp [size, half, frac], ?_⟩
    simp only [writtenRank, half, frac, isNegativeNumber, Number.isNegative]
    decide
  · cases h
    refine ⟨by simp [size, half, frac, factorsSize], ?_⟩
    simp [writtenRank, half, frac, isNegativeNumber, Number.isNegative, isBelow]
    decide

omit hd in
lemma numericPower_bound (b e : Number) : Meets (refusal o) (numericPower o b e) fun r =>
    ∀ x, r = some x → x.size.product ≤ 3 ∧ x.writtenRank ≤ 2 := by
  unfold numericPower
  split
  · split
    · split
      · simp
      · refine (meets_powInt refusal_overflow).bind fun x _ => ?_
        simp [writtenRank]
    split
    · exact fun x hx => ofFraction?_bound hx
    split
    · exact fun x hx => ofFraction?_bound hx
    · simp
  · simp [real, writtenRank]

omit hd in
lemma foldPower_bound (b e : Expr) : Meets (refusal o) (foldPower o b e) fun r =>
    ∀ x, r = some x → x.size.product ≤ 3 ∧ x.writtenRank ≤ 2 := by
  unfold foldPower
  split
  · split
    · simp [writtenRank, int]
    · exact numericPower_bound _ _
  · simp

omit hd in
lemma exp_of_written (a : Expr) : (Func.exp.of a).writtenSize ≤ 4 * (a.size.sum + 4) := by
  have ha := sum_pos a
  unfold writtenSize
  rcases Func.exp.of_cases a with (⟨k, h, -⟩ | ⟨c, h⟩ | ⟨f, h⟩ | ⟨n, -, h⟩) | ⟨v, w, -, h⟩ | h
  · simp [h, int, writtenRank]
  · simp only [h, size, Size.atom, writtenRank]
    omega
  · have hb := product_le_sum (Func.exp.of a)
    have hr := writtenRank_le (Func.exp.of a)
    have hs : a.size.sum = (Func.exp.of a).size.sum + 5 := congrArg (·.size.sum) h
    omega
  · simp [h, writtenRank]
  · simp [h, real, writtenRank]
  · simp [h, size, Size.atom, writtenRank]

omit hd in
lemma exists_num_of_integer? {e : Expr} {k : Int} (h : e.integer? = some k) : ∃ m, e = .num m := by
  cases e with
  | num m => exact ⟨m, rfl⟩
  | symbol | constant | plus | times | power | call => simp [integer?] at h

lemma times_power_ends {fs : List Expr} {m : Number} (h : callDepth ((times fs).size.base) ≤ n + 1) :
    Meets (refusal o) (do product (← fs.mapM fun f => pow f (.num m))) (PowerBound (.times fs) (.num m)) := by
  simp only [callDepth, size] at h
  have hm : Meets (refusal o) (fs.mapM fun f => pow f (.num m))
      (List.Forall₂ (fun f r => r.size.product ≤ f.size.base + 1) fs) := by
    refine meets_mapM fun f hmem => (hd.pow_ends f (.num m) ?_).mono fun r hr => ?_
    · have hle := base_le_basesSize hmem
      simp only [callDepth, size_num]
      omega
    · simpa using hr.1
  refine hm.bind fun rs hrs => ?_
  have hsize : productSize rs ≤ basesSize fs := by
    clear h hm
    induction hrs with
    | nil => exact Nat.le_refl _
    | cons hr _ ih =>
      simp only [productSize, basesSize] at ih ⊢
      omega
  refine (hd.product_ends rs (by unfold callDepth; omega)).mono fun r hr => ?_
  have hk := writtenRank_le r
  simp only [PowerBound, size, writtenSize]
  refine ⟨by omega, fun _ _ => by omega⟩

lemma power_power_ends {b e : Expr} {m : Number} (h : callDepth ((power b e).size.base) ≤ n + 1) :
    Meets (refusal o) (do pow b (← product [e, .num m])) (PowerBound (.power b e) (.num m)) := by
  simp only [callDepth, size] at h
  have hb := sum_le_base_mul b e
  have he := product_le_two_mul_sum e
  refine (hd.scaled_ends e m (by unfold callDepth; omega)).bind fun x hx => ?_
  have hm : b.size.base * x.size.sum ≤ b.size.base * e.size.sum := Nat.mul_le_mul_left _ hx
  refine (hd.pow_ends b x (by unfold callDepth; omega)).mono fun r hr => ?_
  have hk := writtenRank_le r
  have h1 := hr.1
  simp only [PowerBound, size, writtenSize]
  refine ⟨by omega, fun _ _ => by omega⟩

lemma exp_power_ends {a : Expr} {m : Number} (h : callDepth ((call .exp a).size.base) ≤ n + 1) :
    Meets (refusal o) (do return Func.exp.of (← product [a, .num m])) (PowerBound (.call .exp a) (.num m)) := by
  simp only [callDepth, size, Size.atom] at h
  have ha := product_le_sum a
  refine (hd.scaled_ends a m (by unfold callDepth; omega)).bind fun x hx => ?_
  have hs := of_size .exp x
  have hw := exp_of_written x
  simp only [meets_pure, PowerBound, size, Size.atom]
  refine ⟨by omega, fun _ _ => by omega⟩

omit hd in
lemma e_power_bound (e : Expr) : PowerBound (.constant .e) e (Func.exp.of e) := by
  have he := sum_pos e
  have hs := of_size .exp e
  have hw := exp_of_written e
  simp only [PowerBound, size, Size.atom]
  refine ⟨by omega, fun hn _ => ?_⟩
  cases e with
  | num m =>
    simp only [size] at hw
    omega
  | symbol | constant | plus | times | power | call => cases hn

omit hd in
lemma power_bound (b e : Expr) : PowerBound b e (.power b e) := by
  refine ⟨Nat.le_refl _, fun hn hk => ?_⟩
  cases e with
  | num m => simp [writtenSize, size, writtenRank, hk]
  | symbol | constant | plus | times | power | call => cases hn

lemma distributePower_ends {b e : Expr} (h : callDepth (b.size.base * e.size.sum) ≤ n + 1) :
    Meets (refusal o) (distributePower product pow b e) (PowerBound b e) := by
  have hone (m : Number) : b.size.base * (num m).size.sum = b.size.base := by simp
  unfold distributePower
  split
  · exact e_power_bound e
  · next b e _ he =>
    obtain ⟨m, rfl⟩ := exists_num_of_integer? he
    exact power_power_ends hd (hone m ▸ h)
  · next fs _ he =>
    obtain ⟨m, rfl⟩ := exists_num_of_integer? he
    exact times_power_ends hd (hone m ▸ h)
  · next a _ he =>
    obtain ⟨m, rfl⟩ := exists_num_of_integer? he
    exact exp_power_ends hd (hone m ▸ h)
  · exact power_bound _ _

omit hd in
lemma writtenSize_le (e : Expr) : e.writtenSize ≤ 4 * (e.size.base + 1) := by
  have hp := product_le_base e
  have hr := writtenRank_le e
  cases e with
  | num | symbol | constant | plus | call =>
    simp only [writtenSize, writtenRank]
    omega
  | times fs =>
    have hle := factorsSize_le_basesSize fs fun f _ => factor_le_base f
    simp only [writtenSize, size] at hr ⊢
    omega
  | power b x =>
    simp only [writtenSize, size] at hr ⊢
    omega

lemma powerStep_ends {b e : Expr} (h : callDepth (b.size.base * e.size.sum) ≤ n + 1) :
    Meets (refusal o) (powerStep o product pow b e) (PowerBound b e) := by
  have hb := two_le_base b
  have hm := base_le_base_mul b e
  have hone : PowerBound b e (int 1) := ⟨by simp, fun _ _ => by simp [writtenSize, int, writtenRank]⟩
  unfold powerStep
  split
  · exact hone
  split
  · have hp := product_le_base b
    have hw := writtenSize_le b
    exact ⟨by omega, fun _ _ => by omega⟩
  split
  · exact hone
  refine (foldPower_bound b e).bind fun r hr => ?_
  split
  · obtain ⟨hp, hk⟩ := hr _ rfl
    refine ⟨by omega, fun _ _ => ?_⟩
    unfold writtenSize
    omega
  · exact distributePower_ends hd h

/-! ### The written form -/

/-- A factor can be written: as it stands above the line, or below it once the sign of its exponent is changed. -/
def FactorFits (n : Nat) : Expr → Prop
  | .num _ => True
  | .power b (.num k) =>
    if k.isNegative then 4 * (b.size.base + 1) + 3 ≤ n else (power b (.num k)).writtenSize < n
  | e => e.writtenSize < n

lemma push_fraction_ends {s : Fraction} {f : Expr} (hf : FactorFits n f)
    (hs : ∀ x ∈ s.above ++ s.below, x.writtenSize < n) :
    Meets (refusal o) (Fraction.push o pow s f) fun t => ∀ x ∈ t.above ++ t.below, x.writtenSize < n := by
  have habove (hn : f.writtenSize < n) : ∀ x ∈ (s.above ++ [f]) ++ s.below, x.writtenSize < n := by
    intro x hx
    simp only [List.append_assoc, List.mem_append, List.mem_singleton] at hx hs
    rcases hx with hx | rfl | hx
    · exact hs x (Or.inl hx)
    · exact hn
    · exact hs x (Or.inr hx)
  unfold Fraction.push
  split
  · exact (meets_mul refusal_overflow).bind fun x _ => hs
  · next b k =>
    split
    · next hk =>
      simp only [FactorFits, if_pos hk] at hf
      refine (meets_neg refusal_overflow).bind fun x hx => ?_
      have hneg : x.isNegative = false := hx ▸ Number.isNegative_neg hk
      refine (hd.pow_ends b (.num x) (by simp only [callDepth, size_num]; omega)).bind fun r hr => ?_
      have hr2 := hr.2 rfl hneg
      simp only [meets_pure, List.mem_append, List.mem_singleton] at hs ⊢
      rintro x (hx | hx | rfl)
      · exact hs x (Or.inl hx)
      · exact hs x (Or.inr hx)
      · omega
    · next hk =>
      simp only [FactorFits, if_neg hk] at hf
      exact habove hf
  · next hnum hpow =>
    refine habove ?_
    unfold FactorFits at hf
    split at hf
    · exact absurd rfl (hnum _)
    · exact absurd rfl (hpow _ _)
    · exact hf

lemma ofFactors_ends {fs : List Expr} (hf : ∀ f ∈ fs, FactorFits n f) :
    Meets (refusal o) (Fraction.ofFactors o pow fs) fun t => ∀ x ∈ t.above ++ t.below, x.writtenSize < n := by
  refine (meets_foldlM (fun rest s => (∀ f ∈ rest, FactorFits n f) ∧ ∀ x ∈ s.above ++ s.below, x.writtenSize < n)
    ?_ ?_).mono fun s hs => hs.2
  · rintro f rest s ⟨hrest, hs⟩
    refine (push_fraction_ends hd (hrest f List.mem_cons_self) hs).mono fun t ht => ⟨?_, ht⟩
    exact fun g hg => hrest g (List.mem_cons_of_mem f hg)
  · exact ⟨hf, by simp⟩

lemma factorText_ends {e : Expr} (h : e.writtenSize < n) : Meets (refusal o) (factorText text e) fun _ => True := by
  unfold factorText
  split
  · exact (hd.text_ends _ h).bind fun _ _ => trivial
  · exact hd.text_ends _ h

lemma factorTexts_end {es : List Expr} (h : ∀ e ∈ es, e.writtenSize < n) :
    Meets (refusal o) (es.mapM (factorText text)) fun _ => True := by
  have hm : Meets (refusal o) (es.mapM (factorText text)) (List.Forall₂ (fun _ _ => True) es) :=
    meets_mapM fun e he => factorText_ends hd (h e he)
  exact hm.mono fun _ _ => trivial

lemma denominatorText_ends {es : List Expr} (h : ∀ e ∈ es, e.writtenSize < n) :
    Meets (refusal o) (denominatorText text es) fun _ => True := by
  unfold denominatorText
  split
  · trivial
  · next fs => exact (hd.text_ends _ (h _ List.mem_cons_self)).bind fun _ _ => trivial
  · next e _ => exact (factorText_ends hd (h e List.mem_cons_self)).bind fun _ _ => trivial
  · exact (factorTexts_end hd h).bind fun _ _ => trivial

omit hd in
lemma forall_mem_numerator {P : Expr → Prop} {s : Fraction} {c : Number} (hc : P (.num c)) (h : ∀ e ∈ s.above, P e) :
    ∀ e ∈ s.numerator c, P e := by
  unfold Fraction.numerator
  split
  · exact h
  · exact List.forall_mem_cons.mpr ⟨hc, h⟩

omit hd in
lemma forall_mem_denominator {P : Expr → Prop} {s : Fraction} {c : Number} (hc : P (.num c)) (h : ∀ e ∈ s.below, P e) :
    ∀ e ∈ s.denominator c, P e := by
  unfold Fraction.denominator
  split
  · exact h
  · exact List.forall_mem_cons.mpr ⟨hc, h⟩

lemma productText_ends {fs : List Expr} (hn : 0 < n) (hf : ∀ f ∈ fs, FactorFits n f) :
    Meets (refusal o) (productText o pow text fs) fun _ => True := by
  have hnum (c : Number) : (num c).writtenSize < n := hn
  unfold productText
  refine (ofFactors_ends hd hf).bind fun s hs => ?_
  refine (meets_abs refusal_overflow).bind fun c _ => ?_
  rw [List.forall_mem_append] at hs
  refine (factorTexts_end hd (forall_mem_numerator (hnum _) hs.1)).bind fun _ _ => ?_
  exact (denominatorText_ends hd (forall_mem_denominator (hnum _) hs.2)).bind fun _ _ => trivial

omit hd in
lemma writtenSize_lt_factor {f : Expr} (h : f.isBelow = false) : f.writtenSize < 4 * f.size.factor + 2 := by
  cases f with
  | num | symbol | constant | plus | call =>
    simp only [writtenSize, writtenRank, size, Size.atom]
    omega
  | times fs =>
    have hle := factorsSize_le_basesSize fs fun f _ => factor_le_base f
    have hr := writtenRank_le (times fs)
    simp only [writtenSize, size] at hr ⊢
    omega
  | power b e =>
    have he : e.isNegativeNumber = false := h
    simp only [writtenSize, writtenRank, size, he]
    simp

omit hd in
lemma factorFits_of_size {f : Expr} (h : 4 * f.size.factor + (if f.isBelow then 3 else 2) ≤ n) : FactorFits n f := by
  have hlt (hb : f.isBelow = false) : f.writtenSize < n := by
    have hw := writtenSize_lt_factor hb
    rw [hb] at h
    simp only [Bool.false_eq_true, if_false] at h
    omega
  unfold FactorFits
  split
  · trivial
  · next b k =>
    split
    · next hk =>
      have hb : isBelow (power b (num k)) = true := hk
      rw [if_pos hb] at h
      simpa [size] using h
    · next hk => exact hlt (by simpa [isBelow, isNegativeNumber] using hk)
  · next hnum hpow =>
    refine hlt ?_
    unfold isBelow isNegativeNumber
    split
    · next b e =>
      split
      · exact absurd rfl (hpow _ _)
      · rfl
    · rfl

omit hd in
lemma factorsFit {fs : List Expr} (h : (times fs).writtenSize ≤ n) : ∀ f ∈ fs, FactorFits n f := by
  intro f hf
  refine factorFits_of_size ?_
  have hle := factor_le_factorsSize hf
  simp only [writtenSize, size, writtenRank] at h
  split
  · next hb =>
    rw [if_pos (List.any_eq_true.mpr ⟨f, hf, hb⟩)] at h
    omega
  · split at h <;> omega

omit hd in
lemma power_fits {b e : Expr} (h : (power b e).writtenSize ≤ n) :
    b.writtenSize < n ∧ e.writtenSize < n ∧ (e.isNegativeNumber = true → FactorFits n (.power b e)) := by
  have hs := sum_pos e
  have hm := sum_le_base_mul b e
  have hm' := base_le_base_mul b e
  have hb := writtenSize_le b
  have he := product_le_two_mul_sum e
  have hr := writtenRank_le e
  simp only [writtenSize, size, writtenRank] at h
  refine ⟨by split at h <;> omega, by unfold writtenSize; split at h <;> omega, fun hk => factorFits_of_size ?_⟩
  have hbelow : isBelow (power b e) = true := hk
  rw [if_pos hk] at h
  rw [if_pos hbelow]
  exact h

lemma powerText_ends {b e : Expr} (h : (power b e).writtenSize ≤ n) :
    Meets (refusal o) (powerText o pow text b e) fun _ => True := by
  obtain ⟨hb, he, hbelow⟩ := power_fits h
  unfold powerText
  split
  · exact (hd.text_ends b hb).bind fun _ _ => trivial
  split
  · next hk => exact productText_ends hd (by omega) (List.forall_mem_singleton.mpr (hbelow hk))
  · exact (hd.text_ends b hb).bind fun _ _ => (hd.text_ends e he).bind fun _ _ => trivial

lemma restText_ends {t : Expr} (h : callDepth t.size.product ≤ n) :
    Meets (refusal o) (restText product text t) fun _ => True := by
  unfold restText
  split
  · have hsize : productSize [int (-1), t] = t.size.product := by simp [productSize]
    refine (hd.product_ends [int (-1), t] (hsize ▸ h)).bind fun r hr => ?_
    refine (hd.text_of_size r ?_).bind fun _ _ => trivial
    unfold callDepth at h ⊢
    omega
  · exact (hd.text_of_size t h).bind fun _ _ => trivial

lemma textStep_ends {e : Expr} (h : e.writtenSize < n + 1) :
    Meets (refusal o) (textStep o product pow text e) fun _ => True := by
  unfold textStep
  split
  · trivial
  · trivial
  · trivial
  · trivial
  · trivial
  · next t ts =>
    have hterm : ∀ x ∈ t :: ts, callDepth x.size.product ≤ n := by
      intro x hx
      have hle := product_le_termsSize hx
      simp only [writtenSize, size] at h
      unfold callDepth
      omega
    have hrest : Meets (refusal o) (ts.mapM (restText product text)) (List.Forall₂ (fun _ _ => True) ts) :=
      meets_mapM fun x hx => restText_ends hd (hterm x (List.mem_cons_of_mem t hx))
    refine (hd.text_of_size t (hterm t List.mem_cons_self)).bind fun _ _ => ?_
    exact hrest.bind fun _ _ => trivial
  · next fs =>
    have hn : 0 < (times fs).writtenRank := by simp only [writtenRank]; split <;> omega
    exact productText_ends hd (by unfold writtenSize at h; omega) (factorsFit (Nat.lt_succ_iff.mp h))
  · exact powerText_ends hd (Nat.lt_succ_iff.mp h)
  · next f a => exact (hd.text_ends a (Nat.lt_of_lt_of_le (arg_writtenSize f a) (Nat.lt_succ_iff.mp h))).bind fun _ _ => trivial

lemma Ends.step : Ends o (n + 1) (sumStep o product text) (productStep o sum product pow text)
    (powerStep o product pow) (textStep o product pow text) where
  sum_ends args h := by
    have hle := termsSize_flatten args
    refine (sumStep_ends hd (by unfold callDepth at h ⊢; omega)).mono fun r hr => ?_
    unfold SumBound at hr ⊢
    omega
  product_ends _ h := productStep_ends hd h
  scaled_ends _ _ h := scaled_step hd h
  pow_ends _ _ h := powerStep_ends hd h
  pow_one _ b := powerStep_one b
  text_ends _ h := textStep_ends hd h

omit hd in
lemma ends_at : (n : Nat) → Ends o n (sumAt o n) (productAt o n) (powerAt o n) (textAt o n)
  | 0 => ⟨fun _ h => absurd h (Nat.not_succ_le_zero _), fun _ h => absurd h (Nat.not_succ_le_zero _),
      fun _ _ h => absurd h (Nat.not_succ_le_zero _), fun _ _ h => absurd h (Nat.not_succ_le_zero _),
      fun h => absurd h (Nat.lt_irrefl 0), fun _ h => absurd h (Nat.not_lt_zero _)⟩
  | n + 1 => (ends_at n).step

omit hd

lemma sum_ends (o : Overflow) (args : List Expr) : Meets (refusal o) (Expr.sum o args) (SumBound (sumSize args)) :=
  (ends_at _).sum_ends args (Nat.le_refl _)

lemma product_ends (o : Overflow) (args : List Expr) :
    Meets (refusal o) (Expr.product o args) (·.size.product ≤ productSize args) :=
  (ends_at _).product_ends args (Nat.le_refl _)

lemma pow_ends (o : Overflow) (b e : Expr) : Meets (refusal o) (Expr.pow o b e) (PowerBound b e) :=
  (ends_at _).pow_ends b e (Nat.le_refl _)

lemma text_ends (o : Overflow) (e : Expr) : Meets (refusal o) (Expr.text o e) fun _ => True :=
  (ends_at _).text_of_size e (Nat.le_refl _)

/-- The constructors with the depths they allot themselves end at any depth of the calls around them. -/
lemma ends_allotted (o : Overflow) (n : Nat) : Ends o n (Expr.sum o) (Expr.product o) (Expr.pow o) (Expr.text o) where
  sum_ends args _ := sum_ends o args
  product_ends args _ := product_ends o args
  scaled_ends e k _ := by
    have hsize : productSize [e, .num k] = e.size.product := by simp [productSize]
    exact (ends_at _).scaled_ends e k (by rw [hsize])
  pow_ends b e _ := pow_ends o b e
  pow_one _ b := (ends_at _).pow_one (Nat.succ_pos _) b
  text_ends e _ := text_ends o e

end PlaneCalculus.Expr
