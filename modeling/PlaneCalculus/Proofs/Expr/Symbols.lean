import PlaneCalculus.Proofs.Expr.Agreement
import PlaneCalculus.Proofs.Expr.Gathering
import PlaneCalculus.Proofs.Expr.Kept

/-! The symbols of what the constructors build are symbols of the operands. Like terms and like bases are merged, taken
apart and built anew on the way, but no step brings in a symbol. -/

namespace PlaneCalculus.Expr

open Calc

/-- At a symbol, that it is one of the given ones. -/
def SymbolNode (S : String → Prop) : Expr → Prop
  | .symbol s => S s
  | _ => True

variable {S : String → Prop}

mutual

lemma everywhere_symbolNode : (e : Expr) → (Everywhere (SymbolNode S) e ↔ ∀ s ∈ e.occurrences, S s)
  | .num _ | .constant _ => by simp [Everywhere, SymbolNode, occurrences]
  | .symbol _ => by simp [Everywhere, SymbolNode, occurrences]
  | .plus ts => by simpa [Everywhere, SymbolNode, occurrences] using everywhereAll_symbolNode ts
  | .times fs => by simpa [Everywhere, SymbolNode, occurrences] using everywhereAll_symbolNode fs
  | .power b e => by
    rw [occurrences, List.forall_mem_append, ← everywhere_symbolNode b, ← everywhere_symbolNode e]
    simp [SymbolNode]
  | .call _ a => by simpa [SymbolNode, occurrences] using everywhere_symbolNode a

lemma everywhereAll_symbolNode : (es : List Expr) →
    (EverywhereAll (SymbolNode S) es ↔ ∀ s ∈ occurrencesAll es, S s)
  | [] => by simp [EverywhereAll, occurrencesAll]
  | e :: es => by
    rw [occurrencesAll, List.forall_mem_append, ← everywhere_symbolNode e, ← everywhereAll_symbolNode es]
    rfl

end

/-- No other symbols occur than the given ones. -/
abbrev SymbolsIn (S : String → Prop) : Expr → Prop := Everywhere (SymbolNode S)

lemma symbolsIn_num (n : Number) : SymbolsIn S (.num n) := trivial

lemma of_symbols (f : Func) {a : Expr} (ha : SymbolsIn S a) : SymbolsIn S (f.of a) := by
  rcases f.of_cases a with (⟨k, h, -⟩ | ⟨c, h⟩ | ⟨g, h⟩ | ⟨n, -, h⟩) | ⟨v, w, -, h⟩ | h
  · exact h ▸ symbolsIn_num _
  · exact h ▸ trivial
  · rw [h] at ha
    exact ha.2
  · exact h ▸ symbolsIn_num _
  · exact h ▸ symbolsIn_num _
  · exact h ▸ ⟨trivial, ha⟩

/-! ### Sums -/

lemma terms_symbols {e : Expr} (h : SymbolsIn S e) : ∀ t ∈ e.terms, SymbolsIn S t := by
  cases e with
  | plus ts => exact ((everywhere_plus ts).mp h).2
  | num | symbol | constant | times | power | call => exact List.forall_mem_singleton.mpr h

lemma factors_symbols {e : Expr} (h : SymbolsIn S e) : ∀ f ∈ e.factors, SymbolsIn S f := by
  cases e with
  | times fs => exact ((everywhere_times fs).mp h).2
  | num | symbol | constant | plus | power | call => exact List.forall_mem_singleton.mpr h

lemma coeffRest_symbols {e : Expr} (h : SymbolsIn S e) : SymbolsIn S e.coeffRest.2 := by
  unfold Expr.coeffRest
  split
  · exact ((everywhere_times _).mp h).2 _ (by simp)
  · exact (everywhere_times _).mpr ⟨trivial, fun f hf => ((everywhere_times _).mp h).2 f (List.mem_cons_of_mem _ hf)⟩
  · exact symbolsIn_num _
  · exact h

variable {o : Overflow} {sum product : List Expr → Calc Expr} {pow : Expr → Expr → Calc Expr} {text : Expr → Calc String}

lemma addCoefficient_symbols {rest : Expr} (hr : SymbolsIn S rest) (c : Number) {entries : List (Expr × Number)}
    (h : ∀ p ∈ entries, SymbolsIn S p.1) :
    Meets anyHalt (addCoefficient o rest c entries) fun out => ∀ p ∈ out, SymbolsIn S p.1 := by
  induction entries with
  | nil => simpa [addCoefficient] using hr
  | cons p entries ih =>
    rw [List.forall_mem_cons] at h
    unfold addCoefficient
    split
    · exact (meets_anyHalt_true _).bind fun n _ => List.forall_mem_cons.mpr ⟨h.1, h.2⟩
    · exact (ih h.2).bind fun out hout => List.forall_mem_cons.mpr ⟨h.1, hout⟩

lemma collected_symbols {es : List Expr} (h : ∀ e ∈ es, SymbolsIn S e) :
    Meets anyHalt (es.foldlM (Collected.push o) ⟨.ofInt 0, []⟩) fun s => ∀ p ∈ s.entries, SymbolsIn S p.1 := by
  refine (meets_foldlM (fun rest s => (∀ e ∈ rest, SymbolsIn S e) ∧ ∀ p ∈ s.entries, SymbolsIn S p.1)
    ?_ ?_).mono fun s hs => hs.2
  · rintro e rest s ⟨hrest, hs⟩
    rw [List.forall_mem_cons] at hrest
    have hentries := addCoefficient_symbols (o := o) (coeffRest_symbols hrest.1) e.coeffRest.1 hs
    have hterm : Meets anyHalt
        (do return { s with entries := ← addCoefficient o e.coeffRest.2 e.coeffRest.1 s.entries } : Calc Collected)
        fun s => (∀ e ∈ rest, SymbolsIn S e) ∧ ∀ p ∈ s.entries, SymbolsIn S p.1 :=
      hentries.bind fun out hout => ⟨hrest.2, hout⟩
    cases e with
    | num n => exact (meets_anyHalt_true _).bind fun m _ => ⟨hrest.2, hs⟩
    | symbol | constant | plus | times | power | call => exact hterm
  · exact ⟨h, nofun⟩

lemma collapse_symbols {k : Int} {node : List Expr → Expr} {es : List Expr} (h : ∀ e ∈ es, SymbolsIn S e)
    (hnode : SymbolsIn S (node es)) : SymbolsIn S (collapse k node es) := by
  rcases es with _ | ⟨e, _ | ⟨f, es⟩⟩
  · exact symbolsIn_num _
  · exact h e List.mem_cons_self
  · exact hnode

structure KeepsSymbols (S : String → Prop) (sum product : List Expr → Calc Expr) (pow : Expr → Expr → Calc Expr) :
    Prop where
  sum_symbols : ∀ args, (∀ e ∈ args, SymbolsIn S e) → Meets anyHalt (sum args) (SymbolsIn S)
  product_symbols : ∀ args, (∀ e ∈ args, SymbolsIn S e) → Meets anyHalt (product args) (SymbolsIn S)
  pow_symbols : ∀ b e, SymbolsIn S b → SymbolsIn S e → Meets anyHalt (pow b e) (SymbolsIn S)

variable (K : KeepsSymbols S sum product pow)
include K

lemma KeepsSymbols.scaled (c : Number) {e : Expr} (h : SymbolsIn S e) : Meets anyHalt (product [.num c, e]) (SymbolsIn S) :=
  K.product_symbols _ (by simpa using ⟨symbolsIn_num c, h⟩)

lemma sumStep_symbols {args : List Expr} (h : ∀ e ∈ args, SymbolsIn S e) :
    Meets anyHalt (sumStep o product text args) (SymbolsIn S) := by
  have hterms : ∀ t ∈ args.flatMap terms, SymbolsIn S t := by
    intro t ht
    obtain ⟨e, he, ht⟩ := List.mem_flatMap.mp ht
    exact terms_symbols (h e he) t ht
  refine (collected_symbols hterms).bind fun s hs => ?_
  have hbuilt : Meets anyHalt ((s.entries.filter fun p => !p.2.isZero).mapM fun p => product [.num p.2, p.1])
      fun ts => ∀ t ∈ ts, SymbolsIn S t :=
    meets_mapM_forall fun p hp => K.scaled p.2 (hs p (List.mem_filter.mp hp).1)
  refine hbuilt.bind fun ts hts => (meets_sortTerms_perm text ts).bind fun us hperm => ?_
  have hus : ∀ u ∈ us, SymbolsIn S u := fun u hu => hts u (hperm.mem_iff.mp hu)
  have hall : ∀ u ∈ if !s.number.isZero || us.isEmpty then us ++ [.num s.number] else us, SymbolsIn S u := by
    split
    · exact List.forall_mem_append.mpr ⟨hus, by simpa using symbolsIn_num s.number⟩
    · exact hus
  exact collapse_symbols hall ((everywhere_plus _).mpr ⟨trivial, hall⟩)

/-! ### Products and powers -/

omit K in
lemma keepsGathered_symbols : KeepsGathered o (SymbolsIn S) where
  mul _ _ _ _ := (meets_anyHalt_true _).mono fun _ _ => symbolsIn_num _
  one := symbolsIn_num _
  base e h := by
    cases e with
    | power b e => exact h.2
    | num | symbol | constant | plus | times | call => exact ⟨h, symbolsIn_num _⟩
  arg _ h := h.2
  exp _ h := of_symbols .exp h

lemma finishProduct_symbols {c : Number} {fs : List Expr} (h : ∀ f ∈ fs, SymbolsIn S f) :
    Meets anyHalt (finishProduct sum product text (c, fs)) (SymbolsIn S) := by
  unfold finishProduct
  split
  · exact symbolsIn_num c
  · split
    · next ts hts _ =>
      cases hts
      have hall := terms_symbols (h _ List.mem_cons_self)
      have hscaled : Meets anyHalt (ts.mapM fun t => product [.num c, t]) fun us => ∀ u ∈ us, SymbolsIn S u :=
        meets_mapM_forall fun t ht => K.scaled c (hall t ht)
      exact hscaled.bind fun us hus => K.sum_symbols us hus
    · refine (meets_sortFactors_perm text fs).bind fun gs hperm => ?_
      have hgs : ∀ g ∈ gs, SymbolsIn S g := fun g hg => h g (hperm.mem_iff.mp hg)
      have hall : ∀ g ∈ if c.isOne then gs else .num c :: gs, SymbolsIn S g := by
        split
        · exact hgs
        · exact List.forall_mem_cons.mpr ⟨symbolsIn_num c, hgs⟩
      exact collapse_symbols hall ((everywhere_times _).mpr ⟨trivial, hall⟩)

omit K in
lemma ofFraction?_symbols {n d : Int} {r : Expr} (h : Radical.ofFraction? n d = some r) : SymbolsIn S r := by
  have hroot (k : Int) : SymbolsIn S (.power (int k) half) := ⟨trivial, symbolsIn_num _, symbolsIn_num _⟩
  unfold Radical.ofFraction? at h
  split at h
  · cases h
  · dsimp only at h
    split at h
    · cases h
      exact symbolsIn_num _
    · split at h <;> cases h
      · exact hroot _
      · exact (everywhere_times _).mpr ⟨trivial, by simpa using ⟨symbolsIn_num _, hroot _⟩⟩

omit K in
lemma foldPower_symbols (b e : Expr) : Meets anyHalt (foldPower o b e) fun r => ∀ x, r = some x → SymbolsIn S x := by
  have hnum {n : Number} : ∀ x, some (num n) = some x → SymbolsIn S x := by
    rintro x ⟨⟩
    exact symbolsIn_num n
  unfold foldPower
  split
  · split
    · exact hnum
    · unfold numericPower
      split
      · split
        · split
          · nofun
          · exact (meets_anyHalt_true _).bind fun n _ => hnum
        · split
          · exact fun x hx => ofFraction?_symbols hx
          · split
            · exact fun x hx => ofFraction?_symbols hx
            · nofun
      · exact hnum
  · nofun

lemma distributePower_symbols {b e : Expr} (hb : SymbolsIn S b) (he : SymbolsIn S e) :
    Meets anyHalt (distributePower product pow b e) (SymbolsIn S) := by
  have hscaled {x : Expr} (hx : SymbolsIn S x) : Meets anyHalt (product [x, e]) (SymbolsIn S) :=
    K.product_symbols _ (by simpa using ⟨hx, he⟩)
  unfold distributePower
  split
  · exact of_symbols .exp he
  · next b x _ _ => exact (hscaled hb.2.2).bind fun y hy => K.pow_symbols b y hb.2.1 hy
  · have hpowers := meets_mapM_forall fun f hf => K.pow_symbols f e (factors_symbols hb f hf) he
    exact hpowers.bind fun gs hgs => K.product_symbols gs hgs
  · exact (hscaled hb.2).bind fun y hy => of_symbols .exp hy
  · exact ⟨trivial, hb, he⟩

lemma powerStep_symbols {b e : Expr} (hb : SymbolsIn S b) (he : SymbolsIn S e) :
    Meets anyHalt (powerStep o product pow b e) (SymbolsIn S) := by
  unfold powerStep
  split
  · exact symbolsIn_num _
  split
  · exact hb
  split
  · exact symbolsIn_num _
  refine (foldPower_symbols (S := S) b e).bind fun r hr => ?_
  cases r with
  | some x => exact hr x rfl
  | none => exact distributePower_symbols K hb he

omit K

/-! ### Every depth -/

lemma keepsSymbols_at (o : Overflow) (n : Nat) : KeepsSymbols S (sumAt o n) (productAt o n) (powerAt o n) := by
  induction n with
  | zero => exact ⟨fun _ _ => trivial, fun _ _ => trivial, fun _ _ _ _ => trivial⟩
  | succ n K =>
    exact
      { sum_symbols := fun _ => sumStep_symbols K
        product_symbols := fun _ => productStep_gathered (keepsGathered_symbols.law K.sum_symbols) (fun _ h => h)
          (fun _ _ => symbolsIn_num _) (fun _ => factors_symbols) (fun b e h => K.pow_symbols b e h.1 h.2)
          fun c fs _ hfs => finishProduct_symbols K fun f hf => (hfs f hf).1
        pow_symbols := fun _ _ => powerStep_symbols K }

lemma symbols_kept : Kept o (SymbolsIn S) where
  int _ := symbolsIn_num _
  half := symbolsIn_num _
  sum h := (keepsSymbols_at o _).sum_symbols _ h
  product h := (keepsSymbols_at o _).product_symbols _ h
  pow hb he := (keepsSymbols_at o _).pow_symbols _ _ hb he
  of := of_symbols
  plus := terms_symbols
  times := factors_symbols
  power h := h.2
  call h := h.2

end PlaneCalculus.Expr
