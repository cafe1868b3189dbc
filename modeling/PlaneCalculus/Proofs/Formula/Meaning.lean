import PlaneCalculus.Formula.Meaning
import PlaneCalculus.Proofs.Expr.Agreement
import PlaneCalculus.Proofs.Formula.Completeness

/-! The expression read from a text is the fold of the one derivation that the grammar gives it. -/

namespace PlaneCalculus.Formula

open Calc

/-! ### Chains as lists -/

def SumForm.first : SumForm → ProductForm
  | .single t => t
  | .chain s _ _ => s.first

def SumForm.rest : SumForm → List (Sign × ProductForm)
  | .single _ => []
  | .chain s sign t => s.rest ++ [(sign, t)]

def ProductForm.first : ProductForm → SignedForm
  | .single u => u
  | .chain p _ _ => p.first

def ProductForm.rest : ProductForm → List (Factoring × SignedForm)
  | .single _ => []
  | .chain p op u => p.rest ++ [(op, u)]

def SignedForm.signs : SignedForm → List Sign
  | .bare _ => []
  | .signed sign u => sign :: u.signs

def SignedForm.body : SignedForm → PowerForm
  | .bare p => p
  | .signed _ u => u.body

def Sign.combine (o : Overflow) : Sign → Expr → Expr → Calc Expr
  | .plus, a, b => Expr.sum o [a, b]
  | .minus, a, b => Expr.sub o a b

def Factoring.combine (o : Overflow) : Factoring → Expr → Expr → Calc Expr
  | .times, a, b => Expr.product o [a, b]
  | .over, a, b => Expr.div o a b

variable {o : Overflow}

lemma SumForm.toExpr_chain (s : SumForm) (sign : Sign) (t : ProductForm) :
    (SumForm.chain s sign t).toExpr o = (do
      let a ← s.toExpr o
      let b ← t.toExpr o
      liftM (sign.combine o a b)) := by
  cases sign <;> rw [SumForm.toExpr] <;> rfl

lemma ProductForm.toExpr_chain (p : ProductForm) (op : Factoring) (u : SignedForm) :
    (ProductForm.chain p op u).toExpr o = (do
      let a ← p.toExpr o
      let b ← u.toExpr o false
      liftM (op.combine o a b)) := by
  cases op <;> rw [ProductForm.toExpr] <;> rfl

def addTerm (o : Overflow) (a : Expr) (x : Sign × ProductForm) : Outcome Expr := do
  let b ← x.2.toExpr o
  liftM (x.1.combine o a b)

def addFactor (o : Overflow) (a : Expr) (x : Factoring × SignedForm) : Outcome Expr := do
  let b ← x.2.toExpr o false
  liftM (x.1.combine o a b)

lemma SumForm.toExpr_eq_foldlM : (s : SumForm) → s.toExpr o = s.first.toExpr o >>= s.rest.foldlM (addTerm o)
  | .single t => by
    rw [SumForm.toExpr]
    exact (bind_pure _).symm
  | .chain s sign t => by
    rw [toExpr_chain, SumForm.toExpr_eq_foldlM s, SumForm.rest, SumForm.first, bind_assoc]
    simp only [List.foldlM_append, List.foldlM_cons, List.foldlM_nil, bind_pure, addTerm]

lemma ProductForm.toExpr_eq_foldlM : (p : ProductForm) →
    p.toExpr o = p.first.toExpr o false >>= p.rest.foldlM (addFactor o)
  | .single u => by
    rw [ProductForm.toExpr]
    exact (bind_pure _).symm
  | .chain p op u => by
    rw [toExpr_chain, ProductForm.toExpr_eq_foldlM p, ProductForm.rest, ProductForm.first, bind_assoc]
    simp only [List.foldlM_append, List.foldlM_cons, List.foldlM_nil, bind_pure, addFactor]

/-- The flag keeps the parity of the minus signs passed so far. -/
lemma SignedForm.toExpr_eq : (u : SignedForm) → (negative : Bool) →
    u.toExpr o negative = (do
      let e ← u.body.toExpr o
      if (negative != (u.signs.count .minus % 2 = 1)) = true then liftM (Expr.neg o e) else return e)
  | .bare p, negative => by
    rw [SignedForm.toExpr]
    cases negative <;> rfl
  | .signed sign u, negative => by
    rw [SignedForm.toExpr, SignedForm.toExpr_eq u, SignedForm.signs, SignedForm.body]
    congr 1
    funext e
    congr 1
    cases sign with
    | plus => simp
    | minus =>
      rcases Nat.mod_two_eq_zero_or_one (u.signs.count .minus) with h | h <;> simp [h, Nat.add_mod]

/-! ### Misused names -/

def IsFunctionName (name : String) : Prop := name = rootName ∨ ∃ f : Func, f.name = name

lemma ofName?_eq_none_iff (name : String) : Func.ofName? name = none ↔ ∀ f : Func, f.name ≠ name := by
  simp [Func.ofName?, List.find?_eq_none, Func.mem_all]

lemma isFunctionName_iff (name : String) :
    IsFunctionName name ↔ name = rootName ∨ (Func.ofName? name).isSome = true := by
  rw [IsFunctionName, Option.isSome_iff_ne_none, ne_eq, ofName?_eq_none_iff]
  simp only [not_forall, not_not]

instance (name : String) : Decidable (IsFunctionName name) := decidable_of_iff _ (isFunctionName_iff name).symm

mutual

/-- The misused names, in the order in which they are met. -/
def SumForm.misuses : SumForm → List CalcError
  | .single t => t.misuses
  | .chain s _ t => s.misuses ++ t.misuses

def ProductForm.misuses : ProductForm → List CalcError
  | .single u => u.misuses
  | .chain p _ u => p.misuses ++ u.misuses

def SignedForm.misuses : SignedForm → List CalcError
  | .bare p => p.misuses
  | .signed _ u => u.misuses

def PowerForm.misuses : PowerForm → List CalcError
  | .single a => a.misuses
  | .raised a u => a.misuses ++ u.misuses

def AtomForm.misuses : AtomForm → List CalcError
  | .number _ => []
  | .call name s => s.misuses ++ if IsFunctionName name then [] else [.notAFunction name]
  | .name name => if IsFunctionName name then [.missingArgument name] else []
  | .group s => s.misuses

end

/-- The reading fails at the first of the given errors, and has a value when there are none. -/
def FailsAt {α : Type} (errors : List CalcError) (r : Outcome α) : Prop :=
  match errors with
  | [] => ∃ a, r = .ok a
  | e :: _ => r = .error e

lemma FailsAt.bind {α β : Type} {es es' : List CalcError} {r : Outcome α} {f : α → Outcome β} (h : FailsAt es r)
    (hf : ∀ a, FailsAt es' (f a)) : FailsAt (es ++ es') (r >>= f) := by
  cases es with
  | nil =>
    obtain ⟨a, rfl⟩ := h
    exact hf a
  | cons e es =>
    cases h
    rfl

lemma failsAt_consistent {c : Overflow → Calc Expr} (h : Consistent c) :
    FailsAt [] (liftM (c .approximate) : Outcome Expr) := by
  obtain ⟨a, ha, -⟩ := (h.ends .approximate).exists_value
  rw [ha]
  exact ⟨a, rfl⟩

lemma Sign.combine_consistent (sign : Sign) (a b : Expr) : Consistent (sign.combine · a b) := by
  cases sign with
  | plus => exact Expr.sum_consistent _
  | minus => exact Expr.sub_consistent a b

lemma Factoring.combine_consistent (op : Factoring) (a b : Expr) : Consistent (op.combine · a b) := by
  cases op with
  | times => exact Expr.product_consistent _
  | «over» => exact Expr.div_consistent a b

lemma failsAt_ofName (name : String) :
    FailsAt (if IsFunctionName name then [.missingArgument name] else []) (ofName name) := by
  unfold ofName
  by_cases hpi : name = "pi"
  · rw [if_pos hpi, if_neg (by subst hpi; decide)]
    exact ⟨_, rfl⟩
  by_cases he : name = "E"
  · rw [if_neg hpi, if_pos he, if_neg (by subst he; decide)]
    exact ⟨_, rfl⟩
  rw [if_neg hpi, if_neg he]
  by_cases h : IsFunctionName name
  · rw [if_pos h, if_pos ((isFunctionName_iff name).mp h)]
    rfl
  · rw [if_neg h, if_neg fun h' => h ((isFunctionName_iff name).mpr h')]
    exact ⟨_, rfl⟩

lemma failsAt_ofCall (name : String) (a : Expr) :
    FailsAt (if IsFunctionName name then [] else [.notAFunction name]) (ofCall .approximate name a) := by
  unfold ofCall
  by_cases hroot : name = rootName
  · rw [if_pos hroot, if_pos (show IsFunctionName name from Or.inl hroot)]
    exact failsAt_consistent (Expr.pow_consistent a Expr.half)
  rw [if_neg hroot]
  cases hf : Func.ofName? name with
  | some f =>
    rw [if_pos ((isFunctionName_iff name).mpr (Or.inr (by rw [hf]; rfl)))]
    exact ⟨_, rfl⟩
  | none =>
    rw [if_neg (by simp [isFunctionName_iff, hroot, hf])]
    rfl

mutual

lemma SumForm.failsAt : (s : SumForm) → FailsAt s.misuses (s.toExpr .approximate)
  | .single t => by
    rw [SumForm.toExpr, SumForm.misuses]
    exact t.failsAt
  | .chain s sign t => by
    rw [SumForm.toExpr_chain, SumForm.misuses]
    refine s.failsAt.bind fun a => ?_
    rw [← List.append_nil t.misuses]
    exact t.failsAt.bind fun b => failsAt_consistent (sign.combine_consistent a b)

lemma ProductForm.failsAt : (p : ProductForm) → FailsAt p.misuses (p.toExpr .approximate)
  | .single u => by
    rw [ProductForm.toExpr, ProductForm.misuses]
    exact u.failsAt false
  | .chain p op u => by
    rw [ProductForm.toExpr_chain, ProductForm.misuses]
    refine p.failsAt.bind fun a => ?_
    rw [← List.append_nil u.misuses]
    exact (u.failsAt false).bind fun b => failsAt_consistent (op.combine_consistent a b)

lemma SignedForm.failsAt : (u : SignedForm) → (negative : Bool) → FailsAt u.misuses (u.toExpr .approximate negative)
  | .bare p, negative => by
    rw [SignedForm.toExpr, SignedForm.misuses, ← List.append_nil p.misuses]
    refine p.failsAt.bind fun e => ?_
    cases negative with
    | true => exact failsAt_consistent (Expr.neg_consistent e)
    | false => exact ⟨e, rfl⟩
  | .signed sign u, negative => by
    rw [SignedForm.toExpr, SignedForm.misuses]
    exact u.failsAt _

lemma PowerForm.failsAt : (p : PowerForm) → FailsAt p.misuses (p.toExpr .approximate)
  | .single a => by
    rw [PowerForm.toExpr, PowerForm.misuses]
    exact a.failsAt
  | .raised a u => by
    rw [PowerForm.toExpr, PowerForm.misuses]
    refine a.failsAt.bind fun b => ?_
    rw [← List.append_nil u.misuses]
    exact (u.failsAt false).bind fun e => failsAt_consistent (Expr.pow_consistent b e)

lemma AtomForm.failsAt : (a : AtomForm) → FailsAt a.misuses (a.toExpr .approximate)
  | .number l => by
    rw [AtomForm.toExpr, AtomForm.misuses]
    exact ⟨_, rfl⟩
  | .call name s => by
    rw [AtomForm.toExpr, AtomForm.misuses]
    exact s.failsAt.bind (failsAt_ofCall name)
  | .name name => by
    rw [AtomForm.toExpr, AtomForm.misuses]
    exact failsAt_ofName name
  | .group s => by
    rw [AtomForm.toExpr, AtomForm.misuses]
    exact s.failsAt

end

lemma FailsAt.ok_iff {α : Type} {es : List CalcError} {r : Outcome α} (h : FailsAt es r) :
    es = [] ↔ ∃ a, r = .ok a := by
  cases es with
  | nil => exact ⟨fun _ => h, fun _ => rfl⟩
  | cons e es =>
    cases h
    simp

lemma FailsAt.error_iff {α : Type} {es : List CalcError} {r : Outcome α} (h : FailsAt es r) (e : CalcError) :
    r = .error e ↔ es.head? = some e := by
  cases es with
  | nil =>
    obtain ⟨a, rfl⟩ := h
    simp
  | cons x es =>
    cases h
    simp

mutual

lemma SumForm.misuses_stage : (s : SumForm) → ∀ e ∈ s.misuses, e.stage = .evaluation
  | .single t => by
    rw [SumForm.misuses]
    exact t.misuses_stage
  | .chain s _ t => by
    rw [SumForm.misuses]
    exact List.forall_mem_append.mpr ⟨s.misuses_stage, t.misuses_stage⟩

lemma ProductForm.misuses_stage : (p : ProductForm) → ∀ e ∈ p.misuses, e.stage = .evaluation
  | .single u => by
    rw [ProductForm.misuses]
    exact u.misuses_stage
  | .chain p _ u => by
    rw [ProductForm.misuses]
    exact List.forall_mem_append.mpr ⟨p.misuses_stage, u.misuses_stage⟩

lemma SignedForm.misuses_stage : (u : SignedForm) → ∀ e ∈ u.misuses, e.stage = .evaluation
  | .bare p => by
    rw [SignedForm.misuses]
    exact p.misuses_stage
  | .signed _ u => by
    rw [SignedForm.misuses]
    exact u.misuses_stage

lemma PowerForm.misuses_stage : (p : PowerForm) → ∀ e ∈ p.misuses, e.stage = .evaluation
  | .single a => by
    rw [PowerForm.misuses]
    exact a.misuses_stage
  | .raised a u => by
    rw [PowerForm.misuses]
    exact List.forall_mem_append.mpr ⟨a.misuses_stage, u.misuses_stage⟩

lemma AtomForm.misuses_stage : (a : AtomForm) → ∀ e ∈ a.misuses, e.stage = .evaluation
  | .number _ => by simp [AtomForm.misuses]
  | .call name s => by
    rw [AtomForm.misuses]
    refine List.forall_mem_append.mpr ⟨s.misuses_stage, ?_⟩
    split <;> simp [CalcError.stage]
  | .name name => by
    rw [AtomForm.misuses]
    split <;> simp [CalcError.stage]
  | .group s => by
    rw [AtomForm.misuses]
    exact s.misuses_stage

end

/-! ### Reading a text -/

/-- The meaning of every form, of whatever size, from the meanings of its parts. -/
structure FoldsForms (o : Overflow) : Prop where
  sum : ∀ s : SumForm, s.toExpr o = s.first.toExpr o >>= s.rest.foldlM (addTerm o)
  product : ∀ p : ProductForm, p.toExpr o = p.first.toExpr o false >>= p.rest.foldlM (addFactor o)
  signed : ∀ u : SignedForm, u.toExpr o false = (do
    let e ← u.body.toExpr o
    if Odd (u.signs.count .minus) then liftM (Expr.neg o e) else return e)
  power : ∀ a : AtomForm, (PowerForm.single a).toExpr o = a.toExpr o
  raised : ∀ (a : AtomForm) (u : SignedForm), (PowerForm.raised a u).toExpr o = (do
    let base ← a.toExpr o
    let exponent ← u.toExpr o false
    liftM (Expr.pow o base exponent))
  number : ∀ l, (AtomForm.number l).toExpr o = .ok (ofLiteral l)
  root : ∀ s : SumForm, (AtomForm.call rootName s).toExpr o = (do liftM (Expr.pow o (← s.toExpr o) Expr.half))
  call : ∀ (f : Func) (s : SumForm), (AtomForm.call f.name s).toExpr o = (do return f.of (← s.toExpr o))
  pi : (AtomForm.name "pi").toExpr o = .ok (.constant .pi)
  e : (AtomForm.name "E").toExpr o = .ok (.constant .e)
  symbol : ∀ x, x ≠ "pi" → x ≠ "E" → ¬ IsFunctionName x → (AtomForm.name x).toExpr o = .ok (.symbol x)
  group : ∀ s : SumForm, (AtomForm.group s).toExpr o = s.toExpr o

lemma foldsForms (o : Overflow) : FoldsForms o where
  sum := SumForm.toExpr_eq_foldlM
  product := ProductForm.toExpr_eq_foldlM
  signed u := by
    rw [SignedForm.toExpr_eq]
    congr 1
    funext e
    congr 1
    simp [Nat.odd_iff]
  power a := by rw [PowerForm.toExpr]
  raised a u := by rw [PowerForm.toExpr]
  number l := by
    rw [AtomForm.toExpr]
    rfl
  root s := by
    rw [AtomForm.toExpr]
    rfl
  call f s := by
    have hroot : f.name ≠ rootName := by cases f <;> decide
    simp only [AtomForm.toExpr, ofCall, if_neg hroot, Func.ofName?_name]
  pi := by
    rw [AtomForm.toExpr]
    rfl
  e := by
    rw [AtomForm.toExpr]
    rfl
  symbol x hpi he hx := by
    rw [AtomForm.toExpr, ofName, if_neg hpi, if_neg he, if_neg fun h => hx ((isFunctionName_iff x).mpr h)]
    rfl
  group s := by rw [AtomForm.toExpr]

lemma read_sentence {text : String} {s : SumForm} (h : Sentence s text.toList) (o : Overflow) :
    read o text = s.toExpr o := by
  unfold read
  rw [(parse_eq_ok_iff text s).mpr h]

lemma read_malformed {text : String} (h : ∀ s, ¬ Sentence s text.toList) :
    ∃ place, ∀ o, read o text = .error (.malformed place) := by
  cases hp : parse text with
  | ok s => exact absurd ((parse_eq_ok_iff text s).mp hp) (h s)
  | error place =>
    refine ⟨place, fun o => ?_⟩
    unfold read
    rw [hp]
    rfl

/-- A text is read when it is a sentence of the grammar. The expression read is then the fold of its only derivation, and
the only errors are misused names, the first of which is reported. -/
theorem reads_the_sentences (text : String) :
    (∀ s, parse text = .ok s ↔ Sentence s text.toList) ∧
    (∀ s s', Sentence s text.toList → Sentence s' text.toList → s = s') ∧
    ((∀ s, ¬ Sentence s text.toList) → ∃ place, ∀ o, read o text = .error (.malformed place)) ∧
    ∀ s, Sentence s text.toList →
      (∀ o, FoldsForms o ∧ read o text = s.toExpr o) ∧
      (s.misuses = [] ↔ ∃ e, read .approximate text = .ok e) ∧
      (∀ err, read .approximate text = .error err ↔ s.misuses.head? = some err) ∧
      ∀ err ∈ s.misuses, err.stage = .evaluation := by
  refine ⟨parse_eq_ok_iff text, fun _ _ => sentence_unique, read_malformed, fun s hs => ?_⟩
  have hread := read_sentence hs
  refine ⟨fun o => ⟨foldsForms o, hread o⟩, ?_, fun err => ?_, s.misuses_stage⟩
  · rw [hread]
    exact s.failsAt.ok_iff
  · rw [hread]
    exact s.failsAt.error_iff err

end PlaneCalculus.Formula
