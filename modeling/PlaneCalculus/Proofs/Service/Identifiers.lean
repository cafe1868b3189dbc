import PlaneCalculus.Proofs.Expr.Substitution
import PlaneCalculus.Proofs.Formula.Nodes
import PlaneCalculus.Proofs.Text.Search
import PlaneCalculus.Service.Validation

/-! Which names pass the check on expressions. The check reads a text by runs of letters, the grammar by names, and a name
may have digits in it: every run of letters in a name of a checked text is allowed, but a name with digits is not itself one
of the allowed words. -/

open PlaneCalculus.Expr

namespace PlaneCalculus

open Formula

namespace Validation

variable {limit : Nat} {text : String} {v w : List Char}

lemma checkExpression_iff : checkExpression limit text = .ok () ↔
    text.utf8ByteSize ≤ limit ∧ hasForbiddenWord text = false ∧ ∀ t ∈ tokens text, t ∈ allowedTokens := by
  unfold checkExpression
  split
  · next h => simp [Nat.not_le.mpr h]
  · next h =>
    split
    · next hf => simp [hf]
    · next hf =>
      split
      · next t ht =>
        have hmem := List.mem_of_find?_eq_some ht
        have hnot := List.find?_some ht
        simp only [reduceCtorEq, false_iff, not_and, not_forall]
        exact fun _ _ => ⟨t, hmem, by simpa using hnot⟩
      · next hnone => simpa [Nat.not_lt.mp h, hf] using hnone

lemma hasForbiddenWord_mono {x y : String} (h : x.toList <:+: y.toList) (hy : hasForbiddenWord y = false) :
    hasForbiddenWord x = false := by
  rw [hasForbiddenWord, List.any_eq_false] at hy ⊢
  intro word hword hx
  refine hy word hword ?_
  rw [Text.occursIn_iff] at hx ⊢
  exact hx.trans (h.map Char.toLower)

lemma isTokenChar_of_isNameChar {c : Char} (h : isNameChar c = false) : isTokenChar c = false := by
  simp only [isNameChar, isTokenChar, Char.isAlphanum, Bool.or_eq_false_iff] at h ⊢
  exact ⟨h.1.1, h.2⟩

lemma tokens_cut {c : Char} (hc : isNameChar c = false) (v w : List Char) :
    tokens (String.ofList (v ++ c :: w)) = tokens (String.ofList v) ++ tokens (String.ofList w) := by
  simp only [tokens, Text.runs, String.toList_ofList]
  exact Text.runsFrom_cut (isTokenChar_of_isNameChar hc) [] v w

/-- The check goes over to the parts of a text. -/
lemma cuts_check : Cuts fun w => checkExpression limit (String.ofList w) = .ok () := by
  intro v c w hc h
  rw [checkExpression_iff] at h
  obtain ⟨hsize, hword, htokens⟩ := h
  rw [String.ofList_append, String.ofList_cons, String.utf8ByteSize_append, String.utf8ByteSize_append] at hsize
  rw [tokens_cut hc, List.forall_mem_append] at htokens
  have hleft : v <:+: v ++ c :: w := List.infix_append' [] v (c :: w)
  have hright : w <:+: v ++ c :: w := ⟨v ++ [c], [], by simp⟩
  exact ⟨checkExpression_iff.mpr ⟨by omega, hasForbiddenWord_mono (by simpa using hleft) hword, htokens.1⟩,
    checkExpression_iff.mpr ⟨by omega, hasForbiddenWord_mono (by simpa using hright) hword, htokens.2⟩⟩

lemma names_checked {s : SumForm} (hcheck : checkExpression limit text = .ok ()) (hs : parse text = .ok s) :
    ∀ x ∈ s.names, IsName x.toList ∧ checkExpression limit x = .ok () := by
  have h := parse_names cuts_check hs (by rwa [String.ofList_toList])
  simpa using h

/-! ### Allowed words and digits -/

def HasDigit (x : String) : Prop := ∃ c ∈ x.toList, c.isDigit = true

lemma allowedTokens_digitless : ∀ t ∈ allowedTokens, ∀ c ∈ t.toList, c.isDigit = false := by
  have h : (allowedTokens.all fun t => t.toList.all fun c => !c.isDigit) = true := by decide
  simpa using h

lemma mem_allowedTokens_iff {x : String} (hx : IsName x.toList) (hcheck : checkExpression limit x = .ok ()) :
    x ∈ allowedTokens ↔ ¬ HasDigit x := by
  constructor
  · rintro hmem ⟨c, hc, hd⟩
    rw [allowedTokens_digitless x hmem c hc] at hd
    cases hd
  · intro hdigit
    obtain ⟨c, cs, hlist, hstart, hrest⟩ := hx
    have hname : ∀ d ∈ x.toList, isNameChar d = true := by
      rw [hlist]
      exact List.forall_mem_cons.mpr ⟨isNameChar_of_isNameStart hstart, hrest⟩
    have htoken : ∀ d ∈ x.toList, isTokenChar d = true := by
      intro d hd
      have hdd : d.isDigit = false := by
        rw [Bool.eq_false_iff]
        exact fun h => hdigit ⟨d, hd, h⟩
      have := hname d hd
      simpa [isNameChar, isTokenChar, Char.isAlphanum, hdd] using this
    have hruns : tokens x = [x] := Text.runs_all (by simp [hlist]) htoken
    exact (checkExpression_iff.mp hcheck).2.2 x (by simp [hruns])

lemma allowed_free {x : String} (h : x ∈ allowedTokens) (hfree : IsFreeName x) : x = "x" ∨ x = "y" := by
  obtain ⟨hfun, hpi, he⟩ := hfree
  simp only [allowedTokens, List.mem_append, List.mem_cons, List.not_mem_nil, or_false, List.mem_map] at h
  rcases h with (h | ⟨f, -, hf⟩) | h | h | h
  · exact h
  · exact absurd (Or.inr ⟨f, hf⟩) hfun
  · exact absurd (Or.inl h) hfun
  · exact absurd h hpi
  · exact absurd h he

/-! ### Symbols -/

lemma read_symbols {o : Overflow} {s : SumForm} {e : Expr} (hs : parse text = .ok s) (he : Formula.read o text = .ok e) :
    ∀ v ∈ e.freeSymbols, v ∈ s.names ∧ IsFreeName v := by
  intro v hv
  unfold Formula.read at he
  rw [hs] at he
  have hover := s.holds_nodes (nodeOver_nodeLaw fun v => v ∈ s.names ∧ IsFreeName v) (fun x hx hfree => ⟨hx, hfree⟩) e he
  exact occurrences_over e hover v (mem_freeSymbols.mp hv)

lemma read_name {o : Overflow} {x : String} (hx : IsName x.toList) (hfree : IsFreeName x) :
    Formula.read o x = .ok (.symbol x) := by
  have hs : parse x = .ok (.single (.single (.bare (.single (.name x))))) := by
    refine (parse_eq_ok_iff x _).mpr ⟨[], x.toList, [], by simp, nofun, ⟨rfl, hx⟩, nofun⟩
  obtain ⟨hfun, hpi, he⟩ := hfree
  have hname : ofName x = .ok (.symbol x) := by
    rw [ofName, if_neg hpi, if_neg he, if_neg fun h => hfun ((isFunctionName_iff x).mpr h)]
    rfl
  unfold Formula.read
  rw [hs]
  simp only [SumForm.toExpr, ProductForm.toExpr, SignedForm.toExpr, PowerForm.toExpr, AtomForm.toExpr, hname]
  rfl

/-- All names in a checked text pass the check themselves. Those without digits are allowed words, and a symbol without
digits is one of the two coordinates. A name with digits that passes the check is no allowed word, yet it is read as a symbol
of its own. -/
theorem checked_identifiers (limit : Nat) :
    (∀ text s, checkExpression limit text = .ok () → parse text = .ok s →
      (∀ x ∈ s.names, IsName x.toList ∧ checkExpression limit x = .ok () ∧ (x ∈ allowedTokens ↔ ¬ HasDigit x)) ∧
      ∀ o e, Formula.read o text = .ok e → ∀ v ∈ e.freeSymbols,
        v ∈ s.names ∧ IsFreeName v ∧ ((v = "x" ∨ v = "y") ↔ ¬ HasDigit v)) ∧
    ∀ o x, IsName x.toList → IsFreeName x → Formula.read o x = .ok (.symbol x) ∧ x ∈ (Expr.symbol x).freeSymbols := by
  refine ⟨fun text s hcheck hs => ?_, fun o x hx hfree => ⟨read_name hx hfree, mem_freeSymbols.mpr (by simp [occurrences])⟩⟩
  have hnames := names_checked hcheck hs
  refine ⟨fun x hx => ⟨(hnames x hx).1, (hnames x hx).2, mem_allowedTokens_iff (hnames x hx).1 (hnames x hx).2⟩, ?_⟩
  intro o e he v hv
  obtain ⟨hmem, hfree⟩ := read_symbols hs he v hv
  obtain ⟨hname, hpass⟩ := hnames v hmem
  refine ⟨hmem, hfree, fun h => ?_, fun h => allowed_free ((mem_allowedTokens_iff hname hpass).mpr h) hfree⟩
  refine (mem_allowedTokens_iff hname hpass).mp ?_
  rcases h with rfl | rfl <;> decide

/-- The text `sin(x1) + y` passes, and `x1` is a symbol of the expression. -/
theorem checked_identifiers_numbered : ∃ e, checkExpression 500 "sin(x1) + y" = .ok () ∧
    Formula.read .approximate "sin(x1) + y" = .ok e ∧ "x1" ∈ e.freeSymbols ∧ "x1" ∉ allowedTokens ∧ HasDigit "x1" := by
  have hcheck : checkExpression 500 "sin(x1) + y" = .ok () :=
    checkExpression_iff.mpr ⟨by decide, by decide, by decide⟩
  have hs : parse "sin(x1) + y" = .ok (.chain
      (.single (.single (.bare (.single (.call "sin" (.single (.single (.bare (.single (.name "x1"))))))))))
      .plus (.single (.bare (.single (.name "y"))))) := by cbv
  have he : Formula.read .approximate "sin(x1) + y" = .ok (.plus [.symbol "y", .call .sin (.symbol "x1")]) := by cbv
  have hv : "x1" ∈ (Expr.plus [.symbol "y", .call .sin (.symbol "x1")]).freeSymbols := by
    rw [mem_freeSymbols]
    decide
  obtain ⟨hnames, hsymbols⟩ := (checked_identifiers 500).1 _ _ hcheck hs
  obtain ⟨hmem, -, hiff⟩ := hsymbols _ _ he _ hv
  have hdigit : HasDigit "x1" := by
    by_contra h
    rcases hiff.mpr h with h | h <;> simp at h
  exact ⟨_, hcheck, he, hv, fun h => (hnames _ hmem).2.2.mp h hdigit, hdigit⟩

end Validation

end PlaneCalculus
