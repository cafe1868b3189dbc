import PlaneCalculus.Proofs.Formula.Constraint
import PlaneCalculus.Proofs.Formula.Nodes

/-! What holds of the names and the numbers in a text holds of the text, when it is kept as texts are joined by the marks and
blanks between them. -/

open PlaneCalculus.Expr

namespace PlaneCalculus.Formula

/-- The characters that stand in no name and between no digits of a number. -/
def IsGap (c : Char) : Prop := isNameChar c = false ∧ c ≠ '.'

def Gaps (g : List Char) : Prop := ∀ c ∈ g, IsGap c

lemma Blank.gaps {g : List Char} (h : Blank g) : Gaps g := by
  refine fun c hc => ⟨(blank_not_name (h c hc)).1, ?_⟩
  rintro rfl
  exact absurd (h _ hc) (by decide)

lemma Gaps.append {g g' : List Char} (h : Gaps g) (h' : Gaps g') : Gaps (g ++ g') := List.forall_mem_append.mpr ⟨h, h'⟩

lemma PowerMark.gaps {w : List Char} (h : PowerMark w) : Gaps w := by
  rcases h with rfl | rfl <;> simp [Gaps, IsGap, isNameChar, Char.isAlphanum]

lemma gaps_open : Gaps ['('] := by simp [Gaps, IsGap, isNameChar]

lemma gaps_close : Gaps [')'] := by simp [Gaps, IsGap, isNameChar]

lemma Sign.gaps (sign : Sign) : Gaps [sign.char] := by
  cases sign <;> simp [Gaps, IsGap, Sign.char, isNameChar]

lemma Factoring.gaps (op : Factoring) : Gaps [op.char] := by
  cases op <;> simp [Gaps, IsGap, Factoring.char, isNameChar]

/-- A property of texts that the numbers have, and that goes over to two texts joined by a gap. -/
structure Joins (T : List Char → Prop) : Prop where
  nil : T []
  number : ∀ l w, NumberText l w → T w
  join : ∀ {v c w}, IsGap c → T v → T w → T (v ++ c :: w)

variable {T : List Char → Prop} (hT : Joins T) {g v w : List Char}
include hT

namespace Joins

lemma after (hg : Gaps g) (h : T w) : T (g ++ w) := by
  induction g with
  | nil => exact h
  | cons c g ih => exact hT.join (hg c List.mem_cons_self) hT.nil (ih fun d hd => hg d (List.mem_cons_of_mem c hd))

lemma around (hne : g ≠ []) (hg : Gaps g) (hv : T v) (hw : T w) : T (v ++ (g ++ w)) := by
  obtain ⟨c, g, rfl⟩ := List.exists_cons_of_ne_nil hne
  exact hT.join (hg c List.mem_cons_self) hv (hT.after (fun d hd => hg d (List.mem_cons_of_mem c hd)) hw)

lemma before (hg : Gaps g) (h : T w) : T (w ++ g) := by
  cases g with
  | nil => rwa [List.append_nil]
  | cons c g =>
    have := hT.around (List.cons_ne_nil c g) hg h hT.nil
    rwa [List.append_nil] at this

/-- Two parts with a mark and blanks between them. -/
lemma operands {g₁ m g₂ : List Char} (hne : m ≠ []) (hm : Gaps m) (hg₁ : Blank g₁) (hg₂ : Blank g₂) (hv : T v)
    (hw : T w) : T (v ++ (g₁ ++ (m ++ (g₂ ++ w)))) := by
  have := hT.around (g := g₁ ++ (m ++ g₂)) (by simp [hne]) (hg₁.gaps.append (hm.append hg₂.gaps)) hv hw
  simpa using this

end Joins

mutual

lemma SumForm.text_holds : (s : SumForm) → (∀ x ∈ s.names, T x.toList) → {w : List Char} → s.Derives w → T w
  | .single t, hx, _, h => t.text_holds hx h
  | .chain s sign t, hx, _, ⟨_, _, _, _, hw, hs, hg₁, hg₂, ht⟩ => by
    obtain ⟨hxs, hxt⟩ := List.forall_mem_append.mp hx
    subst hw
    exact hT.operands (List.cons_ne_nil _ _) sign.gaps hg₁ hg₂ (s.text_holds hxs hs) (t.text_holds hxt ht)

lemma ProductForm.text_holds : (p : ProductForm) → (∀ x ∈ p.names, T x.toList) → {w : List Char} → p.Derives w → T w
  | .single u, hx, _, h => u.text_holds hx h
  | .chain p op u, hx, _, ⟨_, _, _, _, hw, hp, hg₁, hg₂, hu⟩ => by
    obtain ⟨hxp, hxu⟩ := List.forall_mem_append.mp hx
    subst hw
    exact hT.operands (List.cons_ne_nil _ _) op.gaps hg₁ hg₂ (p.text_holds hxp hp) (u.text_holds hxu hu)

lemma SignedForm.text_holds : (u : SignedForm) → (∀ x ∈ u.names, T x.toList) → {w : List Char} → u.Derives w → T w
  | .bare p, hx, _, h => p.text_holds hx h
  | .signed sign u, hx, _, ⟨_, _, hw, hg, hu⟩ => by
    subst hw
    exact hT.after (sign.gaps.append hg.gaps) (u.text_holds hx hu)

lemma PowerForm.text_holds : (p : PowerForm) → (∀ x ∈ p.names, T x.toList) → {w : List Char} → p.Derives w → T w
  | .single a, hx, _, h => a.text_holds hx h
  | .raised a u, hx, _, ⟨_, _, op, _, _, hw, ha, hg₁, hmark, hg₂, hu⟩ => by
    obtain ⟨hxa, hxu⟩ := List.forall_mem_append.mp hx
    have hne : op ≠ [] := by rcases hmark with rfl | rfl <;> exact List.cons_ne_nil _ _
    subst hw
    exact hT.operands hne hmark.gaps hg₁ hg₂ (a.text_holds hxa ha) (u.text_holds hxu hu)

lemma AtomForm.text_holds : (a : AtomForm) → (∀ x ∈ a.names, T x.toList) → {w : List Char} → a.Derives w → T w
  | .number l, _, _, h => hT.number l _ h
  | .call name s, hx, _, ⟨_, _, _, _, hw, _, hg, hg₁, hs, hg₂⟩ => by
    obtain ⟨hxname, hxs⟩ := List.forall_mem_cons.mp hx
    subst hw
    exact hT.operands (m := ['(']) (List.cons_ne_nil _ _) gaps_open hg hg₁ hxname
      (hT.before (hg₂.gaps.append gaps_close) (s.text_holds hxs hs))
  | .name name, hx, _, ⟨hw, _⟩ => by
    subst hw
    exact hx name (List.mem_singleton_self name)
  | .group s, hx, _, ⟨_, _, _, hw, hg₁, hs, hg₂⟩ => by
    subst hw
    exact hT.after (gaps_open.append hg₁.gaps) (hT.before (hg₂.gaps.append gaps_close) (s.text_holds hx hs))

end

lemma Sentence.text_holds {s : SumForm} (h : Sentence s w) (hx : ∀ x ∈ s.names, T x.toList) : T w := by
  obtain ⟨_, _, _, rfl, hg₁, hs, hg₂⟩ := h
  exact hT.after hg₁.gaps (hT.before hg₂.gaps (s.text_holds hT hx hs))

lemma Equation.text_holds {l r : SumForm} (h : Equation l r w) (hl : ∀ x ∈ l.names, T x.toList)
    (hr : ∀ x ∈ r.names, T x.toList) : T w := by
  obtain ⟨_, _, rfl, hv, hw⟩ := h
  exact hT.join ⟨by decide, by decide⟩ (hv.text_holds hT hl) (hw.text_holds hT hr)

end PlaneCalculus.Formula
