import PlaneCalculus.Proofs.Formula.Difference

/-!
Where a text is refused. Up to the farthest position at which a named element was refused, in whichever alternatives
were tried on the way, a text can still be carried on to one that is accepted. What a reader is to find at its position
is awaited there: the text before it can be carried on behind whatever the reader may accept.
-/

namespace PlaneCalculus.Formula

open Reply

variable {α β : Type} {T : List Char → Prop} {text t w : List Char} {c c' : Cursor}

/-! ### Positions -/

/-- The cursor stands behind the part `t` of the text. -/
structure Cursor.Behind (text t : List Char) (c : Cursor) : Prop where
  split : text = t ++ c.rest
  pos_eq : c.pos = t.length

/-- Position and rest make up a text of this length. -/
def Cursor.total (c : Cursor) : Nat := c.pos + c.rest.length

namespace Cursor

lemma Behind.total_eq (h : c.Behind text t) : c.total = text.length := by
  rw [total, h.pos_eq, h.split, List.length_append]

lemma behind_append (h : c.Behind text t) (hrest : c.rest = w ++ c'.rest) (htotal : c'.total = text.length) :
    c'.Behind text (t ++ w) := by
  refine ⟨by rw [h.split, hrest, List.append_assoc], ?_⟩
  have hlength := congrArg List.length h.split
  rw [hrest] at hlength
  simp only [List.length_append] at hlength ⊢
  unfold total at htotal
  omega

lemma span_total (p : Char → Bool) (c : Cursor) : (c.span p).2.total = c.total := c.span_length p

lemma skip_total (c : Cursor) : c.skip.total = c.total := c.span_length isBlank

lemma step_total {x : Char} {rest : List Char} (h : c.rest = x :: rest) : (c.step rest).total = c.total := by
  simp only [total, step, h, List.length_cons]
  omega

lemma Behind.skip (h : c.Behind text t) : ∃ g, Blank g ∧ c.skip.Behind text (t ++ g) := by
  obtain ⟨g, hg, hrest⟩ := skip_spec c
  exact ⟨g, hg, behind_append h hrest (by rw [skip_total, h.total_eq])⟩

end Cursor

open Cursor

lemma mark_total {x : Char} {a : Unit} (h : (mark x c).result = some (a, c')) : c'.total = c.total := by
  unfold mark at h
  split at h
  · next hc =>
    split at h
    · cases h
      exact step_total hc
    · cases h
  · cases h

lemma sign_total {s : Sign} (h : (sign c).result = some (s, c')) : c'.total = c.total := by
  unfold sign at h
  split at h
  · next hc => cases h; exact step_total hc
  · next hc => cases h; exact step_total hc
  · cases h

lemma factoring_total {op : Factoring} (h : (factoring c).result = some (op, c')) : c'.total = c.total := by
  unfold factoring at h
  split at h
  · cases h
  · next hc => cases h; exact step_total hc
  · next hc => cases h; exact step_total hc
  · cases h

lemma powerSign_total {a : Unit} (h : (powerSign c).result = some (a, c')) : c'.total = c.total := by
  unfold powerSign at h
  split at h
  · next hc =>
    cases h
    simp only [total, hc, List.length_cons]
    omega
  · next hc => cases h; exact step_total hc
  · cases h

lemma name_total {x : String} (h : (name c).result = some (x, c')) : c'.total = c.total := by
  unfold name at h
  split at h
  · split at h
    · cases h
      exact span_total isNameChar c
    · cases h
  · cases h

lemma exponentPart_total {k : Int} (h : exponentPart c = some (k, c')) : c'.total = c.total := by
  have hsigned (negative : Bool) (d : Cursor)
      (hd : (if (d.span Decimal.isDigit).1.isEmpty then none
        else some (Decimal.signedExponent negative (d.span Decimal.isDigit).1, (d.span Decimal.isDigit).2)) =
          some (k, c')) : c'.total = d.total := by
    split at hd
    · cases hd
    · cases hd
      exact span_total Decimal.isDigit d
  unfold exponentPart at h
  split at h
  · next hc =>
    split at h
    · rw [hsigned _ _ h]
      simp only [total, hc, List.length_cons]
      omega
    · cases h
  · next hc =>
    split at h
    · rw [hsigned _ _ h]
      simp only [total, hc, List.length_cons]
      omega
    · cases h
  · next hc =>
    split at h
    · rw [hsigned _ _ h, step_total hc]
    · cases h
  · cases h

lemma withExponentPart_total {whole : List Char} {fraction : Option (List Char)} {l : Decimal.Literal}
    (h : (withExponentPart whole fraction c).result = some (l, c')) : c'.total = c.total := by
  unfold withExponentPart at h
  split at h
  · next hk =>
    cases h
    exact exponentPart_total hk
  · cases h
    rfl

lemma number_total {l : Decimal.Literal} (h : (number c).result = some (l, c')) : c'.total = c.total := by
  unfold number at h
  dsimp only at h
  split at h
  · next hc =>
    split at h
    · cases h
    · rw [withExponentPart_total h, span_total, step_total hc, span_total]
  · split at h
    · cases h
    · rw [withExponentPart_total h, span_total]

lemma finish_total {a : Unit} (h : (finish c).result = some (a, c')) : c'.total = c.total := by
  unfold finish at h
  split at h
  · cases h
    rfl
  · cases h

/-! ### Refusals -/

/-- The text can be carried on to one that is accepted. -/
def Viable (T : List Char → Prop) (t : List Char) : Prop := ∃ s, T (t ++ s)

lemma Viable.of_append (h : Viable T (t ++ w)) : Viable T t := by
  obtain ⟨s, hs⟩ := h
  exact ⟨w ++ s, by rwa [← List.append_assoc]⟩

lemma Viable.nil (h : Viable T t) : Viable T [] := Viable.of_append (t := []) h

/-- The text up to the position can be carried on. -/
def ViableAt (T : List Char → Prop) (text : List Char) (p : Nat) : Prop := p ≤ text.length ∧ Viable T (text.take p)

lemma Cursor.Behind.viableAt (h : c.Behind text t) (hv : Viable T t) : ViableAt T text c.pos := by
  have htake : text.take c.pos = t := by rw [h.split, h.pos_eq, List.take_left]
  refine ⟨?_, htake.symm ▸ hv⟩
  rw [h.split, h.pos_eq, List.length_append]
  exact Nat.le_add_right _ _

/-- Nothing is refused farther on than the text can be carried on, and what is accepted ends within the text. -/
structure Fair (T : List Char → Prop) (text : List Char) (r : Reply α) : Prop where
  farthest : ViableAt T text r.farthest
  total : ∀ a c, r.result = some (a, c) → c.total = text.length

lemma viableAt_zero (h : Viable T []) : ViableAt T text 0 := ⟨Nat.zero_le _, by rwa [List.take_zero]⟩

namespace Fair

lemma refuse (h : ViableAt T text c.pos) : Fair T text (refuse c : Reply α) := ⟨h, nofun⟩

/-- What was refused on the way is remembered when the reader stops before it. -/
lemma stop {r : Reply α} (h : Fair T text r) (b : β) (hc : c.total = text.length) :
    Fair T text (⟨r.farthest, some (b, c)⟩ : Reply β) := by
  refine ⟨h.farthest, fun a d hd => ?_⟩
  cases hd
  exact hc

lemma max {r : Reply α} {s : Reply β} (h : Fair T text r) (hs : Fair T text s) :
    Fair T text ⟨max r.farthest s.farthest, s.result⟩ := by
  refine ⟨?_, hs.total⟩
  rcases max_choice r.farthest s.farthest with hmax | hmax
  · exact hmax.symm ▸ h.farthest
  · exact hmax.symm ▸ hs.farthest

lemma andThen {r : Reply α} {f : α → Cursor → Reply β} (h : Fair T text r)
    (hf : ∀ a c, r.result = some (a, c) → Fair T text (f a c)) : Fair T text (r.andThen f) := by
  unfold Reply.andThen
  split
  · exact ⟨h.farthest, nofun⟩
  · next a c hr => exact h.max (hf a c hr)

lemma map {r : Reply α} (h : Fair T text r) (f : α → β) : Fair T text (r.andThen fun a c => accept (f a) c) := by
  refine h.andThen fun a c hr => ⟨viableAt_zero h.farthest.2.nil, fun b d hd => ?_⟩
  cases hd
  exact h.total a c hr

lemma orElse {r : Reply α} {f : Unit → Reply α} (h : Fair T text r) (hf : Fair T text (f ())) :
    Fair T text (r.orElse f) := by
  unfold Reply.orElse
  split
  · exact h.max hf
  · exact h

/-- Where a reader stops, having read `w`. -/
lemma behind {r : Reply α} {a : α} (h : Fair T text r) (hr : r.result = some (a, c')) (hc : c.Behind text t)
    (hrest : c.rest = w ++ c'.rest) : c'.Behind text (t ++ w) :=
  behind_append hc hrest (h.total a c' hr)

end Fair

/-! ### Contexts -/

/-- Whatever may be read next, and blanks, can stand behind the text. -/
def Awaits (T : List Char → Prop) (D : α → List Char → Prop) (t : List Char) : Prop :=
  ∀ x w g, D x w → Blank g → Viable T (t ++ (w ++ g))

lemma name_derives : (AtomForm.name "x").Derives ['x'] := ⟨rfl, 'x', [], rfl, by decide, nofun⟩

namespace Awaits

lemma product (h : Awaits T SumForm.Derives t) : Awaits T ProductForm.Derives t := fun p => h (.single p)

lemma signed (h : Awaits T ProductForm.Derives t) : Awaits T SignedForm.Derives t := fun u => h (.single u)

lemma power (h : Awaits T SignedForm.Derives t) : Awaits T PowerForm.Derives t := fun p => h (.bare p)

lemma atom (h : Awaits T PowerForm.Derives t) : Awaits T AtomForm.Derives t := fun a => h (.single a)

lemma viable (h : Awaits T AtomForm.Derives t) : Viable T t := (h _ _ [] name_derives nofun).of_append

/-- Behind what was awaited there is nothing more to come. -/
lemma behind {D : α → List Char → Prop} {x : α} (h : Awaits T D t) (hx : D x w) : Viable T (t ++ w) := by
  simpa using h x w [] hx nofun

end Awaits

/-! ### Tokens -/

section Tokens

variable (hc : c.Behind text t) (hv : Viable T t)
include hc hv

lemma mark_fair (x : Char) : Fair T text (mark x c) := by
  refine ⟨?_, fun a d h => (mark_total h).trans hc.total_eq⟩
  unfold mark
  split
  · split <;> exact viableAt_zero hv.nil
  · exact viableAt_zero hv.nil

lemma sign_fair : Fair T text (sign c) := by
  refine ⟨?_, fun a d h => (sign_total h).trans hc.total_eq⟩
  unfold sign
  split
  · exact viableAt_zero hv.nil
  · exact viableAt_zero hv.nil
  · exact hc.viableAt hv

lemma factoring_fair : Fair T text (factoring c) := by
  refine ⟨?_, fun a d h => (factoring_total h).trans hc.total_eq⟩
  unfold factoring
  split
  · exact hc.viableAt hv
  · exact viableAt_zero hv.nil
  · exact viableAt_zero hv.nil
  · exact hc.viableAt hv

lemma powerSign_fair : Fair T text (powerSign c) := by
  refine ⟨?_, fun a d h => (powerSign_total h).trans hc.total_eq⟩
  unfold powerSign
  split <;> exact viableAt_zero hv.nil

lemma name_fair : Fair T text (name c) := by
  refine ⟨?_, fun a d h => (name_total h).trans hc.total_eq⟩
  unfold name
  split
  · split
    · exact viableAt_zero hv.nil
    · exact hc.viableAt hv
  · exact hc.viableAt hv

lemma number_fair : Fair T text (number c) := by
  have hexponent (whole : List Char) (fraction : Option (List Char)) (d : Cursor) :
      ViableAt T text (withExponentPart whole fraction d).farthest := by
    unfold withExponentPart
    split <;> exact viableAt_zero hv.nil
  refine ⟨?_, fun a d h => (number_total h).trans hc.total_eq⟩
  unfold number
  dsimp only
  split
  · split
    · exact hc.viableAt hv
    · exact hexponent _ _ _
  · split
    · exact hc.viableAt hv
    · exact hexponent _ _ _

lemma finish_fair : Fair T text (finish c) := by
  refine ⟨?_, fun a d h => (finish_total h).trans hc.total_eq⟩
  unfold finish
  split
  · exact viableAt_zero hv.nil
  · exact hc.viableAt hv

end Tokens

/-! ### Readers -/

/-- At one depth all refusals lie where the text can still be carried on, for each reader if what it reads is awaited. A
chain is continued behind the text `w` of the tree that has been read. -/
structure Points (T : List Char → Prop) (text : List Char) (n : Nat) : Prop where
  sum : ∀ {c t}, c.Behind text t → Awaits T SumForm.Derives t → Fair T text (sum n c)
  sumChain : ∀ {s c t w}, c.Behind text (t ++ w) → Awaits T SumForm.Derives t → s.Derives w →
    Fair T text (sumChain n s c)
  product : ∀ {c t}, c.Behind text t → Awaits T ProductForm.Derives t → Fair T text (product n c)
  productChain : ∀ {p c t w}, c.Behind text (t ++ w) → Awaits T ProductForm.Derives t → p.Derives w →
    Fair T text (productChain n p c)
  signed : ∀ {c t}, c.Behind text t → Awaits T SignedForm.Derives t → Fair T text (signed n c)
  power : ∀ {c t}, c.Behind text t → Awaits T PowerForm.Derives t → Fair T text (power n c)
  atom : ∀ {c t}, c.Behind text t → Awaits T AtomForm.Derives t → Fair T text (atom n c)
  group : ∀ {c t}, c.Behind text t → (∀ g, Blank g → Awaits T SumForm.Derives (t ++ '(' :: g)) → Fair T text (group n c)

/-- A mark and an operand that is awaited behind it, with blanks before each. -/
lemma link_fair {μ : Type} {reader : Cursor → Reply μ} {operand : Cursor → Reply β} {D : β → List Char → Prop}
    {char : μ → Char} (hreader : ∀ {c t}, c.Behind text t → Viable T t → Fair T text (reader c))
    (hchar : ∀ {c op c'}, (reader c).result = some (op, c') → c.rest = char op :: c'.rest)
    (hoperand : ∀ {c t}, c.Behind text t → Awaits T D t → Fair T text (operand c))
    (hsound : ∀ {c u c'}, (operand c).result = some (u, c') → ∃ w, D u w ∧ c.rest = w ++ c'.rest)
    (hc : c.Behind text t) (hv : ∀ g, Blank g → Viable T (t ++ g))
    (ha : ∀ op g g', Blank g → Blank g' → Awaits T D (t ++ (g ++ char op :: g'))) :
    let next := (reader c.skip).andThen fun op c => (operand c.skip).andThen fun u c => accept (op, u) c
    Fair T text next ∧ ∀ op u after, next.result = some ((op, u), after) → ∃ g g' w, Blank g ∧ Blank g' ∧ D u w ∧
      after.Behind text (t ++ (g ++ char op :: (g' ++ w))) := by
  obtain ⟨g, hg, hskip⟩ := hc.skip
  have hr := hreader hskip (hv g hg)
  have hbehind (op : μ) (d : Cursor) (hop : (reader c.skip).result = some (op, d)) :
      ∃ g', Blank g' ∧ d.skip.Behind text (t ++ (g ++ char op :: g')) := by
    obtain ⟨g', hg', hd⟩ := (hr.behind hop hskip (w := [char op]) (hchar hop)).skip
    exact ⟨g', hg', by simpa using hd⟩
  refine ⟨hr.andThen fun op d hop => ?_, fun op u after h => ?_⟩
  · obtain ⟨g', hg', hd⟩ := hbehind op d hop
    have hu := hoperand hd (ha op g g' hg hg')
    exact hu.map fun u => (op, u)
  · obtain ⟨op', d, hop, h⟩ := andThen_eq_some.mp h
    obtain ⟨u', e, hu, h⟩ := andThen_eq_some.mp h
    cases h
    obtain ⟨g', hg', hd⟩ := hbehind op d hop
    obtain ⟨w, hw, hrest⟩ := hsound hu
    refine ⟨g, g', w, hg, hg', hw, ?_⟩
    have hafter := (hoperand hd (ha op g g' hg hg')).behind hu hd hrest
    simpa using hafter

section Step

variable {n : Nat} (hp : Points T text n)
include hp

lemma sum_fair (hc : c.Behind text t) (ha : Awaits T SumForm.Derives t) : Fair T text (sum (n + 1) c) := by
  have hproduct := hp.product hc ha.product
  refine hproduct.andThen fun p d hd => ?_
  obtain ⟨w, hw, hrest⟩ := (sound_at n).product hd
  exact hp.sumChain (hproduct.behind hd hc hrest) ha hw

lemma sumChain_fair {s : SumForm} (hc : c.Behind text (t ++ w)) (ha : Awaits T SumForm.Derives t) (hs : s.Derives w) :
    Fair T text (sumChain (n + 1) s c) := by
  have hv (g : List Char) (hg : Blank g) : Viable T (t ++ w ++ g) := by
    simpa using ha s w g hs hg
  have hchain (op : Sign) (p : ProductForm) (g g' w' : List Char) (hg : Blank g) (hg' : Blank g') (hw' : p.Derives w') :
      (SumForm.chain s op p).Derives (w ++ (g ++ op.char :: (g' ++ w'))) := ⟨w, g, g', w', rfl, hs, hg, hg', hw'⟩
  have hoperand (op : Sign) (g g' : List Char) (hg : Blank g) (hg' : Blank g') :
      Awaits T ProductForm.Derives (t ++ w ++ (g ++ op.char :: g')) := by
    intro p w' g'' hw' hg''
    simpa using ha _ _ g'' (hchain op p g g' w' hg hg' hw') hg''
  obtain ⟨hnext, hafter⟩ := link_fair sign_fair sign_sound hp.product (sound_at n).product hc hv hoperand
  simp only [sumChain]
  split
  · exact hnext.stop _ hc.total_eq
  · next op p after hop =>
    obtain ⟨g, g', w', hg, hg', hw', hbehind⟩ := hafter op p after hop
    rw [List.append_assoc] at hbehind
    exact hnext.max (hp.sumChain hbehind ha (hchain op p g g' w' hg hg' hw'))

lemma product_fair (hc : c.Behind text t) (ha : Awaits T ProductForm.Derives t) : Fair T text (product (n + 1) c) := by
  have hsigned := hp.signed hc ha.signed
  refine hsigned.andThen fun u d hd => ?_
  obtain ⟨w, hw, hrest⟩ := (sound_at n).signed hd
  exact hp.productChain (hsigned.behind hd hc hrest) ha hw

lemma productChain_fair {p : ProductForm} (hc : c.Behind text (t ++ w)) (ha : Awaits T ProductForm.Derives t)
    (hs : p.Derives w) : Fair T text (productChain (n + 1) p c) := by
  have hv (g : List Char) (hg : Blank g) : Viable T (t ++ w ++ g) := by
    simpa using ha p w g hs hg
  have hchain (op : Factoring) (u : SignedForm) (g g' w' : List Char) (hg : Blank g) (hg' : Blank g')
      (hw' : u.Derives w') :
      (ProductForm.chain p op u).Derives (w ++ (g ++ op.char :: (g' ++ w'))) := ⟨w, g, g', w', rfl, hs, hg, hg', hw'⟩
  have hoperand (op : Factoring) (g g' : List Char) (hg : Blank g) (hg' : Blank g') :
      Awaits T SignedForm.Derives (t ++ w ++ (g ++ op.char :: g')) := by
    intro u w' g'' hw' hg''
    simpa using ha _ _ g'' (hchain op u g g' w' hg hg' hw') hg''
  obtain ⟨hnext, hafter⟩ := link_fair factoring_fair factoring_sound hp.signed (sound_at n).signed hc hv hoperand
  simp only [productChain]
  split
  · exact hnext.stop _ hc.total_eq
  · next op u after hop =>
    obtain ⟨g, g', w', hg, hg', hw', hbehind⟩ := hafter op u after hop
    rw [List.append_assoc] at hbehind
    exact hnext.max (hp.productChain hbehind ha (hchain op u g g' w' hg hg' hw'))

lemma signed_fair (hc : c.Behind text t) (ha : Awaits T SignedForm.Derives t) : Fair T text (signed (n + 1) c) := by
  have hsign := sign_fair hc ha.power.atom.viable
  simp only [signed]
  split
  · next op d hop =>
    obtain ⟨g, hg, hd⟩ := (hsign.behind hop hc (w := [op.char]) (sign_sound hop)).skip
    have hoperand : Awaits T SignedForm.Derives (t ++ [op.char] ++ g) := by
      intro u w g' hw hg'
      simpa using ha (.signed op u) (op.char :: (g ++ w)) g' ⟨g, w, rfl, hg, hw⟩ hg'
    exact (hp.signed hd hoperand).map (SignedForm.signed op)
  · exact hsign.max ((hp.power hc ha.power).map SignedForm.bare)

lemma power_fair (hc : c.Behind text t) (ha : Awaits T PowerForm.Derives t) : Fair T text (power (n + 1) c) := by
  have hatom := hp.atom hc ha.atom
  refine hatom.andThen fun a d hd => ?_
  obtain ⟨w, hw, hrest⟩ := (sound_at n).atom hd
  have hbehind := hatom.behind hd hc hrest
  obtain ⟨g, hg, hskip⟩ := hbehind.skip
  have hv : Viable T (t ++ w ++ g) := by
    simpa using ha (.single a) w g hw hg
  have hmark := powerSign_fair hskip hv
  have hexponent : Fair T text ((powerSign d.skip).andThen fun _ c => signed n c.skip) := by
    refine hmark.andThen fun x e he => ?_
    obtain ⟨op, hop, hrest⟩ := powerSign_sound he
    obtain ⟨g', hg', he'⟩ := (hmark.behind he hskip hrest).skip
    refine hp.signed he' fun u w' g'' hw' hg'' => ?_
    have hraised : (PowerForm.raised a u).Derives (w ++ (g ++ (op ++ (g' ++ w')))) :=
      ⟨w, g, op, g', w', rfl, hw, hg, hop, hg', hw'⟩
    simpa using ha _ _ g'' hraised hg''
  dsimp only
  split
  · next u after hu => exact hexponent.stop _ (hexponent.total u after hu)
  · exact hexponent.stop _ hbehind.total_eq

lemma atom_fair (hc : c.Behind text t) (ha : Awaits T AtomForm.Derives t) : Fair T text (atom (n + 1) c) := by
  have hv := ha.viable
  have hnumber := number_fair hc hv
  have hname := name_fair hc hv
  have hcall : Fair T text
      ((name c).andThen fun f c => (group n c.skip).andThen fun s c => accept (AtomForm.call f s) c) := by
    refine hname.andThen fun f d hf => ?_
    obtain ⟨hf', hrest⟩ := name_sound hf
    obtain ⟨g, hg, hd⟩ := (hname.behind hf hc hrest).skip
    -- What is awaited behind the opened bracket is the call up to its closing one, which is taken off again.
    have hgroup : Fair T text (group n d.skip) := by
      refine hp.group hd fun g' hg' s w g'' hw hg'' => ?_
      have hderives : (AtomForm.call f s).Derives (f.toList ++ (g ++ '(' :: (g' ++ (w ++ (g'' ++ [')']))))) :=
        ⟨g, g', w, g'', rfl, hf', hg, hg', hw, hg''⟩
      have hv := ha _ _ [] hderives nofun
      exact Viable.of_append (w := [')']) (by simpa using hv)
    exact hgroup.map (AtomForm.call f)
  have hgroup : Fair T text (group n c) := by
    refine hp.group hc fun g hg s w g' hw hg' => ?_
    have hderives : (AtomForm.group s).Derives ('(' :: (g ++ (w ++ (g' ++ [')'])))) := ⟨g, w, g', rfl, hg, hw, hg'⟩
    have hv := ha _ _ [] hderives nofun
    exact Viable.of_append (w := [')']) (by simpa using hv)
  simp only [atom]
  refine (hnumber.map AtomForm.number).orElse ?_
  refine hcall.orElse ?_
  refine (hname.map AtomForm.name).orElse ?_
  exact hgroup.map AtomForm.group

lemma group_fair (hc : c.Behind text t) (ha : ∀ g, Blank g → Awaits T SumForm.Derives (t ++ '(' :: g)) :
    Fair T text (group (n + 1) c) := by
  have hv : Viable T t := (ha [] nofun).product.signed.power.atom.viable.of_append
  have hopen := mark_fair hc hv '('
  refine hopen.andThen fun x d hd => ?_
  obtain ⟨g, hg, hskip⟩ := (hopen.behind hd hc (w := ['(']) (mark_sound hd)).skip
  rw [List.append_assoc] at hskip
  have hsum := hp.sum hskip (ha g hg)
  refine hsum.andThen fun s e he => ?_
  obtain ⟨w, hw, hrest⟩ := (sound_at n).sum he
  obtain ⟨g', hg', hskip'⟩ := (hsum.behind he hskip hrest).skip
  have hclose : Fair T text (mark ')' e.skip) := by
    refine mark_fair hskip' ?_ ')'
    simpa using ha g hg s w g' hw hg'
  exact hclose.map fun _ => s

end Step

/-- Nothing is refused beyond what can be carried on, however deep the calls may nest: a reader that is cut short says
so where it was to begin. -/
lemma points_at (T : List Char → Prop) (text : List Char) (n : Nat) : Points T text n := by
  induction n with
  | zero =>
    exact ⟨fun hc ha => .refuse (hc.viableAt ha.product.signed.power.atom.viable),
      fun hc ha hs => .refuse (hc.viableAt (ha.behind hs)),
      fun hc ha => .refuse (hc.viableAt ha.signed.power.atom.viable),
      fun hc ha hs => .refuse (hc.viableAt (ha.behind hs)),
      fun hc ha => .refuse (hc.viableAt ha.power.atom.viable),
      fun hc ha => .refuse (hc.viableAt ha.atom.viable),
      fun hc ha => .refuse (hc.viableAt ha.viable),
      fun hc ha => .refuse (hc.viableAt (ha [] nofun).product.signed.power.atom.viable.of_append)⟩
  | succ n ih =>
    exact ⟨sum_fair ih, sumChain_fair ih, product_fair ih, productChain_fair ih, signed_fair ih, power_fair ih,
      atom_fair ih, group_fair ih⟩

/-! ### Whole texts -/

lemma cursor_behind (text : List Char) : (Cursor.mk 0 text).Behind text [] := ⟨rfl, rfl⟩

lemma whole_fair (text : List Char) : Fair (fun w => ∃ s, Sentence s w) text (whole text) := by
  obtain ⟨g, hg, hskip⟩ := (cursor_behind text).skip
  have ha : Awaits (fun w => ∃ s, Sentence s w) SumForm.Derives ([] ++ g) :=
    fun s w g' hw hg' => ⟨[], s, g, w, g', by simp, hg, hw, hg'⟩
  have hsum := (points_at _ text (depthFor text.length)).sum hskip ha
  refine hsum.andThen fun s d hd => ?_
  obtain ⟨w, hw, hrest⟩ := (sound_at _).sum hd
  obtain ⟨g', hg', hskip'⟩ := (hsum.behind hd hskip hrest).skip
  have hv : Viable (fun w => ∃ s, Sentence s w) ([] ++ g ++ w ++ g') := by
    simpa using ha s w g' hw hg'
  exact (finish_fair hskip' hv).map fun _ => s

lemma equation_fair (text : List Char) : Fair (fun w => ∃ l r, Equation l r w) text (equation text) := by
  obtain ⟨g, hg, hskip⟩ := (cursor_behind text).skip
  have hname : Sentence (.single (.single (.bare (.single (.name "x"))))) ['x'] :=
    ⟨[], ['x'], [], rfl, nofun, name_derives, nofun⟩
  have ha : Awaits (fun w => ∃ l r, Equation l r w) SumForm.Derives ([] ++ g) := fun l w g' hw hg' =>
    ⟨['=', 'x'], l, _, g ++ (w ++ g'), ['x'], by simp, ⟨g, w, g', rfl, hg, hw, hg'⟩, hname⟩
  have hleft := (points_at _ text (depthFor text.length)).sum hskip ha
  refine hleft.andThen fun l d hd => ?_
  obtain ⟨v, hl, hrest⟩ := (sound_at _).sum hd
  obtain ⟨g', hg', hskip'⟩ := (hleft.behind hd hskip hrest).skip
  have hv : Viable (fun w => ∃ l r, Equation l r w) ([] ++ g ++ v ++ g') := by
    simpa using ha l v g' hl hg'
  have hmark := mark_fair hskip' hv '='
  refine hmark.andThen fun x e he => ?_
  obtain ⟨g'', hg'', hskip''⟩ := (hmark.behind he hskip' (w := ['=']) (mark_sound he)).skip
  -- Behind the mark the second side alone makes an equation, nothing has to be added to it.
  have ha' : Awaits (fun w => ∃ l r, Equation l r w) SumForm.Derives ([] ++ g ++ v ++ g' ++ ['='] ++ g'') :=
    fun r w g₄ hr hg₄ => ⟨[], l, r, g ++ (v ++ g'), g'' ++ (w ++ g₄), by simp, ⟨g, v, g', rfl, hg, hl, hg'⟩,
      g'', w, g₄, rfl, hg'', hr, hg₄⟩
  have hright := (points_at _ text (depthFor text.length)).sum hskip'' ha'
  refine hright.andThen fun r f hf => ?_
  obtain ⟨w, hr, hrest'⟩ := (sound_at _).sum hf
  obtain ⟨g₄, hg₄, hskip₄⟩ := (hright.behind hf hskip'' hrest').skip
  have hv' : Viable (fun w => ∃ l r, Equation l r w) ([] ++ g ++ v ++ g' ++ ['='] ++ g'' ++ w ++ g₄) := by
    simpa using ha' r w g₄ hr hg₄
  exact (finish_fair hskip₄ hv').map fun _ => (l, r)

lemma Fair.error_place {r : Reply α} {place : Place} (h : Fair T text r) (hr : r.toExcept text = .error place) :
    ∃ read rest completion, text = read ++ rest ∧ read.length = r.farthest ∧ place = placeAfter read ∧
      T (read ++ completion) := by
  obtain ⟨hle, completion, hT⟩ := h.farthest
  refine ⟨text.take r.farthest, text.drop r.farthest, completion, (List.take_append_drop _ _).symm, ?_, ?_, hT⟩
  · rw [List.length_take, Nat.min_eq_left hle]
  · unfold toExcept at hr
    split at hr
    · cases hr
    · cases hr
      rfl

/-- A text that is not a formula is reported at a place in the text or at its end, and what stands before that place is
the beginning of a text that is a formula. The same goes for equations. -/
theorem error_place_viable :
    (∀ (text : String) (place : Place), parse text = .error place → ∃ read rest : List Char,
      text.toList = read ++ rest ∧ read.length = (whole text.toList).farthest ∧ place = placeAfter read ∧
        ∃ completion s, parse (String.ofList (read ++ completion)) = .ok s) ∧
    ∀ (text : String) (place : Place), parseEquation text = .error place → ∃ read rest : List Char,
      text.toList = read ++ rest ∧ read.length = (equation text.toList).farthest ∧ place = placeAfter read ∧
        ∃ completion l r, parseEquation (String.ofList (read ++ completion)) = .ok (l, r) := by
  refine ⟨fun text place h => ?_, fun text place h => ?_⟩
  · obtain ⟨read, rest, completion, htext, hlength, hplace, s, hs⟩ := (whole_fair text.toList).error_place h
    refine ⟨read, rest, htext, hlength, hplace, completion, s, (parse_eq_ok_iff _ s).mpr ?_⟩
    rwa [String.toList_ofList]
  · obtain ⟨read, rest, completion, htext, hlength, hplace, l, r, hs⟩ := (equation_fair text.toList).error_place h
    refine ⟨read, rest, htext, hlength, hplace, completion, l, r, (parseEquation_eq_ok_iff _).mpr ?_⟩
    rwa [String.toList_ofList]

/-- An operator is missing its operand, a bracket is not closed. -/
theorem error_place_viable_unfinished :
    (parse "x + *y" = .error ⟨1, 5⟩ ∧
      ∃ completion s, parse (String.ofList (['x', ' ', '+', ' '] ++ completion)) = .ok s) ∧
    parseEquation "x = (y" = .error ⟨1, 7⟩ ∧
      ∃ completion l r, parseEquation (String.ofList (['x', ' ', '=', ' ', '(', 'y'] ++ completion)) = .ok (l, r) := by
  have hparse : parse "x + *y" = .error ⟨1, 5⟩ := by cbv
  have hequation : parseEquation "x = (y" = .error ⟨1, 7⟩ := by cbv
  refine ⟨⟨hparse, ?_⟩, hequation, ?_⟩
  · obtain ⟨read, rest, htext, hlength, -, hok⟩ := error_place_viable.1 _ _ hparse
    have hfarthest : (whole "x + *y".toList).farthest = 4 := by cbv
    have hsplit : "x + *y".toList = ['x', ' ', '+', ' '] ++ ['*', 'y'] := rfl
    obtain ⟨rfl, -⟩ := List.append_inj (htext.symm.trans hsplit) (hlength.trans hfarthest)
    exact hok
  · obtain ⟨read, rest, htext, hlength, -, hok⟩ := error_place_viable.2 _ _ hequation
    have hfarthest : (equation "x = (y".toList).farthest = 6 := by cbv
    have hsplit : "x = (y".toList = ['x', ' ', '=', ' ', '(', 'y'] ++ [] := rfl
    obtain ⟨rfl, -⟩ := List.append_inj (htext.symm.trans hsplit) (hlength.trans hfarthest)
    exact hok

end PlaneCalculus.Formula
