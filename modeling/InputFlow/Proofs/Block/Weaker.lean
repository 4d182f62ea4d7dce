import InputFlow.Proofs.Block.Widening

namespace InputFlow

variable {φ : Widening}

/-- The second formula takes all the facts that the first does, and its fixed fact widens that of the
first. -/
structure Formula.Weaker (φ : Widening) (f g : Formula) : Prop where
  base : f.base ∈ φ g.base
  origins : ∀ o ∈ f.origins, o ∈ g.origins

namespace Formula

variable {f f' g g' k : Formula}

theorem base_le_base_sum {fs : List Formula} (h : f ∈ fs) : f.base ≤ (sum fs).base := by
  induction fs with
  | nil => cases h
  | cons g fs ih =>
    rw [sum_cons]
    rcases List.mem_cons.1 h with rfl | h
    · exact le_sup_left
    · exact (ih h).trans le_sup_right

namespace Weaker

theorem refl (hφ : φ.Extensive) (f : Formula) : f.Weaker φ f :=
  ⟨hφ _, fun _ => id⟩

theorem join (hf : f.Weaker φ f') (hg : g.Weaker φ g') : (f.join g).Weaker φ (f'.join g') where
  base := Order.Ideal.sup_mem (φ.mem_of_le le_sup_left hf.base) (φ.mem_of_le le_sup_right hg.base)
  origins o ho := List.mem_append.2 ((List.mem_append.1 ho).imp (hf.origins o) (hg.origins o))

theorem join_right (h : f.Weaker φ g) (k : Formula) : f.Weaker φ (g.join k) where
  base := φ.mem_of_le le_sup_left h.base
  origins o ho := List.mem_append_left _ (h.origins o ho)

theorem sum {fs gs : List Formula} (h : ∀ f ∈ fs, ∃ g ∈ gs, f.Weaker φ g) :
    (Formula.sum fs).Weaker φ (Formula.sum gs) where
  base := by
    refine JoinSet.base_sum_mem (J := .ofIdeal (φ (Formula.sum gs).base)) fun f hf => ?_
    obtain ⟨g, hg, hfg⟩ := h f hf
    exact φ.mem_of_le (base_le_base_sum hg) hfg.base
  origins o ho := by
    obtain ⟨f, hf, ho⟩ := mem_origins_sum.1 ho
    obtain ⟨g, hg, hfg⟩ := h f hf
    exact mem_origins_sum.2 ⟨g, hg, hfg.origins o ho⟩

theorem sum_map {α : Type} {l l' : List α} {F G : α → Formula} (hl : ∀ x ∈ l, x ∈ l')
    (h : ∀ x ∈ l, (F x).Weaker φ (G x)) :
    (Formula.sum (l.map F)).Weaker φ (Formula.sum (l'.map G)) :=
  sum (List.forall_mem_map.2 fun x hx => ⟨G x, List.mem_map_of_mem (hl x hx), h x hx⟩)

end Weaker

end Formula

structure Write.Weaker (φ : Widening) (w w' : Write) : Prop where
  slot : w.slot = w'.slot
  whole : w.whole = w'.whole
  formula : w.formula.Weaker φ w'.formula

/-- Writes in order, of which the second has weaker ones for all of the first, and others in between
that replace nothing. -/
inductive WeakerWrites (φ : Widening) : List Write → List Write → Prop
  | nil : WeakerWrites φ [] []
  | cons {w w' : Write} {ws ws' : List Write} (hw : w.Weaker φ w') (h : WeakerWrites φ ws ws') :
    WeakerWrites φ (w :: ws) (w' :: ws')
  | blend {w' : Write} {ws ws' : List Write} (hw : w'.whole = false) (h : WeakerWrites φ ws ws') :
    WeakerWrites φ ws (w' :: ws')

namespace WeakerWrites

variable {ws ws' vs vs' : List Write}

theorem append (h : WeakerWrites φ ws ws') (h' : WeakerWrites φ vs vs') :
    WeakerWrites φ (ws ++ vs) (ws' ++ vs') := by
  induction h with
  | nil => exact h'
  | cons hw _ ih => exact .cons hw ih
  | blend hw _ ih => exact .blend hw ih

theorem flatMap {α : Type} {F G : α → List Write} (h : ∀ x, WeakerWrites φ (F x) (G x)) (l : List α) :
    WeakerWrites φ (l.flatMap F) (l.flatMap G) := by
  induction l with
  | nil => exact .nil
  | cons x l ih => exact (h x).append ih

theorem of_blends (h : ∀ w ∈ ws, w.whole = false) : WeakerWrites φ [] ws := by
  induction ws with
  | nil => exact .nil
  | cons w ws ih =>
    have hrest := ih fun w hw => h w (.tail _ hw)
    exact .blend (h w List.mem_cons_self) hrest

theorem map_filter {P Q : ValueId → Bool} {F G : ValueId → Write} (l : List ValueId)
    (hPQ : ∀ s, P s → Q s) (h : ∀ s, (F s).Weaker φ (G s)) (hG : ∀ s, (G s).whole = false) :
    WeakerWrites φ ((l.filter P).map F) ((l.filter Q).map G) := by
  induction l with
  | nil => exact .nil
  | cons s l ih =>
    by_cases hP : P s
    · rw [List.filter_cons_of_pos hP, List.filter_cons_of_pos (hPQ s hP)]
      exact .cons (h s) ih
    · rw [List.filter_cons_of_neg hP]
      by_cases hQ : Q s
      · rw [List.filter_cons_of_pos hQ]
        exact .blend (hG s) ih
      · rwa [List.filter_cons_of_neg hQ]

end WeakerWrites

/-- Outlines of the same instructions, with weaker contents in the second. -/
structure Outline.Weaker (φ : Widening) (σ τ : Outline) : Prop where
  done : σ.done = τ.done
  written : ∀ v ∈ σ.written, v ∈ τ.written
  content : ∀ v, (σ.content v).Weaker φ (τ.content v)

namespace Outline.Weaker

variable {σ τ : Outline}

theorem write (h : σ.Weaker φ τ) {w w' : Write} (hw : w.Weaker φ w') :
    (σ.write w).Weaker φ (τ.write w') where
  done := h.done
  written v hv := by
    rcases List.mem_cons.1 hv with rfl | hv
    · exact hw.slot ▸ List.mem_cons_self
    · exact .tail _ (h.written v hv)
  content v := by
    have hnew : (if w.whole then w.formula else (σ.content w.slot).join w.formula).Weaker φ
        (if w'.whole then w'.formula else (τ.content w'.slot).join w'.formula) := by
      rw [hw.whole, hw.slot]
      split
      · exact hw.formula
      · exact (h.content _).join hw.formula
    simp only [Outline.write, put, hw.slot] at hnew ⊢
    split
    · exact hnew
    · exact h.content v

theorem blend (h : σ.Weaker φ τ) {w' : Write} (hw : w'.whole = false) :
    σ.Weaker φ (τ.write w') where
  done := h.done
  written v hv := .tail _ (h.written v hv)
  content v := by
    simp only [Outline.write, put, hw]
    split
    next hv =>
      subst hv
      exact (h.content _).join_right _
    next => exact h.content v

theorem read (h : σ.Weaker φ τ) (i : ValueId) (vs ws : List ValueId) :
    (σ.read i vs).Weaker φ (τ.read i ws) :=
  ⟨h.done, h.written, h.content⟩

theorem foldl_write (h : σ.Weaker φ τ) {ws ws' : List Write} (hws : WeakerWrites φ ws ws') :
    (ws.foldl Outline.write σ).Weaker φ (ws'.foldl Outline.write τ) := by
  induction hws generalizing σ τ with
  | nil => exact h
  | cons hw _ ih => exact ih (h.write hw)
  | blend hw _ ih => exact ih (h.blend hw)

end Outline.Weaker

end InputFlow
