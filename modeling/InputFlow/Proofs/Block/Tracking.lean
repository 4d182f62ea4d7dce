import InputFlow.Proofs.Block.Derivations
import InputFlow.Proofs.Block.Origins

namespace InputFlow

def Derived.IsEffect : Derived → Prop
  | inst _ | slot _ => False
  | _ => True

namespace BlockState

def effect? (s : BlockState) : Derived → Option Dep
  | .outArg v => s.outArgs[v]?
  | .callArg arg => s.callArgs[arg]?
  | .returned => s.returned
  | _ => none

end BlockState

namespace Outline

/-- The facts of the origins are those that the equations ask for, with the given facts on entry. -/
structure Solves (σ : Outline) (E : FactMap) (ρ : Origin → Dep) : Prop where
  entry : ∀ v, ρ (.entry v) = E.fact v
  result : ∀ r ∈ σ.rules, ρ (.result r.1) = r.2.eval ρ

@[simp] theorem read_nil (σ : Outline) (user : ValueId) : σ.read user [] = σ := by
  simp [read]

theorem read_append (σ : Outline) (user : ValueId) (ks ks' : List ValueId) :
    σ.read user (ks ++ ks') = (σ.read user ks).read user ks' := by
  simp [read]

end Outline

/-- A state of the analysis of a block whose facts are those of an outline. -/
structure Tracks (p : Program) (E : FactMap) (ρ : Origin → Dep) (σ : Outline) (s : BlockState) :
    Prop where
  entry : s.entry = E
  isOpen : s.isFinal = false
  instructions : ∀ i, s.instructions[i]? = if i ∈ σ.done then some (ρ (.result i)) else none
  values : ∀ v, s.values[v]? =
    if v ∈ σ.done ∧ p.isResult v then some (ρ (.result v))
    else if v ∈ σ.written then some ((σ.content v).eval ρ) else E[v]?
  slots : ∀ v, s.slots[v]? =
    if v ∈ σ.written then some ⟨(σ.content v).eval ρ, (σ.content v).sources⟩ else none
  defined : ∀ v, v ∈ s.defined ↔ (v ∈ σ.done ∧ p.isResult v) ∨ v ∈ σ.written
  effects : ∀ d, s.effect? d =
    if d ∈ σ.effects.map (·.1) then some ((σ.effect d).eval ρ) else none
  edges : ∀ k d, d ∈ s.derivations.of k ↔ σ.Edge k d
  storage : ∀ v ∈ σ.written, p.isStorage v
  fresh : ∀ v ∉ σ.written, σ.content v = .ofOrigin (.entry v)
  origin : ∀ v, ρ (.entry v) = E.fact v

namespace Tracks

variable {p : Program} {E : FactMap} {ρ : Origin → Dep} {σ : Outline} {s : BlockState}

theorem start (b : BlockId) (horigin : ∀ v, ρ (.entry v) = E.fact v) :
    Tracks p E ρ {} { block := b, entry := E } where
  entry := rfl
  isOpen := rfl
  instructions i := by simp [Outline.done]
  values v := by simp [Outline.done]
  slots v := by simp
  defined v := by simp [Outline.done]
  effects d := by cases d <;> simp [BlockState.effect?]
  edges k d := by cases d <;> simp [Outline.Edge, Outline.effect]
  storage v h := by simp at h
  fresh v _ := rfl
  origin := horigin

theorem warn (h : Tracks p E ρ σ s) (ws : List Warning) : Tracks p E ρ σ (s.warn ws) :=
  { h with }

theorem read (h : Tracks p E ρ σ s) (user : ValueId) (ks : List ValueId) :
    Tracks p E ρ (σ.read user ks) (s.record ks (.inst user)) :=
  { h with
    edges := by
      intro k d
      simp only [BlockState.record, Derivations.mem_of_recordAll, h.edges]
      cases d <;> simp [Outline.Edge, Outline.read, Outline.effect, or_comm, eq_comm (a := user)] }

/-- Replaces what is known of a slot, once the derivations fit. -/
theorem put (h : Tracks p E ρ σ s) {slot : ValueId} (hslot : p.isStorage slot) (f : Formula)
    {D : Derivations} (hD : ∀ k d, d ∈ D.of k ↔ (σ.put slot f).Edge k d) :
    Tracks p E ρ (σ.put slot f)
      ({ s with derivations := D }.putSlot slot ⟨f.eval ρ, f.sources⟩) where
  entry := h.entry
  isOpen := h.isOpen
  instructions := h.instructions
  values v := by
    simp only [BlockState.putSlot, Facts.getElem?_insert, Outline.put, List.mem_cons,
      eq_comm (a := slot), h.values]
    by_cases hv : v = slot
    · subst hv
      simp [Program.isResult_of_isStorage hslot]
    · simp only [hv, if_false, false_or]
      rfl
  slots v := by
    simp only [BlockState.putSlot, Outline.put, List.mem_cons]
    rw [Std.ExtTreeMap.getElem?_insert, h.slots]
    by_cases hv : v = slot
    · simp [hv]
    · simp [hv, Ne.symm hv]
  defined v := by
    simp only [BlockState.putSlot, Outline.put, List.mem_cons]
    rw [Std.ExtTreeSet.mem_insert, h.defined, Std.LawfulEqOrd.compare_eq_iff_eq, eq_comm]
    exact or_left_comm
  effects := h.effects
  edges := hD
  storage v hv := by
    rcases List.mem_cons.1 hv with rfl | hv
    · exact hslot
    · exact h.storage v hv
  fresh v hv := by
    simp only [Outline.put, List.mem_cons, not_or] at hv ⊢
    rw [if_neg hv.1]
    exact h.fresh v hv.2
  origin := h.origin

theorem overwrite (h : Tracks p E ρ σ s) {slot : ValueId} (hslot : p.isStorage slot) (f : Formula) :
    Tracks p E ρ (σ.write ⟨slot, true, f⟩) (s.overwrite slot (f.eval ρ) f.sources) := by
  refine h.put hslot f fun k d => ?_
  simp only [Derivations.mem_of_recordAll, Derivations.mem_of_forgetAll, h.edges, h.slots]
  cases d with
  | slot v =>
    by_cases hv : v = slot
    · subst hv
      by_cases hw : v ∈ σ.written <;> simp [Outline.Edge, Outline.put, hw]
    · simp [Outline.Edge, Outline.put, hv]
  | _ => simp [Outline.Edge, Outline.put, Outline.effect]

theorem values_fact (h : Tracks p E ρ σ s) {slot : ValueId} (hslot : p.isStorage slot) :
    s.values.fact slot = (σ.content slot).eval ρ := by
  rw [Facts.fact_eq, h.values]
  simp only [Program.isResult_of_isStorage hslot, Bool.false_eq_true, and_false, if_false]
  split
  · rfl
  · rw [← Facts.fact_eq, h.fresh slot ‹_›, Formula.eval_ofOrigin, h.origin]

theorem blend (h : Tracks p E ρ σ s) {slot : ValueId} (hslot : p.isStorage slot) (f : Formula) :
    Tracks p E ρ (σ.write ⟨slot, false, f⟩) (s.blend slot (f.eval ρ) f.sources) := by
  have hput (D : Derivations) := h.put (D := D) hslot ((σ.content slot).join f)
  rw [Formula.eval_join, Formula.sources_join] at hput
  simp only [BlockState.blend, h.slots]
  by_cases hw : slot ∈ σ.written
  · simp only [hw, if_true]
    refine hput _ fun k d => ?_
    simp only [Derivations.mem_of_recordAll, h.edges]
    cases d with
    | slot v =>
      by_cases hv : v = slot
      · subst hv
        simp [Outline.Edge, Outline.put, hw, or_comm]
      · simp [Outline.Edge, Outline.put, hv]
    | _ => simp [Outline.Edge, Outline.put, Outline.effect]
  · simp only [hw, if_false]
    rw [h.values_fact hslot]
    change Tracks p E ρ (σ.put slot ((σ.content slot).join f)) _
    rw [h.fresh slot hw] at hput ⊢
    refine hput _ fun k d => ?_
    simp only [BlockState.record, Derivations.mem_of_recordAll, h.edges]
    cases d with
    | slot v =>
      by_cases hv : v = slot
      · subst hv
        simp [Outline.Edge, Outline.put, Origin.value, hw, or_comm]
      · simp [Outline.Edge, Outline.put, hv]
    | _ => simp [Outline.Edge, Outline.put, Outline.effect]

theorem addEffect (h : Tracks p E ρ σ s) {d : Derived} (hd : d.IsEffect) (f : Formula)
    {outArgs : FactMap} {callArgs : Facts CallArg} {returned : Option Dep}
    (heffect : ∀ d', ({ s with outArgs, callArgs, returned } : BlockState).effect? d' =
      if d' = d then some ((s.effect? d).getD .unknown ⊔ f.eval ρ) else s.effect? d') :
    Tracks p E ρ (σ.addEffect (d, f))
      (({ s with outArgs, callArgs, returned } : BlockState).record f.sources d) :=
  { h with
    effects := by
      intro d'
      refine (heffect d').trans ?_
      simp only [Outline.addEffect, Outline.effect, List.filter_append, List.map_append,
        List.mem_append, Formula.eval_sum_append, h.effects]
      by_cases hd' : d' = d
      · subst hd'
        by_cases he : d' ∈ σ.effects.map (·.1)
        · simp [he]
        · simp [he, Outline.filter_effects_of_not_mem he]
      · by_cases he : d' ∈ σ.effects.map (·.1) <;> simp [he, hd', Ne.symm hd']
    edges := by
      intro k d'
      simp only [BlockState.record, Derivations.mem_of_recordAll, h.edges]
      have heff : k ∈ ((σ.addEffect (d, f)).effect d').sources ↔
          (k ∈ f.sources ∧ d' = d) ∨ k ∈ (σ.effect d').sources := by
        simp only [Formula.sources, List.mem_map, Outline.mem_effect_origins, Outline.addEffect,
          List.mem_append, List.mem_singleton, Prod.mk.injEq]
        constructor
        · rintro ⟨o, ⟨g, hg | ⟨rfl, rfl⟩, ho⟩, rfl⟩
          · exact Or.inr ⟨o, ⟨g, hg, ho⟩, rfl⟩
          · exact Or.inl ⟨⟨o, ho, rfl⟩, rfl⟩
        · rintro (⟨⟨o, ho, rfl⟩, rfl⟩ | ⟨o, ⟨g, hg, ho⟩, rfl⟩)
          · exact ⟨o, ⟨f, Or.inr ⟨rfl, rfl⟩, ho⟩, rfl⟩
          · exact ⟨o, ⟨g, Or.inl hg, ho⟩, rfl⟩
      cases d' with
      | inst i =>
        have hne : Derived.inst i ≠ d := by rintro rfl; exact hd
        simp [Outline.Edge, Outline.addEffect, hne]
      | slot v =>
        have hne : Derived.slot v ≠ d := by rintro rfl; exact hd
        simp [Outline.Edge, Outline.addEffect, hne]
      | _ => exact heff.symm }

theorem writeOut (h : Tracks p E ρ σ s) (v : ValueId) (f : Formula) :
    Tracks p E ρ (σ.addEffect (.outArg v, f)) (s.writeOut v (f.eval ρ) f.sources) := by
  refine h.addEffect (d := .outArg v) trivial f fun d' => ?_
  cases d' with
  | outArg u =>
    simp only [BlockState.effect?, Facts.joinAt, Facts.getElem?_insert, Facts.fact_eq]
    by_cases hu : u = v
    · simp [hu]
    · simp [hu, Ne.symm hu]
  | _ => simp [BlockState.effect?]

theorem passArg (h : Tracks p E ρ σ s) (arg : CallArg) (f : Formula) :
    Tracks p E ρ (σ.addEffect (.callArg arg, f)) (s.passArg arg (f.eval ρ) f.sources) := by
  refine h.addEffect (d := .callArg arg) trivial f fun d' => ?_
  cases d' with
  | callArg arg' =>
    simp only [BlockState.effect?, Facts.joinAt, Facts.getElem?_insert, Facts.fact_eq]
    by_cases hu : arg' = arg
    · simp [hu]
    · simp [hu, Ne.symm hu]
  | _ => simp [BlockState.effect?]

theorem passReturn (h : Tracks p E ρ σ s) (f : Formula) :
    Tracks p E ρ (σ.addEffect (.returned, f)) (s.passReturn (f.eval ρ) f.sources) := by
  refine h.addEffect (d := .returned) trivial f fun d' => ?_
  cases d' <;> simp [BlockState.effect?]

/-- Gives an instruction the fact of its formula. -/
theorem setInstruction (h : Tracks p E ρ σ s) {i : ValueId} {f : Formula}
    (hresult : ρ (.result i) = f.eval ρ) :
    Tracks p E ρ (σ.finish i f) (s.setInstruction p i (f.eval ρ)) := by
  have hdone : (σ.finish i f).done = σ.done ++ [i] := by simp [Outline.finish, Outline.done]
  have hinst : ∀ j, (s.instructions.insert i (f.eval ρ))[j]? =
      if j ∈ (σ.finish i f).done then some (ρ (.result j)) else none := by
    intro j
    rw [Facts.getElem?_insert, h.instructions, hdone]
    by_cases hj : i = j
    · simp [← hj, hresult]
    · simp [hj, Ne.symm hj]
  simp only [BlockState.setInstruction]
  -- only a result also becomes a value of the block
  cases hr : p.isResult i with
  | false =>
    have hmem (v : ValueId) :
        (v ∈ (σ.finish i f).done ∧ p.isResult v) ↔ v ∈ σ.done ∧ p.isResult v := by
      rw [hdone, List.mem_append, List.mem_singleton, or_and_right]
      exact or_iff_left fun hv => by simp [hv.1, hr] at hv
    rw [if_neg (by simpa [Program.isResult] using hr)]
    refine { h with instructions := hinst, values := ?_, defined := ?_ }
    · intro v
      simp only [hmem]
      exact h.values v
    · intro v
      rw [hmem]
      exact h.defined v
  | true =>
    have hmem (v : ValueId) :
        (v ∈ (σ.finish i f).done ∧ p.isResult v) ↔ v = i ∨ v ∈ σ.done ∧ p.isResult v := by
      rw [hdone, List.mem_append, List.mem_singleton, or_and_right, or_comm]
      exact or_congr_left (and_iff_left_of_imp fun hv => by rw [hv, hr])
    rw [if_pos (by simpa [Program.isResult] using hr)]
    refine { h with instructions := hinst, values := ?_, defined := ?_ }
    · intro v
      simp only [hmem, Facts.getElem?_insert, h.values]
      by_cases hv : v = i
      · simp [hv, hresult]
      · simp only [hv, Ne.symm hv, if_false, false_or]
        rfl
    · intro v
      rw [hmem, Std.ExtTreeSet.mem_insert, h.defined, Std.LawfulEqOrd.compare_eq_iff_eq, eq_comm,
        or_assoc]
      rfl

end Tracks

end InputFlow
