import InputFlow.Proofs.Block.Agreement
import InputFlow.Proofs.Block.Coherence

namespace InputFlow

/-- Values that the block has not defined, and that are no results of it, have the same fact on entry
and at the end. A result that has not been given its fact may have gone up already. -/
def PassesThrough (env : Env) (b : BlockId) (s : BlockState) : Prop :=
  ∀ v, v ∉ s.defined → ¬ env.program.Defines b v → s.values.fact v = s.entry.fact v

namespace PassesThrough

variable {env : Env} {b : BlockId} {K : ValueId → Prop} {s t : BlockState} {i v : ValueId}
  {fact : Dep}

theorem putSlot (h : PassesThrough env b s) (state : SlotState) :
    PassesThrough env b (s.putSlot v state) := by
  intro u hu hd
  have hne : ¬ (v = u ∨ u ∈ s.defined) := by
    simpa [BlockState.putSlot, Std.ExtTreeSet.mem_insert] using hu
  have hkept : (s.putSlot v state).values.fact u = s.values.fact u := by
    simp only [BlockState.putSlot, Facts.fact_insert]
    exact if_neg fun hv => hne (.inl hv)
  rw [hkept]
  exact h u (fun hu => hne (.inr hu)) hd

theorem change (h : PassesThrough env b s) (hst : Change env i s t) : PassesThrough env b t := by
  cases hst with
  | overwrite _ fact keys =>
    exact putSlot (s := ({ s with derivations := _ } : BlockState).record _ _) h _
  | blend _ fact keys =>
    rw [BlockState.blend]
    split
    · exact putSlot (s := s.record _ _) h _
    · exact putSlot (s := (s.record _ _).record _ _) h _
  | _ => exact h

theorem setInstruction (h : PassesThrough env b s) :
    PassesThrough env b (s.setInstruction env.program i fact) := by
  rw [BlockState.setInstruction_eq]
  intro v hv hd
  by_cases hr : env.program.isResult i
  · simp only [hr, if_true] at hv ⊢
    have hne : ¬ (i = v ∨ v ∈ s.defined) := by simpa [Std.ExtTreeSet.mem_insert] using hv
    rw [Facts.fact_insert, if_neg fun hi => hne (.inl hi)]
    exact h v (fun hv => hne (.inr hv)) hd
  · simp only [hr] at hv ⊢
    exact h v hv hd

theorem settleInstructions (hc : Coherent env b K s) (h : PassesThrough env b s) :
    PassesThrough env b (s.settleInstructions env.program) := by
  intro v hv hd
  -- only results of the block are settled
  have hkept : (s.settleInstructions env.program).values[v]? = s.values[v]? := by
    rw [BlockState.getElem?_values_settleInstructions, if_neg]
    intro hsettled
    have hmem : v ∈ s.instructions := Facts.mem_of_some hsettled.1
    have ha : ¬ env.program.isAlloca v := fun ha =>
      hc.allocas v hmem ha (Facts.fact_of_some hsettled.1)
    exact hd ⟨hc.instructions v hmem, by simp [Program.isResult, ha, hsettled.2]⟩
  rw [Facts.fact_eq, hkept, ← Facts.fact_eq]
  exact h v hv hd

theorem instruction (hslots : env.SlotsAreStorage) (h : PassesThrough env b s) :
    PassesThrough env b ((env.instruction i).stateAfter s) := by
  have hchanges := Env.changes_instruction hslots i s
  generalize (env.instruction i).stateAfter s = t at hchanges ⊢
  induction hchanges with
  | refl => exact h
  | tail _ hchange ih => exact ih.change hchange

theorem instructionsFrom (hslots : env.SlotsAreStorage) (is : List ValueId)
    (h : PassesThrough env b s) :
    PassesThrough env b (Transfer.stateAfter (is.forM fun i => do
      let fact ← env.instruction i
      modify (·.setInstruction env.program i fact)) s) := by
  induction is generalizing s with
  | nil => exact h
  | cons i is ih =>
    have hafter := h.instruction (i := i) hslots
    rw [Transfer.stateAfter] at hafter
    rw [List.forM, Transfer.stateAfter_bind, run_bind]
    cases hrun : (env.instruction i).run s with
    | error e t =>
      rw [hrun] at hafter
      exact hafter
    | ok fact t =>
      rw [hrun] at hafter
      exact ih hafter.setInstruction

theorem analyze (hslots : env.SlotsAreStorage) (hc : Coherent env b K s)
    (h : PassesThrough env b s) : PassesThrough env b (env.analyze.stateAfter s) := by
  have hcoherent := hc.instructionsFrom hslots fun _ => id
  have hpassed := h.instructionsFrom hslots (env.program.instructions b)
  rw [Transfer.stateAfter] at hpassed
  rw [Env.analyze, Transfer.stateAfter_bind, run_get]
  dsimp only
  rw [hc.block, Transfer.stateAfter_bind]
  split at hcoherent
  next hrun =>
    rw [hrun] at hpassed ⊢
    exact hpassed.settleInstructions hcoherent
  next hrun =>
    rw [hrun] at hpassed ⊢
    exact hpassed

theorem raise (hc : Coherent env b K s) (h : PassesThrough env b s) {k : ValueId} {d : Derived}
    {a : Dep} (hd : d ∈ s.derivations.of k) : PassesThrough env b (s.raise env.program a d) := by
  intro v hv hdefines
  rw [BlockState.defined_raise] at hv
  have hother : d.value? env.program ≠ some v := by
    intro hvalue
    rcases Derived.value?_eq_some.1 hvalue with ⟨hi, hr⟩ | hslot
    · exact hdefines ⟨(hc.users k v (hi ▸ hd)).1, hr⟩
    · have hmem : v ∈ s.slots := hc.derived k (.slot v) (hslot ▸ hd) (by simp)
      exact hv (hc.slots v hmem).1
  have hkept : (s.raise env.program a d).values[v]? = s.values[v]? := by
    rw [BlockState.getElem?_values_raise fun hvalue => absurd hvalue hother, if_neg hother]
  rw [Facts.fact_eq, hkept, ← Facts.fact_eq, BlockState.entry_raise]
  exact h v hv hdefines

theorem steps {M : FactMap} (hc : Coherent env b K s) (h : PassesThrough env b s)
    (hst : Steps env.program M s t) : PassesThrough env b t := by
  induction hst with
  | refl => exact h
  | enter _ _ ih => exact fun v hv hd => Shaped.fact_values_enter hv (ih v hv hd)
  | raise hbefore hd _ ih => exact ih.raise (hc.steps hbefore) hd

theorem revise (hc : Coherent env b K s) (h : PassesThrough env b s) (preds : List FactMap)
    (initial : FactMap) (release : Bool) :
    PassesThrough env b (s.revise env.program preds initial release).1 := by
  have hsteps := h.steps hc (s.steps_revision env.program (BlockState.mergedEntry preds initial))
  rw [BlockState.revise_eq hc.isOpen]
  split
  · exact hsteps
  · exact hsteps

end PassesThrough

/-- The places where a block keeps a fact agree: a result has that of its instruction, a slot is
defined and its value has that of its content, and a value that is not defined has the same on entry
and at the end. -/
structure BlockState.Agrees (s : BlockState) (p : Program) : Prop where
  results : ∀ i ∈ p.instructions s.block, ¬ p.isAlloca i → p.hasResult i →
    ∃ a, s.instructions[i]? = some a ∧ s.values[i]? = some a
  slots : ∀ v state, s.slots[v]? = some state → s.values[v]? = some state.fact ∧ v ∈ s.defined
  others : ∀ v, v ∉ s.defined → s.values.fact v = s.entry.fact v

namespace Env

variable {env : Env} {b : BlockId} {s : BlockState}

theorem Handled.passesThrough (hslots : env.SlotsAreStorage) (h : env.Handled b s) :
    PassesThrough env b s := by
  induction h with
  | start E => exact fun _ _ _ => rfl
  | analyze h ih => exact ih.analyze hslots (h.coherent hslots)
  | revise h preds initial release ih => exact ih.revise (h.coherent hslots) preds initial release

theorem Revisable.passesThrough (hslots : env.SlotsAreStorage) (h : env.Revisable b s) :
    PassesThrough env b s := by
  induction h with
  | analyze h hrun =>
    have hafter := (h.passesThrough hslots).analyze hslots (h.coherent hslots)
    rwa [Transfer.stateAfter, hrun] at hafter
  | revise h preds initial release ih => exact ih.revise (h.complete hslots) preds initial release

/-- After a successful analysis and any number of revisions, until its facts are final, the places
where a block keeps a fact agree. -/
theorem facts_agree_until_final {text : List Char} (hparse : Source.parse text = .ok env.program)
    (hcontext : env.context.IsOf env.program) (hs : env.Revisable b s) :
    s.block = b ∧ s.isFinal = false ∧ s.Agrees env.program := by
  have hslots := slotsAreStorage (Source.wellFormed_of_parse hparse) hcontext
  have hcomplete := hs.complete hslots
  refine ⟨hcomplete.block, hcomplete.isOpen, ?_, ?_, ?_⟩
  · intro i hi ha hr
    rw [hcomplete.block] at hi
    have hresult : env.program.isResult i := by simp [Program.isResult, ha, hr]
    exact ⟨s.get (.inst i), Facts.getElem?_of_mem (hcomplete.given i hi),
      (hcomplete.results i hi hresult).2⟩
  · intro v state hstate
    obtain ⟨hdefined, hvalue⟩ := hcomplete.slots v (Std.ExtTreeMap.mem_iff_isSome_getElem?.2
      (by simp [hstate]))
    have hget : s.get (.slot v) = state.fact := by simp [BlockState.get, hstate]
    exact ⟨hvalue.trans (by rw [hget]), hdefined⟩
  · intro v hv
    exact hs.passesThrough hslots v hv fun hd => hv (hcomplete.results v hd.1 hd.2).1

/-- Two revisions of `next`, the first for a slot that turns out to depend on the parameter, which the
block reads and writes, the second for the parameter, which passes through. -/
theorem slot_facts_agree :
    let env := plain slotProgram
    let slot : FactMap := .ofList [(1, Fact.on 0)]
    let param : FactMap := .ofList [(0, Fact.on 0)]
    ∃ s, env.Revisable 1 s ∧
      let once := (s.revise slotProgram [slot] ∅ true).1
      let twice := (once.revise slotProgram [param] ∅ false).1
      (twice.values.toList = [(0, .on 0), (1, .on 0), (3, .on 0), (4, .on 0)] ∧
        twice.defined.toList = [1, 3, 4]) ∧
      twice.block = 1 ∧ twice.isFinal = false ∧ twice.Agrees slotProgram := by
  intro env slot param
  have hok : (env.analysis? 1 (.ofList [(1, Fact.independent)])).map (fun s =>
      let once := (s.revise slotProgram [slot] ∅ true).1
      let twice := (once.revise slotProgram [param] ∅ false).1
      (twice.values.toList, twice.defined.toList)) =
        some ([(0, .on 0), (1, .on 0), (3, .on 0), (4, .on 0)], [1, 3, 4]) := by
    decide +kernel
  obtain ⟨s, hs, hfacts⟩ := Option.map_eq_some_iff.1 hok
  have hrevisable : env.Revisable 1 s := .analyze (.start _) (analysis?_eq_some.1 hs)
  have hrevised := (hrevisable.revise [slot] ∅ true).revise [param] ∅ false
  exact ⟨s, hrevisable, Prod.mk.inj hfacts,
    facts_agree_until_final parse_slotText (plain_isOf slotProgram) hrevised⟩

end Env

end InputFlow
