import InputFlow.Proofs.Block.Agreement
import InputFlow.Proofs.Block.Coherence

namespace InputFlow

/-- All facts of the first state are below those of the second; where there is none it counts as
unknown. -/
structure BlockState.Below (s t : BlockState) : Prop where
  entry : s.entry.Below t.entry
  instructions : s.instructions.Below t.instructions
  values : s.values.Below t.values
  outArgs : s.outArgs.Below t.outArgs
  callArgs : s.callArgs.Below t.callArgs
  returned : s.returned.getD .unknown ≤ t.returned.getD .unknown

/-- The outcome tells what differs between the states before and after. -/
structure Outcome.IsExact (o : Outcome) (s t : BlockState) : Prop where
  values : ∀ v, v ∈ o.changedValues ↔ s.values.fact v ≠ t.values.fact v
  instructions : o.changedInstructions = 0 ↔ ∀ i, s.instructions.fact i = t.instructions.fact i
  effects : o.changedEffects ↔ (∃ v, s.outArgs.fact v ≠ t.outArgs.fact v) ∨
    (∃ arg, s.callArgs.fact arg ≠ t.callArgs.fact arg) ∨
      s.returned.getD .unknown ≠ t.returned.getD .unknown

namespace BlockState

variable {s t : BlockState}

theorem below_of_get (hentry : s.entry.Below t.entry) (hvalues : s.values.Below t.values)
    (hget : ∀ d, s.get d ≤ t.get d) : s.Below t where
  entry := hentry
  instructions i := hget (.inst i)
  values := hvalues
  outArgs v := by
    rw [Facts.fact_eq, Facts.fact_eq]
    exact hget (.outArg v)
  callArgs arg := by
    rw [Facts.fact_eq, Facts.fact_eq]
    exact hget (.callArg arg)
  returned := hget .returned

/-- An effect differs if one on an argument, on a call or on the return does. -/
theorem exists_effect_ne : (∃ d : Derived, d.IsEffect ∧ s.get d ≠ t.get d) ↔
    (∃ v, s.outArgs.fact v ≠ t.outArgs.fact v) ∨
      (∃ arg, s.callArgs.fact arg ≠ t.callArgs.fact arg) ∨
        s.returned.getD .unknown ≠ t.returned.getD .unknown := by
  simp only [Facts.fact_eq]
  constructor
  · rintro ⟨d, heffect, hne⟩
    cases d with
    | inst i => exact heffect.elim
    | slot v => exact heffect.elim
    | outArg v => exact .inl ⟨v, hne⟩
    | callArg arg => exact .inr (.inl ⟨arg, hne⟩)
    | returned => exact .inr (.inr hne)
  · rintro (⟨v, hne⟩ | ⟨arg, hne⟩ | hne)
    · exact ⟨.outArg v, trivial, hne⟩
    · exact ⟨.callArg arg, trivial, hne⟩
    · exact ⟨.returned, trivial, hne⟩

end BlockState

/-- What a revision from the start reports is what its outcome tells. -/
theorem Revision.Reports.isExact {s : BlockState} {r : Revision}
    (h : ({ state := s } : Revision).Reports r) : r.outcome.IsExact s r.state where
  values v := by simpa using h.values v
  instructions := by
    obtain ⟨n, hn, hne⟩ := h.instructions
    have hcount : r.outcome.changedInstructions = n := by simpa using hn
    rw [hcount, ← not_iff_not, not_forall]
    exact hne
  effects := by
    rw [← BlockState.exists_effect_ne]
    simpa using h.effects

/-- That the places where facts stand agree is kept by the steps of a revision. -/
theorem stable_complete (env : Env) (b : BlockId) : Stable env.program (Complete env b) where
  enter _ _ _ h := h.enter
  raise _ _ _ _ h hd := h.raise hd
  slots _ k v h hd := h.derived k (.slot v) hd (by simp)
  values _ _ _ _ h hd hv := (h.value (h.has hd) hv).2

namespace Env

/-- Each of any number of revisions only raises facts, and its outcome tells exactly which. -/
theorem revision_outcome_is_exact {text : List Char} {env : Env} {b : BlockId} {s : BlockState}
    (hparse : Source.parse text = .ok env.program) (hcontext : env.context.IsOf env.program)
    (hs : env.Revisable b s) (preds : List FactMap) (initial : FactMap) (release : Bool) :
    let revised := s.revise env.program preds initial release
    s.Below revised.1 ∧ revised.2.IsExact s revised.1 := by
  have h : Complete env b s :=
    hs.complete (slotsAreStorage (Source.wellFormed_of_parse hparse) hcontext)
  let M := BlockState.mergedEntry preds initial
  have hreports : ({ state := s } : Revision).Reports (s.revision env.program M) :=
    Revision.reports_joinEntries (stable_complete env b) _ h
  have hbelow : s.Below (s.revision env.program M).state :=
    BlockState.below_of_get (s.steps_revision env.program M).entry_mono hreports.values_le
      hreports.get_le
  have hexact := hreports.isExact
  intro revised
  have hrevised : revised = _ := BlockState.revise_eq h.isOpen env.program preds initial release
  rw [hrevised]
  -- releasing forgets derivations only
  cases release with
  | false => exact ⟨hbelow, hexact⟩
  | true => exact ⟨{ hbelow with }, { hexact with }⟩

/-- The revision of `next` for a slot that turns out to depend on the parameter, which raises the slot,
the results, the store and the return. -/
theorem slot_outcome_is_exact :
    let env := plain slotProgram
    let exit : FactMap := .ofList [(1, Fact.on 0)]
    ∃ s, env.Revisable 1 s ∧
      let revised := s.revise slotProgram [exit] ∅ true
      (revised.2.changedValues.toList = [1, 3, 4] ∧ revised.2.changedInstructions = 4 ∧
        revised.2.changedEffects) ∧ s.Below revised.1 ∧ revised.2.IsExact s revised.1 := by
  intro env exit
  have hok : (env.analysis? 1 (.ofList [(1, Fact.independent)])).map (fun s =>
      let revised := s.revise slotProgram [exit] ∅ true
      (revised.2.changedValues.toList, revised.2.changedInstructions, revised.2.changedEffects)) =
        some ([1, 3, 4], 4, true) := by
    decide +kernel
  obtain ⟨s, hs, houtcome⟩ := Option.map_eq_some_iff.1 hok
  have hrevisable : env.Revisable 1 s := .analyze (.start _) (analysis?_eq_some.1 hs)
  refine ⟨s, hrevisable, ?_, revision_outcome_is_exact parse_slotText (plain_isOf slotProgram)
    hrevisable [exit] ∅ true⟩
  simpa using houtcome

end Env

end InputFlow
