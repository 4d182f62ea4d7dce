import InputFlow.Proofs.Block.Comparison

namespace InputFlow

/-- Two states of a block report the same facts, where unknown counts as independent. The facts of
stores to elements are left open. -/
structure SameFacts (env : Env) (s t : BlockState) : Prop where
  values : s.values.Agree t.values
  outArgs : s.outArgs.Agree t.outArgs
  callArgs : s.callArgs.Agree t.callArgs
  returned : (s.returned.getD .unknown).settle = (t.returned.getD .unknown).settle
  mem_instructions : ∀ i, i ∈ s.instructions ↔ i ∈ t.instructions
  instructions : ∀ i, ¬ env.IsElementStore i →
    (s.instructions.fact i).settle = (t.instructions.fact i).settle

namespace Env

variable {env : Env} {b : BlockId} {s t : BlockState} {E D : FactMap}

theorem isExact_of_defines {v : ValueId} (h : env.program.Defines b v) : env.IsExact (.inst v) := by
  rintro i ⟨⟩
  exact not_isElementStore_of_isResult h.2

theorem sameFacts_of_get (hs : Shaped env b s) (ht : Shaped env b t)
    (hentry : s.entry.Agree t.entry)
    (hget : ∀ d, env.IsExact d → (s.get d).settle = (t.get d).settle) : SameFacts env s t where
  values v := by
    by_cases hd : env.program.Defines b v
    · rw [Facts.fact_of_some (hs.results v hd), Facts.fact_of_some (ht.results v hd)]
      exact hget (.inst v) (isExact_of_defines hd)
    by_cases hw : v ∈ (env.outline b).written
    · rw [Facts.fact_of_some (hs.slots v hw), Facts.fact_of_some (ht.slots v hw)]
      exact hget (.slot v) nofun
    · rw [hs.others v (by simp [hs.defined, hd, hw]), ht.others v (by simp [ht.defined, hd, hw])]
      exact hentry v
  outArgs v := by
    rw [Facts.fact_eq, Facts.fact_eq]
    exact hget (.outArg v) nofun
  callArgs arg := by
    rw [Facts.fact_eq, Facts.fact_eq]
    exact hget (.callArg arg) nofun
  returned := hget .returned nofun
  mem_instructions i := (hs.instructions i).trans (ht.instructions i).symm
  instructions i hi := hget (.inst i) (by rintro j ⟨⟩; exact hi)

theorem NeedsAll.mono {is : List ValueId} (h : env.NeedsAll E is)
    (hE : ∀ v ∈ E, env.keys v = [v] → v ∈ D) : env.NeedsAll D is := by
  intro before i after his
  obtain ⟨huses, haddresses⟩ := h before i after his
  refine ⟨fun v hv k hk => ?_, haddresses⟩
  obtain ⟨ho, hkeys⟩ := origin_of_mem_operandFormula hk
  have hkv : k = v := by
    rw [Outline.origin] at ho
    split at ho
    · cases ho
    · exact Origin.entry.inj ho
  exact hE k (huses v hv k hk) (hkv ▸ hkeys)

theorem mem_operands_of_mem_inputs {i v : ValueId} (h : v ∈ env.inputs i) :
    v ∈ env.program.operands i := by
  rw [inputs, uses] at h
  rw [Program.operands]
  cases hd : env.program.definition? i with
  | none => simp [hd] at h
  | some d =>
    rw [hd] at h
    cases d with
    | inst code =>
      cases code with
      | load pointer =>
        simp only [loadUses] at h
        split at h <;> simp_all [Definition.operands, Code.operands]
      | store value pointer =>
        simp only [storeUses] at h
        split at h <;> grind [Definition.operands, Code.operands]
      | _ => exact h
    | _ => exact h

/-- A block reads the fact on entry of one of its own results only in a phi, or where the result is
used before it is defined. -/
theorem own_origin (hslots : env.SlotsAreStorage)
    (hE : env.NeedsAll E (env.program.instructions b)) {f : Formula} {d : Derived} {k : ValueId}
    (hf : (env.outline b).Defines f d) (ho : .entry k ∈ f.origins) (hk : env.program.Defines b k) :
    ∃ before i after, env.program.instructions b = before ++ i :: after ∧
      k ∈ env.program.operands i ∧ k ∈ i :: after ∧ (env.program.isPhi i ∨ k ∈ E) := by
  refine originsIn_defines hslots (P := fun o => ∀ k, o = .entry k → env.program.Defines b k →
    ∃ before i after, env.program.instructions b = before ++ i :: after ∧
      k ∈ env.program.operands i ∧ k ∈ i :: after ∧ (env.program.isPhi i ∨ k ∈ E)) ?_ hf ho k rfl hk
  refine originsIn_outlineOf hslots ?_ fun v hv k hvk hk => ?_
  · rintro before i after his v hv o ho k rfl hk
    obtain ⟨horigin, -⟩ := origin_of_mem_operandFormula ho
    obtain ⟨rfl, hbefore⟩ : k = v ∧ k ∉ before := by
      rw [Outline.origin, done_outlineOf] at horigin
      split at horigin
      next => cases horigin
      next hnot =>
        obtain rfl := Origin.entry.inj horigin
        exact ⟨rfl, fun hmem => hnot ⟨hmem, hk.2⟩⟩
    refine ⟨before, i, after, his, mem_operands_of_mem_inputs hv, ?_, ?_⟩
    · have hmem := hk.1
      rw [his, List.mem_append] at hmem
      exact hmem.resolve_left hbefore
    · by_cases hphi : env.program.isPhi i
      · exact Or.inl hphi
      · refine Or.inr ((hE before i after his).1 k ?_ k ho)
        rw [inputs] at hv
        split at hv
        · simp [Program.isPhi, *] at hphi
        · exact hv
  · cases hvk
    exact absurd hk.2 (by simp [Program.isResult_of_isStorage hv])

theorem nodup_instructions (p : Program) (b : BlockId) : (p.instructions b).Nodup := by
  refine List.Pairwise.filter _ ?_
  rw [Program.blockValues]
  split
  · exact List.nodup_range'
  · exact List.nodup_nil

/-- A revision agrees with a new analysis, if no fact on entry to the block is one of a result that
an instruction reads before it is defined. -/
theorem sameFacts_revise (hslots : env.SlotsAreStorage) {preds : List FactMap} {initial : FactMap}
    (release : Bool) (hs : env.analyze.run { block := b, entry := E } = .ok () s)
    (hread : ∀ f d, (env.outline b).Defines f d → ∀ k, .entry k ∈ f.origins →
      ¬ env.program.Defines b k)
    (hM : ∀ v ∈ BlockState.mergedEntry preds initial, ¬ env.program.Defines b v) :
    ∃ t, env.analyze.run
        { block := b, entry := E.join (BlockState.mergedEntry preds initial) } = .ok () t ∧
      SameFacts env (s.revise env.program preds initial release).1 t := by
  have hnodup := nodup_instructions env.program b
  obtain ⟨ρ, hfirst⟩ := analysed_of_run hslots hnodup hs
  obtain ⟨t, ht⟩ := (analyze_ok_iff hslots hnodup).2
    (NeedsAll.mono (D := E.join (BlockState.mergedEntry preds initial))
      ((analyze_ok_iff hslots hnodup).1 ⟨s, hs⟩) fun v hv _ => Facts.mem_join.2 (Or.inl hv))
  obtain ⟨ρ', hnew⟩ := analysed_of_run hslots hnodup ht
  obtain ⟨u, D, hu, -, hrevise, -⟩ := revised_revise hslots hfirst.toShaped (hfirst.closed hslots)
    hfirst.isOpen preds initial release
  refine ⟨t, ht, ?_⟩
  have hentry (v : ValueId) : u.entry.fact v = t.entry.fact v := by
    rw [hu.entry, hfirst.entry, hnew.entry, Facts.fact_join]
  have hclosed := hnew.closed hslots
  have hle := hnew.get_le hslots hu.closed fun v => by
    rw [hentry, hnew.entry]
    exact Fact.le_settle _
  have hge := hu.steps.get_le hslots hfirst.toShaped (X := fun d => (t.get d).settle)
    (Y := fun v => (t.entry.fact v).settle) ?_ ?_ ?_ ?_ ?_
  · have hsame := sameFacts_of_get hu.shaped hnew.toShaped (fun v => by rw [hentry]) fun d hd =>
      le_antisymm (Fact.settle_le_settle.2 (hge d hd)) (Fact.settle_le_settle.2 (hle d))
    rw [hrevise]
    exact { hsame with }
  · intro d _
    refine hfirst.get_le hslots hclosed (fun v => ?_) d
    rw [hnew.entry, Facts.fact_join]
    exact le_sup_left.trans (Fact.le_settle _)
  · intro v
    rw [← hentry, hu.entry]
    exact le_sup_left.trans (Fact.le_settle _)
  · intro v
    rw [← hentry, hu.entry]
    exact le_sup_right.trans (Fact.le_settle _)
  · -- a revised value is no result of the block, so formulas take its fact on entry
    intro k d hedge hd hk
    obtain ⟨f, hf, o, ho, rfl⟩ := origin_of_edge hd hedge
    cases o with
    | entry k => exact Fact.settle_le_settle.2 ((closed_iff.1 hclosed f d hf).2 _ ho)
    | result k => exact absurd (defines_of_result hslots hf ho) (hM k hk)
  · intro k d hedge hd hk
    obtain ⟨f, hf, o, ho, rfl⟩ := origin_of_edge hd hedge
    cases o with
    | entry k => exact absurd hk (hread f d hf k ho)
    | result k => exact Fact.settle_le_settle.2 ((closed_iff.1 hclosed f d hf).2 _ ho)

end Env

end InputFlow
