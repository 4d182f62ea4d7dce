import InputFlow.Proofs.Block.Transfer

namespace InputFlow

namespace Env

variable {env : Env} {E : FactMap} {ρ : Origin → Dep} {is : List ValueId} {b : BlockId}
  {s : BlockState}

/-- The equations of a block have a solution for all facts on entry. -/
theorem exists_solves (hslots : env.SlotsAreStorage) (E : FactMap) (hnodup : is.Nodup) :
    ∃ ρ, (env.outlineOf is).Solves E ρ := by
  induction is using List.reverseRecOn with
  | nil => exact ⟨fun o => E.fact o.value, fun v => rfl, by simp [outlineOf]⟩
  | append_singleton is i ih =>
    have hi : i ∉ is := fun h => (List.nodup_append.1 hnodup).2.2 i h i (by simp) rfl
    obtain ⟨ρ, hρ⟩ := ih (List.nodup_append.1 hnodup).1
    let ρ' := fun o => if o = .result i then (env.rule (env.outlineOf is) i).eval ρ else ρ o
    have hsame {f : Formula} (h : ∀ k, .result k ∈ f.origins → k ∈ is) : f.eval ρ' = f.eval ρ := by
      refine Formula.eval_congr fun o ho => if_neg ?_
      rintro rfl
      exact hi (h i ho)
    refine ⟨ρ', fun v => hρ.entry v, ?_⟩
    intro r hr
    rw [outlineOf_append, rules_extend] at hr
    rcases List.mem_append.1 hr with hold | hnew
    · have hne : r.1 ≠ i := by
        rintro rfl
        exact hi (mem_of_mem_rules hold)
      rw [hsame fun k hk => ((originsIn_results hslots is).rules r hold _ hk k rfl).1,
        ← hρ.result r hold]
      exact if_neg fun h => hne (Origin.result.inj h)
    · obtain rfl := List.mem_singleton.1 hnew
      rw [hsame fun k hk => (origins_rule_results hslots hk).1]
      exact if_pos rfl

def NeedsAll (env : Env) (E : FactMap) (is : List ValueId) : Prop :=
  ∀ before i after, is = before ++ i :: after → env.Needs (env.outlineOf before) E i

theorem carries_instructions (hslots : env.SlotsAreStorage) (before is : List ValueId)
    (hρ : ∀ r ∈ (env.outlineOf (before ++ is)).rules, ρ (.result r.1) = r.2.eval ρ) :
    Carries env.program E ρ
      (is.forM fun i => do
        let fact ← env.instruction i
        modify (·.setInstruction env.program i fact))
      (env.outlineOf before)
      (∀ l i r, is = l ++ i :: r → env.Needs (env.outlineOf (before ++ l)) E i) (fun _ => True)
      (env.outlineOf (before ++ is)) := by
  induction is generalizing before with
  | nil =>
    rw [List.append_nil]
    exact (Carries.pure (Q := fun _ => True) trivial).congr (by simp) fun _ => id
  | cons i is ih =>
    have happend : before ++ i :: is = (before ++ [i]) ++ is := by simp
    have hi := hρ _ (mem_rules.2 ⟨before, is, rfl, rfl⟩)
    rw [happend] at hρ ⊢
    have hstep : Carries env.program E ρ (do
        let fact ← env.instruction i
        modify (·.setInstruction env.program i fact)) (env.outlineOf before)
        (env.Needs (env.outlineOf before) E i) (fun _ => True) (env.outlineOf (before ++ [i])) := by
      refine ((carries_instruction hslots (env.outlineOf before) i).bind (m := True)
        fun a _ ha => ?_).congr (and_iff_left trivial) fun _ => id
      rw [outlineOf_append, extend, ha]
      exact Carries.modify fun s hs => hs.setInstruction hi
    rw [List.forM]
    refine Carries.congr (Carries.bind hstep fun _ _ _ => ih (before ++ [i]) hρ) ?_ fun _ => id
    constructor
    · rintro ⟨hi, his⟩ l j r h
      cases l with
      | nil =>
        obtain ⟨rfl, rfl⟩ : i = j ∧ is = r := by simpa using h
        simpa using hi
      | cons k l =>
        obtain ⟨rfl, rfl⟩ : i = k ∧ is = l ++ j :: r := by simpa using h
        simpa using his l j r rfl
    · intro h
      exact ⟨by simpa using h [] i is rfl, fun l j r hr => by
        simpa using h (i :: l) j r (by simp [hr])⟩

/-- The block is analysed just when every instruction has what it needs. -/
theorem run_analyze (hslots : env.SlotsAreStorage) (hnodup : (env.program.instructions b).Nodup) :
    ∃ ρ, (env.outline b).Solves E ρ ∧
      match env.analyze.run { block := b, entry := E } with
      | .ok _ s => env.NeedsAll E (env.program.instructions b) ∧ ∃ s',
          Tracks env.program E ρ (env.outline b) s' ∧ s = s'.settleInstructions env.program
      | .error _ _ => ¬ env.NeedsAll E (env.program.instructions b) := by
  obtain ⟨ρ, hρ⟩ := exists_solves hslots E hnodup
  refine ⟨ρ, hρ, ?_⟩
  have h := carries_instructions (E := E) (ρ := ρ) hslots [] (env.program.instructions b)
    hρ.result { block := b, entry := E } (Tracks.start b hρ.entry)
  simp only [analyze, run_bind, run_get]
  cases hrun : EStateM.run ((env.program.instructions b).forM fun i => do
      let fact ← env.instruction i
      modify (·.setInstruction env.program i fact)) { block := b, entry := E } with
  | ok a s =>
    rw [hrun] at h
    exact ⟨h.1, s, h.2.2, rfl⟩
  | error e s =>
    rw [hrun] at h
    exact h

end Env

namespace Program

def Defines (p : Program) (b : BlockId) (v : ValueId) : Prop :=
  v ∈ p.instructions b ∧ p.isResult v

instance (p : Program) (b : BlockId) (v : ValueId) : Decidable (p.Defines b v) :=
  inferInstanceAs (Decidable (_ ∧ _))

end Program

namespace BlockState

def get (s : BlockState) : Derived → Dep
  | .slot v => (s.slots[v]?.map (·.fact)).getD .unknown
  | .inst i => s.instructions.fact i
  | d => (s.effect? d).getD .unknown

def origin (s : BlockState) : Origin → Dep
  | .entry v => s.entry.fact v
  | .result v => s.instructions.fact v

end BlockState

/-- The facts of the block at its end, and what they were derived from, are kept where they belong. -/
structure Shaped (env : Env) (b : BlockId) (s : BlockState) : Prop where
  instructions : ∀ i, i ∈ s.instructions ↔ i ∈ env.program.instructions b
  results : ∀ v, env.program.Defines b v → s.values[v]? = some (s.instructions.fact v)
  slots : ∀ v ∈ (env.outline b).written, s.values[v]? = some (s.get (.slot v))
  others : ∀ v ∉ s.defined, s.values.fact v = s.entry.fact v
  passed : ∀ v ∈ s.values, v ∉ s.defined → v ∈ s.entry
  defined : ∀ v, v ∈ s.defined ↔ env.program.Defines b v ∨ v ∈ (env.outline b).written
  mem_slots : ∀ v, v ∈ s.slots ↔ v ∈ (env.outline b).written
  effects : ∀ d, (s.effect? d).isSome ↔ d ∈ (env.outline b).effects.map (·.1)
  edges : ∀ k d, d ∈ s.derivations.of k ↔ (env.outline b).Edge k d

/-- A block that has been analysed with the facts `E` on entry, to which `ρ` solves its equations. -/
structure Analysed (env : Env) (b : BlockId) (E : FactMap) (ρ : Origin → Dep) (s : BlockState) : Prop
    extends Shaped env b s where
  entry : s.entry = E
  kept : ∀ v ∈ E, v ∈ s.values
  isOpen : s.isFinal = false
  solves : (env.outline b).Solves E ρ
  inst : ∀ i ∈ env.program.instructions b, s.instructions.fact i = (ρ (.result i)).settle
  other : ∀ f d, (∀ i, d ≠ .inst i) → (env.outline b).Defines f d → s.get d = f.eval ρ

namespace Facts

theorem getElem?_settleAll (vs : List ValueId) (m : FactMap) (v : ValueId) :
    (vs.foldl (fun m v => m.modify v Fact.settle) m)[v]? =
      if v ∈ vs then m[v]?.map Fact.settle else m[v]? := by
  have hmodify (m : FactMap) (u : ValueId) :
      (m.modify u Fact.settle)[v]? = if v = u then m[v]?.map Fact.settle else m[v]? := by
    rw [Std.ExtTreeMap.getElem?_modify]
    simp only [Std.LawfulEqOrd.compare_eq_iff_eq, eq_comm (a := u)]
    split
    · subst_vars
      rfl
    · rfl
  induction vs generalizing m with
  | nil => simp
  | cons u vs ih =>
    rw [List.foldl_cons, ih, hmodify]
    by_cases hu : v = u
    · subst hu
      cases m[v]? <;> simp
    · simp [hu]

end Facts

/-- Settling the instructions settles the results among them that are unknown. -/
theorem BlockState.getElem?_values_settleInstructions (s : BlockState) (p : Program) (v : ValueId) :
    (s.settleInstructions p).values[v]? =
      if s.instructions[v]? = some .unknown ∧ p.hasResult v then s.values[v]?.map Fact.settle
      else s.values[v]? := by
  have hunsettled : v ∈ (s.instructions.toList.filterMap fun i =>
      if i.2.isUnknown && p.hasResult i.1 then some i.1 else none) ↔
      s.instructions[v]? = some .unknown ∧ p.hasResult v := by
    simp only [List.mem_filterMap, Std.ExtTreeMap.mem_toList_iff_getElem?_eq_some, Prod.exists]
    constructor
    · rintro ⟨i, a, hi, ha⟩
      split at ha
      next hu =>
        obtain rfl := Option.some.inj ha
        simp only [Bool.and_eq_true, Fact.isUnknown_iff] at hu
        exact ⟨hu.1 ▸ hi, hu.2⟩
      next => cases ha
    · rintro ⟨hv, hr⟩
      exact ⟨v, .unknown, hv, if_pos (by simp [hr, Fact.isUnknown_iff])⟩
  rw [settleInstructions, Facts.getElem?_settleAll]
  simp only [hunsettled]

namespace Env

variable {env : Env} {E : FactMap} {ρ : Origin → Dep} {b : BlockId} {s : BlockState}

theorem alloca_known (hρ : (env.outline b).Solves E ρ) {i : ValueId}
    (hi : i ∈ env.program.instructions b) (ha : env.program.isAlloca i) :
    ρ (.result i) ≠ .unknown := by
  obtain ⟨f, hf⟩ := @exists_rule env _ _ hi
  obtain ⟨before, after, -, rfl⟩ := mem_rules.1 hf
  have hd : ∃ size align, env.program.definition? i = some (.inst (.alloca size align)) := by
    simp only [Program.isAlloca] at ha
    split at ha
    · exact ⟨_, _, ‹_›⟩
    · simp at ha
  obtain ⟨size, align, hd⟩ := hd
  rw [hρ.result _ hf]
  simp [rule, hd, Definition.operands, Code.operands]

end Env

namespace Tracks

variable {env : Env} {E : FactMap} {ρ : Origin → Dep} {b : BlockId} {s : BlockState}

theorem getElem?_instructions (h : Tracks env.program E ρ (env.outline b) s) (i : ValueId) :
    s.instructions[i]? = if i ∈ env.program.instructions b then some (ρ (.result i)) else none := by
  rw [h.instructions, Env.outline, Env.done_outlineOf]

theorem mem_instructions (h : Tracks env.program E ρ (env.outline b) s) (i : ValueId) :
    i ∈ s.instructions ↔ i ∈ env.program.instructions b := by
  rw [Std.ExtTreeMap.mem_iff_isSome_getElem?, h.getElem?_instructions]
  split <;> simp [*]

theorem getElem?_values (h : Tracks env.program E ρ (env.outline b) s) (v : ValueId) :
    s.values[v]? =
      if env.program.Defines b v then some (ρ (.result v))
      else if v ∈ (env.outline b).written then some (((env.outline b).content v).eval ρ)
      else E[v]? := by
  have hdone : (env.outline b).done = env.program.instructions b := Env.done_outlineOf _
  rw [h.values, hdone]
  rfl

theorem mem_defined (h : Tracks env.program E ρ (env.outline b) s) (v : ValueId) :
    v ∈ s.defined ↔ env.program.Defines b v ∨ v ∈ (env.outline b).written := by
  have hdone : (env.outline b).done = env.program.instructions b := Env.done_outlineOf _
  rw [h.defined, hdone]
  rfl

theorem fact_slot (h : Tracks env.program E ρ (env.outline b) s) {v : ValueId}
    (hv : v ∈ (env.outline b).written) : s.get (.slot v) = ((env.outline b).content v).eval ρ := by
  rw [BlockState.get, h.slots, if_pos hv]
  rfl

theorem fact_effect (h : Tracks env.program E ρ (env.outline b) s) (d : Derived) :
    (s.effect? d).getD .unknown = ((env.outline b).effect d).eval ρ := by
  rw [h.effects]
  split
  · rfl
  · rw [Outline.effect, Outline.filter_effects_of_not_mem ‹_›]
    rfl

theorem fact_settle (h : Tracks env.program E ρ (env.outline b) s) {i : ValueId}
    (hi : i ∈ env.program.instructions b) :
    (s.settleInstructions env.program).instructions.fact i = (ρ (.result i)).settle := by
  have hfact : s.instructions.fact i = ρ (.result i) :=
    Facts.fact_of_some ((h.getElem?_instructions i).trans (if_pos hi))
  exact (Facts.fact_settle_of_mem ((h.mem_instructions i).2 hi)).trans (congrArg _ hfact)

/-- Settling the instructions settles the results of the block and leaves all other values. -/
theorem getElem?_values_settle (h : Tracks env.program E ρ (env.outline b) s)
    (hρ : (env.outline b).Solves E ρ) (v : ValueId) :
    (s.settleInstructions env.program).values[v]? =
      if env.program.Defines b v then some (ρ (.result v)).settle else s.values[v]? := by
  rw [BlockState.getElem?_values_settleInstructions, h.getElem?_instructions]
  by_cases hv : env.program.Defines b v
  · have hresult : env.program.hasResult v = true := (Bool.and_eq_true_iff.1 hv.2).2
    rw [if_pos hv.1, if_pos hv, h.getElem?_values, if_pos hv]
    by_cases hunknown : ρ (.result v) = .unknown
    · rw [if_pos ⟨congrArg some hunknown, hresult⟩]
      rfl
    · rw [if_neg fun hu => hunknown (Option.some.inj hu.1), Fact.settle_of_ne_unknown hunknown]
  · -- a value with a result that the block does not define is a stack slot, whose fact is known
    have hknown : ¬ ((if v ∈ env.program.instructions b then some (ρ (.result v)) else none) =
        some .unknown ∧ env.program.hasResult v) := by
      rintro ⟨hunknown, hresult⟩
      split at hunknown
      next hmem =>
        have halloca : env.program.isAlloca v = true := by
          by_contra ha
          exact hv ⟨hmem, by simp [Program.isResult, ha, hresult]⟩
        exact Env.alloca_known hρ hmem halloca (Option.some.inj hunknown)
      next => cases hunknown
    rw [if_neg hknown, if_neg hv]

/-- Settling the instructions leaves all facts where they belong. -/
theorem shaped_settle (h : Tracks env.program E ρ (env.outline b) s)
    (hρ : (env.outline b).Solves E ρ) : Shaped env b (s.settleInstructions env.program) where
  instructions i := Facts.mem_settle.trans (h.mem_instructions i)
  results v hv := by
    rw [h.getElem?_values_settle hρ, if_pos hv, h.fact_settle hv.1]
  slots v hv := by
    have hnot : ¬ env.program.Defines b v := fun hd => by
      simpa [Program.isResult_of_isStorage (h.storage v hv)] using hd.2
    rw [h.getElem?_values_settle hρ, if_neg hnot, h.getElem?_values, if_neg hnot, if_pos hv]
    exact congrArg some (h.fact_slot hv).symm
  others v hv := by
    obtain ⟨hresult, hwritten⟩ := not_or.1 ((h.mem_defined v).not.1 hv)
    rw [Facts.fact_eq, h.getElem?_values_settle hρ, if_neg hresult, h.getElem?_values,
      if_neg hresult, if_neg hwritten, ← Facts.fact_eq]
    exact congrArg (Facts.fact · v) h.entry.symm
  passed v hv hnew := by
    obtain ⟨hresult, hwritten⟩ := not_or.1 ((h.mem_defined v).not.1 hnew)
    rw [Std.ExtTreeMap.mem_iff_isSome_getElem?, h.getElem?_values_settle hρ, if_neg hresult,
      h.getElem?_values, if_neg hresult, if_neg hwritten,
      ← Std.ExtTreeMap.mem_iff_isSome_getElem?] at hv
    exact (congrArg (v ∈ ·) h.entry).mpr hv
  defined := h.mem_defined
  mem_slots v := by
    rw [Std.ExtTreeMap.mem_iff_isSome_getElem?]
    refine (congrArg (Option.isSome · = true) (h.slots v)).to_iff.trans ?_
    split <;> simp [*]
  effects d := by
    have heffect : (s.settleInstructions env.program).effect? d = s.effect? d := by cases d <;> rfl
    rw [heffect, h.effects]
    split <;> simp_all
  edges := h.edges

end Tracks

namespace Env

variable {env : Env} {E : FactMap} {ρ : Origin → Dep} {is : List ValueId} {b : BlockId}
  {s : BlockState}

/-- Settling the instructions completes the analysis. -/
theorem analysed_settle (hρ : (env.outline b).Solves E ρ)
    (h : Tracks env.program E ρ (env.outline b) s) :
    Analysed env b E ρ (s.settleInstructions env.program) where
  toShaped := h.shaped_settle hρ
  entry := h.entry
  kept v hv := by
    rw [Std.ExtTreeMap.mem_iff_isSome_getElem?] at hv ⊢
    rw [h.getElem?_values_settle hρ, h.getElem?_values]
    split
    · rfl
    · split
      · rfl
      · exact hv
  isOpen := h.isOpen
  solves := hρ
  inst i hi := h.fact_settle hi
  other f d hd hf := by
    cases d with
    | inst i => exact absurd rfl (hd i)
    | slot v => exact hf.2 ▸ h.fact_slot hf.1
    | outArg v => exact hf ▸ h.fact_effect (.outArg v)
    | callArg arg => exact hf ▸ h.fact_effect (.callArg arg)
    | returned => exact hf ▸ h.fact_effect .returned

/-- The analysis of a block succeeds just when every instruction has what it needs. -/
theorem analyze_ok_iff (hslots : env.SlotsAreStorage)
    (hnodup : (env.program.instructions b).Nodup) :
    (∃ s, env.analyze.run { block := b, entry := E } = .ok () s) ↔
      env.NeedsAll E (env.program.instructions b) := by
  obtain ⟨ρ, -, h⟩ := run_analyze (E := E) hslots hnodup
  cases hrun : env.analyze.run { block := b, entry := E } with
  | ok a s =>
    rw [hrun] at h
    exact iff_of_true ⟨s, rfl⟩ h.1
  | error e s =>
    rw [hrun] at h
    exact iff_of_false (by simp) h

theorem analysed_of_run (hslots : env.SlotsAreStorage)
    (hnodup : (env.program.instructions b).Nodup)
    (hrun : env.analyze.run { block := b, entry := E } = .ok () s) : ∃ ρ, Analysed env b E ρ s := by
  obtain ⟨ρ, hρ, h⟩ := run_analyze (E := E) hslots hnodup
  rw [hrun] at h
  obtain ⟨-, s', hs', rfl⟩ := h
  exact ⟨ρ, analysed_settle hρ hs'⟩

theorem paramFact_ne_unknown (v : ValueId) : env.paramFact v ≠ .unknown := by
  rw [paramFact]
  split
  · exact Fact.dependent_ne_unknown _
  · split
    · exact Fact.independent_ne_unknown
    · exact Fact.dependent_ne_unknown _

/-- A formula that has a fact already, or will have one from a result of the block. -/
def Supplied (ρ : Origin → Dep) (f : Formula) : Prop :=
  f.eval ρ ≠ .unknown ∨ ∃ k, .result k ∈ f.origins

theorem Supplied.join {f g : Formula} (h : Supplied ρ g) : Supplied ρ (f.join g) := by
  refine h.imp (fun hg hunknown => hg ?_) fun ⟨k, hk⟩ => ⟨k, List.mem_append_right _ hk⟩
  rw [Formula.eval_join] at hunknown
  exact Fact.le_unknown.1 (hunknown ▸ le_sup_right)

theorem supplied_operandFormula {σ : Outline} {v : ValueId} (hρ : ∀ v, ρ (.entry v) = E.fact v)
    (hE : ∀ k ∈ E, env.keys k = [k] → E.fact k ≠ .unknown) (hv : env.Known σ E v) :
    Supplied ρ (env.operandFormula σ v) := by
  cases hf : (env.operandFormula σ v).origins with
  | nil =>
    refine Or.inl ?_
    rw [operandFormula] at hf ⊢
    split at hf <;> try split at hf
    all_goals simp_all [Formula.ofOrigin, paramFact_ne_unknown]
  | cons o os =>
    obtain ⟨ho, hkeys⟩ := origin_of_mem_operandFormula (o := o) (by rw [hf]; exact List.mem_cons_self)
    cases o with
    | result k => exact Or.inr ⟨k, by simp [hf]⟩
    | entry k =>
      have hk : .entry k ∈ (env.operandFormula σ v).origins := by simp [hf]
      obtain rfl : k = v := by
        rw [Outline.origin] at ho
        split at ho
        · cases ho
        · exact Origin.entry.inj ho
      refine Or.inl fun hunknown => hE k (hv k hk) hkeys ?_
      rw [← hρ, ← Fact.le_unknown, ← hunknown]
      exact Formula.origin_le_eval hk

theorem supplied_writes {σ : Outline} {i : ValueId} (hρ : ∀ v, ρ (.entry v) = E.fact v)
    (hE : ∀ k ∈ E, env.keys k = [k] → E.fact k ≠ .unknown) (hi : env.Needs σ E i) {w : Write}
    (hw : w ∈ env.writes σ i) : Supplied ρ w.formula := by
  have hfixed (a : ValueId) : Supplied ρ (.fixed (.on a)) := Or.inl nofun
  rw [writes] at hw
  split at hw
  next value pointer hd =>
    have huses : env.uses i = env.storeUses value pointer := by simp [uses, hd]
    have hvalue := supplied_operandFormula hρ hE
      (hi.1 value (huses ▸ mem_storeUses value pointer))
    rw [storeWrites] at hw
    split at hw
    next hp =>
      obtain rfl := List.mem_singleton.1 hw
      exact hvalue
    next hp =>
      obtain rfl := List.mem_singleton.1 hw
      exact (supplied_operandFormula hρ hE (hi.1 pointer (by simp [huses, storeUses, hp]))).join
    next =>
      obtain ⟨_, -, rfl⟩ := List.mem_map.1 hw
      exact hvalue
    next =>
      obtain ⟨_, -, rfl⟩ := List.mem_map.1 hw
      exact hvalue
    next => simp at hw
  next callee args hd =>
    split at hw
    · obtain ⟨pointer, -, hw⟩ := List.mem_flatMap.1 hw
      rw [fillWrites] at hw
      split at hw
      · obtain rfl := List.mem_singleton.1 hw
        exact hfixed i
      · obtain ⟨_, -, rfl⟩ := List.mem_map.1 hw
        exact hfixed i
      · obtain ⟨_, -, rfl⟩ := List.mem_map.1 hw
        exact hfixed i
      · simp at hw
    · simp at hw
  next => simp at hw

/-- What a block writes has a fact, or will have one from a result of the block. -/
theorem supplied_content (hρ : ∀ v, ρ (.entry v) = E.fact v)
    (hE : ∀ k ∈ E, env.keys k = [k] → E.fact k ≠ .unknown) (his : env.NeedsAll E is) :
    ∀ v ∈ (env.outlineOf is).written, Supplied ρ ((env.outlineOf is).content v) := by
  induction is using List.reverseRecOn with
  | nil => simp [outlineOf]
  | append_singleton is i ih =>
    rw [outlineOf_append, content_extend, written_extend]
    refine Outline.content_foldl_write_of_mem (fun _ _ => Supplied.join)
      (fun w hw => supplied_writes hρ hE (his is i [] rfl) hw) (ih fun l j r hr => ?_)
    exact his l j (r ++ [i]) (by simp [hr])

end Env

end InputFlow
