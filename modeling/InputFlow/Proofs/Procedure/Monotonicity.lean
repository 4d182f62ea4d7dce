import InputFlow.Proofs.Block.Weaker
import InputFlow.Proofs.Procedure.Effects
import InputFlow.Proofs.Procedure.Exactness

namespace InputFlow

namespace Env

variable {φ : Widening} {env env' : Env} {σ τ : Outline} {entry b : BlockId} {m m' : Blocks}
  {s t : BlockState} {i v : ValueId}

/-- Two analyses of one function, of which the second has wider facts of parameters and of what there
is on entry, all input functions of the first, and no fewer aliases. -/
structure Weaker (φ : Widening) (env env' : Env) : Prop where
  extensive : φ.Extensive
  program : env'.program = env.program
  func : env'.context.func = env.context.func
  slots : env'.context.slots = env.context.slots
  paramFact : ∀ v, env.paramFact v ∈ φ (env'.paramFact v)
  isInputFunction : ∀ f, env.context.isInputFunction f → env'.context.isInputFunction f
  mayAlias : ∀ u v, env.oracle.mayAlias u v → env'.oracle.mayAlias u v
  initial : ∀ v, env.initial.fact v ∈ φ (env'.initial.fact v)
  mem_initial : ∀ v ∈ env.initial, v ∈ env'.initial

theorem whole_fillWrites {input : Dep} {pointer : ValueId} {w : Write}
    (hw : w ∈ env.fillWrites input pointer) : w.whole = false := by
  rw [fillWrites] at hw
  split at hw
  · obtain rfl := List.mem_singleton.1 hw
    rfl
  · obtain ⟨s, -, rfl⟩ := List.mem_map.1 hw
    rfl
  · obtain ⟨s, -, rfl⟩ := List.mem_map.1 hw
    rfl
  · cases hw

namespace Weaker

theorem flow (h : env.Weaker φ env') : env'.flow = env.flow := by
  rw [Env.flow, Env.flow, h.program, h.func]

theorem callee (h : env.Weaker φ env') {callee : Option FuncId}
    (hcallee : callee.any env.context.isInputFunction) : callee.any env'.context.isInputFunction := by
  cases callee with
  | none => cases hcallee
  | some f => exact h.isInputFunction f hcallee

theorem mem_aliases (h : env.Weaker φ env') (pointer : ValueId) :
    ∀ s ∈ env.aliases pointer env.context.slots, s ∈ env'.aliases pointer env'.context.slots := by
  intro s hs
  rw [h.slots]
  obtain ⟨hs, halias⟩ := List.mem_filter.1 hs
  exact List.mem_filter.2 ⟨hs, h.mayAlias pointer s halias⟩

theorem operandFormula (h : env.Weaker φ env') (hdone : σ.done = τ.done) (v : ValueId) :
    (env.operandFormula σ v).Weaker φ (env'.operandFormula τ v) := by
  have horigin : σ.origin env.program v = τ.origin env.program v := by
    rw [Outline.origin, Outline.origin, hdone]
  rw [Env.operandFormula, Env.operandFormula, h.program]
  cases env.program.role v with
  | argument => exact ⟨h.paramFact v, fun _ => id⟩
  | instruction =>
    dsimp only
    rw [horigin]
    exact .refl h.extensive _
  | _ => exact .refl h.extensive _

theorem loadFormula (h : env.Weaker φ env') (hσ : σ.Weaker φ τ) (pointer : ValueId) :
    (env.loadFormula σ pointer).Weaker φ (env'.loadFormula τ pointer) := by
  have hoperand := h.operandFormula hσ.done pointer
  have haliases := Formula.Weaker.sum_map (h.mem_aliases pointer) fun s _ => hσ.content s
  rw [Env.loadFormula, Env.loadFormula, h.program]
  cases env.program.pointer? pointer with
  | none => exact .refl h.extensive _
  | some place =>
    cases place with
    | slot s whole =>
      cases whole with
      | true => exact hσ.content s
      | false => exact (hσ.content s).join hoperand
    | param root => exact ((Formula.Weaker.refl h.extensive _).join hoperand).join haliases
    | untraced root => exact ((Formula.Weaker.refl h.extensive _).join hoperand).join haliases

theorem rule (h : env.Weaker φ env') (hσ : σ.Weaker φ τ) (i : ValueId) :
    (env.rule σ i).Weaker φ (env'.rule τ i) := by
  have hoperand := h.operandFormula hσ.done
  have hoperands (vs : List ValueId) : ((Formula.fixed .independent).join
      (.sum (vs.map (env.operandFormula σ)))).Weaker φ ((Formula.fixed .independent).join
        (.sum (vs.map (env'.operandFormula τ)))) :=
    (Formula.Weaker.refl h.extensive _).join (.sum_map (fun _ => id) fun v _ => hoperand v)
  rw [Env.rule, Env.rule, h.program]
  cases env.program.definition? i with
  | none => exact .refl h.extensive _
  | some d =>
    cases d with
    | phi incoming => exact .sum_map (fun _ => id) fun v _ => hoperand v.1
    | inst code =>
      cases code with
      | load pointer => exact h.loadFormula hσ pointer
      | store value pointer => exact hoperand value
      | call callee args =>
        dsimp only
        by_cases hcallee : callee.any env.context.isInputFunction
        · rw [if_pos hcallee, if_pos (h.callee hcallee)]
          exact (hoperands args).join (.refl h.extensive _)
        · rw [if_neg hcallee]
          split
          · exact (hoperands args).join_right _
          · exact hoperands args
      | ret value =>
        cases value with
        | none => exact hoperands []
        | some v => exact hoperand v
      | condbr condition _ _ => exact hoperand condition
      | tbz tested _ _ _ => exact hoperand tested
      | _ => exact hoperands _
    | _ => exact hoperands _

/-- Writes to all slots that a pointer may lead to. -/
theorem aliasWrites (h : env.Weaker φ env') {f g : Formula} (hfg : f.Weaker φ g) (pointer : ValueId) :
    WeakerWrites φ ((env.aliases pointer env.context.slots).map (⟨·, false, f⟩))
      ((env'.aliases pointer env'.context.slots).map (⟨·, false, g⟩)) := by
  rw [h.slots]
  exact .map_filter _ (h.mayAlias pointer) (fun s => ⟨rfl, rfl, hfg⟩) fun s => rfl

theorem storeWrites (h : env.Weaker φ env') (hdone : σ.done = τ.done) (value pointer : ValueId) :
    WeakerWrites φ (env.storeWrites σ value pointer) (env'.storeWrites τ value pointer) := by
  have hoperand := h.operandFormula hdone
  have haliases := h.aliasWrites (hoperand value) pointer
  rw [Env.storeWrites, Env.storeWrites, h.program]
  cases env.program.pointer? pointer with
  | none => exact .nil
  | some place =>
    cases place with
    | slot s whole =>
      cases whole with
      | true => exact .cons ⟨rfl, rfl, hoperand value⟩ .nil
      | false => exact .cons ⟨rfl, rfl, (hoperand value).join (hoperand pointer)⟩ .nil
    | param root => exact haliases
    | untraced root => exact haliases

theorem fillWrites (h : env.Weaker φ env') (input : Dep) (pointer : ValueId) :
    WeakerWrites φ (env.fillWrites input pointer) (env'.fillWrites input pointer) := by
  have haliases := h.aliasWrites (.refl h.extensive (.fixed input)) pointer
  rw [Env.fillWrites, Env.fillWrites, h.program]
  cases env.program.pointer? pointer with
  | none => exact .nil
  | some place =>
    cases place with
    | slot s whole => exact .cons ⟨rfl, rfl, .refl h.extensive _⟩ .nil
    | param root => exact haliases
    | untraced root => exact haliases

theorem writes (h : env.Weaker φ env') (hdone : σ.done = τ.done) (i : ValueId) :
    WeakerWrites φ (env.writes σ i) (env'.writes τ i) := by
  rw [Env.writes, Env.writes, h.program]
  cases env.program.definition? i with
  | none => exact .nil
  | some d =>
    cases d with
    | inst code =>
      cases code with
      | store value pointer => exact h.storeWrites hdone value pointer
      | call callee args =>
        dsimp only
        by_cases hcallee : callee.any env.context.isInputFunction
        · rw [if_pos hcallee, if_pos (h.callee hcallee)]
          exact .flatMap (h.fillWrites (.on i)) args
        · rw [if_neg hcallee]
          split
          · -- the call of a new input function only adds to what is there
            apply WeakerWrites.of_blends
            intro w hw
            obtain ⟨pointer, -, hw⟩ := List.mem_flatMap.1 hw
            exact whole_fillWrites hw
          · exact .nil
      | _ => exact .nil
    | _ => exact .nil

theorem effects (h : env.Weaker φ env') (hdone : σ.done = τ.done) {d : Derived} {f : Formula}
    (hf : (d, f) ∈ env.effects σ i) : ∃ g, (d, g) ∈ env'.effects τ i ∧ f.Weaker φ g := by
  have hoperand := h.operandFormula hdone
  cases d with
  | returned =>
    obtain ⟨v, hi, rfl⟩ := mem_effects_returned.1 hf
    exact ⟨_, mem_effects_returned.2 ⟨v, h.program ▸ hi, rfl⟩, hoperand v⟩
  | callArg arg =>
    obtain ⟨args, v, hi, hv, hr, rfl⟩ := mem_effects_callArg.1 hf
    exact ⟨_, mem_effects_callArg.2 ⟨args, v, h.program ▸ hi, hv, h.program ▸ hr, rfl⟩, hoperand v⟩
  | outArg root =>
    rcases mem_effects_outArg.1 hf with ⟨value, pointer, hi, hp, rfl⟩ |
      ⟨callee, args, pointer, hi, hc, ha, hp, rfl⟩
    · exact ⟨_, mem_effects_outArg.2 (.inl ⟨value, pointer, h.program ▸ hi, h.program ▸ hp, rfl⟩),
        hoperand value⟩
    · exact ⟨_, mem_effects_outArg.2 (.inr ⟨callee, args, pointer, h.program ▸ hi, h.callee hc, ha,
        h.program ▸ hp, rfl⟩), .refl h.extensive _⟩
  | _ => simp [mem_effects_cases, mem_outEffects, mem_argEffects] at hf

theorem outlineOf (h : env.Weaker φ env') (is : List ValueId) :
    (env.outlineOf is).Weaker φ (env'.outlineOf is) := by
  induction is using List.reverseRecOn with
  | nil => exact ⟨rfl, fun _ => id, fun _ => .refl h.extensive _⟩
  | append_singleton is i ih =>
    rw [outlineOf_append, outlineOf_append]
    have hwrites (vs ws : List ValueId) := (ih.read i vs ws).foldl_write (h.writes ih.done i)
    refine ⟨by rw [done_extend, done_extend, ih.done], ?_, ?_⟩
    · rw [written_extend, written_extend]
      exact (hwrites _ _).written
    · rw [content_extend, content_extend]
      exact (hwrites _ _).content

theorem outline (h : env.Weaker φ env') (b : BlockId) :
    (env.outline b).Weaker φ (env'.outline b) := by
  rw [Env.outline, Env.outline, h.program]
  exact h.outlineOf _

theorem mem_effects (h : env.Weaker φ env') {e : Derived × Formula}
    (he : e ∈ (env.outline b).effects) :
    ∃ g, (e.1, g) ∈ (env'.outline b).effects ∧ e.2.Weaker φ g := by
  obtain ⟨before, i, after, his, he⟩ := Env.mem_effects.1 he
  obtain ⟨g, hg, hfg⟩ := h.effects (h.outlineOf before).done he
  exact ⟨g, Env.mem_effects.2 ⟨before, i, after, h.program ▸ his, hg⟩, hfg⟩

theorem defines (h : env.Weaker φ env') {f : Formula} {d : Derived}
    (hf : (env.outline b).Defines f d) : ∃ g, (env'.outline b).Defines g d ∧ f.Weaker φ g := by
  have heffect (d : Derived) : ((env.outline b).effect d).Weaker φ ((env'.outline b).effect d) := by
    refine .sum (List.forall_mem_map.2 fun e he => ?_)
    obtain ⟨hmem, hd⟩ := List.mem_filter.1 he
    obtain ⟨g, hg, hfg⟩ := h.mem_effects hmem
    exact ⟨g, List.mem_map.2 ⟨(e.1, g), List.mem_filter.2 ⟨hg, hd⟩, rfl⟩, hfg⟩
  cases d with
  | inst i =>
    obtain ⟨before, after, his, rfl⟩ := mem_rules.1 hf
    exact ⟨_, mem_rules.2 ⟨before, after, h.program ▸ his, rfl⟩, h.rule (h.outlineOf before) i⟩
  | slot v =>
    obtain ⟨hv, rfl⟩ := hf
    exact ⟨_, ⟨(h.outline b).written v hv, rfl⟩, (h.outline b).content v⟩
  | _ => exact ⟨_, rfl, hf ▸ heffect _⟩

/-- What only the second writes still has what was there on entry. -/
theorem outgoing_le (h : env.Weaker φ env') (hs : Closed env' b s) (v : ValueId) :
    s.outgoing env b v ≤ (s.outgoing env' b v).settle := by
  rw [BlockState.outgoing, BlockState.outgoing, h.program]
  split_ifs with hd hw hw' hw'
  · exact Fact.le_settle _
  · exact Fact.le_settle _
  · exact absurd ((h.outline b).written v hw) hw'
  · have hentry : .entry v ∈ ((env.outline b).content v).origins := by
      rw [Env.outline, content_of_not_written hw]
      exact List.mem_cons_self
    have horigin := ((h.outline b).content v).origins _ hentry
    exact (closed_iff.1 hs _ (.slot v) ⟨hw', rfl⟩).2 _ horigin
  · exact Fact.le_settle _

theorem available (h : env.Weaker φ env') (hv : env.Available entry b v) :
    env'.Available entry b v := by
  induction hv with
  | initial hi => exact .initial (h.mem_initial _ hi)
  | result hb hd => exact .result (h.flow ▸ hb) (h.program ▸ hd)
  | written hb hw => exact .written (h.flow ▸ hb) ((h.outline _).written _ hw)
  | pass hu _ ih => exact .pass (h.flow ▸ hu) ih

/-- The states that the second analysis ends with enclose the first. -/
theorem encloses (h : env.Weaker φ env') (hv : env.Valid entry) (hfin : env'.Finished entry m)
    (hphi : env.program.OwnPhisOnCycles env.context.func) : env.Encloses entry φ m.state where
  block b hb := by
    have hb' : b ∈ env'.flow.order := h.flow ▸ hb
    obtain ⟨s, hs⟩ := hfin.exists_state hb'
    obtain ⟨t, hcore⟩ := (hfin.reached.present hfin.valid b s hs).core
    have hclosed := hcore.closed_left
    have hphi' : env'.program.OwnPhisOnCycles env'.context.func := by rwa [h.program, h.func]
    rw [Blocks.state_eq hs]
    refine .of_origins hv.slots (fun f d hf => ?_) (fun f d hf o ho => ?_) (fun k hk => ?_)
      (fun f d k hf ho hk => ?_) fun v => ?_
    · obtain ⟨g, hg, hfg⟩ := h.defines hf
      exact φ.mono (closed_iff.1 hclosed g d hg).1 hfg.base
    · obtain ⟨g, hg, hfg⟩ := h.defines hf
      exact (closed_iff.1 hclosed g d hg).2 o (hfg.origins o ho)
    · exact hfin.entry_le_result hs (h.program ▸ hk) b s hs
    · obtain ⟨g, hg, hfg⟩ := h.defines hf
      have hk' : env'.program.Defines b k := h.program ▸ hk
      have hlead := hfin.leads_of_own_origin hphi' hb' hg (hfg.origins _ ho) hk'
      exact hfin.result_le_entry hs hk' hlead hs
    · exact (h.outgoing_le hclosed v).trans (Fact.settle_mono (hcore.outgoing_le v))
  initial v := by
    obtain ⟨s, hs⟩ := hfin.exists_state (hfin.valid.mem_order.2 .refl)
    rw [Blocks.state_eq hs]
    exact φ.mem_of_le (hfin.reached.initial_le hfin.valid entry s hs rfl v) (h.initial v)
  flows u hu b hb v := by
    have hb' := hv.mem_order.2 ((hv.mem_order.1 hu).tail hb)
    obtain ⟨s, hs⟩ := hfin.exists_state (h.flow ▸ hu)
    obtain ⟨t, ht⟩ := hfin.exists_state (h.flow ▸ hb')
    rw [Blocks.state_eq hs, Blocks.state_eq ht]
    have hcovered := hfin.covered b (h.flow ▸ hb') u (h.flow ▸ mem_preds.2 ⟨hu, hb⟩) s t hs ht v
    exact hcovered.trans (Fact.le_settle _)

end Weaker

/-- Where the first result has a fact, so has the second, and the two are related. -/
def Related (R : Dep → Dep → Prop) (x y : Option Dep) : Prop :=
  ∀ a, x = some a → ∃ c, y = some c ∧ R a c

/-- All facts of the first result but those of stores to elements are related to facts of the second. -/
structure RelatedResults (env : Env) (R : Dep → Dep → Prop) (r r' : Procedure) : Prop where
  instructions : ∀ i, ¬ env.IsElementStore i → Related R (r.instruction? i) (r'.instruction? i)
  exitFacts : ∀ b v, Related R (r.exitFact? b v) (r'.exitFact? b v)
  outArgs : ∀ v : ValueId, Related R r.outArgs[v]? r'.outArgs[v]?
  callArgs : ∀ arg : CallArg, Related R r.callArgs[arg]? r'.callArgs[arg]?
  returned : Related R r.returned r'.returned

theorem Related.mono {R R' : Dep → Dep → Prop} (hR : ∀ a c, R a c → R' a c) {x y : Option Dep}
    (h : Related R x y) : Related R' x y := by
  intro a ha
  obtain ⟨c, hc, hac⟩ := h a ha
  exact ⟨c, hc, hR a c hac⟩

theorem RelatedResults.mono {R R' : Dep → Dep → Prop} (hR : ∀ a c, R a c → R' a c)
    {r r' : Procedure} (h : env.RelatedResults R r r') : env.RelatedResults R' r r' where
  instructions i hi := (h.instructions i hi).mono hR
  exitFacts b v := (h.exitFacts b v).mono hR
  outArgs v := (h.outArgs v).mono hR
  callArgs arg := (h.callArgs arg).mono hR
  returned := h.returned.mono hR

/-- A fact within the widening of one that is known. -/
def WithinKnown (φ : Widening) (a c : Dep) : Prop :=
  a ∈ φ c ∧ c ≠ .unknown

namespace Weaker

variable (h : env.Weaker φ env') (hfin : env.Finished entry m) (hfin' : env'.Finished entry m')
  (hphi : env.program.OwnPhisOnCycles env.context.func)

include h hfin hfin' hphi

theorem within (hs : m[b]? = some s) (ht : m'[b]? = some t) : φ.Within env t s := by
  have hwithin := hfin.reached.within hfin.valid (h.encloses hfin.valid hfin' hphi) b s hs
  rwa [Blocks.state_eq ht] at hwithin

omit hphi in
theorem exists_state (hs : m[b]? = some s) : ∃ t, m'[b]? = some t :=
  hfin'.exists_state (h.flow ▸ (hfin.mem b).1 (mem_of_getElem? hs))

theorem related_instruction? (hi : ¬ env.IsElementStore i) :
    Related (WithinKnown φ) ((Finished.result env m).instruction? i)
      ((Finished.result env' m').instruction? i) := by
  intro a ha
  by_cases hreach : ∃ b ∈ env.flow.order, i ∈ env.program.instructions b
  · obtain ⟨b, hb, hib⟩ := hreach
    obtain ⟨s, hs⟩ := hfin.exists_state hb
    obtain ⟨t, ht⟩ := h.exists_state hfin hfin' hs
    have hib' : i ∈ env'.program.instructions b := h.program ▸ hib
    rw [hfin.instruction?_eq hs hib] at ha
    rw [hfin'.instruction?_eq ht hib']
    have hmem := (h.within hfin hfin' hphi hs ht).get (.inst i) (by rintro _ ⟨⟩; exact hi)
    simp only [BlockState.get, Facts.fact_of_some ha] at hmem
    exact ⟨_, Facts.getElem?_of_mem ((hfin'.mem_instructions_iff ht).2 hib'), hmem,
      (hfin'.reached.sourced hfin'.valid b t ht).results i hib'⟩
  · push Not at hreach
    rw [hfin.instruction?_eq_none hreach] at ha
    cases ha

theorem related_exitFact? :
    Related (WithinKnown φ) ((Finished.result env m).exitFact? b v)
      ((Finished.result env' m').exitFact? b v) := by
  intro a ha
  simp only [Procedure.exitFact?, Procedure.ofBlocks] at ha ⊢
  cases hs : m[b]? with
  | none => simp [hs] at ha
  | some s =>
    obtain ⟨t, ht⟩ := h.exists_state hfin hfin' hs
    simp only [hs, ht, Option.bind_eq_bind, Option.bind_some] at ha ⊢
    obtain ⟨c, hcore⟩ := (hfin.reached.present hfin.valid b s hs).core
    have hb := (hfin.mem b).1 (mem_of_getElem? hs)
    have hS := (h.encloses hfin.valid hfin' hphi).block b hb
    rw [Blocks.state_eq ht] at hS
    have hvt : v ∈ t.values := (hfin'.mem_values_iff ht).2
      (h.available ((hfin.mem_values_iff hs).1 (Facts.mem_of_some ha)))
    have hmem := hcore.values_mem hS (h.within hfin hfin' hphi hs ht) v
    rw [Facts.fact_of_some ha] at hmem
    exact ⟨_, Facts.getElem?_of_mem hvt, hmem, hfin'.determined b (h.flow ▸ hb) t ht v hvt⟩

theorem related_effect? {d : Derived} (hd : d.IsEffect) :
    Related (WithinKnown φ) ((Finished.result env m).effect? d)
      ((Finished.result env' m').effect? d) := by
  have hjoins := Blocks.joins_effect? (m := m) env.context env.flow.order hd
  have hjoins' := Blocks.joins_effect? (m := m') env'.context env'.flow.order hd
  intro a ha
  obtain ⟨c, hc⟩ : ∃ c, (Finished.result env' m').effect? d = some c := by
    apply Option.isSome_iff_exists.1
    obtain ⟨b, s, hs, hsome⟩ := hjoins.isSome.1 (Option.isSome_iff_exists.2 ⟨a, ha⟩)
    obtain ⟨t, ht⟩ := h.exists_state hfin hfin' hs
    obtain ⟨s₀, hcore⟩ := (hfin.reached.present hfin.valid b s hs).core
    obtain ⟨t₀, hcore'⟩ := (hfin'.reached.present hfin'.valid b t ht).core
    rw [hcore.effect, hcore.shaped.effects] at hsome
    obtain ⟨e, he, rfl⟩ := List.mem_map.1 hsome
    obtain ⟨g, hg, -⟩ := h.mem_effects he
    refine hjoins'.isSome.2 ⟨b, t, ht, ?_⟩
    rw [hcore'.effect, hcore'.shaped.effects]
    exact List.mem_map.2 ⟨_, hg, rfl⟩
  obtain ⟨hindependent, hle⟩ := (hjoins'.le_iff c hc c).1 (le_refl c)
  refine ⟨c, hc, hjoins.mem ha (J := .ofIdeal (φ c)) (φ.independent_mem c) fun b s hs => ?_, ?_⟩
  · obtain ⟨t, ht⟩ := h.exists_state hfin hfin' hs
    rw [← hd.get_eq]
    exact φ.mem_of_le (hd.get_eq t ▸ hle b t ht) ((h.within hfin hfin' hphi hs ht).get d hd.isExact)
  · rintro rfl
    exact Fact.independent_ne_unknown (Fact.le_unknown.1 hindependent)

/-- All that the first analysis reports is within what the second does. -/
theorem relatedResults :
    env.RelatedResults (WithinKnown φ) (Finished.result env m) (Finished.result env' m') where
  instructions _ hi := h.related_instruction? hfin hfin' hphi hi
  exitFacts _ _ := h.related_exitFact? hfin hfin' hphi
  outArgs v := h.related_effect? hfin hfin' hphi (d := .outArg v) trivial
  callArgs arg := h.related_effect? hfin hfin' hphi (d := .callArg arg) trivial
  returned := h.related_effect? hfin hfin' hphi (d := .returned) trivial

end Weaker

end Env

/-- The only phi of the loop that fills a slot is on a cycle. -/
theorem fillProgram_ownPhis : fillProgram.OwnPhisOnCycles 1 := by
  have hphis : ∀ b ∈ (fillProgram.flow 1).order, b = 1 ∨
      ∀ i ∈ fillProgram.instructions b, ¬ fillProgram.isPhi i := by decide +kernel
  intro b hb hcycle i hi hphi
  rcases hphis b hb with rfl | hnone
  · exact absurd fillProgram_reaches_loop.2 hcycle
  · exact absurd hphi (hnone i hi)

end InputFlow
