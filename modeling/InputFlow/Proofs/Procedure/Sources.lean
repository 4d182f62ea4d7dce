import InputFlow.Proofs.Procedure.Effects

namespace InputFlow

namespace Fact

variable {P : ValueId → Prop} {v : ValueId}

/-- The facts that are dependent, if they are, on something, and on nothing but values of the given
kind. -/
def sourcesIn (P : ValueId → Prop) : JoinSet where
  carrier := {a | a ≠ .dependent ∅ ∧ Revision.Among P a}
  unknown_mem' := ⟨nofun, fun _ hx => absurd hx Std.ExtTreeSet.not_mem_empty⟩
  sup_mem' {a c} ha hc := by
    refine ⟨fun hsup => ?_, ha.2.sup hc.2⟩
    cases a with
    | dependent s =>
      cases c with
      | dependent t =>
        have hunion : s ∪ t = ∅ := Fact.dependent.inj hsup
        refine ha.1 (congrArg _ (Std.ExtTreeSet.eq_empty_iff_forall_not_mem.2 fun x hx => ?_))
        exact Std.ExtTreeSet.not_mem_empty (hunion ▸ Std.ExtTreeSet.mem_union_iff.2 (.inl hx))
      | _ => exact ha.1 hsup
    | _ => exact hc.1 (by cases c <;> first | exact hsup | cases hsup)

theorem independent_mem_sourcesIn (P : ValueId → Prop) : (.independent : Dep) ∈ sourcesIn P :=
  ⟨nofun, fun _ hx => absurd hx Std.ExtTreeSet.not_mem_empty⟩

theorem onAll_mem_sourcesIn {vs : List ValueId} (hne : vs ≠ []) (h : ∀ v ∈ vs, P v) :
    (.onAll vs : Dep) ∈ sourcesIn P := by
  have hmem (x : ValueId) : x ∈ Std.ExtTreeSet.ofList vs ↔ x ∈ vs := by
    rw [Std.ExtTreeSet.mem_ofList, List.contains_iff_mem]
  refine ⟨fun hempty => ?_, fun x hx => h x ((hmem x).1 hx)⟩
  obtain ⟨x, hx⟩ := List.exists_mem_of_ne_nil vs hne
  exact Std.ExtTreeSet.not_mem_empty (Fact.dependent.inj hempty ▸ (hmem x).2 hx)

theorem on_mem_sourcesIn (h : P v) : (.on v : Dep) ∈ sourcesIn P := by
  have heq : (.on v : Dep) = .onAll [v] := rfl
  rw [heq]
  exact onAll_mem_sourcesIn (by simp) (by simpa using h)

theorem exists_mem_sources {a : Dep} (h : a ∈ sourcesIn P) (ha : a.isDependent) :
    ∃ x, x ∈ a.sources := by
  cases a with
  | dependent s =>
    by_contra hnone
    push Not at hnone
    exact h.1 (congrArg _ (Std.ExtTreeSet.eq_empty_iff_forall_not_mem.2 hnone))
  | _ => cases ha

/-- There are not many facts above each other that name few values. -/
theorem height_le_of_mem_sourcesIn {a : Dep} {n : Nat} (h : a ∈ sourcesIn (· < n)) :
    a.height ≤ n + 2 := by
  have hamong : Revision.Among (· ∈ Std.ExtTreeSet.ofList (List.range n)) a := by
    intro x hx
    rw [Std.ExtTreeSet.mem_ofList, List.contains_iff_mem, List.mem_range]
    exact h.2 x hx
  have hsize : (Std.ExtTreeSet.ofList (List.range n)).size ≤ (List.range n).length :=
    Std.ExtTreeSet.size_ofList_le
  have hheight := hamong.height_le
  rw [List.length_range] at hsize
  omega

end Fact

theorem Outline.base_content_foldl_write {J : JoinSet} {σ : Outline} {ws : List Write}
    (hws : ∀ w ∈ ws, w.formula.base ∈ J) (h : ∀ v, (σ.content v).base ∈ J) :
    ∀ v, ((ws.foldl write σ).content v).base ∈ J := by
  induction ws generalizing σ with
  | nil => exact h
  | cons w ws ih =>
    refine ih (σ := σ.write w) (fun w' hw' => hws w' (.tail _ hw')) fun v => ?_
    have hw := hws w List.mem_cons_self
    simp only [write, put]
    split_ifs
    · exact hw
    · exact JoinSet.sup_mem (h _) hw
    · exact h v

namespace Program

variable {p : Program} {f : FuncId} {v root : ValueId}

/-- The values that an instruction of a function may refer to. -/
def InScope (p : Program) (f : FuncId) (v : ValueId) : Prop :=
  v ∈ p.globals ∨ v ∈ p.params f ∨ ∃ b ∈ p.functionBlocks f, v ∈ p.blockValues b

end Program

namespace Module.WellFormed

variable {p : Program} {f : FuncId} {v root : ValueId}

theorem lt_of_inScope (h : p.WellFormed) (hv : p.InScope f v) : v < p.values.size := by
  rcases hv with hv | hv | ⟨b, -, hv⟩
  · exact ((h.globals v).1 hv).lt
  · obtain ⟨F, hF, hv⟩ := Program.mem_params.1 hv
    exact (h.params F (Array.mem_of_getElem? hF) v hv).lt
  · obtain ⟨B, hB, hv⟩ := Program.mem_blockValues.1 hv
    exact Nat.lt_of_lt_of_le (Block.mem_values.1 hv).2 (h.stops B (Array.mem_of_getElem? hB))

/-- The base of an element address can be referred to wherever the address can. -/
theorem inScope_of_rootedAt (h : p.WellFormed) (hroot : p.RootedAt v root) (hv : p.InScope f v) :
    p.InScope f root := by
  induction hroot with
  | self => exact hv
  | @element v base root indices hd _ ih =>
    apply ih
    have hinst : p.role v = .instruction := by simp [Program.role, hd]
    rcases hv with hv | hv | ⟨b, hb, hv⟩
    · simp [h.mem_globals_iff.1 hv] at hinst
    · simp [h.role_of_mem_params hv] at hinst
    · refine h.scope_of_mem_operands hb hv ?_
      simp [Program.operands, hd, Definition.operands, Code.operands]

end Module.WellFormed

namespace Env

variable {env : Env} {J : JoinSet} {σ : Outline} {entry b : BlockId} {m : Blocks}
  {s : BlockState} {i v : ValueId} {f : Formula} {d : Derived}

/-- The fixed facts in the rules of an instruction are in the set: those of the parameters it uses,
that of a call of an input function, and that of memory which is not tracked. -/
structure Supplies (env : Env) (J : JoinSet) (i : ValueId) : Prop where
  independent : .independent ∈ J
  param : ∀ v ∈ env.program.operands i, env.program.role v = .argument → env.paramFact v ∈ J
  call : ∀ callee args, env.program.definition? i = some (.inst (.call callee args)) →
    callee.any env.context.isInputFunction → .on i ∈ J
  load : ∀ pointer root, env.program.definition? i = some (.inst (.load pointer)) →
    env.program.pointer? pointer = some (.param root) ∨
      env.program.pointer? pointer = some (.untraced root) → .on root ∈ J

namespace Supplies

theorem operandFormula (h : env.Supplies J i) (σ : Outline) (hv : v ∈ env.program.operands i) :
    (env.operandFormula σ v).base ∈ J := by
  have hparam := h.param v hv
  rw [Env.operandFormula]
  cases hr : env.program.role v with
  | argument => exact hparam hr
  | instruction =>
    dsimp only
    split
    · exact h.independent
    · exact J.unknown_mem
  | _ => exact h.independent

theorem operands (h : env.Supplies J i) (σ : Outline) {vs : List ValueId}
    (hvs : ∀ v ∈ vs, v ∈ env.program.operands i) :
    ((Formula.fixed .independent).join (.sum (vs.map (env.operandFormula σ)))).base ∈ J :=
  JoinSet.sup_mem h.independent
    (JoinSet.base_sum_mem (List.forall_mem_map.2 fun v hv => h.operandFormula σ (hvs v hv)))

theorem loadFormula (h : env.Supplies J i) (hσ : ∀ v, (σ.content v).base ∈ J) {pointer : ValueId}
    (hd : env.program.definition? i = some (.inst (.load pointer))) :
    (env.loadFormula σ pointer).base ∈ J := by
  have hoperand := h.operandFormula σ (v := pointer)
    (by simp [Program.operands, hd, Definition.operands, Code.operands])
  have haliases : (Formula.sum ((env.aliases pointer env.context.slots).map σ.content)).base ∈ J :=
    JoinSet.base_sum_mem (List.forall_mem_map.2 fun s _ => hσ s)
  have hload := h.load pointer
  rw [Env.loadFormula]
  cases hp : env.program.pointer? pointer with
  | none => exact J.unknown_mem
  | some place =>
    cases place with
    | slot s whole =>
      cases whole with
      | true => exact hσ s
      | false => exact JoinSet.sup_mem (hσ s) hoperand
    | param root =>
      have hroot := hload root hd (.inl hp)
      exact JoinSet.sup_mem (JoinSet.sup_mem hroot hoperand) haliases
    | untraced root =>
      have hroot := hload root hd (.inr hp)
      exact JoinSet.sup_mem (JoinSet.sup_mem hroot hoperand) haliases

theorem rule (h : env.Supplies J i) (hσ : ∀ v, (σ.content v).base ∈ J) : (env.rule σ i).base ∈ J := by
  have hoperand {v : ValueId} (hv : v ∈ env.program.operands i) := h.operandFormula σ hv
  have hoperands (vs : List ValueId) (hvs : ∀ v ∈ vs, v ∈ env.program.operands i) := h.operands σ hvs
  have hload (pointer : ValueId) (hd : env.program.definition? i = some (.inst (.load pointer))) :=
    h.loadFormula hσ hd
  have hcall := h.call
  rw [Program.operands] at hoperand hoperands
  rw [Env.rule]
  cases hd : env.program.definition? i with
  | none => exact h.independent
  | some d =>
    simp only [hd, Definition.operands] at hoperand hoperands
    cases d with
    | phi incoming =>
      refine JoinSet.base_sum_mem (List.forall_mem_map.2 fun v hv => hoperand ?_)
      exact List.mem_map_of_mem hv
    | inst code =>
      cases code with
      | load pointer => exact hload pointer hd
      | store value pointer => exact hoperand List.mem_cons_self
      | call callee args =>
        have hpassed := hoperands args fun _ => id
        dsimp only
        split
        next hcallee => exact JoinSet.sup_mem hpassed (hcall callee args hd hcallee)
        next => exact hpassed
      | ret value =>
        cases value with
        | none => exact hoperands [] fun _ => id
        | some v => exact hoperand List.mem_cons_self
      | condbr condition _ _ => exact hoperand List.mem_cons_self
      | tbz tested _ _ _ => exact hoperand List.mem_cons_self
      | _ => exact hoperands _ fun _ => id
    | _ => exact hoperands _ fun _ => id

theorem writes (h : env.Supplies J i) {w : Write} (hw : w ∈ env.writes σ i) : w.formula.base ∈ J := by
  rw [Env.writes] at hw
  split at hw
  next value pointer hd =>
    have hoperand {v : ValueId} (hv : v ∈ [value, pointer]) : (env.operandFormula σ v).base ∈ J :=
      h.operandFormula σ (by simpa [Program.operands, hd, Definition.operands, Code.operands] using hv)
    have hvalue := hoperand (v := value) (by simp)
    rw [storeWrites] at hw
    split at hw
    · obtain rfl := List.mem_singleton.1 hw
      exact hvalue
    · obtain rfl := List.mem_singleton.1 hw
      exact JoinSet.sup_mem hvalue (hoperand (by simp))
    · obtain ⟨s, -, rfl⟩ := List.mem_map.1 hw
      exact hvalue
    · obtain ⟨s, -, rfl⟩ := List.mem_map.1 hw
      exact hvalue
    · cases hw
  next callee args hd =>
    split at hw
    next hcallee =>
      obtain ⟨pointer, -, hw⟩ := List.mem_flatMap.1 hw
      have hinput := h.call callee args hd hcallee
      rw [fillWrites] at hw
      split at hw
      · obtain rfl := List.mem_singleton.1 hw
        exact hinput
      · obtain ⟨s, -, rfl⟩ := List.mem_map.1 hw
        exact hinput
      · obtain ⟨s, -, rfl⟩ := List.mem_map.1 hw
        exact hinput
      · cases hw
    next => cases hw
  next => cases hw

theorem effects (h : env.Supplies J i) {e : Derived × Formula} (he : e ∈ env.effects σ i) :
    e.2.base ∈ J := by
  have hoperand {d : Definition ValueId BlockId (Option FuncId)}
      (hd : env.program.definition? i = some d) {v : ValueId} (hv : v ∈ d.operands) :
      (env.operandFormula σ v).base ∈ J :=
    h.operandFormula σ (by rwa [Program.operands, hd])
  rcases mem_effects_cases.1 he with ⟨value, pointer, hd, he⟩ | ⟨callee, args, hd, hcall⟩ | ⟨v, hd, rfl⟩
  · obtain ⟨root, -, rfl⟩ := mem_outEffects.1 he
    exact hoperand hd List.mem_cons_self
  · rcases hcall with ⟨g, -, he⟩ | ⟨hcallee, pointer, -, he⟩
    · obtain ⟨n, v, hv, -, rfl⟩ := mem_argEffects.1 he
      exact hoperand hd (List.mem_of_getElem? hv)
    · obtain ⟨root, -, rfl⟩ := mem_outEffects.1 he
      exact h.call callee args hd hcallee
  · exact hoperand hd List.mem_cons_self

end Supplies

theorem base_content_outlineOf {is : List ValueId} (h : ∀ i ∈ is, env.Supplies J i) (v : ValueId) :
    ((env.outlineOf is).content v).base ∈ J := by
  induction is using List.reverseRecOn generalizing v with
  | nil => exact J.unknown_mem
  | append_singleton is i ih =>
    have hi := h i (by simp)
    rw [outlineOf_append, content_extend]
    refine Outline.base_content_foldl_write (fun w hw => hi.writes hw) ?_ v
    exact ih fun j hj => h j (List.mem_append_left _ hj)

/-- All fixed facts in the formulas of a block are in a set that its instructions supply. -/
theorem base_mem_of_defines (h : ∀ i ∈ env.program.instructions b, env.Supplies J i)
    (hf : (env.outline b).Defines f d) : f.base ∈ J := by
  have hbefore {before after : List ValueId} {i : ValueId}
      (his : env.program.instructions b = before ++ i :: after) :
      env.Supplies J i ∧ ∀ v, ((env.outlineOf before).content v).base ∈ J :=
    ⟨h i (by simp [his]), base_content_outlineOf fun j hj => h j (by simp [his, hj])⟩
  have heffect (d : Derived) : ((env.outline b).effect d).base ∈ J := by
    refine JoinSet.base_sum_mem (List.forall_mem_map.2 fun e he => ?_)
    obtain ⟨before, i, after, his, he⟩ := mem_effects.1 (List.mem_filter.1 he).1
    exact (hbefore his).1.effects he
  cases d with
  | inst i =>
    obtain ⟨before, after, his, rfl⟩ := mem_rules.1 hf
    exact (hbefore his).1.rule (hbefore his).2
  | slot v =>
    obtain ⟨-, rfl⟩ := hf
    exact base_content_outlineOf h v
  | _ => exact hf ▸ heffect _

theorem Analysed.get_mem {E : FactMap} {ρ : Origin → Dep} (hslots : env.SlotsAreStorage)
    (hs : Analysed env b E ρ s) (hbase : ∀ f d, (env.outline b).Defines f d → f.base ∈ J)
    (hE : ∀ v, E.fact v ∈ J) (hJ : .independent ∈ J) (d : Derived) : s.get d ∈ J := by
  have heval {f : Formula} {d : Derived} (hf : (env.outline b).Defines f d)
      (hresult : ∀ k, .result k ∈ f.origins → ρ (.result k) ∈ J) : f.eval ρ ∈ J := by
    refine JoinSet.eval_mem (hbase f d hf) fun o ho => ?_
    cases o with
    | entry v => exact hs.solves.entry v ▸ hE v
    | result k => exact hresult k ho
  have hresult : ∀ i ∈ env.program.instructions b, ρ (.result i) ∈ J := by
    refine rules_induction hslots fun i f hf ih => ?_
    rw [hs.solves.result _ hf]
    exact heval (d := .inst i) hf ih
  rcases hs.defines_or d with ⟨f, hf⟩ | hunknown
  · refine JoinSet.of_settle_mem ?_
    rw [hs.settle_get hf]
    exact JoinSet.settle_mem hJ (heval hf fun k hk => hresult k (defines_of_result hslots hf hk).1)
  · rw [hunknown]
    exact J.unknown_mem

theorem Core.fact_values_mem {t : BlockState} (hcore : env.Core b s t) (hJ : .independent ∈ J)
    (h : s.StaysIn J) (v : ValueId) : s.values.fact v ∈ J := by
  refine JoinSet.of_le_settle hJ ?_ (hcore.le_values v) (hcore.values_le v)
  rw [hcore.shaped.fact_values, BlockState.outgoing, ← hcore.get, ← hcore.get, ← hcore.entry]
  split_ifs
  · exact h.get _
  · exact h.get _
  · exact h.entry v

/-- No move leaves a set that all instructions and the facts on entry supply. -/
theorem Reached.staysIn (hv : env.Valid entry) (hm : env.Reached entry m) (hJ : .independent ∈ J)
    (hsupplies : ∀ b ∈ env.flow.order, ∀ i ∈ env.program.instructions b, env.Supplies J i)
    (hinitial : ∀ v, env.initial.fact v ∈ J) : ∀ (b : BlockId) s, m[b]? = some s → s.StaysIn J := by
  have hsent {m : Blocks} {b : BlockId} {X : FactMap} (hm : env.Reached entry m)
      (ih : ∀ (b : BlockId) s, m[b]? = some s → s.StaysIn J) (hX : env.Sent entry m b X) (v : ValueId) :
      X.fact v ∈ J := by
    rcases hX with ⟨rfl, rfl⟩ | ⟨u, hu, t, ht, rfl⟩
    · exact hinitial v
    · obtain ⟨t₀, hcore⟩ := (hm.present hv u t ht).core
      exact hcore.fact_values_mem hJ (ih u t ht) v
  refine hm.blocks_induction ?_ ?_ ?_
  · intro m b E s hm ih hb _ hE hs
    obtain ⟨ρ, hs⟩ := hv.analysed hs
    have hbase (f : Formula) (d : Derived) (hf : (env.outline b).Defines f d) : f.base ∈ J :=
      base_mem_of_defines (hsupplies b hb) hf
    exact ⟨fun v => hs.entry ▸ hsent hm ih hE v, Analysed.get_mem hv.slots hs hbase (hsent hm ih hE) hJ⟩
  · intro m b s t D hm ih hs _ ht
    have hmerged (v : ValueId) : (env.merged m b).fact v ∈ J :=
      hm.merged_mem hv hs fun X hX => hsent hm ih hX v
    have hstays := ht.joined J (ih b s hs) hmerged
    exact ⟨hstays.entry, hstays.get⟩
  · exact fun _ _ _ _ _ ih => ⟨ih.entry, ih.get⟩

theorem Reached.values_mem (hv : env.Valid entry) (hm : env.Reached entry m) (hJ : .independent ∈ J)
    (hstays : ∀ (b : BlockId) s, m[b]? = some s → s.StaysIn J) (hs : m[b]? = some s) (v : ValueId) :
    s.values.fact v ∈ J := by
  obtain ⟨t, hcore⟩ := (hm.present hv b s hs).core
  exact hcore.fact_values_mem hJ (hstays b s hs) v

/-- A property of all values that facts of the function come to name: its inputs, the calls of input
functions and the roots of pointers to memory that is not tracked. -/
structure Admits (env : Env) (entry : BlockId) (P : ValueId → Prop) : Prop where
  operand : ∀ v, env.program.InScope env.context.func v → env.program.role v = .argument →
    env.context.isInput v → P v
  param : ∀ v ∈ env.context.params, env.context.isInput v → P v
  global : ∀ v ∈ env.program.globals, v ∈ env.context.inputGlobals → P v
  call : ∀ i callee args, env.program.Reachable entry i →
    env.program.definition? i = some (.inst (.call callee args)) →
    callee.any env.context.isInputFunction → P i
  load : ∀ i pointer root, env.program.Reachable entry i →
    env.program.definition? i = some (.inst (.load pointer)) →
    env.program.pointer? pointer = some (.param root) ∨
      env.program.pointer? pointer = some (.untraced root) → P root

namespace Valid

theorem mem_functionBlocks (hv : env.Valid entry) (hb : b ∈ env.flow.order) :
    b ∈ env.program.functionBlocks env.context.func :=
  hv.wellFormed.mem_functionBlocks_of_reaches hv.entryBlock (hv.mem_order.1 hb)

theorem lt_of_mem_params (hv : env.Valid entry) (h : v ∈ env.context.params) :
    v < env.program.values.size :=
  hv.wellFormed.lt_of_inScope (.inr (.inl (hv.isOf.params ▸ h)))

theorem lt_of_mem_globals (hv : env.Valid entry) (h : v ∈ env.program.globals) :
    v < env.program.values.size :=
  hv.wellFormed.lt_of_inScope (f := env.context.func) (.inl h)

theorem inScope_of_mem_operands (hv : env.Valid entry) (hb : b ∈ env.flow.order)
    (hi : i ∈ env.program.instructions b) (h : v ∈ env.program.operands i) :
    env.program.InScope env.context.func v :=
  hv.wellFormed.scope_of_mem_operands (hv.mem_functionBlocks hb)
    (Program.mem_blockValues_of_mem_instructions hi) h

end Valid

namespace Admits

variable {P : ValueId → Prop}

theorem paramFact_mem (h : env.Admits entry P) (hscope : env.program.InScope env.context.func v)
    (hrole : env.program.role v = .argument) : env.paramFact v ∈ Fact.sourcesIn P := by
  rw [paramFact]
  split
  next hinput => exact Fact.on_mem_sourcesIn (h.operand v hscope hrole hinput)
  next =>
    split
    · exact Fact.independent_mem_sourcesIn P
    next hne =>
      refine Fact.onAll_mem_sourcesIn hne fun u hu => ?_
      have hu := List.mem_filter.1 (List.mem_of_mem_filter hu)
      exact h.param u hu.1 hu.2

theorem initial_mem (h : env.Admits entry P) (v : ValueId) :
    env.initial.fact v ∈ Fact.sourcesIn P := by
  rw [fact_initial]
  split_ifs with hglobal hinput hparam hinput
  · exact Fact.on_mem_sourcesIn (h.global v hglobal (Std.ExtTreeSet.contains_iff_mem.1 hinput))
  · exact Fact.independent_mem_sourcesIn P
  · exact Fact.on_mem_sourcesIn (h.param v hparam hinput)
  · exact Fact.independent_mem_sourcesIn P
  · exact JoinSet.unknown_mem _

theorem supplies (h : env.Admits entry P) (hv : env.Valid entry) (hb : b ∈ env.flow.order)
    (hi : i ∈ env.program.instructions b) : env.Supplies (Fact.sourcesIn P) i := by
  have hreach : env.program.Reachable entry i := ⟨b, hv.mem_order.1 hb, hi⟩
  exact
    { independent := Fact.independent_mem_sourcesIn P
      param := fun v hoperand hrole =>
        h.paramFact_mem (hv.inScope_of_mem_operands hb hi hoperand) hrole
      call := fun callee args hd hcallee =>
        Fact.on_mem_sourcesIn (h.call i callee args hreach hd hcallee)
      load := fun pointer root hd hroot =>
        Fact.on_mem_sourcesIn (h.load i pointer root hreach hd hroot) }

/-- The facts of all blocks name such values only. -/
theorem staysIn (h : env.Admits entry P) (hv : env.Valid entry) (hm : env.Reached entry m) :
    ∀ (b : BlockId) s, m[b]? = some s → s.StaysIn (Fact.sourcesIn P) :=
  hm.staysIn hv (Fact.independent_mem_sourcesIn P) (fun _ hb _ hi => h.supplies hv hb hi) h.initial_mem

end Admits

/-- A pointer that does not lead into a tracked slot has a root outside of storage. -/
theorem untracked_of_pointer? {pointer root : ValueId}
    (h : env.program.pointer? pointer = some (.param root) ∨
      env.program.pointer? pointer = some (.untraced root)) :
    env.program.RootedAt pointer root ∧ env.program.IsRoot root ∧ ¬ env.program.isStorage root := by
  rcases h with h | h
  · have htraced := Program.traced_of_pointer? h
    exact ⟨htraced.rootedAt, htraced.isRoot, Program.not_isStorage_of_argument (htraced.param _ rfl)⟩
  · have htraced := Program.traced_of_pointer? h
    exact ⟨htraced.rootedAt, htraced.isRoot, (htraced.untraced _ rfl).1⟩

theorem Valid.admits_lt (hv : env.Valid entry) : env.Admits entry (· < env.program.values.size) where
  operand _ hscope _ _ := hv.wellFormed.lt_of_inScope hscope
  param _ h _ := hv.lt_of_mem_params h
  global _ h _ := hv.lt_of_mem_globals h
  call _ _ _ _ hd _ := Module.Holds.lt hd
  load i pointer root hi hd hroot := by
    obtain ⟨b, hb, hi⟩ := hi
    have hpointer : pointer ∈ env.program.operands i := by
      simp [Program.operands, hd, Definition.operands, Code.operands]
    have hscope := hv.inScope_of_mem_operands (hv.mem_order.2 hb) hi hpointer
    exact hv.wellFormed.lt_of_inScope
      (hv.wellFormed.inScope_of_rootedAt (untracked_of_pointer? hroot).1 hscope)

theorem lt_of_isStorage (h : env.program.isStorage v) : v < env.program.values.size := by
  cases hd : env.program.definition? v with
  | none => simp [Program.isStorage, Program.role, Program.isAlloca, hd] at h
  | some d => exact Module.Holds.lt hd

theorem Available.lt (hv : env.Valid entry) (h : env.Available entry b v) :
    v < env.program.values.size := by
  induction h with
  | initial h =>
    exact (mem_initial.1 h).elim hv.lt_of_mem_params hv.lt_of_mem_globals
  | result hb h =>
    have hmem := Program.mem_blockValues_of_mem_instructions h.1
    exact hv.wellFormed.lt_of_inScope (.inr (.inr ⟨_, hv.mem_functionBlocks hb, hmem⟩))
  | written _ h => exact lt_of_isStorage (isStorage_of_written hv.slots _ h)
  | pass _ _ ih => exact ih

theorem Reached.lt_of_mem_values (hv : env.Valid entry) (hm : env.Reached entry m)
    (hs : m[b]? = some s) (h : v ∈ s.values) : v < env.program.values.size := by
  have hpresent := hm.present hv b s hs
  obtain ⟨t, hcore⟩ := hpresent.core
  exact ((hm.sourced hv b s hs).available_of_mem_values hpresent.reachable hcore h).lt hv

/-- Facts at the end of a block name values of the program only, so that they are not high. -/
theorem Reached.height_le (hv : env.Valid entry) (hm : env.Reached entry m) (hs : m[b]? = some s)
    (v : ValueId) : (s.values.fact v).height ≤ env.program.values.size + 2 :=
  Fact.height_le_of_mem_sourcesIn (hm.values_mem hv (Fact.independent_mem_sourcesIn _)
    (hv.admits_lt.staysIn hv hm) hs v)

end Env

end InputFlow
