import InputFlow.Proofs.Procedure.Exactness
import InputFlow.Proofs.Reorder

namespace InputFlow

namespace Blocks

variable {m m' : Blocks} {s : BlockState}

/-- A state among some blocks, with that of the same block among others. -/
theorem exists_counterpart (hkeys : ∀ b, b ∈ m → b ∈ m') (hs : s ∈ m.toList.map (·.2)) :
    ∃ (b : BlockId) (s' : BlockState), m[b]? = some s ∧ m'[b]? = some s' ∧
      s' ∈ m'.toList.map (·.2) := by
  obtain ⟨⟨b, s⟩, hmem, rfl⟩ := List.mem_map.1 hs
  have hs := Std.ExtTreeMap.mem_toList_iff_getElem?_eq_some.1 hmem
  obtain ⟨s', hs'⟩ := Env.exists_state_of_mem (hkeys b (Env.mem_of_getElem? hs))
  exact ⟨b, s', hs, hs',
    List.mem_map.2 ⟨(b, s'), Std.ExtTreeMap.mem_toList_iff_getElem?_eq_some.2 hs', rfl⟩⟩

theorem settle_joinAll_congr {κ : Type} [DecidableEq κ] [Ord κ] [Std.TransOrd κ] [Std.LawfulEqOrd κ]
    (hkeys : ∀ b, b ∈ m ↔ b ∈ m') {g : BlockState → Facts κ}
    (hg : ∀ (b : BlockId) s s', m[b]? = some s → m'[b]? = some s' → (g s).settle = (g s').settle) :
    (Facts.joinAll ((m.toList.map (·.2)).map g)).settle =
      (Facts.joinAll ((m'.toList.map (·.2)).map g)).settle := by
  refine Facts.settle_joinAll_congr (fun X hX => ?_) fun X hX => ?_
  · obtain ⟨s, hs, rfl⟩ := List.mem_map.1 hX
    obtain ⟨b, s', hb, hb', hs'⟩ := exists_counterpart (fun b => (hkeys b).1) hs
    exact ⟨_, List.mem_map_of_mem hs', hg b s s' hb hb'⟩
  · obtain ⟨s', hs', rfl⟩ := List.mem_map.1 hX
    obtain ⟨b, s, hb', hb, hs⟩ := exists_counterpart (fun b => (hkeys b).2) hs'
    exact ⟨_, List.mem_map_of_mem hs, (hg b s s' hb hb').symm⟩

theorem settle_returned_congr (hkeys : ∀ b, b ∈ m ↔ b ∈ m')
    (hreturned : ∀ (b : BlockId) s s', m[b]? = some s → m'[b]? = some s' →
      s.returned.map Fact.settle = s'.returned.map Fact.settle) :
    let facts := (m.toList.map (·.2)).filterMap (·.returned)
    let facts' := (m'.toList.map (·.2)).filterMap (·.returned)
    (facts = [] ↔ facts' = []) ∧ (Fact.joinAll facts).settle = (Fact.joinAll facts').settle := by
  have hle {m m' : Blocks} (hkeys : ∀ b, b ∈ m → b ∈ m')
      (hreturned : ∀ (b : BlockId) s s', m[b]? = some s → m'[b]? = some s' →
        s.returned.map Fact.settle = s'.returned.map Fact.settle) :
      ∀ a ∈ (m.toList.map (·.2)).filterMap (·.returned),
        ∃ a' ∈ (m'.toList.map (·.2)).filterMap (·.returned), a.settle = a'.settle := by
    intro a ha
    obtain ⟨s, hs, ha⟩ := List.mem_filterMap.1 ha
    obtain ⟨b, s', hb, hb', hs'⟩ := exists_counterpart hkeys hs
    have hsame := hreturned b s s' hb hb'
    rw [ha] at hsame
    obtain ⟨a', ha', heq⟩ := Option.map_eq_some_iff.1 hsame.symm
    exact ⟨a', List.mem_filterMap.2 ⟨s', hs', ha'⟩, heq.symm⟩
  intro facts facts'
  have hleft := hle (fun b => (hkeys b).1) hreturned
  have hright := hle (fun b => (hkeys b).2) fun b s s' hs hs' => (hreturned b s' s hs' hs).symm
  have hnil {facts facts' : List Dep} (h : ∀ a ∈ facts, ∃ a' ∈ facts', a.settle = a'.settle)
      (hempty : facts' = []) : facts = [] := by
    refine List.eq_nil_iff_forall_not_mem.2 fun a ha => ?_
    obtain ⟨a', ha', -⟩ := h a ha
    simp [hempty] at ha'
  exact ⟨⟨hnil hright, hnil hleft⟩, Fact.settle_joinAll_congr hleft hright⟩

end Blocks

namespace Env

variable {env env' : Env} {entry b : BlockId} {m m' : Blocks} {s s' t : BlockState} {v : ValueId}
  {E : BlockId → FactMap}

/-- Two environments in which blocks are analysed alike, and control flows alike. -/
structure Alike (env env' : Env) : Prop where
  analyze : env'.analyze = env.analyze
  initial : env'.initial = env.initial
  successors : ∀ a b, b ∈ env'.program.successors a ↔ b ∈ env.program.successors a
  instructions : env'.program.instructions = env.program.instructions
  defines : ∀ b v, env'.program.Defines b v ↔ env.program.Defines b v
  elementStores : ∀ i, env'.IsElementStore i ↔ env.IsElementStore i

namespace Alike

theorem reaches_iff (h : env.Alike env') :
    Graph.Reaches env'.program.successors entry b ↔ Graph.Reaches env.program.successors entry b :=
  Graph.Reaches.congr h.successors

theorem mem_order_iff (h : env.Alike env') (hv : env.Valid entry) (hv' : env'.Valid entry) :
    b ∈ env'.flow.order ↔ b ∈ env.flow.order := by
  rw [hv.mem_order, hv'.mem_order, h.reaches_iff]

theorem isSolution_iff (h : env.Alike env') : env'.IsSolution entry E ↔ env.IsSolution entry E := by
  refine ⟨fun hE => ⟨h.initial ▸ hE.initial, fun u hu => ?_⟩,
    fun hE => ⟨h.initial.symm ▸ hE.initial, fun u hu => ?_⟩⟩
  · obtain ⟨s, hs, hflows⟩ := hE.flows u (h.reaches_iff.2 hu)
    exact ⟨s, h.analyze ▸ hs, fun b hb => hflows b ((h.successors u b).2 hb)⟩
  · obtain ⟨s, hs, hflows⟩ := hE.flows u (h.reaches_iff.1 hu)
    exact ⟨s, h.analyze.symm ▸ hs, fun b hb => hflows b ((h.successors u b).1 hb)⟩

theorem isLeastSolution (h : env.Alike env') (hE : env.IsLeastSolution entry E) :
    env'.IsLeastSolution entry E where
  toIsSolution := h.isSolution_iff.2 hE.toIsSolution
  least E' hE' b hb := hE.least E' (h.isSolution_iff.1 hE') b (h.reaches_iff.1 hb)

theorem symm (h : env.Alike env') : env'.Alike env :=
  ⟨h.analyze.symm, h.initial.symm, fun a b => (h.successors a b).symm, h.instructions.symm,
    fun b v => (h.defines b v).symm, fun i => (h.elementStores i).symm⟩

theorem available (h : env.Alike env') (hv : env.Valid entry) (hv' : env'.Valid entry)
    (hE : env.IsSolution entry E) (ha : env.Available entry b v) : env'.Available entry b v := by
  have horder {b : BlockId} (hb : b ∈ env.flow.order) : b ∈ env'.flow.order :=
    (h.mem_order_iff hv hv').2 hb
  induction ha with
  | initial hi => exact .initial (h.initial.symm ▸ hi)
  | result hb hd => exact .result (horder hb) ((h.defines _ _).2 hd)
  | @written b v hb hw =>
    obtain ⟨t, ht, -⟩ := hE.flows b (hv.mem_order.1 hb)
    obtain ⟨_, hanalysed⟩ := hv.analysed ht
    obtain ⟨_, hanalysed'⟩ := hv'.analysed (h.analyze.symm ▸ ht)
    exact .written (horder hb) ((hanalysed'.mem_slots v).1 ((hanalysed.mem_slots v).2 hw))
  | @pass u b v hu _ ih =>
    obtain ⟨hu, hb⟩ := mem_preds.1 hu
    exact .pass (mem_preds.2 ⟨horder hu, (h.successors u b).2 hb⟩) ih

end Alike

/-- Two states that report the same, but for the facts of stores to elements. -/
structure SameReport (env : Env) (s s' : BlockState) : Prop where
  values : s.values = s'.values
  instructions : ∀ i, ¬ env.IsElementStore i → s.instructions[i]? = s'.instructions[i]?
  effects : ∀ d, (s.effect? d).map Fact.settle = (s'.effect? d).map Fact.settle

namespace SameReport

theorem outArgs (h : env.SameReport s s') : s.outArgs.settle = s'.outArgs.settle := by
  refine Std.ExtTreeMap.ext_getElem? fun v => ?_
  rw [Facts.getElem?_settle, Facts.getElem?_settle]
  exact h.effects (.outArg v)

theorem callArgs (h : env.SameReport s s') : s.callArgs.settle = s'.callArgs.settle := by
  refine Std.ExtTreeMap.ext_getElem? fun arg => ?_
  rw [Facts.getElem?_settle, Facts.getElem?_settle]
  exact h.effects (.callArg arg)

end SameReport

theorem Finished.isSome_effect? (hfin : env.Finished entry m) (hs : m[b]? = some s)
    (ht : Shaped env b t) (d : Derived) : (s.effect? d).isSome = (t.effect? d).isSome := by
  obtain ⟨c, hcore⟩ := (hfin.reached.present hfin.valid b s hs).core
  rw [Bool.eq_iff_iff, hcore.effect, hcore.shaped.effects, ht.effects]

/-- Both analyses end with the facts of the same least solution. -/
theorem Alike.sameReport (h : env.Alike env') (hfin : env.Finished entry m)
    (hfin' : env'.Finished entry m') (hphi : env.program.OwnPhisOnCycles env.context.func)
    (hphi' : env'.program.OwnPhisOnCycles env'.context.func) (hs : m[b]? = some s)
    (hs' : m'[b]? = some s') : env.SameReport s s' := by
  have hv := hfin.valid
  have hv' := hfin'.valid
  obtain ⟨E, hE⟩ := hfin.exists_least
  have hE' := h.isLeastSolution hE
  have hb := (hfin.mem b).1 (mem_of_getElem? hs)
  have hb' := (hfin'.mem b).1 (mem_of_getElem? hs')
  obtain ⟨t, ht, -⟩ := hE.flows b (hv.mem_order.1 hb)
  have ht' : env'.analyze.run { block := b, entry := E b } = .ok () t := h.analyze.symm ▸ ht
  have hsame := hfin.sameFacts hphi hE hs ht
  have hsame' := hfin'.sameFacts hphi' hE' hs' ht'
  refine ⟨Std.ExtTreeMap.ext_getElem? fun v => ?_, fun i hi => ?_, fun d => ?_⟩
  · have hmem : v ∈ s.values ↔ v ∈ s'.values := by
      rw [hfin.mem_values_iff hs, hfin'.mem_values_iff hs']
      exact ⟨h.available hv hv' hE.toIsSolution, h.symm.available hv' hv hE'.toIsSolution⟩
    by_cases hvs : v ∈ s.values
    · have hvs' := hmem.1 hvs
      rw [Facts.getElem?_of_mem hvs, Facts.getElem?_of_mem hvs']
      exact congrArg some (Fact.eq_of_settle_eq (hfin.determined b hb s hs v hvs)
        (hfin'.determined b hb' s' hs' v hvs') ((hsame.values v).trans (hsame'.values v).symm))
    · rw [Std.ExtTreeMap.getElem?_eq_none hvs,
        Std.ExtTreeMap.getElem?_eq_none fun hvs' => hvs (hmem.2 hvs')]
  · have hmem : i ∈ s.instructions ↔ i ∈ s'.instructions :=
      (hsame.mem_instructions i).trans (hsame'.mem_instructions i).symm
    by_cases his : i ∈ s.instructions
    · have his' := hmem.1 his
      rw [Facts.getElem?_of_mem his, Facts.getElem?_of_mem his']
      have hknown := (hfin.reached.sourced hv b s hs).results i
        ((hfin.mem_instructions_iff hs).1 his)
      have hknown' := (hfin'.reached.sourced hv' b s' hs').results i
        ((hfin'.mem_instructions_iff hs').1 his')
      exact congrArg some (Fact.eq_of_settle_eq hknown hknown' ((hsame.instructions i hi).trans
        (hsame'.instructions i fun hi' => hi ((h.elementStores i).1 hi')).symm))
    · rw [Std.ExtTreeMap.getElem?_eq_none his,
        Std.ExtTreeMap.getElem?_eq_none fun his' => his (hmem.2 his')]
  · have hsome := (hfin.isSome_effect? hs (hv.open_of_run ht).shaped d).trans
      (hfin'.isSome_effect? hs' (hv'.open_of_run ht').shaped d).symm
    have hfact := (hsame.effect d).trans (hsame'.effect d).symm
    generalize s.effect? d = a at hsome hfact ⊢
    generalize s'.effect? d = a' at hsome hfact ⊢
    cases a <;> cases a' <;> simp_all

/-- Two results that report the same, but for the facts of stores to elements. -/
structure SameResults (env : Env) (r r' : Procedure) : Prop where
  instructions : ∀ i, ¬ env.IsElementStore i → r.instruction? i = r'.instruction? i
  exitFacts : ∀ b v, r.exitFact? b v = r'.exitFact? b v
  outArgs : r.outArgs = r'.outArgs
  callArgs : r.callArgs = r'.callArgs
  returned : r.returned = r'.returned

/-- Results from the blocks of two analyses that report the same block by block. -/
theorem Alike.sameResults (h : env.Alike env') (hfin : env.Finished entry m)
    (hfin' : env'.Finished entry m')
    (hreport : ∀ (b : BlockId) s s', m[b]? = some s → m'[b]? = some s' → env.SameReport s s') :
    env.SameResults (Procedure.ofBlocks env.context env.flow.order m)
      (Procedure.ofBlocks env'.context env'.flow.order m') := by
  have horder (b : BlockId) : b ∈ env'.flow.order ↔ b ∈ env.flow.order :=
    h.mem_order_iff hfin.valid hfin'.valid
  have hkeys (b : BlockId) : b ∈ m ↔ b ∈ m' := by rw [hfin.mem, hfin'.mem, horder]
  refine ⟨fun i hi => ?_, fun b v => ?_, ?_, ?_, ?_⟩
  · by_cases hreach : ∃ b ∈ env.flow.order, i ∈ env.program.instructions b
    · obtain ⟨b, hb, hib⟩ := hreach
      obtain ⟨s, hs⟩ := hfin.exists_state hb
      obtain ⟨s', hs'⟩ := hfin'.exists_state ((horder b).2 hb)
      rw [hfin.instruction?_eq hs hib, hfin'.instruction?_eq hs' (h.instructions ▸ hib)]
      exact (hreport b s s' hs hs').instructions i hi
    · push Not at hreach
      rw [hfin.instruction?_eq_none hreach, hfin'.instruction?_eq_none fun b hb => ?_]
      exact h.instructions ▸ hreach b ((horder b).1 hb)
  · simp only [Procedure.exitFact?, Procedure.ofBlocks]
    by_cases hb : b ∈ m
    · obtain ⟨s, hs⟩ := exists_state_of_mem hb
      obtain ⟨s', hs'⟩ := exists_state_of_mem ((hkeys b).1 hb)
      simp [hs, hs', (hreport b s s' hs hs').values]
    · simp [Std.ExtTreeMap.getElem?_eq_none hb,
        Std.ExtTreeMap.getElem?_eq_none fun hb' => hb ((hkeys b).2 hb')]
  · exact Blocks.settle_joinAll_congr hkeys fun b s s' hs hs' => (hreport b s s' hs hs').outArgs
  · exact Blocks.settle_joinAll_congr hkeys fun b s s' hs hs' => (hreport b s s' hs hs').callArgs
  · have hreturned := Blocks.settle_returned_congr hkeys fun b s s' hs hs' =>
      (hreport b s s' hs hs').effects .returned
    simp only [Procedure.ofBlocks]
    generalize (m.toList.map (·.2)).filterMap (·.returned) = facts at hreturned
    generalize (m'.toList.map (·.2)).filterMap (·.returned) = facts' at hreturned
    obtain ⟨hempty, hsettle⟩ := hreturned
    cases facts with
    | nil => rw [hempty.1 rfl]
    | cons a facts =>
      cases facts' with
      | nil => cases hempty.2 rfl
      | cons a' facts' => exact congrArg some hsettle

theorem alike_of_reordered {p q : Program} {oracle : Oracle} {c : Context} (h : p.Reordered q) :
    Alike ⟨p, oracle, c⟩ ⟨q, oracle, c⟩ where
  analyze := analyze_reordered h
  initial := by simp only [initial, Context.initialFacts, h.globals]
  successors _ _ := h.mem_successors_iff
  instructions := h.instructions_eq
  defines _ _ := h.defines_iff
  elementStores i := by
    simp only [IsElementStore, h.pointer?_eq]
    rcases h.definition_cases i with hd | ⟨_, _, _, hp, hq⟩ | ⟨_, _, -, hp, hq⟩ <;> simp [*]

end Env

theorem Program.OwnPhisOnCycles.reordered {p q : Program} {f : FuncId} (hphi : p.OwnPhisOnCycles f)
    (h : p.Reordered q) (horder : ∀ b ∈ (q.flow f).order, b ∈ (p.flow f).order) :
    q.OwnPhisOnCycles f := by
  intro b hb hcycle i hi hphi' v hv hdefines
  rw [h.leads_iff] at hcycle
  rw [h.instructions_eq] at hi
  rw [h.isPhi_eq] at hphi'
  rw [h.operands_eq] at hv
  exact hphi b (horder b hb) hcycle i hi hphi' v hv (h.defines_iff.1 hdefines)

/-- The facts of a function do not depend on the order in which branches list their targets,
although the order in which blocks are taken does. Two things are left out. The fact of a store to
an element of a slot also has what a revision finds out about its address; and a phi that takes a
result of its own block, where no cycle brings it back, has only what a revision finds out about
that result. -/
theorem Program.analysis_ignores_target_order {text text' : List Char} {p q : Program}
    {oracle : Oracle} {settings : Settings} {f : FuncId} {extra : List ValueId} {r r' : Procedure}
    (hp : Source.parse text = .ok p) (hq : Source.parse text' = .ok q) (h : p.Reordered q)
    (hphi : p.OwnPhisOnCycles f) (hr : p.analyzeFunction oracle settings f extra = .ok r)
    (hr' : q.analyzeFunction oracle settings f extra = .ok r') :
    Env.SameResults ⟨p, oracle, Context.ofSettings p settings f extra⟩ r r' := by
  have hq := Source.wellFormed_of_parse hq
  have hc := Context.isOf_ofSettings (p := p) settings f extra
  have hc' := Context.isOf_ofSettings (p := q) settings f extra
  rw [Program.analyzeFunction, h.ofSettings_eq] at hr'
  rw [h.ofSettings_eq] at hc'
  obtain ⟨entry, m, hfin, rfl⟩ := Env.finished_of_run (Source.wellFormed_of_parse hp) hc hr
  obtain ⟨entry', m', hfin', rfl⟩ := Env.finished_of_run hq hc' hr'
  obtain rfl : entry' = entry :=
    Option.some.inj (hfin'.valid.entryBlock.symm.trans
      ((congrFun h.entryBlock?_eq _).trans hfin.valid.entryBlock))
  have halike : Env.Alike ⟨p, oracle, Context.ofSettings p settings f extra⟩
      ⟨q, oracle, Context.ofSettings p settings f extra⟩ := Env.alike_of_reordered h
  have hphi' := hphi.reordered h fun b hb => (halike.mem_order_iff hfin.valid hfin'.valid).1 hb
  exact halike.sameResults hfin hfin' fun b s s' hs hs' =>
    halike.sameReport hfin hfin' hphi hphi' hs hs'

/-- A branch to two blocks of which one stores the parameter, with the targets in the given order, and
a store to an element at an index that is loaded where they meet. -/
def branchText (first second : String) : String :=
  "main(%x) \x7b
entry:
  %s = alloca 8, 8
  %t = alloca 8, 8
  %zero = const 0
  store %zero, %t
  condbr %x, ^" ++ first ++ ", ^" ++ second ++ "
l:
  store %x, %t
  br ^join
r:
  br ^join
join:
  %i = load %t
  %q = gep %s, %i
  store %zero, %q
  ret
\x7d
"

def branchProgram (yes no : BlockId) : Program where
  functions := #[⟨"main", false, ⟨0, 4⟩, ⟨0, 1⟩⟩]
  blocks := #[⟨"entry", 1, 1, 6⟩, ⟨"l", 6, 6, 8⟩, ⟨"r", 8, 8, 9⟩, ⟨"join", 9, 9, 13⟩]
  values := #[⟨"x", .param⟩, ⟨"s", .inst (.alloca 8 8)⟩, ⟨"t", .inst (.alloca 8 8)⟩,
    ⟨"zero", .inst (.const 0)⟩, ⟨"", .inst (.store 3 2)⟩, ⟨"", .inst (.condbr 0 yes no)⟩,
    ⟨"", .inst (.store 0 2)⟩, ⟨"", .inst (.br 3)⟩, ⟨"", .inst (.br 3)⟩, ⟨"i", .inst (.load 2)⟩,
    ⟨"q", .inst (.gep 1 [9])⟩, ⟨"", .inst (.store 3 10)⟩, ⟨"", .inst (.ret none)⟩]

theorem parse_branchText :
    Source.parse (branchText "l" "r").toList = .ok (branchProgram 1 2) ∧
      Source.parse (branchText "r" "l").toList = .ok (branchProgram 2 1) :=
  ⟨eq_ok_of_toOption (by decide +kernel), eq_ok_of_toOption (by decide +kernel)⟩

theorem branchProgram_reordered : (branchProgram 1 2).Reordered (branchProgram 2 1) :=
  Program.reordered_of_swap rfl rfl rfl (v := 5) rfl rfl

theorem branchProgram_ownPhis : (branchProgram 1 2).OwnPhisOnCycles 0 := by
  have h : ∀ b ∈ ((branchProgram 1 2).flow 0).order, ∀ i ∈ (branchProgram 1 2).instructions b,
    ¬ (branchProgram 1 2).isPhi i := by decide +kernel
  exact fun b hb _ i hi hphi => absurd hphi (h b hb i hi)

/-- Two programs of one function that is analysed, in which an instruction depends on input in the
first one only. -/
theorem runs_of_isDependent {p q : Program} {i : ValueId}
    (h : (p.analyzeFunction Oracle.identity {} 0 []).toOption.map (·.isDependent i) = some true ∧
      (q.analyzeFunction Oracle.identity {} 0 []).toOption.map (·.isDependent i) = some false) :
    ∃ r r', p.analyzeFunction Oracle.identity {} 0 [] = .ok r ∧
      q.analyzeFunction Oracle.identity {} 0 [] = .ok r' ∧ r.instruction? i ≠ r'.instruction? i := by
  obtain ⟨r, hr, hdep⟩ := Option.map_eq_some_iff.1 h.1
  obtain ⟨r', hr', hdep'⟩ := Option.map_eq_some_iff.1 h.2
  refine ⟨r, r', eq_ok_of_toOption hr, eq_ok_of_toOption hr', fun heq => ?_⟩
  simp only [Procedure.isDependent, heq] at hdep hdep'
  exact absurd hdep (by simp [hdep'])

theorem branchProgram_runs : ∃ r r',
    (branchProgram 1 2).analyzeFunction Oracle.identity {} 0 [] = .ok r ∧
      (branchProgram 2 1).analyzeFunction Oracle.identity {} 0 [] = .ok r' ∧
      r.instruction? 11 ≠ r'.instruction? 11 :=
  runs_of_isDependent (by decide +kernel)

theorem branch_ignores_target_order :
    ∃ r r', (branchProgram 1 2).analyzeFunction Oracle.identity {} 0 [] = .ok r ∧
      (branchProgram 2 1).analyzeFunction Oracle.identity {} 0 [] = .ok r' ∧
      Env.SameResults ⟨branchProgram 1 2, Oracle.identity,
        Context.ofSettings (branchProgram 1 2) {} 0 []⟩ r r' := by
  obtain ⟨r, r', hr, hr', -⟩ := branchProgram_runs
  exact ⟨r, r', hr, hr', Program.analysis_ignores_target_order parse_branchText.1 parse_branchText.2
    branchProgram_reordered branchProgram_ownPhis hr hr'⟩

theorem element_store_follows_target_order :
    Source.parse (branchText "l" "r").toList = .ok (branchProgram 1 2) ∧
      Source.parse (branchText "r" "l").toList = .ok (branchProgram 2 1) ∧
      (branchProgram 1 2).Reordered (branchProgram 2 1) ∧
      ∃ r r', (branchProgram 1 2).analyzeFunction Oracle.identity {} 0 [] = .ok r ∧
        (branchProgram 2 1).analyzeFunction Oracle.identity {} 0 [] = .ok r' ∧
        r.instruction? 11 ≠ r'.instruction? 11 :=
  ⟨parse_branchText.1, parse_branchText.2, branchProgram_reordered, branchProgram_runs⟩

/-- Two blocks of which one stores the parameter, and where they meet a phi of what is loaded after it. -/
def ownPhiText (first second : String) : String :=
  "main(%x) \x7b
entry:
  %t = alloca 8, 8
  %z = const 0
  condbr %x, ^" ++ first ++ ", ^" ++ second ++ "
l:
  store %x, %t
  br ^join
r:
  store %z, %t
  br ^join
join:
  %p = phi [^l, %i], [^r, %z]
  %i = load %t
  ret
\x7d
"

def ownPhiProgram (yes no : BlockId) : Program where
  functions := #[⟨"main", false, ⟨0, 4⟩, ⟨0, 1⟩⟩]
  blocks := #[⟨"entry", 1, 1, 4⟩, ⟨"l", 4, 4, 6⟩, ⟨"r", 6, 6, 8⟩, ⟨"join", 8, 9, 11⟩]
  values := #[⟨"x", .param⟩, ⟨"t", .inst (.alloca 8 8)⟩, ⟨"z", .inst (.const 0)⟩,
    ⟨"", .inst (.condbr 0 yes no)⟩, ⟨"", .inst (.store 0 1)⟩, ⟨"", .inst (.br 3)⟩,
    ⟨"", .inst (.store 2 1)⟩, ⟨"", .inst (.br 3)⟩, ⟨"p", .phi [(9, 1), (2, 2)]⟩,
    ⟨"i", .inst (.load 1)⟩, ⟨"", .inst (.ret none)⟩]

/-- A phi of a result of its own block follows the order of targets where the block is on no cycle. -/
theorem own_phi_follows_target_order :
    Source.parse (ownPhiText "l" "r").toList = .ok (ownPhiProgram 1 2) ∧
      Source.parse (ownPhiText "r" "l").toList = .ok (ownPhiProgram 2 1) ∧
      (ownPhiProgram 1 2).Reordered (ownPhiProgram 2 1) ∧
      ∃ r r', (ownPhiProgram 1 2).analyzeFunction Oracle.identity {} 0 [] = .ok r ∧
        (ownPhiProgram 2 1).analyzeFunction Oracle.identity {} 0 [] = .ok r' ∧
        r.instruction? 8 ≠ r'.instruction? 8 :=
  ⟨eq_ok_of_toOption (by decide +kernel), eq_ok_of_toOption (by decide +kernel),
    Program.reordered_of_swap rfl rfl rfl (v := 3) rfl rfl, runs_of_isDependent (by decide +kernel)⟩

end InputFlow
