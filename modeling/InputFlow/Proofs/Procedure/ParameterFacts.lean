import InputFlow.Proofs.Procedure.MoreInputs

namespace InputFlow

namespace Env

variable {env : Env} {entry b : BlockId} {m : Blocks} {s t : BlockState} {a : ValueId}

/-- A parameter by itself: an input depends on itself, and any other parameter on nothing. -/
def ownFact (env : Env) (a : ValueId) : Dep :=
  if env.context.isInput a then .on a else .independent

theorem ownFact_ne_unknown (a : ValueId) : env.ownFact a ≠ .unknown := by
  rw [ownFact]
  split
  · exact Fact.dependent_ne_unknown _
  · exact Fact.independent_ne_unknown

theorem paramFact_eq_ownFact_iff : env.paramFact a = env.ownFact a ↔
    env.context.isInput a ∨ ¬ ∃ u ∈ env.context.inputParams, env.oracle.mayAlias a u := by
  rw [paramFact, ownFact]
  by_cases hinput : env.context.isInput a
  · simp [hinput]
  · have hnone : env.aliases a env.context.inputParams = [] ↔
        ¬ ∃ u ∈ env.context.inputParams, env.oracle.mayAlias a u := by
      simp [aliases]
    rw [if_neg hinput, if_neg hinput, or_iff_right hinput, ← hnone]
    cases env.aliases a env.context.inputParams <;> simp [Fact.onAll]

section Parameters

variable (hv : env.Valid entry) (ha : a ∈ env.context.params)

include hv ha

theorem Valid.role_of_mem_params : env.program.role a = .argument :=
  hv.wellFormed.role_of_mem_params (hv.isOf.params ▸ ha)

theorem Valid.fact_initial_param : env.initial.fact a = env.ownFact a := by
  have hrole := hv.role_of_mem_params ha
  have hglobal : a ∉ env.program.globals := fun hg => by
    simp [hv.wellFormed.mem_globals_iff.1 hg] at hrole
  rw [fact_initial, if_neg hglobal, if_pos ha, ownFact]

/-- No block gives a parameter a fact of its own. -/
theorem Core.fact_param (hcore : env.Core b s t) (hs : s.entry.fact a = env.ownFact a) :
    s.values.fact a = env.ownFact a := by
  have hrole := hv.role_of_mem_params ha
  have hdefined : a ∉ t.defined := by
    intro hdefined
    rcases (hcore.shaped.defined a).1 hdefined with hd | hw
    · have hlocal : env.IsLocal a := isLocal_of_defines hd
      simp [(isLocal_iff.1 hlocal).1] at hrole
    · exact Program.not_isStorage_of_argument hrole (isStorage_of_written hv.slots a hw)
  have hpassed : t.values.fact a = env.ownFact a := by
    rw [hcore.shaped.others a hdefined, ← hcore.entry, hs]
  have hle := hcore.le_values a
  have hge := hcore.values_le a
  rw [hpassed] at hle hge
  rw [Fact.settle_of_ne_unknown (ownFact_ne_unknown a)] at hge
  exact le_antisymm hge hle

/-- A parameter comes to every block with the fact that it has on entry to the function. -/
theorem Reached.entry_param (h : env.Reached entry m) :
    ∀ (b : BlockId) (s : BlockState), m[b]? = some s → s.entry.fact a = env.ownFact a := by
  have hsent {m : Blocks} {b : BlockId} {X : FactMap} (hm : env.Reached entry m)
      (ih : ∀ (b : BlockId) (s : BlockState), m[b]? = some s → s.entry.fact a = env.ownFact a)
      (hX : env.Sent entry m b X) : X.fact a = env.ownFact a := by
    rcases hX with ⟨-, rfl⟩ | ⟨u, -, t, ht, rfl⟩
    · exact hv.fact_initial_param ha
    · obtain ⟨t₀, hcore⟩ := (hm.present hv u t ht).core
      exact hcore.fact_param hv ha (ih u t ht)
  refine h.blocks_induction ?_ ?_ ?_
  · intro m b E s hm ih _ _ hE hs
    rw [hv.entry_of_run hs]
    exact hsent hm ih hE
  · intro m b s t D hm ih hs _ ht
    have hmerged := hm.merged_le hv hs fun X hX => (hsent hm ih hX).le
    rw [← ih b s hs] at hmerged ⊢
    exact (ht.entry a).trans (sup_eq_left.2 hmerged)
  · exact fun _ _ _ _ _ ih => ih

end Parameters

theorem Finished.exitFact?_param (h : env.Finished entry m) (hb : b ∈ env.flow.order)
    (ha : a ∈ env.context.params) : (result env m).exitFact? b a = some (env.ownFact a) := by
  obtain ⟨s, hs⟩ := h.exists_state hb
  have hpresent := h.reached.present h.valid b s hs
  obtain ⟨t, hcore⟩ := hpresent.core
  have hmem : a ∈ s.values := hpresent.initial a (mem_initial.2 (.inl ha))
  rw [exitFact?_eq hs, Facts.getElem?_of_mem hmem,
    hcore.fact_param h.valid ha (h.reached.entry_param h.valid ha b s hs)]

/-- At the end of a block a parameter still has the fact that it had on entry to the function, which
tells whether it is an input. An instruction that uses the parameter is also given the inputs that
it may alias. The two facts agree just when the parameter is an input or there is no such input. -/
theorem parameter_facts_agree_unless_aliased {text : List Char} {env : Env} {rounds : Nat}
    {r : Procedure} {entry b : BlockId} {a : ValueId} (hparse : Source.parse text = .ok env.program)
    (hcontext : env.context.IsOf env.program)
    (hentry : env.program.entryBlock? env.context.func = some entry) (hrun : env.run rounds = .ok r)
    (hb : Graph.Reaches env.program.successors entry b)
    (ha : a ∈ env.program.params env.context.func) :
    r.exitFact? b a = some (if env.context.isInput a then .on a else .independent) ∧
    env.operandFact r a = env.paramFact a ∧
    ((env.paramFact a).isDependent ↔ env.context.isInput a ∨
      ∃ u ∈ env.context.inputParams, env.oracle.mayAlias a u) ∧
    (r.exitFact? b a = some (env.paramFact a) ↔ env.context.isInput a ∨
      ¬ ∃ u ∈ env.context.inputParams, env.oracle.mayAlias a u) := by
  have hv : env.Valid entry := ⟨Source.wellFormed_of_parse hparse, hcontext, hentry⟩
  obtain ⟨m, hfin, rfl⟩ := hv.finished_of_run hrun
  have ha : a ∈ env.context.params := hcontext.params ▸ ha
  have hexit := hfin.exitFact?_param (hv.mem_order.2 hb) ha
  refine ⟨hexit, by simp [operandFact, hv.role_of_mem_params ha], ?_, ?_⟩
  · rw [isDependent_paramFact]
    simp [Context.inputParams, and_assoc]
  · rw [hexit, Option.some_inj, eq_comm]
    exact paramFact_eq_ownFact_iff

end Env

/-- In the loop that fills a slot the parameters are inputs, and nothing else comes to them. -/
theorem fill_parameter_facts_agree : ∃ r, fillEnv.run 8 = .ok r ∧
    r.exitFact? 1 3 = some (fillEnv.paramFact 3) := by
  obtain ⟨r, hr⟩ := fillEnv_runs
  obtain ⟨hreach, -⟩ := fillProgram_reaches_loop
  obtain ⟨hentry, hparam, hinput⟩ : fillProgram.entryBlock? 1 = some 0 ∧
      3 ∈ fillProgram.params 1 ∧ fillEnv.context.isInput 3 := by decide +kernel
  obtain ⟨-, -, -, hagree⟩ := Env.parameter_facts_agree_unless_aliased parse_fillText fillEnv_isOf
    hentry hr hreach hparam
  exact ⟨r, hr, hagree.2 (.inl hinput)⟩

/-- A function of two parameters that uses only the second. -/
def pairText : String :=
  "g(%p, %q) \x7b
entry:
  %r = add %q, %q
  ret %r
\x7d
"

def pairProgram : Program where
  functions := #[⟨"g", false, ⟨0, 1⟩, ⟨0, 2⟩⟩]
  blocks := #[⟨"entry", 2, 2, 4⟩]
  values := #[⟨"p", .param⟩, ⟨"q", .param⟩, ⟨"r", .inst (.binary .add 1 1)⟩,
    ⟨"", .inst (.ret (some 2))⟩]

/-- The function with its first parameter as input, where everything may alias everything. -/
def pairEnv : Env :=
  ⟨pairProgram, Oracle.conservative, (Context.ofFunction pairProgram 0).withInputs [0]⟩

/-- What uses the second parameter depends on the first, and the parameter itself does not. -/
theorem aliased_parameter_has_two_facts : Source.parse pairText.toList = .ok pairProgram ∧
    ∃ r, pairEnv.run 8 = .ok r ∧ r.exitFact? 0 1 = some .independent ∧
      pairEnv.paramFact 1 = .on 0 ∧ r.instruction? 2 = some (.on 0) := by
  obtain ⟨hparse, hrun, hparam⟩ : (Source.parse pairText.toList).toOption = some pairProgram ∧
      (pairEnv.run 8).toOption.map (fun r => (r.exitFact? 0 1, r.instruction? 2)) =
        some (some .independent, some (.on 0)) ∧ pairEnv.paramFact 1 = .on 0 := by decide +kernel
  obtain ⟨r, hr, hfacts⟩ := Option.map_eq_some_iff.1 hrun
  obtain ⟨hexit, hinst⟩ := Prod.mk.inj hfacts
  exact ⟨eq_ok_of_toOption hparse, r, eq_ok_of_toOption hr, hexit, hparam, hinst⟩

end InputFlow
