import InputFlow.Proofs.Procedure.Sources
import InputFlow.Proofs.Source.Partition

namespace InputFlow

theorem Program.role_eq_argument {p : Program} {v : ValueId} :
    p.role v = .argument ↔ p.definition? v = some .param := by
  rw [role]
  split <;> simp_all

/-- A fact that a result tells: of an instruction, of a value at the end of a block, on arguments or
the return, or any that a block was left with. -/
inductive Procedure.Tells (r : Procedure) : Dep → Prop
  | instruction {i : ValueId} {a : Dep} (h : r.instruction? i = some a) : Tells r a
  | exit {b : BlockId} {v : ValueId} {a : Dep} (h : r.exitFact? b v = some a) : Tells r a
  | effect {d : Derived} {a : Dep} (h : r.effect? d = some a) : Tells r a
  | block {b : BlockId} {s : BlockState} (d : Derived) (h : r.blocks[b]? = some s) : Tells r (s.get d)

namespace Env

variable {env : Env} {entry : BlockId} {m : Blocks} {v : ValueId}

/-- A value that dependence may come from, in the function that starts at `entry`. -/
inductive IsSource (env : Env) (entry : BlockId) (v : ValueId) : Prop
  | param (h : v ∈ env.program.params env.context.func) (hinput : env.context.isInput v)
  | global (h : v ∈ env.program.globals) (hinput : v ∈ env.context.inputGlobals)
  | call {f : FuncId} {args : List ValueId} (hreach : env.program.Reachable entry v)
    (hd : env.program.definition? v = some (.inst (.call (some f) args)))
    (hf : env.context.isInputFunction f)
  | memory {i pointer : ValueId} (hreach : env.program.Reachable entry i)
    (hd : env.program.definition? i = some (.inst (.load pointer)))
    (hrooted : env.program.RootedAt pointer v) (hroot : env.program.IsRoot v)
    (huntracked : ¬ env.program.isStorage v)

theorem Valid.admits_isSource (hv : env.Valid entry) (hp : env.program.Partitioned) :
    env.Admits entry (env.IsSource entry) where
  operand v hscope hrole hinput := by
    have hd := Program.role_eq_argument.1 hrole
    rcases hscope with hglobal | hparam | ⟨b, -, hb⟩
    · simp [hv.wellFormed.mem_globals_iff.1 hglobal] at hrole
    · exact .param hparam hinput
    · exact absurd rfl (Program.ne_of_mem_blockValues hp hb hd).2
  param v h hinput := .param (hv.isOf.params ▸ h) hinput
  global v h hinput := .global h hinput
  call i callee args hreach hd hcallee := by
    obtain ⟨f, rfl, hf⟩ := (Option.any_eq_true _ _).1 hcallee
    exact .call hreach hd hf
  load i pointer root hreach hd hpointer := by
    obtain ⟨hrooted, hroot, huntracked⟩ := untracked_of_pointer? hpointer
    exact .memory hreach hd hrooted hroot huntracked

/-- What the result tells is in a set in which the facts of all blocks stay. -/
theorem Finished.mem_of_tells {J : JoinSet} (h : env.Finished entry m) (hJ : .independent ∈ J)
    (hstays : ∀ (b : BlockId) s, m[b]? = some s → s.StaysIn J) {a : Dep}
    (ha : (Procedure.ofBlocks env.context env.flow.order m).Tells a) : a ∈ J := by
  cases ha with
  | @instruction i a ha =>
    by_cases hi : ∃ b ∈ env.flow.order, i ∈ env.program.instructions b
    · obtain ⟨b, hb, hi⟩ := hi
      obtain ⟨s, hs⟩ := h.exists_state hb
      rw [h.instruction?_eq hs hi] at ha
      exact Facts.fact_of_some ha ▸ (hstays b s hs).get (.inst i)
    · rw [h.instruction?_eq_none fun b hb hmem => hi ⟨b, hb, hmem⟩] at ha
      cases ha
  | @exit b v a ha =>
    obtain ⟨s, hs, ha⟩ := Option.bind_eq_some_iff.1 ha
    exact Facts.fact_of_some ha ▸ h.reached.values_mem h.valid hJ hstays hs v
  | @effect d a ha =>
    have hd : d.IsEffect := by cases d <;> trivial
    refine (Blocks.joins_effect? env.context env.flow.order hd).mem ha hJ fun b s hs => ?_
    exact hd.get_eq s ▸ (hstays b s hs).get d
  | block d hs => exact (hstays _ _ hs).get d

/-- Every dependent fact has sources, all of which are inputs of the function. -/
theorem dependence_has_sources {text : List Char} {rounds : Nat} {r : Procedure}
    (hparse : Source.parse text = .ok env.program) (hcontext : env.context.IsOf env.program)
    (hentry : env.program.entryBlock? env.context.func = some entry) (hrun : env.run rounds = .ok r)
    {a : Dep} (ha : r.Tells a) (hdep : a.isDependent) :
    (∃ x, x ∈ a.sources) ∧ ∀ x ∈ a.sources, env.IsSource entry x := by
  have hv : env.Valid entry := ⟨Source.wellFormed_of_parse hparse, hcontext, hentry⟩
  obtain ⟨m, hfin, rfl⟩ := hv.finished_of_run hrun
  have hstays := (hv.admits_isSource (Source.partitioned_of_parse hparse)).staysIn hv hfin.reached
  have hmem := hfin.mem_of_tells (Fact.independent_mem_sourcesIn _) hstays ha
  exact ⟨Fact.exists_mem_sources hmem hdep, hmem.2⟩

end Env

/-- What the loop returns depends on its inputs alone. -/
theorem fill_has_sources : ∃ r a, fillEnv.run 8 = .ok r ∧ r.instruction? 15 = some a ∧
    a.isDependent ∧ (∃ x, x ∈ a.sources) ∧ ∀ x ∈ a.sources, fillEnv.IsSource 0 x := by
  obtain ⟨hrun, hentry⟩ : ((fillEnv.run 8).toOption.bind (·.instruction? 15)).any (·.isDependent) ∧
      fillProgram.entryBlock? 1 = some 0 := by decide +kernel
  obtain ⟨a, ha, hdep⟩ := (Option.any_eq_true _ _).1 hrun
  obtain ⟨r, hr, ha⟩ := Option.bind_eq_some_iff.1 ha
  have hr := eq_ok_of_toOption hr
  exact ⟨r, a, hr, ha, hdep,
    Env.dependence_has_sources parse_fillText fillEnv_isOf hentry hr (.instruction ha) hdep⟩

end InputFlow
