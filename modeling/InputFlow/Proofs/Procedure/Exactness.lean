import InputFlow.Proofs.Procedure.Least

namespace InputFlow

/-- No phi of a reachable block on no cycle takes a result of the block itself. -/
def Program.OwnPhisOnCycles (p : Program) (f : FuncId) : Prop :=
  ∀ b ∈ (p.flow f).order, ¬ p.Leads b b →
    ∀ i ∈ p.instructions b, p.isPhi i → ∀ v ∈ p.operands i, ¬ p.Defines b v

/-- Facts widened to all that are not above them. -/
def Widening.settled : Widening where
  toIdeal a := .principal a.settle
  independent_mem a := Fact.independent_le_settle a
  mono h := Order.Ideal.principal_le_iff.2 (Fact.settle_le_settle.2 h)

theorem SameFacts.trans {env : Env} {s t u : BlockState} (h : SameFacts env s t)
    (h' : SameFacts env t u) : SameFacts env s u where
  values v := (h.values v).trans (h'.values v)
  outArgs v := (h.outArgs v).trans (h'.outArgs v)
  callArgs arg := (h.callArgs arg).trans (h'.callArgs arg)
  returned := h.returned.trans h'.returned
  mem_instructions i := (h.mem_instructions i).trans (h'.mem_instructions i)
  instructions i hi := (h.instructions i hi).trans (h'.instructions i hi)

theorem SameFacts.effect {env : Env} {s t : BlockState} (h : SameFacts env s t) (d : Derived) :
    ((s.effect? d).getD .unknown).settle = ((t.effect? d).getD .unknown).settle := by
  cases d with
  | outArg v => simpa only [BlockState.effect?, Facts.fact_eq] using h.outArgs v
  | callArg arg => simpa only [BlockState.effect?, Facts.fact_eq] using h.callArgs arg
  | returned => exact h.returned
  | _ => rfl

namespace Env

variable {env : Env} {entry b u : BlockId} {E : BlockId → FactMap} {m : Blocks}
  {s t r : BlockState} {k : ValueId} {f : Formula} {d : Derived}

theorem Core.sameFacts (h : env.Core b s t) : SameFacts env s t where
  values v := le_antisymm (Fact.settle_le_settle.2 (h.values_le v)) (Fact.settle_mono (h.le_values v))
  outArgs v := by
    rw [Facts.fact_eq, Facts.fact_eq]
    exact congrArg Fact.settle (h.get (.outArg v))
  callArgs arg := by
    rw [Facts.fact_eq, Facts.fact_eq]
    exact congrArg Fact.settle (h.get (.callArg arg))
  returned := congrArg Fact.settle (h.get .returned)
  mem_instructions i := by rw [h.instructions]
  instructions i _ := by rw [h.instructions]

/-- A block that reads the fact on entry of a result of its own is on a cycle. -/
theorem Finished.leads_of_own_origin (hfin : env.Finished entry m)
    (hphi : env.program.OwnPhisOnCycles env.context.func) (hb : b ∈ env.flow.order)
    (hf : (env.outline b).Defines f d) (ho : .entry k ∈ f.origins)
    (hk : env.program.Defines b k) : env.program.Leads b b := by
  have hv := hfin.valid
  obtain ⟨s, hs⟩ := hfin.exists_state hb
  obtain ⟨X, hneeds, hX, -⟩ := (hfin.reached.present hv b s hs).entered
  obtain ⟨before, i, after, his, hki, -, hread⟩ := own_origin hv.slots hneeds hf ho hk
  have hi : env.program.isPhi i := hread.resolve_right fun hkX => hX k hkX hk
  by_contra hlead
  exact hphi b hb hlead i (by simp [his]) hi k hki hk

def fresh (env : Env) (E : BlockId → FactMap) (b : BlockId) : BlockState :=
  match env.analyze.run { block := b, entry := E b } with
  | .ok _ s => s
  | .error _ s => s

theorem fresh_eq (hr : env.analyze.run { block := b, entry := E b } = .ok () r) :
    env.fresh E b = r := by
  rw [fresh, hr]

/-- The analyses of the blocks for the least solution enclose all that the function's analysis does. -/
theorem IsLeastSolution.encloses (hfin : env.Finished entry m)
    (hphi : env.program.OwnPhisOnCycles env.context.func) (h : env.IsLeastSolution entry E) :
    env.Encloses entry .settled (env.fresh E) where
  block b hb := by
    have hv := hfin.valid
    obtain ⟨r, hr, -⟩ := h.flows b (hv.mem_order.1 hb)
    have hopen := hv.open_of_run hr
    have hclosed := closed_iff.1 hopen.closed
    rw [fresh_eq hr]
    refine .of_origins hv.slots (fun f d hf => (hclosed f d hf).1) (fun f d hf => (hclosed f d hf).2)
      (fun k hk => ?_) (fun f d k hf ho hk => ?_)
      fun v => (hopen.shaped.fact_values v).ge.trans (Fact.le_settle _)
    · rw [hv.entry_of_run hr]
      exact h.le_result hfin hr hk hb
    · rw [hv.entry_of_run hr]
      exact h.result_le hv hb hr hk (hfin.leads_of_own_origin hphi hb hf ho hk)
  initial v := by
    obtain ⟨r, hr, -⟩ := h.flows entry .refl
    rw [fresh_eq hr, hfin.valid.entry_of_run hr]
    exact (h.initial v).trans (Fact.le_settle _)
  flows u hu b hb v := by
    have hu := hfin.valid.mem_order.1 hu
    obtain ⟨r, hr, hflows⟩ := h.flows u hu
    obtain ⟨t, ht, -⟩ := h.flows b (hu.tail hb)
    rw [fresh_eq hr, fresh_eq ht, hfin.valid.entry_of_run ht]
    exact (hflows b hb v).trans (Fact.le_settle _)

/-- The reported facts of a block are those of its analysis for the least solution. -/
theorem Finished.sameFacts (hfin : env.Finished entry m)
    (hphi : env.program.OwnPhisOnCycles env.context.func) (h : env.IsLeastSolution entry E)
    (hs : m[b]? = some s)
    (hr : env.analyze.run { block := b, entry := E b } = .ok () r) : SameFacts env s r := by
  have hv := hfin.valid
  have hpresent := hfin.reached.present hv b s hs
  obtain ⟨c, hcore⟩ := hpresent.core
  have hbelow := hfin.reached.within hv (h.encloses hfin hphi) b s hs
  rw [fresh_eq hr] at hbelow
  have hentry (v : ValueId) : (E b).fact v ≤ (c.entry.fact v).settle := by
    have hle := h.least _ hfin.isSolution_entries b (hv.mem_order.1 hpresent.reachable) v
    rw [entries_eq hs, hcore.entry] at hle
    exact hle.trans (Fact.le_settle _)
  obtain ⟨_, hr'⟩ := hv.analysed hr
  have habove := hr'.get_le hv.slots hcore.closed hentry
  refine hcore.sameFacts.trans (sameFacts_of_get hcore.shaped hr'.toShaped (fun v => ?_) fun d hd => ?_)
  · rw [hr'.entry]
    refine le_antisymm (Fact.settle_le_settle.2 ?_) (Fact.settle_le_settle.2 (hentry v))
    rw [← hcore.entry, ← hr'.entry]
    exact hbelow.entry v
  · refine le_antisymm (Fact.settle_le_settle.2 ?_) (Fact.settle_le_settle.2 (habove d))
    rw [← hcore.get]
    exact hbelow.get d hd

/-- The analysis of a function gives the facts of the least solution: it never goes above them,
since every move stays below a solution, and it ends above them, since the facts that it ends with
are one. -/
theorem run_gives_least_solution {text : List Char} {env : Env} {rounds : Nat} {r : Procedure}
    {entry : BlockId} (hparse : Source.parse text = .ok env.program)
    (hcontext : env.context.IsOf env.program)
    (hentry : env.program.entryBlock? env.context.func = some entry)
    (hrun : env.run rounds = .ok r) (hphi : env.program.OwnPhisOnCycles env.context.func) :
    (∃ E, env.IsLeastSolution entry E) ∧ ∀ E, env.IsLeastSolution entry E →
      ∀ b, Graph.Reaches env.program.successors entry b →
        ∃ s t, r.blocks[b]? = some s ∧ env.analyze.run { block := b, entry := E b } = .ok () t ∧
          SameFacts env s t ∧ ∀ i ∈ env.program.instructions b, r.instruction? i = s.instructions[i]? := by
  obtain ⟨entry', m, hfin, rfl⟩ := finished_of_run (Source.wellFormed_of_parse hparse) hcontext hrun
  obtain rfl : entry = entry' := Option.some.inj (hentry.symm.trans hfin.valid.entryBlock)
  refine ⟨hfin.exists_least, fun E hE b hb => ?_⟩
  obtain ⟨s, hs⟩ := hfin.exists_state (hfin.valid.mem_order.2 hb)
  obtain ⟨t, ht, -⟩ := hE.flows b hb
  exact ⟨s, t, hs, ht, hfin.sameFacts hphi hE hs ht, fun i hi => hfin.instruction?_eq hs hi⟩

/-- A block that is its own successor and has a phi of its own result. -/
def loopText : String :=
  "main(%x) \x7b
entry:
  br ^loop
loop:
  %i = phi [^entry, %x], [^loop, %n]
  %n = add %i, %x
  condbr %n, ^loop, ^done
done:
  ret %n
\x7d
"

def loopProgram : Program :=
  Source.readProgram loopText

theorem parse_loopText : Source.parse loopText.toList = .ok loopProgram :=
  Source.parse_eq_readProgram loopText (by decide +kernel)

theorem loop_gives_least_solution :
    let env := plain loopProgram
    ∃ r, env.run 8 = .ok r ∧ (∃ E, env.IsLeastSolution 0 E) ∧
      ∀ E, env.IsLeastSolution 0 E → ∀ b, Graph.Reaches loopProgram.successors 0 b →
        ∃ s t, r.blocks[b]? = some s ∧ env.analyze.run { block := b, entry := E b } = .ok () t ∧
          SameFacts env s t ∧ ∀ i ∈ loopProgram.instructions b, r.instruction? i = s.instructions[i]? := by
  intro env
  obtain ⟨hentry, hok, hphis⟩ : loopProgram.entryBlock? 0 = some 0 ∧
      (env.run 8).toOption.isSome ∧ ∀ b ∈ env.flow.order, b ∈ loopProgram.successors b ∨
        ∀ i ∈ loopProgram.instructions b, loopProgram.isPhi i →
          ∀ v ∈ loopProgram.operands i, ¬ loopProgram.Defines b v := by decide +kernel
  cases hrun : env.run 8 with
  | error e => simp [hrun, Except.toOption] at hok
  | ok r =>
    refine ⟨r, rfl, run_gives_least_solution parse_loopText (plain_isOf loopProgram) hentry hrun ?_⟩
    exact fun b hb hcycle => (hphis b hb).resolve_left fun hself => hcycle (.single hself)

end Env

end InputFlow
