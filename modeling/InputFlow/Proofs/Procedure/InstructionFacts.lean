import InputFlow.Proofs.Procedure.Equations

namespace InputFlow

namespace Program

variable {p : Program} {i : ValueId}

theorem kind_of_isPhi (h : p.isPhi i) : p.kind i = .phi := by
  rw [isPhi] at h
  split at h
  · simp [kind, *]
  · cases h

/-- What is defined by an instruction of a kind that has its own rule. -/
theorem definition_of_kind (p : Program) (i : ValueId) :
    match p.kind i with
    | .phi => ∃ incoming, p.definition? i = some (.phi incoming)
    | .store => ∃ value pointer, p.definition? i = some (.inst (.store value pointer))
    | .call => ∃ callee args, p.definition? i = some (.inst (.call callee args))
    | .ret => ∃ value, p.definition? i = some (.inst (.ret value))
    | .conditional => (∃ c yes no, p.definition? i = some (.inst (.condbr c yes no))) ∨
        ∃ c yes no bit, p.definition? i = some (.inst (.tbz c yes no bit))
    | _ => True := by
  rw [kind]
  cases hd : p.definition? i with
  | none => trivial
  | some d =>
    cases d with
    | inst code =>
      cases code with
      | binary op left right => cases op <;> trivial
      | _ => simp [Code.opcode, Opcode.kind]
    | _ => simp

end Program

namespace Env

variable {env : Env} {entry b : BlockId} {m : Blocks} {s : BlockState} {r : Procedure}
  {i v : ValueId} {a : Dep} {before after : List ValueId}

def operandsFact (env : Env) (r : Procedure) (i : ValueId) : Dep :=
  Fact.joinAll ((env.program.operands i).map (env.operandFact r))

/-- How the fact of an instruction follows from those of its operands, by the kind of instruction. -/
structure FollowsRules (env : Env) (r : Procedure) (entry b : BlockId) (i : ValueId) (a : Dep) :
    Prop where
  computed : env.program.kind i = .other ∨ env.program.kind i = .elementAddress →
    a = .independent ⊔ env.operandsFact r i
  conditional : env.program.kind i = .conditional →
    ∃ v, env.program.operands i = [v] ∧ a = env.operandFact r v
  returned : env.program.kind i = .ret → (env.program.operands i = [] ∧ a = .independent) ∨
    ∃ v, env.program.operands i = [v] ∧ a = env.operandFact r v
  called : env.program.kind i = .call → a = (env.operandsFact r i).settle ⊔
    if (env.program.callee? i).any env.context.isInputFunction then .on i else .independent
  stored : env.program.kind i = .store → ¬ env.IsElementStore i →
    ∃ value pointer, env.program.operands i = [value, pointer] ∧ a = env.operandFact r value
  phi : env.program.kind i = .phi →
    (∀ v ∈ env.program.operands i, env.IsLocal v → env.Comes entry b v) →
      a = (env.operandsFact r i).settle

theorem eval_operandFormulas (r : Procedure) (s : BlockState) (σ : Outline) (vs : List ValueId) :
    (Formula.sum (vs.map (env.operandFormula σ))).eval (env.final r s) =
      Fact.joinAll (vs.map (env.operandFact r)) := by
  rw [Formula.eval_sum, List.map_map]
  exact congrArg Fact.joinAll (List.map_congr_left fun v _ => eval_operandFormula r s σ v)

section Kinds

variable {σ : Outline}

theorem kind_of_isElementStore (h : env.IsElementStore i) : env.program.kind i = .store := by
  obtain ⟨value, pointer, slot, hd, -⟩ := h
  simp [Program.kind, hd, Code.opcode, Opcode.kind]

theorem rule_of_computed
    (hk : env.program.kind i = .other ∨ env.program.kind i = .elementAddress) :
    env.rule σ i = (Formula.fixed .independent).join
      (.sum ((env.program.operands i).map (env.operandFormula σ))) := by
  rw [Program.kind] at hk
  rw [rule, Program.operands]
  cases hd : env.program.definition? i with
  | none => rfl
  | some d =>
    cases d with
    | phi incoming => simp [hd] at hk
    | inst code => cases code <;> simp_all [Code.opcode, Opcode.kind]
    | _ => rfl

end Kinds

namespace Finished

/-- An operand that must be known is a result of a block that has been analysed. -/
theorem exists_defines (h : env.Finished entry m) (hs : m[b]? = some s)
    (his : env.program.instructions b = before ++ i :: after) (hv : v ∈ env.uses i)
    (hlocal : env.IsLocal v) : ∃ c t, m[c]? = some t ∧ env.program.Defines c v := by
  by_cases hbefore : v ∈ before ∧ env.program.isResult v
  · exact ⟨b, s, hs, by simp [his, hbefore.1], hbefore.2⟩
  · obtain ⟨E, hneeds, hE⟩ := h.comes_of_needs hs
    obtain ⟨hr, ha⟩ := isLocal_iff.1 hlocal
    have hentry : .entry v ∈ (env.operandFormula (env.outlineOf before) v).origins := by
      simp [operandFormula, hr, ha, Formula.ofOrigin, Outline.origin, hbefore]
    obtain ⟨c, hc, hd, -⟩ := hE v ((hneeds before i after his).1 v hv v hentry) hlocal
    obtain ⟨t, ht⟩ := h.exists_state (h.valid.mem_order.2 hc)
    exact ⟨c, t, ht, hd⟩

/-- The final fact of an operand that must be known is known. -/
theorem settle_operandFact (h : env.Finished entry m) (hs : m[b]? = some s)
    (his : env.program.instructions b = before ++ i :: after) (hv : v ∈ env.uses i) :
    (env.operandFact (result env m) v).settle = env.operandFact (result env m) v := by
  refine Fact.settle_of_ne_unknown ?_
  rw [operandFact]
  cases hr : env.program.role v with
  | argument => exact paramFact_ne_unknown v
  | instruction =>
    dsimp only
    split
    · exact Fact.independent_ne_unknown
    next ha =>
      obtain ⟨c, t, ht, hd⟩ := h.exists_defines hs his hv (isLocal_iff.2 ⟨hr, ha⟩)
      rw [h.fact_result ht hd.1]
      exact (h.reached.sourced h.valid c t ht).results v hd.1
  | _ => exact Fact.independent_ne_unknown

/-- The fact of an instruction that takes over that of an operand. -/
theorem fact_eq_operandFact (h : env.Finished entry m) (hs : m[b]? = some s)
    (his : env.program.instructions b = before ++ i :: after) (hi : ¬ env.IsElementStore i)
    (hphi : ¬ env.program.isPhi i) (hv : v ∈ env.uses i)
    (hrule : env.rule (env.outlineOf before) i = env.operandFormula (env.outlineOf before) v) :
    (result env m).instructions.fact i = env.operandFact (result env m) v := by
  rw [h.fact_eq_rule hs his hi fun hp => absurd hp hphi, hrule, eval_operandFormula,
    h.settle_operandFact hs his hv]

theorem followsRules (h : env.Finished entry m) (hs : m[b]? = some s)
    (hi : i ∈ env.program.instructions b) :
    env.FollowsRules (result env m) entry b i ((result env m).instructions.fact i) := by
  obtain ⟨before, after, his⟩ := List.append_of_mem hi
  have hplain (hstore : env.program.kind i ≠ .store) (hphi : env.program.kind i ≠ .phi) :=
    h.fact_eq_rule hs his (fun hd => hstore (kind_of_isElementStore hd))
      fun hp => absurd (Program.kind_of_isPhi hp) hphi
  have hdef := env.program.definition_of_kind i
  refine ⟨fun hk => ?_, fun hk => ?_, fun hk => ?_, fun hk => ?_, fun hk hd => ?_, fun hk hcomes => ?_⟩
  · rw [hplain (by grind) (by grind), rule_of_computed hk, Formula.eval_join, Formula.eval_fixed,
      eval_operandFormulas, Fact.settle_of_ne_unknown]
    · rfl
    · exact Fact.independent_le.1 le_sup_left
  · rw [hk] at hdef
    rcases hdef with ⟨c, yes, no, hd⟩ | ⟨c, yes, no, bit, hd⟩
    all_goals
      refine ⟨c, by simp [Program.operands, hd, Definition.operands, Code.operands], ?_⟩
      exact h.fact_eq_operandFact hs his (by simp [IsElementStore, hd]) (by simp [Program.isPhi, hd])
        (by simp [uses, hd, Definition.operands, Code.operands]) (by simp [rule, hd])
  · rw [hk] at hdef
    obtain ⟨value, hd⟩ := hdef
    cases value with
    | none =>
      refine Or.inl ⟨by simp [Program.operands, hd, Definition.operands, Code.operands], ?_⟩
      rw [hplain (by simp [hk]) (by simp [hk])]
      simp [rule, hd, Definition.operands, Code.operands, Fact.settle]
    | some v =>
      refine Or.inr ⟨v, by simp [Program.operands, hd, Definition.operands, Code.operands], ?_⟩
      exact h.fact_eq_operandFact hs his (by simp [IsElementStore, hd]) (by simp [Program.isPhi, hd])
        (by simp [uses, hd, Definition.operands, Code.operands]) (by simp [rule, hd])
  · rw [hk] at hdef
    obtain ⟨callee, args, hd⟩ := hdef
    have hcallee : env.program.callee? i = callee := by simp [Program.callee?, hd]
    have hoperands : env.program.operands i = args := by
      simp [Program.operands, hd, Definition.operands, Code.operands]
    rw [hplain (by simp [hk]) (by simp [hk]), operandsFact, hcallee, hoperands, rule, hd]
    dsimp only
    split <;>
    simp only [Formula.eval_join, Formula.eval_fixed, eval_operandFormulas, Fact.settle_eq_sup] <;>
    simp only [sup_comm, sup_left_comm, sup_left_idem]
  · rw [hk] at hdef
    obtain ⟨value, pointer, hd'⟩ := hdef
    refine ⟨value, pointer, by simp [Program.operands, hd', Definition.operands, Code.operands], ?_⟩
    exact h.fact_eq_operandFact hs his hd (by simp [Program.isPhi, hd'])
      (by simp [uses, hd', mem_storeUses]) (by simp [rule, hd'])
  · rw [hk] at hdef
    obtain ⟨incoming, hd⟩ := hdef
    have hrule : env.rule (env.outlineOf before) i =
        .sum ((env.program.operands i).map (env.operandFormula (env.outlineOf before))) := by
      simp [rule, Program.operands, hd, Definition.operands, Function.comp_def]
    rw [h.fact_eq_rule hs his (by simp [IsElementStore, hd]) fun _ => hcomes, hrule,
      eval_operandFormulas]
    rfl

end Finished

/-- The final fact of an instruction follows from the final facts of its operands, by the rule of
its kind. -/
theorem final_facts_follow_rules {text : List Char} {env : Env} {rounds : Nat} {r : Procedure}
    {entry b : BlockId} {i : ValueId} (hparse : Source.parse text = .ok env.program)
    (hcontext : env.context.IsOf env.program)
    (hentry : env.program.entryBlock? env.context.func = some entry) (hrun : env.run rounds = .ok r)
    (hb : Graph.Reaches env.program.successors entry b) (hi : i ∈ env.program.instructions b) :
    ∃ a, r.instruction? i = some a ∧ env.FollowsRules r entry b i a := by
  obtain ⟨entry', m, hfin, rfl⟩ := finished_of_run (Source.wellFormed_of_parse hparse) hcontext hrun
  obtain rfl : entry = entry' := Option.some.inj (hentry.symm.trans hfin.valid.entryBlock)
  obtain ⟨s, hs⟩ := hfin.exists_state (hfin.valid.mem_order.2 hb)
  exact ⟨_, hfin.instruction?_eq_fact hs hi, hfin.followsRules hs hi⟩

end Env

/-- A loop that fills a slot by an input function, by its elements, and through a parameter that may
lead to it. -/
def fillText : String :=
  "@g = global
read(%p)!
main(%x, %n) \x7b
entry:
  %s = alloca 8, 8
  store %x, %s
  br ^loop
loop:
  %i = phi [^entry, @g], [^loop, %k]
  %v = load %s
  %k = add %i, %v
  %q = gep %s, %k
  store %k, %q
  store %k, %n
  %c = call @read, %s
  condbr %c, ^loop, ^done
done:
  ret %v
\x7d
"

def fillProgram : Program where
  functions := #[⟨"read", true, ⟨0, 0⟩, ⟨1, 2⟩⟩, ⟨"main", false, ⟨0, 3⟩, ⟨2, 4⟩⟩]
  blocks := #[⟨"entry", 4, 4, 7⟩, ⟨"loop", 7, 8, 15⟩, ⟨"done", 15, 15, 16⟩]
  values := #[⟨"g", .global⟩, ⟨"p", .param⟩, ⟨"x", .param⟩, ⟨"n", .param⟩,
    ⟨"s", .inst (.alloca 8 8)⟩, ⟨"", .inst (.store 2 4)⟩, ⟨"", .inst (.br 1)⟩,
    ⟨"i", .phi [(0, 0), (9, 1)]⟩, ⟨"v", .inst (.load 4)⟩, ⟨"k", .inst (.binary .add 7 8)⟩,
    ⟨"q", .inst (.gep 4 [9])⟩, ⟨"", .inst (.store 9 10)⟩, ⟨"", .inst (.store 9 3)⟩,
    ⟨"c", .inst (.call (some 0) [4])⟩, ⟨"", .inst (.condbr 13 1 2)⟩, ⟨"", .inst (.ret (some 8))⟩]
  globals := [0]

theorem parse_fillText : Source.parse fillText.toList = .ok fillProgram :=
  eq_ok_of_toOption (by decide +kernel)

/-- The loop, where everything may alias everything. -/
def fillEnv : Env :=
  ⟨fillProgram, Oracle.conservative,
    Context.ofSettings fillProgram { inputFunctions := ["read"] } 1 []⟩

theorem fillEnv_isOf : fillEnv.context.IsOf fillEnv.program :=
  Context.isOf_ofSettings _ _ _

theorem fillEnv_runs : ∃ r, fillEnv.run 8 = .ok r := by
  have hok : (fillEnv.run 8).toOption.isSome := by decide +kernel
  obtain ⟨r, hr⟩ := Option.isSome_iff_exists.1 hok
  exact ⟨r, eq_ok_of_toOption hr⟩

/-- The loop can be reached, and comes back to itself. -/
theorem fillProgram_reaches_loop :
    Graph.Reaches fillProgram.successors 0 1 ∧ fillProgram.Leads 1 1 :=
  ⟨.single (by decide +kernel), .single (by decide +kernel)⟩

theorem loop_phi_follows_rules : ∃ r a, fillEnv.run 8 = .ok r ∧ r.instruction? 7 = some a ∧
    a = (fillEnv.operandsFact r 7).settle := by
  obtain ⟨r, hr⟩ := fillEnv_runs
  obtain ⟨hreach, hlead⟩ := fillProgram_reaches_loop
  obtain ⟨hentry, hmem, hkind, hoperands, hglobal, hdefines⟩ :
      fillProgram.entryBlock? 1 = some 0 ∧ 7 ∈ fillProgram.instructions 1 ∧
        fillProgram.kind 7 = .phi ∧ fillProgram.operands 7 = [0, 9] ∧ ¬ fillEnv.IsLocal 0 ∧
        fillProgram.Defines 1 9 := by decide +kernel
  obtain ⟨a, ha, hrules⟩ := Env.final_facts_follow_rules parse_fillText fillEnv_isOf hentry hr hreach hmem
  refine ⟨r, a, hr, ha, hrules.phi hkind fun v hv hlocal => ?_⟩
  obtain rfl | rfl : v = 0 ∨ v = 9 := by simpa [fillEnv, hoperands] using hv
  · exact absurd hlocal hglobal
  · exact ⟨1, hreach, hdefines, hlead⟩

end InputFlow
