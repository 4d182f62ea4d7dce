import InputFlow.Proofs.Alias

namespace InputFlow

/-- Two instructions of a block, in either order, with no store and no call between them. -/
def Program.Undisturbed (p : Program) (b : BlockId) (i j : ValueId) : Prop :=
  ∃ before between after,
    (p.instructions b = before ++ i :: (between ++ j :: after) ∨
      p.instructions b = before ++ j :: (between ++ i :: after)) ∧
    ∀ k ∈ between, p.kind k ≠ .store ∧ p.kind k ≠ .call

namespace Env

variable {env : Env} {entry b : BlockId} {m : Blocks} {s : BlockState} {i j v base : ValueId}
  {indices before between after : List ValueId} {σ σ' : Outline}

theorem writes_eq_nil (hstore : env.program.kind i ≠ .store) (hcall : env.program.kind i ≠ .call) :
    env.writes σ i = [] := by
  rw [writes]
  split
  next hd => simp [Program.kind, hd, Code.opcode, Opcode.kind] at hstore
  next hd => simp [Program.kind, hd, Code.opcode, Opcode.kind] at hcall
  next => rfl

/-- Slots keep their content while nothing is stored or called. -/
theorem content_append (h : ∀ k ∈ between, env.program.kind k ≠ .store ∧ env.program.kind k ≠ .call) :
    (env.outlineOf (before ++ between)).content = (env.outlineOf before).content := by
  induction between using List.reverseRecOn with
  | nil => rw [List.append_nil]
  | append_singleton between k ih =>
    obtain ⟨hstore, hcall⟩ := h k (by simp)
    rw [← List.append_assoc, outlineOf_append, content_extend, writes_eq_nil hstore hcall]
    exact ih fun k hk => h k (List.mem_append_left _ hk)

/-- The places of two undisturbed loads, where slots have the same content. -/
theorem exists_splits (h : env.program.Undisturbed b i j) (hi : env.program.kind i = .load)
    (hj : env.program.kind j = .load) : ∃ before after before' after',
      env.program.instructions b = before ++ i :: after ∧
      env.program.instructions b = before' ++ j :: after' ∧
      (env.outlineOf before).content = (env.outlineOf before').content := by
  obtain ⟨before, between, after, his, hbetween⟩ := h
  have hcontent {k : ValueId} (hk : env.program.kind k = .load) :
      (env.outlineOf (before ++ k :: between)).content = (env.outlineOf before).content := by
    refine content_append fun l hl => ?_
    rcases List.mem_cons.1 hl with rfl | hl
    · simp [hk]
    · exact hbetween l hl
  rcases his with his | his
  · exact ⟨before, _, before ++ i :: between, after, his, by simp [his], (hcontent hi).symm⟩
  · exact ⟨before ++ j :: between, after, before, _, by simp [his], his, hcontent hj⟩

theorem Finished.fact_load (h : env.Finished entry m) (hs : m[b]? = some s)
    (his : env.program.instructions b = before ++ i :: after)
    (hd : env.program.definition? i = some (.inst (.load v))) :
    (result env m).instructions.fact i =
      ((env.loadFormula (env.outlineOf before) v).eval (env.final (result env m) s)).settle := by
  rw [h.fact_eq_rule hs his (by simp [IsElementStore, hd]) (by simp [Program.isPhi, hd])]
  simp only [rule, hd]

section Element

variable (hd : env.program.definition? v = some (.inst (.gep base indices)))

include hd

/-- A load of an element reads what a load through the base reads, and the address. -/
theorem eval_loadFormula_le {ρ : Origin → Dep} (hcontent : σ.content = σ'.content)
    (haliases : ∀ u, env.oracle.mayAlias v u = env.oracle.mayAlias base u)
    (hoperand : (env.operandFormula σ base).eval ρ ≤ (env.operandFormula σ' v).eval ρ) :
    (env.loadFormula σ base).eval ρ ≤ (env.loadFormula σ' v).eval ρ := by
  have hslots : env.aliases v env.context.slots = env.aliases base env.context.slots :=
    List.filter_congr fun u _ => haliases u
  rw [loadFormula, loadFormula, Program.pointer?_element hd, hcontent, hslots]
  cases env.program.pointer? base with
  | none => exact le_refl _
  | some P =>
    cases P with
    | slot s whole =>
      cases whole with
      | true =>
        simp only [Option.map_some, Pointer.element, if_true, Bool.false_eq_true, if_false,
          Formula.eval_join]
        exact le_sup_left
      | false =>
        simp only [Option.map_some, Pointer.element, Bool.false_eq_true, if_false, Formula.eval_join]
        exact sup_le_sup_left hoperand _
    | param root =>
      simp only [Option.map_some, Pointer.element, Formula.eval_join]
      exact sup_le_sup_right (sup_le_sup_left hoperand _) _
    | untraced root =>
      simp only [Option.map_some, Pointer.element, Formula.eval_join]
      exact sup_le_sup_right (sup_le_sup_left hoperand _) _

/-- The address of an element is never all of a slot, so its fact must be known. -/
theorem mem_uses_of_load (hj : env.program.definition? j = some (.inst (.load v))) :
    v ∈ env.uses j := by
  simp only [uses, hj, loadUses, Program.pointer?_element hd]
  cases env.program.pointer? base with
  | none => simp
  | some P => cases P <;> simp [Pointer.element]

/-- The address of an element depends on its base. -/
theorem Finished.operandFact_base_le (h : env.Finished entry m) (hs : m[b]? = some s)
    (his : env.program.instructions b = before ++ i :: after) (hv : v ∈ env.uses i) :
    env.operandFact (result env m) base ≤ env.operandFact (result env m) v := by
  have hr : env.program.role v = .instruction := by simp [Program.role, hd]
  have ha : ¬ env.program.isAlloca v := by simp [Program.isAlloca, hd]
  obtain ⟨c, t, ht, hdefines⟩ := h.exists_defines hs his hv (isLocal_iff.2 ⟨hr, ha⟩)
  have hfact : env.operandFact (result env m) v = (result env m).instructions.fact v := by
    simp [operandFact, hr, ha]
  have hkind : env.program.kind v = .elementAddress := by
    simp [Program.kind, hd, Code.opcode, Opcode.kind]
  have hbase : base ∈ env.program.operands v := by
    simp [Program.operands, hd, Definition.operands, Code.operands]
  calc env.operandFact (result env m) base
      ≤ env.operandsFact (result env m) v :=
        Fact.joinAll_le_iff.1 (le_refl _) _ (List.mem_map_of_mem hbase)
    _ ≤ .independent ⊔ env.operandsFact (result env m) v := le_sup_right
    _ = (result env m).instructions.fact v := ((h.followsRules ht hdefines.1).computed (.inr hkind)).symm
    _ = env.operandFact (result env m) v := hfact.symm

end Element

/-- A load through the address of an element has at least the fact that a load through its base has
at the same time, wherever the base leads: to a slot, to memory of a parameter, or anywhere. -/
theorem element_load_is_no_weaker {text : List Char} {env : Env} {rounds : Nat} {r : Procedure}
    {entry b : BlockId} {i j pointer element : ValueId} {indices : List ValueId}
    (hparse : Source.parse text = .ok env.program) (hcontext : env.context.IsOf env.program)
    (horacle : env.oracle = env.program.syntacticOracle)
    (hentry : env.program.entryBlock? env.context.func = some entry) (hrun : env.run rounds = .ok r)
    (hb : Graph.Reaches env.program.successors entry b)
    (hi : env.program.definition? i = some (.inst (.load pointer)))
    (hj : env.program.definition? j = some (.inst (.load element)))
    (helement : env.program.definition? element = some (.inst (.gep pointer indices)))
    (hij : env.program.Undisturbed b i j) :
    ∃ x y, r.instruction? i = some x ∧ r.instruction? j = some y ∧ x ≤ y := by
  have hw := Source.wellFormed_of_parse hparse
  have hv : env.Valid entry := ⟨hw, hcontext, hentry⟩
  obtain ⟨m, hfin, rfl⟩ := hv.finished_of_run hrun
  obtain ⟨s, hs⟩ := hfin.exists_state (hv.mem_order.2 hb)
  have hkind {k v : ValueId} (hk : env.program.definition? k = some (.inst (.load v))) :
      env.program.kind k = .load := by
    simp [Program.kind, hk, Code.opcode, Opcode.kind]
  obtain ⟨before, after, before', after', his, hjs, hcontent⟩ := exists_splits hij (hkind hi) (hkind hj)
  refine ⟨_, _, hfin.instruction?_eq_fact hs (by simp [his]),
    hfin.instruction?_eq_fact hs (by simp [hjs]), ?_⟩
  rw [hfin.fact_load hs his hi, hfin.fact_load hs hjs hj]
  refine Fact.settle_mono (eval_loadFormula_le helement hcontent ?_ ?_)
  · rw [horacle]
    exact Program.mayAlias_element hw (Source.partitioned_of_parse hparse) helement
  · rw [eval_operandFormula, eval_operandFormula]
    exact hfin.operandFact_base_le helement hs hjs (mem_uses_of_load helement hj)

end Env

/-- A loop that goes from an address to one of its elements. -/
def walkText : String :=
  "main(%x, %n) \x7b
entry:
  %s = alloca 8, 8
  store %x, %s
  br ^walk
walk:
  %p = phi [^entry, %n], [^walk, %q]
  %a = load %p
  %q = gep %p, %a
  %b = load %q
  store %b, %s
  condbr %b, ^walk, ^done
done:
  ret %b
\x7d
"

def walkProgram : Program where
  functions := #[⟨"main", false, ⟨0, 3⟩, ⟨0, 2⟩⟩]
  blocks := #[⟨"entry", 2, 2, 5⟩, ⟨"walk", 5, 6, 11⟩, ⟨"done", 11, 11, 12⟩]
  values := #[⟨"x", .param⟩, ⟨"n", .param⟩, ⟨"s", .inst (.alloca 8 8)⟩, ⟨"", .inst (.store 0 2)⟩,
    ⟨"", .inst (.br 1)⟩, ⟨"p", .phi [(1, 0), (7, 1)]⟩, ⟨"a", .inst (.load 5)⟩,
    ⟨"q", .inst (.gep 5 [6])⟩, ⟨"b", .inst (.load 7)⟩, ⟨"", .inst (.store 8 2)⟩,
    ⟨"", .inst (.condbr 8 1 2)⟩, ⟨"", .inst (.ret (some 8))⟩]

theorem parse_walkText : Source.parse walkText.toList = .ok walkProgram :=
  eq_ok_of_toOption (by decide +kernel)

theorem walk_loads_element : ∃ r x y, (Env.plain walkProgram).run 8 = .ok r ∧
    r.instruction? 6 = some x ∧ r.instruction? 8 = some y ∧ x ≤ y := by
  obtain ⟨hok, hentry, hedge, his, hload, helement, haddress, hkind⟩ :
      ((Env.plain walkProgram).run 8).toOption.isSome ∧ walkProgram.entryBlock? 0 = some 0 ∧
        1 ∈ walkProgram.successors 0 ∧ walkProgram.instructions 1 = [5, 6, 7, 8, 9, 10] ∧
        walkProgram.definition? 6 = some (.inst (.load 5)) ∧
        walkProgram.definition? 8 = some (.inst (.load 7)) ∧
        walkProgram.definition? 7 = some (.inst (.gep 5 [6])) ∧
        walkProgram.kind 7 = .elementAddress := by decide +kernel
  obtain ⟨r, hr⟩ := Option.isSome_iff_exists.1 hok
  have hr := eq_ok_of_toOption hr
  have hij : walkProgram.Undisturbed 1 6 8 := ⟨[5], [7], [9, 10], .inl his, by simp [hkind]⟩
  obtain ⟨x, y, hx, hy, hle⟩ := Env.element_load_is_no_weaker parse_walkText
    (Env.plain_isOf walkProgram) rfl hentry hr (.single hedge) hload helement haddress hij
  exact ⟨r, x, y, hr, hx, hy, hle⟩

end InputFlow
