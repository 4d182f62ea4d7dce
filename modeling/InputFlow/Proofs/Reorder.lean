import InputFlow.Proofs.Procedure.Moves

namespace InputFlow

/-- A definition with the targets of a conditional branch or of a jump in another order. -/
inductive Definition.Reorder {ρ τ κ : Type} : Definition ρ τ κ → Definition ρ τ κ → Prop
  | same (d : Definition ρ τ κ) : Reorder d d
  | condbr (condition : ρ) (yes no : τ) :
    Reorder (.inst (.condbr condition yes no)) (.inst (.condbr condition no yes))
  | jump {targets targets' : List τ} (h : targets.Perm targets') :
    Reorder (.inst (.jump targets)) (.inst (.jump targets'))

/-- A value with the same name and such a definition. -/
structure Value.Reorder {ρ τ κ : Type} (x y : Value ρ τ κ) : Prop where
  name : y.name = x.name
  definition : x.definition.Reorder y.definition

namespace Program

variable {p q : Program} {b : BlockId} {f : FuncId} {v : ValueId}

/-- The programs are the same but for the order of targets. -/
structure Reordered (p q : Program) : Prop where
  functions : q.functions = p.functions
  blocks : q.blocks = p.blocks
  globals : q.globals = p.globals
  values : ∀ v : ValueId, Option.Rel Value.Reorder p.values[v]? q.values[v]?

/-- Exchanging the targets of one conditional branch. -/
theorem reordered_of_swap {name : String} {condition : ValueId} {yes no : BlockId}
    (hfunctions : q.functions = p.functions) (hblocks : q.blocks = p.blocks)
    (hglobals : q.globals = p.globals)
    (hv : p.values[v]? = some ⟨name, .inst (.condbr condition yes no)⟩)
    (hvalues : q.values = p.values.setIfInBounds v ⟨name, .inst (.condbr condition no yes)⟩) :
    p.Reordered q := by
  refine ⟨hfunctions, hblocks, hglobals, fun u => ?_⟩
  obtain ⟨hlt, -⟩ := Array.getElem?_eq_some_iff.1 hv
  rw [hvalues, Array.getElem?_setIfInBounds]
  split
  · subst_vars
    rw [hv]
    exact .some ⟨rfl, .condbr condition yes no⟩
  · cases p.values[u]? with
    | none => exact .none
    | some x => exact .some ⟨rfl, .same _⟩

namespace Reordered

/-- What a value is defined as in both programs. -/
theorem definition_cases (h : p.Reordered q) (v : ValueId) : q.definition? v = p.definition? v ∨
    (∃ condition yes no, p.definition? v = some (.inst (.condbr condition yes no)) ∧
      q.definition? v = some (.inst (.condbr condition no yes))) ∨
    ∃ targets targets', targets.Perm targets' ∧ p.definition? v = some (.inst (.jump targets)) ∧
      q.definition? v = some (.inst (.jump targets')) := by
  have hv := h.values v
  simp only [definition?]
  generalize p.values[v]? = x, q.values[v]? = y at hv
  cases hv with
  | none => exact Or.inl rfl
  | @some x y hxy =>
    obtain ⟨name, d⟩ := x
    obtain ⟨name', d'⟩ := y
    obtain ⟨-, hd⟩ := hxy
    cases hd with
    | same => exact Or.inl rfl
    | condbr condition yes no => exact Or.inr (Or.inl ⟨condition, yes, no, rfl, rfl⟩)
    | jump hperm => exact Or.inr (Or.inr ⟨_, _, hperm, rfl, rfl⟩)

theorem role_eq (h : p.Reordered q) : q.role = p.role := by
  funext v
  rcases h.definition_cases v with hd | ⟨_, _, _, hp, hq⟩ | ⟨_, _, -, hp, hq⟩ <;> simp [role, *]

theorem isPhi_eq (h : p.Reordered q) : q.isPhi = p.isPhi := by
  funext v
  rcases h.definition_cases v with hd | ⟨_, _, _, hp, hq⟩ | ⟨_, _, -, hp, hq⟩ <;> simp [isPhi, *]

theorem isAlloca_eq (h : p.Reordered q) : q.isAlloca = p.isAlloca := by
  funext v
  rcases h.definition_cases v with hd | ⟨_, _, _, hp, hq⟩ | ⟨_, _, -, hp, hq⟩ <;> simp [isAlloca, *]

theorem isConst_eq (h : p.Reordered q) : q.isConst = p.isConst := by
  funext v
  rcases h.definition_cases v with hd | ⟨_, _, _, hp, hq⟩ | ⟨_, _, -, hp, hq⟩ <;> simp [isConst, *]

theorem operands_eq (h : p.Reordered q) : q.operands = p.operands := by
  funext v
  rcases h.definition_cases v with hd | ⟨_, _, _, hp, hq⟩ | ⟨_, _, -, hp, hq⟩ <;>
    simp [operands, Definition.operands, Code.operands, *]

theorem valueName_eq (h : p.Reordered q) : q.valueName = p.valueName := by
  funext v
  have hv := h.values v
  simp only [valueName]
  generalize p.values[v]? = x, q.values[v]? = y at hv
  cases hv with
  | none => rfl
  | some hxy => exact hxy.name

theorem hasResult_eq (h : p.Reordered q) : q.hasResult = p.hasResult := by
  funext v
  have hv := h.values v
  simp only [hasResult]
  generalize p.values[v]? = x, q.values[v]? = y at hv
  cases hv with
  | none => rfl
  | @some x y hxy =>
    obtain ⟨name, d⟩ := x
    obtain ⟨name', d'⟩ := y
    obtain ⟨hname, hd⟩ := hxy
    dsimp only at hname hd
    subst hname
    cases hd <;> rfl

theorem size_eq (h : p.Reordered q) : q.values.size = p.values.size := by
  have hnone (v : ValueId) : p.values[v]? = none ↔ q.values[v]? = none := by
    have hv := h.values v
    generalize p.values[v]? = x, q.values[v]? = y at hv
    cases hv <;> simp
  simp only [Array.getElem?_eq_none_iff] at hnone
  exact Nat.le_antisymm ((hnone _).1 (Nat.le_refl _)) ((hnone _).2 (Nat.le_refl _))

theorem pointer?_eq (h : p.Reordered q) : q.pointer? = p.pointer? := by
  have hfrom (fuel : Nat) (whole : Bool) (v : ValueId) :
      q.pointerFrom fuel whole v = p.pointerFrom fuel whole v := by
    induction fuel generalizing whole v with
    | zero => rfl
    | succ fuel ih =>
      simp only [pointerFrom, code?, h.role_eq, ih]
      rcases h.definition_cases v with hd | ⟨_, _, _, hp, hq⟩ | ⟨_, _, -, hp, hq⟩ <;> simp only [*]
  funext v
  rw [pointer?, pointer?, h.size_eq, hfrom]

theorem blockValues_eq (h : p.Reordered q) : q.blockValues = p.blockValues := by
  funext b
  rw [blockValues, blockValues, h.blocks]

theorem instructions_eq (h : p.Reordered q) : q.instructions = p.instructions := by
  funext b
  rw [instructions, instructions, h.blockValues_eq, h.isConst_eq]

theorem params_eq (h : p.Reordered q) : q.params = p.params := by
  funext f
  rw [params, params, h.functions]

theorem functionBlocks_eq (h : p.Reordered q) : q.functionBlocks = p.functionBlocks := by
  funext f
  rw [functionBlocks, functionBlocks, h.functions]

theorem functionName_eq (h : p.Reordered q) : q.functionName = p.functionName := by
  funext f
  rw [functionName, functionName, h.functions]

theorem entryBlock?_eq (h : p.Reordered q) : q.entryBlock? = p.entryBlock? := by
  funext f
  rw [entryBlock?, entryBlock?, isDeclaration, isDeclaration, h.functions, h.functionBlocks_eq]

theorem defines_iff (h : p.Reordered q) : q.Defines b v ↔ p.Defines b v := by
  rw [Defines, Defines, isResult, isResult, h.instructions_eq, h.isAlloca_eq, h.hasResult_eq]

theorem mem_targets_iff (h : p.Reordered q) {t : BlockId} : t ∈ q.targets v ↔ t ∈ p.targets v := by
  rcases h.definition_cases v with hd | ⟨_, _, _, hp, hq⟩ | ⟨_, _, hperm, hp, hq⟩
  · simp only [targets, hd]
  · simp [targets, hp, hq, Definition.targets, Code.targets, or_comm]
  · simpa [targets, hp, hq, Definition.targets, Code.targets] using hperm.mem_iff.symm

theorem mem_successors_iff (h : p.Reordered q) {t : BlockId} :
    t ∈ q.successors b ↔ t ∈ p.successors b := by
  simp only [successors, List.mem_flatMap, h.blockValues_eq, h.mem_targets_iff]

theorem leads_iff (h : p.Reordered q) {a : BlockId} : q.Leads a b ↔ p.Leads a b := by
  have heq : (fun a b => b ∈ q.successors a) = fun a b => b ∈ p.successors a :=
    funext fun _ => funext fun _ => propext h.mem_successors_iff
  rw [Leads, Leads, heq]

theorem ofSettings_eq (h : p.Reordered q) (s : Settings) (f : FuncId) (extra : List ValueId) :
    Context.ofSettings q s f extra = Context.ofSettings p s f extra := by
  simp only [Context.ofSettings, Context.ofFunction, functionIds, h.functions, h.globals, h.params_eq,
    h.functionBlocks_eq, h.instructions_eq, h.isAlloca_eq, h.functionName_eq, h.valueName_eq]

end Reordered

end Program

namespace Env

variable {p q : Program} {oracle : Oracle} {c : Context}

theorem keys_reordered (h : p.Reordered q) : keys ⟨q, oracle, c⟩ = keys ⟨p, oracle, c⟩ := by
  funext v
  simp only [keys, h.role_eq, h.isAlloca_eq]

theorem operand_reordered (h : p.Reordered q) : operand ⟨q, oracle, c⟩ = operand ⟨p, oracle, c⟩ := by
  funext user v
  simp only [operand, h.role_eq, h.isAlloca_eq]
  rfl

theorem phi_reordered (h : p.Reordered q) : phi ⟨q, oracle, c⟩ = phi ⟨p, oracle, c⟩ := by
  funext user incoming
  simp only [phi, incomingFact, h.role_eq, h.isAlloca_eq]
  rfl

theorem pointer_reordered (h : p.Reordered q) : pointer ⟨q, oracle, c⟩ = pointer ⟨p, oracle, c⟩ := by
  funext v
  simp only [pointer, h.pointer?_eq]

theorem load_reordered (h : p.Reordered q) : load ⟨q, oracle, c⟩ = load ⟨p, oracle, c⟩ := by
  funext user v
  simp only [load, pointer_reordered h, operand_reordered h]
  rfl

theorem store_reordered (h : p.Reordered q) : store ⟨q, oracle, c⟩ = store ⟨p, oracle, c⟩ := by
  funext user value v
  simp only [store, pointer_reordered h, operand_reordered h, keys_reordered h]
  rfl

theorem joinArgs_reordered (h : p.Reordered q) :
    joinArgs ⟨q, oracle, c⟩ = joinArgs ⟨p, oracle, c⟩ := by
  funext user callee position fact args
  induction args generalizing position fact with
  | nil => rfl
  | cons v rest ih =>
    simp only [joinArgs, passArg, operand_reordered h, keys_reordered h, h.role_eq, ih]

theorem call_reordered (h : p.Reordered q) : call ⟨q, oracle, c⟩ = call ⟨p, oracle, c⟩ := by
  have hfill : fill ⟨q, oracle, c⟩ = fill ⟨p, oracle, c⟩ := by
    funext input v
    simp only [fill, pointer_reordered h]
    rfl
  funext user callee args
  simp only [call, joinArgs_reordered h, hfill]

theorem ret_reordered (h : p.Reordered q) : ret ⟨q, oracle, c⟩ = ret ⟨p, oracle, c⟩ := by
  funext user value
  cases value with
  | none => rfl
  | some v => simp only [ret, operand_reordered h, keys_reordered h]

theorem instruction_reordered (h : p.Reordered q) :
    instruction ⟨q, oracle, c⟩ = instruction ⟨p, oracle, c⟩ := by
  funext i
  simp only [instruction, joinOperands, phi_reordered h, load_reordered h, store_reordered h,
    call_reordered h, ret_reordered h, operand_reordered h]
  rcases h.definition_cases i with hd | ⟨_, _, _, hp, hq⟩ | ⟨_, _, -, hp, hq⟩
  · rw [hd]
  · simp only [hp, hq]
  · simp only [hp, hq, Definition.operands, Code.operands]

/-- The analysis of a block does not ask for the order of targets. -/
theorem analyze_reordered (h : p.Reordered q) : analyze ⟨q, oracle, c⟩ = analyze ⟨p, oracle, c⟩ := by
  have hset (s : BlockState) (i : ValueId) (fact : Dep) :
      s.setInstruction q i fact = s.setInstruction p i fact := by
    simp only [BlockState.setInstruction, h.isAlloca_eq, h.hasResult_eq]
  have hsettle (s : BlockState) : s.settleInstructions q = s.settleInstructions p := by
    simp only [BlockState.settleInstructions, h.hasResult_eq]
  simp only [analyze, instruction_reordered h, h.instructions_eq, hset, hsettle]

end Env

end InputFlow
