import InputFlow.Proofs.Block.Origins
import InputFlow.Proofs.Source.Reading

namespace InputFlow

namespace Program

variable {p : Program} {b c : BlockId} {f : FuncId} {i v : ValueId}

theorem mem_blockValues : v ∈ p.blockValues b ↔ ∃ B, p.blocks[b]? = some B ∧ v ∈ B.values.toList := by
  cases h : p.blocks[b]? <;> simp [blockValues, h]

theorem mem_functionBlocks :
    b ∈ p.functionBlocks f ↔ ∃ F, p.functions[f]? = some F ∧ b ∈ F.blocks.toList := by
  cases h : p.functions[f]? <;> simp [functionBlocks, h]

theorem mem_params : v ∈ p.params f ↔ ∃ F, p.functions[f]? = some F ∧ v ∈ F.params.toList := by
  cases h : p.functions[f]? <;> simp [params, h]

theorem mem_blockValues_of_mem_instructions (h : i ∈ p.instructions b) : i ∈ p.blockValues b :=
  (List.mem_filter.1 h).1

theorem role_eq_global : p.role v = .global ↔ p.definition? v = some .global := by
  rw [role]
  split <;> simp_all

theorem role_of_param (h : p.definition? v = some .param) : p.role v = .argument := by
  simp [role, h]

end Program

namespace Module.WellFormed

variable {p : Program} {b c : BlockId} {f : FuncId} {i v : ValueId}

theorem mem_globals_iff (h : p.WellFormed) : v ∈ p.globals ↔ p.role v = .global :=
  (h.globals v).trans Program.role_eq_global.symm

theorem role_of_mem_params (h : p.WellFormed) (hv : v ∈ p.params f) : p.role v = .argument := by
  obtain ⟨F, hF, hv⟩ := Program.mem_params.1 hv
  exact Program.role_of_param (h.params F (Array.mem_of_getElem? hF) v hv)

theorem eq_of_mem_blockValues (h : p.WellFormed) (hb : v ∈ p.blockValues b)
    (hc : v ∈ p.blockValues c) : b = c := by
  -- The block with the lower number ends before the other begins.
  have hlt {b c : BlockId} (hb : v ∈ p.blockValues b) (hc : v ∈ p.blockValues c) : ¬ b < c := by
    intro hlt
    obtain ⟨B, hB, hvB⟩ := Program.mem_blockValues.1 hb
    obtain ⟨C, hC, hvC⟩ := Program.mem_blockValues.1 hc
    rw [← Array.getElem?_toList] at hB hC
    obtain ⟨hb, rfl⟩ := List.getElem?_eq_some_iff.1 hB
    obtain ⟨hc, rfl⟩ := List.getElem?_eq_some_iff.1 hC
    have hord := List.pairwise_iff_getElem.1 h.ordered b c hb hc hlt
    rw [Block.mem_values] at hvB hvC
    lia
  exact Nat.le_antisymm (Nat.not_lt.1 (hlt hc hb)) (Nat.not_lt.1 (hlt hb hc))

theorem eq_of_mem_instructions (h : p.WellFormed) (hb : v ∈ p.instructions b)
    (hc : v ∈ p.instructions c) : b = c :=
  h.eq_of_mem_blockValues (Program.mem_blockValues_of_mem_instructions hb)
    (Program.mem_blockValues_of_mem_instructions hc)

/-- Control stays within a function. -/
theorem mem_functionBlocks_of_mem_successors (h : p.WellFormed) (hb : b ∈ p.functionBlocks f)
    (hc : c ∈ p.successors b) : c ∈ p.functionBlocks f := by
  obtain ⟨F, hF, hb⟩ := Program.mem_functionBlocks.1 hb
  obtain ⟨v, hv, hc⟩ := List.mem_flatMap.1 hc
  obtain ⟨B, hB, hv⟩ := Program.mem_blockValues.1 hv
  rw [Program.targets] at hc
  cases hd : p.definition? v with
  | none => simp [hd] at hc
  | some d =>
    rw [hd] at hc
    exact Program.mem_functionBlocks.2
      ⟨F, hF, h.targets F (Array.mem_of_getElem? hF) v d ⟨b, hb, B, hB, hv⟩ hd c hc⟩

/-- An operand is a global, a parameter of the function or a value of one of its blocks. -/
theorem scope_of_mem_operands (h : p.WellFormed) (hb : b ∈ p.functionBlocks f)
    (hi : i ∈ p.blockValues b) (hv : v ∈ p.operands i) :
    v ∈ p.globals ∨ v ∈ p.params f ∨ ∃ c ∈ p.functionBlocks f, v ∈ p.blockValues c := by
  obtain ⟨F, hF, hb⟩ := Program.mem_functionBlocks.1 hb
  obtain ⟨B, hB, hi⟩ := Program.mem_blockValues.1 hi
  rw [Program.operands] at hv
  cases hd : p.definition? i with
  | none => simp [hd] at hv
  | some d =>
    rw [hd] at hv
    refine (h.operands F (Array.mem_of_getElem? hF) i d ⟨b, hb, B, hB, hi⟩ hd v hv).imp_right
      (Or.imp (fun hv => Program.mem_params.2 ⟨F, hF, hv⟩) ?_)
    rintro ⟨c, hc, C, hC, hv⟩
    exact ⟨c, Program.mem_functionBlocks.2 ⟨F, hF, hc⟩, Program.mem_blockValues.2 ⟨C, hC, hv⟩⟩

end Module.WellFormed

namespace Context

variable {p : Program} {c : Context} {v : ValueId}

/-- The context is one of its function in the program, with any inputs. -/
structure IsOf (c : Context) (p : Program) : Prop where
  params : c.params = p.params c.func
  slots : c.slots = (ofFunction p c.func).slots

theorem isOf_ofFunction (p : Program) (f : FuncId) : (ofFunction p f).IsOf p :=
  ⟨rfl, rfl⟩

theorem isOf_ofSettings (s : Settings) (f : FuncId) (extra : List ValueId) :
    (ofSettings p s f extra).IsOf p :=
  ⟨rfl, rfl⟩

theorem IsOf.mem_slots (h : c.IsOf p) : v ∈ c.slots ↔
    v ∈ p.globals ∨ ∃ b ∈ p.functionBlocks c.func, v ∈ p.instructions b ∧ p.isAlloca v := by
  rw [h.slots, ofFunction, Std.ExtTreeSet.mem_toList, Std.ExtTreeSet.mem_ofList,
    List.contains_iff_mem]
  simp only [List.mem_append, List.mem_filter, List.mem_flatMap]
  exact or_congr_right ⟨fun ⟨⟨b, hb, hv⟩, ha⟩ => ⟨b, hb, hv, ha⟩,
    fun ⟨b, hb, hv, ha⟩ => ⟨⟨b, hb, hv⟩, ha⟩⟩

end Context

namespace Env

variable {env : Env}

/-- The first function of a program, without input and with the oracle that looks at definitions. -/
def plain (p : Program) : Env :=
  ⟨p, p.syntacticOracle, Context.ofFunction p 0⟩

theorem plain_isOf (p : Program) : (plain p).context.IsOf (plain p).program :=
  Context.isOf_ofFunction p 0

theorem slotsAreStorage (hp : env.program.WellFormed) (hc : env.context.IsOf env.program) :
    env.SlotsAreStorage := by
  intro s hs
  rcases hc.mem_slots.1 hs with hs | ⟨_, _, _, hs⟩
  · simp [Program.isStorage, hp.mem_globals_iff.1 hs]
  · simp [Program.isStorage, hs]

end Env

end InputFlow
