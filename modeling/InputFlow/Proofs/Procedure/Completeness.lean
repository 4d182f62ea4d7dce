import InputFlow.Proofs.Procedure.Effects

namespace InputFlow

/-- An effect that has been joined from the blocks is known. -/
theorem Blocks.Joins.ne_unknown {m : Blocks} {e : BlockState → Option Dep} {x : Option Dep}
    (h : m.Joins e x) : x ≠ some .unknown := by
  intro hx
  have hle := ((h.le_iff _ hx .unknown).1 (le_refl _)).1
  exact Fact.independent_le.1 hle rfl

namespace Env

variable {env : Env} {entry b : BlockId} {m : Blocks} {s : BlockState} {i v : ValueId}

/-- What a result tells is all there is to tell of the function that starts at `entry`, and known. -/
structure Complete (env : Env) (r : Procedure) (entry : BlockId) : Prop where
  isSome_instruction : ∀ i, (r.instruction? i).isSome ↔ env.program.Reachable entry i
  isSome_block : ∀ b : BlockId, r.blocks[b]?.isSome ↔ Graph.Reaches env.program.successors entry b
  isSome_exit : ∀ b, Graph.Reaches env.program.successors entry b →
    ∀ v, v ∈ env.program.params env.context.func ∨ v ∈ env.program.globals → (r.exitFact? b v).isSome
  instruction_known : ∀ i, r.instruction? i ≠ some .unknown
  block_known : ∀ (b : BlockId) (s : BlockState), r.blocks[b]? = some s →
    ∀ i : ValueId, s.instructions[i]? ≠ some .unknown
  exit_known : ∀ b v, r.exitFact? b v ≠ some .unknown
  outArg_known : ∀ v : ValueId, r.outArgs[v]? ≠ some .unknown
  callArg_known : ∀ arg : CallArg, r.callArgs[arg]? ≠ some .unknown
  returned_known : r.returned ≠ some .unknown

namespace Finished

theorem isSome_instruction (h : env.Finished entry m) :
    ((result env m).instruction? i).isSome ↔ env.program.Reachable entry i := by
  constructor
  · intro hsome
    by_contra hreach
    have hnone := h.instruction?_eq_none fun b hb hi => hreach ⟨b, h.valid.mem_order.1 hb, hi⟩
    simp [hnone] at hsome
  · rintro ⟨b, hb, hi⟩
    obtain ⟨s, hs⟩ := h.exists_state (h.valid.mem_order.2 hb)
    rw [h.instruction?_eq_fact hs hi, Option.isSome_some]

theorem isSome_block (h : env.Finished entry m) :
    (result env m).blocks[b]?.isSome ↔ Graph.Reaches env.program.successors entry b := by
  rw [← h.valid.mem_order, ← h.mem]
  exact Std.ExtTreeMap.mem_iff_isSome_getElem?.symm

/-- Parameters and globals come to all blocks. -/
theorem isSome_exit (h : env.Finished entry m) (hs : m[b]? = some s) (hv : v ∈ env.initial) :
    ((result env m).exitFact? b v).isSome := by
  rw [exitFact?_eq hs, ← Std.ExtTreeMap.mem_iff_isSome_getElem?]
  exact (h.reached.present h.valid b s hs).initial v hv

theorem block_known (h : env.Finished entry m) (hs : m[b]? = some s) :
    s.instructions[i]? ≠ some .unknown := by
  intro hunknown
  have hi := (h.mem_instructions_iff hs).1 (Facts.mem_of_some hunknown)
  exact (h.reached.sourced h.valid b s hs).results i hi (Facts.fact_of_some hunknown)

theorem instruction?_known (h : env.Finished entry m) :
    (result env m).instruction? i ≠ some .unknown := by
  intro hunknown
  obtain ⟨b, hb, hi⟩ := h.isSome_instruction.1 (Option.isSome_of_mem hunknown)
  obtain ⟨s, hs⟩ := h.exists_state (h.valid.mem_order.2 hb)
  rw [h.instruction?_eq hs hi] at hunknown
  exact h.block_known hs hunknown

theorem exitFact?_known (h : env.Finished entry m) : (result env m).exitFact? b v ≠ some .unknown := by
  intro hunknown
  obtain ⟨s, hs, hv⟩ := Option.bind_eq_some_iff.1 hunknown
  have hb := (h.mem b).1 (mem_of_getElem? hs)
  exact h.determined b hb s hs v (Facts.mem_of_some hv) (Facts.fact_of_some hv)

theorem complete (h : env.Finished entry m) : env.Complete (result env m) entry where
  isSome_instruction _ := h.isSome_instruction
  isSome_block _ := h.isSome_block
  isSome_exit b hb v hv := by
    obtain ⟨s, hs⟩ := h.exists_state (h.valid.mem_order.2 hb)
    exact h.isSome_exit hs (mem_initial.2 (h.valid.isOf.params ▸ hv))
  instruction_known _ := h.instruction?_known
  block_known _ _ hs _ := h.block_known hs
  exit_known _ _ := h.exitFact?_known
  outArg_known v := (Blocks.joins_effect? _ _ (d := .outArg v) trivial).ne_unknown
  callArg_known arg := (Blocks.joins_effect? _ _ (d := .callArg arg) trivial).ne_unknown
  returned_known := (Blocks.joins_effect? _ _ (d := .returned) trivial).ne_unknown

end Finished

/-- The result of the analysis of a function tells of all that can be reached in it, and of nothing
else, and every fact it tells is known. -/
theorem results_are_complete_and_final {text : List Char} {env : Env} {rounds : Nat} {r : Procedure}
    {entry : BlockId} (hparse : Source.parse text = .ok env.program)
    (hcontext : env.context.IsOf env.program)
    (hentry : env.program.entryBlock? env.context.func = some entry)
    (hrun : env.run rounds = .ok r) : env.Complete r entry := by
  have hv : env.Valid entry := ⟨Source.wellFormed_of_parse hparse, hcontext, hentry⟩
  obtain ⟨m, hfin, rfl⟩ := hv.finished_of_run hrun
  exact hfin.complete

end Env

/-- A loop in which nothing is known at first, followed by a block that is never reached. -/
def idleText : String :=
  "@g = global
main(%x) \x7b
entry:
  %s = alloca 8, 8
  br ^loop
loop:
  %i = phi [^loop, %v]
  %v = load %s
  store %i, %s
  condbr %v, ^loop, ^done
done:
  ret %v
dead:
  %y = add %x, %x
  ret %y
\x7d
"

def idleProgram : Program where
  functions := #[⟨"main", false, ⟨0, 4⟩, ⟨1, 2⟩⟩]
  blocks := #[⟨"entry", 2, 2, 4⟩, ⟨"loop", 4, 5, 8⟩, ⟨"done", 8, 8, 9⟩, ⟨"dead", 9, 9, 11⟩]
  values := #[⟨"g", .global⟩, ⟨"x", .param⟩, ⟨"s", .inst (.alloca 8 8)⟩, ⟨"", .inst (.br 1)⟩,
    ⟨"i", .phi [(5, 1)]⟩, ⟨"v", .inst (.load 2)⟩, ⟨"", .inst (.store 4 2)⟩,
    ⟨"", .inst (.condbr 5 1 2)⟩, ⟨"", .inst (.ret (some 5))⟩, ⟨"y", .inst (.binary .add 1 1)⟩,
    ⟨"", .inst (.ret (some 9))⟩]
  globals := [0]

theorem parse_idleText : Source.parse idleText.toList = .ok idleProgram :=
  eq_ok_of_toOption (by decide +kernel)

theorem idle_is_complete : ∃ r, (Env.plain idleProgram).run 8 = .ok r ∧
    (Env.plain idleProgram).Complete r 0 ∧ r.instruction? 5 = some .independent ∧
    r.instruction? 9 = none := by
  obtain ⟨hrun, hentry⟩ :
      ((Env.plain idleProgram).run 8).toOption.map (fun r => (r.instruction? 5, r.instruction? 9)) =
        some (some .independent, none) ∧ idleProgram.entryBlock? 0 = some 0 := by decide +kernel
  obtain ⟨r, hr, hfacts⟩ := Option.map_eq_some_iff.1 hrun
  obtain ⟨hload, hdead⟩ := Prod.mk.inj hfacts
  have hr := eq_ok_of_toOption hr
  exact ⟨r, hr, Env.results_are_complete_and_final parse_idleText (Env.plain_isOf idleProgram) hentry hr,
    hload, hdead⟩

end InputFlow
