import InputFlow.Proofs.Procedure.InstructionFacts
import InputFlow.Proofs.Procedure.Stopping

namespace InputFlow

namespace Program

variable {p : Program} {entry a b c : BlockId}

inductive Avoids (p : Program) (entry c : BlockId) : BlockId → Prop
  | start (hne : entry ≠ c) : Avoids p entry c entry
  | step {a b : BlockId} (ha : Avoids p entry c a) (hb : b ∈ p.successors a) (hne : b ≠ c) :
    Avoids p entry c b

/-- All paths from the entry to `b` go through `c`. -/
def Dominates (p : Program) (entry c b : BlockId) : Prop :=
  ¬ p.Avoids entry c b

theorem Dominates.eq_entry (h : p.Dominates entry c entry) : c = entry :=
  by_contra fun hne => h (.start (Ne.symm hne))

theorem Dominates.of_successor (h : p.Dominates entry c b) (hb : b ∈ p.successors a) (hne : b ≠ c) :
    p.Dominates entry c a :=
  fun ha => h (ha.step hb hne)

/-- Every use of a result, other than by a phi, comes after its definition in the same block, or in a
block that the one of the definition dominates. -/
def DefinitionsDominateUses (p : Program) (entry : BlockId) : Prop :=
  ∀ b, Graph.Reaches p.successors entry b → ∀ before i after,
    p.instructions b = before ++ i :: after → ¬ p.isPhi i →
      ∀ v ∈ p.operands i, p.role v = .instruction → ¬ p.isAlloca v →
        ∃ c, p.Defines c v ∧ (c = b ∧ v ∈ before ∨ c ≠ b ∧ p.Dominates entry c b)

end Program

namespace Env

variable {env : Env} {entry b c : BlockId} {m : Blocks} {k : ValueId}

/-- What is defined in a block that dominates a block with facts sent to it. -/
theorem Sent.mem_of_dominates
    (ih : ∀ (b : BlockId) (s : BlockState), m[b]? = some s → ∀ c k, env.program.Defines c k →
      env.program.Dominates entry c b → k ∈ s.values) {X : FactMap} (hX : env.Sent entry m b X)
    (hk : env.program.Defines c k) (hne : c ≠ b) (hdom : env.program.Dominates entry c b) : k ∈ X := by
  rcases hX with ⟨rfl, -⟩ | ⟨u, hu, t, ht, rfl⟩
  · exact absurd hdom.eq_entry hne
  · exact ih u t ht c k hk (hdom.of_successor (mem_preds.1 hu).2 (Ne.symm hne))

theorem Reached.mem_of_dominates (hv : env.Valid entry) (h : env.Reached entry m) :
    ∀ (b : BlockId) (s : BlockState), m[b]? = some s → ∀ c k, env.program.Defines c k →
      env.program.Dominates entry c b → k ∈ s.values := by
  refine h.blocks_induction ?_ ?_ ?_
  · intro m b E s _ ih _ _ hE hs c k hk hdom
    obtain ⟨ρ, hs⟩ := hv.analysed hs
    by_cases hne : c = b
    · subst hne
      exact Facts.mem_of_some (hs.results k hk)
    · exact hs.kept k (hE.mem_of_dominates ih hk hne hdom)
  · intro m b s t D _ ih hs hopen ht c k hk hdom
    exact ht.steps.mem_values hv.slots hopen.shaped (ih b s hs c k hk hdom)
  · intro m b s hm hs ih c k hk hdom
    have hpresent := hm.present hv b s hs
    obtain ⟨t, hcore⟩ := hpresent.core
    exact ((hcore.conclude hpresent.initial).mem_values k).2 ((hcore.mem_values k).1 (ih c k hk hdom))

/-- The analysis of a function in which definitions dominate uses never stops for want of a fact:
what is defined in a block that dominates another has a fact when the other is entered, whatever
predecessor it is entered from. -/
theorem strict_ssa_is_traversed_in_order {text : List Char} {env : Env} {entry : BlockId}
    (rounds : Nat) (hparse : Source.parse text = .ok env.program)
    (hcontext : env.context.IsOf env.program)
    (hentry : env.program.entryBlock? env.context.func = some entry)
    (hssa : env.program.DefinitionsDominateUses entry) (v : ValueId) (b : BlockId) :
    env.run rounds ≠ .error (.traversalOrder v b) := by
  have hv : env.Valid entry := ⟨Source.wellFormed_of_parse hparse, hcontext, hentry⟩
  intro hrun
  obtain ⟨m, c, E, s, hm, hc, hE, hs⟩ := (run_eq_error hv hrun).resolve_left nofun
  refine analyze_ne_traversalOrder (fun before i after his hphi u hu hr ha => ?_) hs
  obtain ⟨d, hd, ⟨rfl, hbefore⟩ | ⟨hne, hdom⟩⟩ :=
    hssa c (hv.mem_order.1 hc) before i after his hphi u hu hr ha
  · exact .inr ⟨hbefore, hd.2⟩
  · exact .inl (hE.mem_of_dominates (hm.mem_of_dominates hv) hd hne hdom)

end Env

/-- The loop that fills a slot defines a value in its body that is returned after it. -/
theorem fillProgram_definitionsDominateUses : fillProgram.DefinitionsDominateUses 0 := by
  obtain ⟨hsucc, hreturned, huses⟩ : fillProgram.successors 0 = [1] ∧ fillProgram.Defines 1 8 ∧
      ∀ b ∈ List.range 3, ∀ x ∈ (fillProgram.instructions b).zipIdx, ¬ fillProgram.isPhi x.1 →
        ∀ v ∈ fillProgram.operands x.1, fillProgram.role v = .instruction → ¬ fillProgram.isAlloca v →
          (v ∈ (fillProgram.instructions b).take x.2 ∧ fillProgram.isResult v) ∨ b = 2 ∧ v = 8 := by
    decide +kernel
  have hdom : fillProgram.Dominates 0 1 2 := by
    suffices ∀ b, fillProgram.Avoids 0 1 b → b = 0 from fun h => by simpa using this 2 h
    intro b h
    induction h with
    | start => rfl
    | step _ hb hne ih => exact absurd (by simpa [ih, hsucc] using hb) hne
  intro b _ before i after his hphi v hv hr ha
  have hi : i ∈ fillProgram.instructions b := by simp [his]
  obtain ⟨B, hB, -⟩ := Program.mem_blockValues.1 (Program.mem_blockValues_of_mem_instructions hi)
  obtain ⟨hb, -⟩ := Array.getElem?_eq_some_iff.1 hB
  have hindex : (i, before.length) ∈ (fillProgram.instructions b).zipIdx :=
    List.mem_zipIdx_iff_getElem?.2 (by simp [his])
  rcases huses b (List.mem_range.2 hb) (i, before.length) hindex hphi v hv hr ha with
    ⟨hmem, hresult⟩ | ⟨rfl, rfl⟩
  · have hbefore : v ∈ before := by simpa [his] using hmem
    exact ⟨b, ⟨by simp [his, hbefore], hresult⟩, .inl ⟨rfl, hbefore⟩⟩
  · exact ⟨1, hreturned, .inr ⟨by decide, hdom⟩⟩

theorem fill_is_traversed_in_order : fillProgram.DefinitionsDominateUses 0 ∧
    fillEnv.run 8 ≠ .error (.traversalOrder 8 2) :=
  ⟨fillProgram_definitionsDominateUses, Env.strict_ssa_is_traversed_in_order 8 parse_fillText
    fillEnv_isOf (by decide +kernel) fillProgram_definitionsDominateUses 8 2⟩

end InputFlow
