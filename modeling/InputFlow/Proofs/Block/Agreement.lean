import InputFlow.Proofs.Block.Reanalysis
import InputFlow.Proofs.Scope

namespace InputFlow

namespace Program

/-- An instruction other than a phi uses the value, and the block does not define it before. -/
def UsesEarly (p : Program) (b : BlockId) (v : ValueId) : Prop :=
  ∃ before i after, p.instructions b = before ++ i :: after ∧ ¬ p.isPhi i ∧ v ∈ p.operands i ∧
    v ∈ i :: after

end Program

namespace Env

/-- A revision of a block reports what a new analysis of it with the joined facts on entry reports.
This needs that no fact on entry is one of a result that the block uses before it defines it: a
revision cannot tell the fact that came in from the one that the block computes. -/
theorem revision_agrees_with_analysis {text : List Char} {env : Env} {b : BlockId} {s : BlockState}
    {E : FactMap} (preds : List FactMap) (initial : FactMap) (release : Bool)
    (hparse : Source.parse text = .ok env.program) (hcontext : env.context.IsOf env.program)
    (hs : env.analyze.run { block := b, entry := E } = .ok () s)
    (hphi : ∀ i ∈ env.program.instructions b, env.program.isPhi i →
      ∀ v ∈ env.program.operands i, ¬ env.program.Defines b v)
    (hpreds : ∀ m ∈ preds, ∀ v ∈ m, ¬ env.program.Defines b v)
    (hinitial : ∀ v ∈ initial, ¬ env.program.Defines b v)
    (hearly : ∀ v ∈ E, env.program.Defines b v → ¬ env.program.UsesEarly b v) :
    ∃ t, env.analyze.run
        { block := b, entry := E.join (BlockState.mergedEntry preds initial) } = .ok () t ∧
      SameFacts env (s.revise env.program preds initial release).1 t := by
  have hslots := slotsAreStorage (Source.wellFormed_of_parse hparse) hcontext
  refine sameFacts_revise hslots release hs (fun f d hf k ho hk => ?_) fun v hv => ?_
  · have hneeds := (analyze_ok_iff hslots (nodup_instructions _ _)).1 ⟨s, hs⟩
    obtain ⟨before, i, after, his, hoperand, hafter, hcase⟩ := own_origin hslots hneeds hf ho hk
    by_cases hi : env.program.isPhi i
    · exact hphi i (by simp [his]) hi k hoperand hk
    · exact hearly k (hcase.resolve_left hi) hk ⟨before, i, after, his, hi, hoperand, hafter⟩
  · rcases Facts.mem_orElse.1 hv with hv | hv
    · obtain ⟨m, hm, hv⟩ := Facts.mem_joinAll.1 hv
      exact hpreds m hm v hv
    · exact hinitial v hv

def analysis? (env : Env) (b : BlockId) (E : FactMap) : Option BlockState :=
  match env.analyze.run { block := b, entry := E } with
  | .ok _ s => some s
  | .error _ _ => none

theorem analysis?_eq_some {env : Env} {b : BlockId} {E : FactMap} {s : BlockState} :
    env.analysis? b E = some s ↔ env.analyze.run { block := b, entry := E } = .ok () s := by
  rw [analysis?]
  split <;> simp [*]

/-- A slot that is read and written in the block that follows. -/
def slotText : String :=
  "main(%x) \x7b
entry:
  %s = alloca 8, 8
  br ^next
next:
  %a = load %s
  %b = add %a, %a
  store %b, %s
  ret %b
\x7d
"

def slotProgram : Program :=
  Source.readProgram slotText

theorem parse_slotText : Source.parse slotText.toList = .ok slotProgram :=
  Source.parse_eq_readProgram slotText (by decide +kernel)

/-- The revision of `next` for a slot that turns out to depend on the parameter. -/
theorem revision_agrees_on_slot :
    let env := plain slotProgram
    let E : FactMap := .ofList [(1, Fact.independent)]
    let exit : FactMap := .ofList [(1, Fact.on 0)]
    ∃ s t, env.analyze.run { block := 1, entry := E } = .ok () s ∧
      env.analyze.run { block := 1, entry := E.join (BlockState.mergedEntry [exit] ∅) } = .ok () t ∧
      SameFacts env (s.revise slotProgram [exit] ∅ true).1 t := by
  intro env E exit
  obtain ⟨hok, hnot, hphi⟩ : (env.analysis? 1 E).isSome ∧ ¬ slotProgram.Defines 1 1 ∧
      ∀ i ∈ slotProgram.instructions 1, slotProgram.isPhi i →
        ∀ v ∈ slotProgram.operands i, ¬ slotProgram.Defines 1 v := by decide +kernel
  have hkey {a : Dep} {v : ValueId} (hv : v ∈ (Std.ExtTreeMap.ofList [(1, a)] : FactMap)) :
      ¬ slotProgram.Defines 1 v := by
    obtain rfl : 1 = v := by simpa using hv
    exact hnot
  obtain ⟨s, hs⟩ := Option.isSome_iff_exists.1 hok
  have hs := analysis?_eq_some.1 hs
  obtain ⟨t, ht, hsame⟩ := revision_agrees_with_analysis [exit] ∅ true parse_slotText
    (plain_isOf slotProgram) hs hphi (fun m hm v hv => hkey (List.mem_singleton.1 hm ▸ hv)) (by simp)
    fun v hv hd => absurd hd (hkey hv)
  exact ⟨s, t, hs, ht, hsame⟩

/-- A result that is used before it is defined. -/
def earlyText : String :=
  "main(%x) \x7b
entry:
  %s = alloca 8, 8
  br ^next
next:
  %b = add %a, %a
  %a = load %s
  ret %b
\x7d
"

def earlyProgram : Program :=
  Source.readProgram earlyText

/-- With a fact on entry of `%a`, the revision of `next` makes `%b` depend on what `%a` is loaded from,
which a new analysis does not. -/
theorem revision_differs_on_early_use :
    let env := plain earlyProgram
    let E : FactMap := .ofList [(1, Fact.independent), (4, Fact.independent)]
    let exit : FactMap := .ofList [(1, Fact.on 0)]
    Source.parse earlyText.toList = .ok earlyProgram ∧
    (∀ i ∈ earlyProgram.instructions 1, earlyProgram.isPhi i →
      ∀ v ∈ earlyProgram.operands i, ¬ earlyProgram.Defines 1 v) ∧
    (∀ v ∈ exit, ¬ earlyProgram.Defines 1 v) ∧
    ∃ s t, env.analyze.run { block := 1, entry := E } = .ok () s ∧
      env.analyze.run { block := 1, entry := E.join (BlockState.mergedEntry [exit] ∅) } = .ok () t ∧
      ¬ SameFacts env (s.revise earlyProgram [exit] ∅ false).1 t := by
  intro env E exit
  obtain ⟨hnot, hphi, hrevised, hnew, hstore⟩ : ¬ earlyProgram.Defines 1 1 ∧
      (∀ i ∈ earlyProgram.instructions 1, earlyProgram.isPhi i →
        ∀ v ∈ earlyProgram.operands i, ¬ earlyProgram.Defines 1 v) ∧
      ((env.analysis? 1 E).map fun s =>
        ((s.revise earlyProgram [exit] ∅ false).1.instructions.fact 3).isDependent) = some true ∧
      ((env.analysis? 1 (E.join (BlockState.mergedEntry [exit] ∅))).map fun t =>
        (t.instructions.fact 3).isDependent) = some false ∧
      earlyProgram.isResult 3 := by decide +kernel
  obtain ⟨s, hs, hdependent⟩ := Option.map_eq_some_iff.1 hrevised
  obtain ⟨t, ht, hindependent⟩ := Option.map_eq_some_iff.1 hnew
  refine ⟨Source.parse_eq_readProgram earlyText (by decide +kernel), hphi, fun v hv => ?_, s, t,
    analysis?_eq_some.1 hs, analysis?_eq_some.1 ht, fun hsame => ?_⟩
  · obtain rfl : 1 = v := by simpa [exit] using hv
    exact hnot
  · have heq := congrArg Fact.isDependent
      (hsame.instructions 3 (not_isElementStore_of_isResult hstore))
    rw [Fact.isDependent_settle, Fact.isDependent_settle, hdependent, hindependent] at heq
    cases heq

end Env

end InputFlow
