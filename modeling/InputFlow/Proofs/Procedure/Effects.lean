import Mathlib.Order.Bounds.Basic
import InputFlow.Proofs.Pointer
import InputFlow.Proofs.Procedure.InstructionFacts

namespace InputFlow

namespace Program

def Reachable (p : Program) (entry : BlockId) (i : ValueId) : Prop :=
  ∃ b, Graph.Reaches p.successors entry b ∧ i ∈ p.instructions b

def Returns (p : Program) (i v : ValueId) : Prop :=
  p.definition? i = some (.inst (.ret (some v)))

def Passes (p : Program) (arg : CallArg) (i v : ValueId) : Prop :=
  ∃ args, p.definition? i = some (.inst (.call (some arg.callee) args)) ∧
    args[arg.position]? = some v ∧ p.role v ≠ .constant

def StoresAt (p : Program) (root i value : ValueId) : Prop :=
  ∃ pointer, p.definition? i = some (.inst (.store value pointer)) ∧ p.RootedAt pointer root

end Program

/-- A call of an input function with a pointer of the given root. -/
def Env.Fills (env : Env) (root i : ValueId) : Prop :=
  ∃ callee args pointer, env.program.definition? i = some (.inst (.call (some callee) args)) ∧
    env.context.isInputFunction callee ∧ pointer ∈ args ∧ env.program.RootedAt pointer root

/-- The pointers that an instruction goes through lead somewhere. -/
def Env.Traceable (env : Env) (i : ValueId) : Prop :=
  ∀ v ∈ env.addresses i, env.program.pointer? v ≠ none

def Procedure.effect? (r : Procedure) : Derived → Option Dep
  | .outArg v => r.outArgs[v]?
  | .callArg arg => r.callArgs[arg]?
  | .returned => r.returned
  | _ => none

namespace Blocks

variable {m : Blocks} {s : BlockState} {a c : Dep} {d : Derived}

theorem mem_states : s ∈ m.toList.map (·.2) ↔ ∃ b : BlockId, m[b]? = some s := by
  simp only [List.mem_map, Prod.exists, Std.ExtTreeMap.mem_toList_iff_getElem?_eq_some,
    exists_eq_right]

/-- What the states have of one effect, joined and settled. -/
structure Joins (m : Blocks) (e : BlockState → Option Dep) (x : Option Dep) : Prop where
  isSome : x.isSome ↔ ∃ (b : BlockId) (s : BlockState), m[b]? = some s ∧ (e s).isSome
  le_iff : ∀ a, x = some a → ∀ c, a ≤ c ↔ .independent ≤ c ∧
    ∀ (b : BlockId) (s : BlockState), m[b]? = some s → (e s).getD .unknown ≤ c

/-- The join of the facts in a set is in it. -/
theorem Joins.mem {e : BlockState → Option Dep} {x : Option Dep}
    (h : m.Joins e x) (ha : x = some a) {J : JoinSet} (hJ : .independent ∈ J)
    (hmem : ∀ (b : BlockId) (s : BlockState), m[b]? = some s → (e s).getD .unknown ∈ J) : a ∈ J := by
  let facts := m.toList.map fun entry => (e entry.2).getD .unknown
  have hfacts (c : Dep) : c ∈ facts ↔
      ∃ (b : BlockId) (s : BlockState), m[b]? = some s ∧ (e s).getD .unknown = c := by
    simp [facts, Std.ExtTreeMap.mem_toList_iff_getElem?_eq_some]
  have hjoin : Fact.joinAll facts ∈ J := by
    apply JoinSet.joinAll_mem
    intro c hc
    obtain ⟨b, s, hs, rfl⟩ := (hfacts c).1 hc
    exact hmem b s hs
  have heq : a = .independent ⊔ Fact.joinAll facts := by
    refine eq_of_forall_ge_iff fun c => ?_
    rw [h.le_iff a ha, sup_le_iff, Fact.joinAll_le_iff]
    refine and_congr_right fun _ => ⟨fun hc d hd => ?_, fun hc b s hs => hc _ ((hfacts _).2 ⟨b, s, hs, rfl⟩)⟩
    obtain ⟨b, s, hs, rfl⟩ := (hfacts d).1 hd
    exact hc b s hs
  rw [heq]
  exact JoinSet.sup_mem hJ hjoin

theorem joins_joinAll {κ : Type} [DecidableEq κ] [Ord κ] [Std.TransOrd κ] [Std.LawfulEqOrd κ]
    (g : BlockState → Facts κ) (k : κ) :
    m.Joins (fun s => (g s)[k]?) (Facts.joinAll ((m.toList.map (·.2)).map g)).settle[k]? := by
  refine ⟨?_, fun a ha c => ?_⟩
  · rw [← Std.ExtTreeMap.mem_iff_isSome_getElem?, Facts.mem_settle, Facts.mem_joinAll]
    constructor
    · rintro ⟨_, hX, hk⟩
      obtain ⟨s, hs, rfl⟩ := List.mem_map.1 hX
      obtain ⟨b, hb⟩ := mem_states.1 hs
      exact ⟨b, s, hb, Std.ExtTreeMap.mem_iff_isSome_getElem?.1 hk⟩
    · rintro ⟨b, s, hb, hk⟩
      exact ⟨g s, List.mem_map_of_mem (mem_states.2 ⟨b, hb⟩),
        Std.ExtTreeMap.mem_iff_isSome_getElem?.2 hk⟩
  · have hk := Facts.mem_of_some ha
    rw [← Facts.fact_of_some ha, Facts.fact_settle_of_mem (Facts.mem_settle.1 hk),
      Fact.settle_eq_sup, sup_le_iff, and_comm, Facts.joinAll_le_iff]
    simp only [List.forall_mem_map, mem_states, Facts.fact_eq]
    exact and_congr_right fun _ => ⟨fun h b s hb => h s ⟨b, hb⟩, fun h s hs => hs.elim fun b => h b s⟩

theorem joins_returned : m.Joins (·.returned)
    (match (m.toList.map (·.2)).filterMap (·.returned) with
      | [] => none
      | facts => some (Fact.joinAll facts).settle) := by
  have hmem (x : Dep) : x ∈ (m.toList.map (·.2)).filterMap (·.returned) ↔
      ∃ (b : BlockId) (s : BlockState), m[b]? = some s ∧ s.returned = some x := by
    rw [List.mem_filterMap]
    simp only [mem_states]
    exact ⟨fun ⟨s, ⟨b, hb⟩, hx⟩ => ⟨b, s, hb, hx⟩, fun ⟨b, s, hb, hx⟩ => ⟨s, ⟨b, hb⟩, hx⟩⟩
  generalize (m.toList.map (·.2)).filterMap (·.returned) = facts at hmem
  cases facts with
  | nil =>
    refine ⟨iff_of_false nofun ?_, nofun⟩
    rintro ⟨b, s, hb, hs⟩
    obtain ⟨x, hx⟩ := Option.isSome_iff_exists.1 hs
    simpa using (hmem x).2 ⟨b, s, hb, hx⟩
  | cons x facts =>
    refine ⟨iff_of_true rfl ?_, fun a ha c => ?_⟩
    · obtain ⟨b, s, hb, hx⟩ := (hmem x).1 List.mem_cons_self
      exact ⟨b, s, hb, by simp [hx]⟩
    · rw [← Option.some.inj ha, Fact.settle_eq_sup, sup_le_iff, and_comm, Fact.joinAll_le_iff]
      refine and_congr_right fun _ => ⟨fun h b s hb => ?_, fun h y hy => ?_⟩
      · cases hs : s.returned with
        | none => exact Fact.unknown_le _
        | some y => exact h y ((hmem y).2 ⟨b, s, hb, hs⟩)
      · obtain ⟨b, s, hb, hs⟩ := (hmem y).1 hy
        simpa [hs] using h b s hb

theorem joins_effect? (context : Context) (order : List BlockId) (hd : d.IsEffect) :
    m.Joins (·.effect? d) ((Procedure.ofBlocks context order m).effect? d) := by
  cases d with
  | outArg v => exact joins_joinAll (·.outArgs) v
  | callArg arg => exact joins_joinAll (·.callArgs) arg
  | returned => exact joins_returned
  | _ => exact hd.elim

end Blocks

namespace Derived.IsEffect

variable {d : Derived}

theorem isExact {env : Env} (hd : d.IsEffect) : env.IsExact d := by
  rintro i rfl
  exact hd.elim

theorem get_eq (hd : d.IsEffect) (s : BlockState) : s.get d = (s.effect? d).getD .unknown := by
  cases d with
  | inst i => exact hd.elim
  | slot v => exact hd.elim
  | _ => rfl

theorem defines (hd : d.IsEffect) (σ : Outline) : σ.Defines (σ.effect d) d := by
  cases d with
  | inst i => exact hd.elim
  | slot v => exact hd.elim
  | _ => rfl

end Derived.IsEffect

namespace Env

variable {env : Env} {entry b : BlockId} {m : Blocks} {s : BlockState} {r : Procedure} {i v : ValueId}
  {f : Formula} {d : Derived} {σ : Outline}

theorem mem_outEffects {g : Formula} {pointer : ValueId} {e : Derived × Formula} :
    e ∈ env.outEffects g pointer ↔
      ∃ root, env.program.pointer? pointer = some (.param root) ∧ e = (.outArg root, g) := by
  rw [outEffects]
  split <;> simp_all

theorem mem_argEffects {callee : FuncId} {position : Nat} {args : List ValueId}
    {e : Derived × Formula} : e ∈ env.argEffects σ callee position args ↔
      ∃ n v, args[n]? = some v ∧ env.program.role v ≠ .constant ∧
        e = (.callArg ⟨callee, position + n⟩, env.operandFormula σ v) := by
  induction args generalizing position with
  | nil => simp [argEffects]
  | cons v rest ih =>
    rw [argEffects, List.mem_append, ih]
    constructor
    · rintro (he | ⟨n, u, hu, hr, rfl⟩)
      · split at he
        next => simp at he
        next hr => exact ⟨0, v, rfl, by simpa using hr, by simpa using he⟩
      · exact ⟨n + 1, u, by simpa using hu, hr, by rw [Nat.add_right_comm, Nat.add_assoc]⟩
    · rintro ⟨n, u, hu, hr, rfl⟩
      cases n with
      | zero =>
        obtain rfl : v = u := by simpa using hu
        exact Or.inl (by simp [hr])
      | succ n => exact Or.inr ⟨n, u, by simpa using hu, hr, by rw [Nat.add_right_comm, Nat.add_assoc]⟩

/-- What has an effect: a store, a call, or a return of something. -/
theorem mem_effects_cases {e : Derived × Formula} : e ∈ env.effects σ i ↔
    (∃ value pointer, env.program.definition? i = some (.inst (.store value pointer)) ∧
      e ∈ env.outEffects (env.operandFormula σ value) pointer) ∨
    (∃ callee args, env.program.definition? i = some (.inst (.call callee args)) ∧
      ((∃ g, callee = some g ∧ e ∈ env.argEffects σ g 0 args) ∨
        callee.any env.context.isInputFunction ∧
          ∃ pointer ∈ args, e ∈ env.outEffects (.fixed (.on i)) pointer)) ∨
    ∃ v, env.program.definition? i = some (.inst (.ret (some v))) ∧
      e = (.returned, env.operandFormula σ v) := by
  rw [effects]
  split
  next hd => simp [hd]
  next callee args hd =>
    rw [List.mem_append]
    cases callee <;> simp [hd]
  next hd => simp [hd]
  next hstore hcall hret =>
    simp only [List.not_mem_nil, false_iff]
    rintro (⟨_, _, hd, -⟩ | ⟨_, _, hd, -⟩ | ⟨_, hd, -⟩)
    · exact hstore _ _ hd
    · exact hcall _ _ hd
    · exact hret _ hd

theorem mem_effects_returned : (.returned, f) ∈ env.effects σ i ↔
    ∃ v, env.program.definition? i = some (.inst (.ret (some v))) ∧ f = env.operandFormula σ v := by
  simp [mem_effects_cases, mem_outEffects, mem_argEffects]

theorem mem_effects_callArg {arg : CallArg} : (.callArg arg, f) ∈ env.effects σ i ↔
    ∃ args v, env.program.definition? i = some (.inst (.call (some arg.callee) args)) ∧
      args[arg.position]? = some v ∧ env.program.role v ≠ .constant ∧
      f = env.operandFormula σ v := by
  obtain ⟨callee, position⟩ := arg
  simp [mem_effects_cases, mem_outEffects, mem_argEffects]

theorem mem_effects_outArg : (.outArg v, f) ∈ env.effects σ i ↔
    (∃ value pointer, env.program.definition? i = some (.inst (.store value pointer)) ∧
      env.program.pointer? pointer = some (.param v) ∧ f = env.operandFormula σ value) ∨
    ∃ callee args pointer, env.program.definition? i = some (.inst (.call callee args)) ∧
      callee.any env.context.isInputFunction ∧ pointer ∈ args ∧
      env.program.pointer? pointer = some (.param v) ∧ f = .fixed (.on i) := by
  simp [mem_effects_cases, mem_outEffects, mem_argEffects]

/-- The facts that the blocks join into an effect of the function. -/
def effectFacts (env : Env) (m : Blocks) (d : Derived) : Set Dep :=
  {x | ∃ (b : BlockId) (s : BlockState), m[b]? = some s ∧
    ∃ before i after f, env.program.instructions b = before ++ i :: after ∧
      (d, f) ∈ env.effects (env.outlineOf before) i ∧
      x = f.eval (env.final (Finished.result env m) s)}

namespace Finished

theorem isSome_effect (h : env.Finished entry m) (hd : d.IsEffect) :
    ((result env m).effect? d).isSome ↔ (env.effectFacts m d).Nonempty := by
  have hblock {b : BlockId} {s : BlockState} (hs : m[b]? = some s) :
      (s.effect? d).isSome ↔ ∃ before i after f, env.program.instructions b = before ++ i :: after ∧
        (d, f) ∈ env.effects (env.outlineOf before) i := by
    obtain ⟨t, hcore⟩ := (h.reached.present h.valid b s hs).core
    rw [hcore.effect, hcore.shaped.effects, List.mem_map]
    constructor
    · rintro ⟨⟨d, f⟩, he, rfl⟩
      obtain ⟨before, i, after, his, he⟩ := mem_effects.1 he
      exact ⟨before, i, after, f, his, he⟩
    · rintro ⟨before, i, after, f, his, he⟩
      exact ⟨(d, f), mem_effects.2 ⟨before, i, after, his, he⟩, rfl⟩
  rw [(Blocks.joins_effect? _ _ hd).isSome]
  constructor
  · rintro ⟨b, s, hs, hsome⟩
    obtain ⟨before, i, after, f, his, he⟩ := (hblock hs).1 hsome
    exact ⟨_, b, s, hs, before, i, after, f, his, he, rfl⟩
  · rintro ⟨_, b, s, hs, before, i, after, f, his, he, -⟩
    exact ⟨b, s, hs, (hblock hs).2 ⟨before, i, after, f, his, he⟩⟩

theorem isLUB_effect (h : env.Finished entry m) (hd : d.IsEffect)
    (hknown : ∀ x ∈ env.effectFacts m d, x ≠ .unknown) {a : Dep}
    (ha : (result env m).effect? d = some a) : IsLUB (env.effectFacts m d) a := by
  obtain ⟨x, hx⟩ := (h.isSome_effect hd).1 (by simp [ha])
  refine isLUB_iff_le_iff.2 fun c => ?_
  rw [(Blocks.joins_effect? _ _ hd).le_iff a ha]
  constructor
  · rintro ⟨hc, hle⟩ y ⟨b, s, hs, before, i, after, f, his, he, rfl⟩
    have hsettle : (s.get d).settle ≤ c := by
      rw [Fact.settle_eq_sup, sup_le_iff, hd.get_eq]
      exact ⟨hle b s hs, hc⟩
    rw [h.settle_effect hs (hd.defines _) hd.isExact] at hsettle
    refine le_trans ?_ ((Fact.le_settle _).trans hsettle)
    refine Formula.eval_sum_le_iff.1 (le_refl _) f (List.mem_map.2 ⟨(d, f), ?_, rfl⟩)
    exact List.mem_filter.2 ⟨mem_effects.2 ⟨before, i, after, his, he⟩, by simp⟩
  · intro hc
    have hindependent : .independent ≤ c := (Fact.independent_le.2 (hknown x hx)).trans (hc hx)
    refine ⟨hindependent, fun b s hs => ?_⟩
    have hle : ((env.outline b).effect d).eval (env.final (result env m) s) ≤ c := by
      refine Formula.eval_sum_le_iff.2 fun f hf => ?_
      obtain ⟨⟨d', g⟩, hfilter, rfl⟩ := List.mem_map.1 hf
      obtain ⟨hg, hd'⟩ := List.mem_filter.1 hfilter
      obtain rfl : d' = d := by simpa using hd'
      obtain ⟨before, i, after, his, he⟩ := mem_effects.1 hg
      exact hc ⟨b, s, hs, before, i, after, g, his, he, rfl⟩
    rw [← hd.get_eq]
    refine (Fact.le_settle _).trans ?_
    rw [h.settle_effect hs (hd.defines _) hd.isExact, Fact.settle_eq_sup]
    exact sup_le hle hindependent

theorem reachable_iff (h : env.Finished entry m) : env.program.Reachable entry i ↔
    ∃ (b : BlockId) (s : BlockState) (before after : List ValueId), m[b]? = some s ∧
      env.program.instructions b = before ++ i :: after := by
  constructor
  · rintro ⟨b, hb, hi⟩
    obtain ⟨s, hs⟩ := h.exists_state (h.valid.mem_order.2 hb)
    obtain ⟨before, after, his⟩ := List.append_of_mem hi
    exact ⟨b, s, before, after, hs, his⟩
  · rintro ⟨b, s, before, after, hs, his⟩
    exact ⟨b, h.valid.mem_order.1 ((h.mem b).1 (mem_of_getElem? hs)), by simp [his]⟩

theorem traceable (h : env.Finished entry m) (hi : env.program.Reachable entry i) :
    env.Traceable i := by
  obtain ⟨b, s, before, after, hs, his⟩ := h.reachable_iff.1 hi
  obtain ⟨E, hneeds, -⟩ := h.comes_of_needs hs
  exact (hneeds before i after his).2

theorem mem_effectFacts (h : env.Finished entry m) {x : Dep} {P : ValueId → Prop}
    (hP : ∀ {b : BlockId} {s : BlockState} {before i after}, m[b]? = some s →
      env.program.instructions b = before ++ i :: after →
      ((∃ f, (d, f) ∈ env.effects (env.outlineOf before) i ∧
        x = f.eval (env.final (result env m) s)) ↔ P i)) :
    x ∈ env.effectFacts m d ↔ ∃ i, env.program.Reachable entry i ∧ P i := by
  constructor
  · rintro ⟨b, s, hs, before, i, after, f, his, he, hx⟩
    exact ⟨i, h.reachable_iff.2 ⟨b, s, before, after, hs, his⟩, (hP hs his).1 ⟨f, he, hx⟩⟩
  · rintro ⟨i, hi, hx⟩
    obtain ⟨b, s, before, after, hs, his⟩ := h.reachable_iff.1 hi
    obtain ⟨f, he, hx⟩ := (hP hs his).2 hx
    exact ⟨b, s, hs, before, i, after, f, his, he, hx⟩

theorem operandFact_ne_unknown (h : env.Finished entry m) (hi : env.program.Reachable entry i)
    (hv : v ∈ env.uses i) : env.operandFact (result env m) v ≠ .unknown := by
  obtain ⟨b, s, before, after, hs, his⟩ := h.reachable_iff.1 hi
  rw [← h.settle_operandFact hs his hv]
  exact Fact.settle_ne_unknown _

theorem instruction?_of_returns (h : env.Finished entry m) (hi : env.program.Reachable entry i)
    (hd : env.program.Returns i v) :
    (result env m).instruction? i = some (env.operandFact (result env m) v) := by
  obtain ⟨b, s, before, after, hs, his⟩ := h.reachable_iff.1 hi
  rw [Program.Returns] at hd
  rw [← h.fact_eq_operandFact hs his (by simp [IsElementStore, hd]) (by simp [Program.isPhi, hd])
    (by simp [uses, hd, Definition.operands, Code.operands]) (by simp [rule, hd])]
  exact h.instruction?_eq_fact hs (by simp [his])

theorem mem_returnedFacts (h : env.Finished entry m) {x : Dep} :
    x ∈ env.effectFacts m .returned ↔ ∃ i, env.program.Reachable entry i ∧
      ∃ v, env.program.Returns i v ∧ x = env.operandFact (result env m) v := by
  refine h.mem_effectFacts fun hs his => ?_
  simp only [mem_effects_returned]
  constructor
  · rintro ⟨_, ⟨v, hd, rfl⟩, rfl⟩
    exact ⟨v, hd, eval_operandFormula ..⟩
  · rintro ⟨v, hd, rfl⟩
    exact ⟨_, ⟨v, hd, rfl⟩, (eval_operandFormula ..).symm⟩

theorem mem_callArgFacts (h : env.Finished entry m) {arg : CallArg} {x : Dep} :
    x ∈ env.effectFacts m (.callArg arg) ↔ ∃ i, env.program.Reachable entry i ∧
      ∃ v, env.program.Passes arg i v ∧ x = env.operandFact (result env m) v := by
  refine h.mem_effectFacts fun hs his => ?_
  simp only [mem_effects_callArg]
  constructor
  · rintro ⟨_, ⟨args, v, hd, hv, hr, rfl⟩, rfl⟩
    exact ⟨v, ⟨args, hd, hv, hr⟩, eval_operandFormula ..⟩
  · rintro ⟨v, ⟨args, hd, hv, hr⟩, rfl⟩
    exact ⟨_, ⟨args, v, hd, hv, hr, rfl⟩, (eval_operandFormula ..).symm⟩

theorem mem_outArgFacts (h : env.Finished entry m) {x : Dep} :
    x ∈ env.effectFacts m (.outArg v) ↔ ∃ i, env.program.Reachable entry i ∧
      env.program.role v = .argument ∧
        ((∃ value, env.program.StoresAt v i value ∧ x = env.operandFact (result env m) value) ∨
          env.Fills v i ∧ x = .on i) := by
  refine h.mem_effectFacts fun {b s before i after} hs his => ?_
  have hi : env.program.Reachable entry i := h.reachable_iff.2 ⟨b, s, before, after, hs, his⟩
  have hpointer {pointer : ValueId} (hp : pointer ∈ env.addresses i) :
      env.program.pointer? pointer = some (.param v) ↔ _ :=
    Program.pointer?_eq_param_iff (h.traceable hi pointer hp)
  simp only [mem_effects_outArg]
  constructor
  · rintro ⟨_, ⟨value, pointer, hd, hp, rfl⟩ | ⟨callee, args, pointer, hd, hinput, hmem, hp, rfl⟩, rfl⟩
    · obtain ⟨hroot, hr⟩ := (hpointer (by simp [addresses, hd])).1 hp
      exact ⟨hr, .inl ⟨value, ⟨pointer, hd, hroot⟩, eval_operandFormula ..⟩⟩
    · obtain ⟨hroot, hr⟩ := (hpointer (by simp [addresses, hd, hinput, hmem])).1 hp
      obtain ⟨g, rfl, hinput⟩ := (Option.any_eq_true _ _).1 hinput
      exact ⟨hr, .inr ⟨⟨g, args, pointer, hd, hinput, hmem, hroot⟩, rfl⟩⟩
  · rintro ⟨hr, ⟨value, ⟨pointer, hd, hroot⟩, rfl⟩ | ⟨⟨g, args, pointer, hd, hinput, hmem, hroot⟩, rfl⟩⟩
    · refine ⟨_, .inl ⟨value, pointer, hd, ?_, rfl⟩, (eval_operandFormula ..).symm⟩
      exact (hpointer (by simp [addresses, hd])).2 ⟨hroot, hr⟩
    · refine ⟨_, .inr ⟨some g, args, pointer, hd, by simpa using hinput, hmem, ?_, rfl⟩, rfl⟩
      exact (hpointer (by simp [addresses, hd, hinput, hmem])).2 ⟨hroot, hr⟩

end Finished

/-- The facts on arguments and the return are those of the instructions concerned. -/
structure EffectsAgree (env : Env) (r : Procedure) (entry : BlockId) : Prop where
  isSome_returned : r.returned.isSome ↔
    ∃ i, env.program.Reachable entry i ∧ ∃ v, env.program.Returns i v
  returned : ∀ a, r.returned = some a → IsLUB {x | ∃ i, env.program.Reachable entry i ∧
    ∃ v, env.program.Returns i v ∧ r.instruction? i = some x} a
  mem_callArgs : ∀ arg, arg ∈ r.callArgs ↔
    ∃ i, env.program.Reachable entry i ∧ ∃ v, env.program.Passes arg i v
  callArgs : ∀ arg a, r.callArgs[arg]? = some a → IsLUB {x | ∃ i, env.program.Reachable entry i ∧
    ∃ v, env.program.Passes arg i v ∧ x = env.operandFact r v} a
  mem_outArgs : ∀ v, v ∈ r.outArgs ↔ env.program.role v = .argument ∧
    ∃ i, env.program.Reachable entry i ∧ ((∃ value, env.program.StoresAt v i value) ∨ env.Fills v i)
  outArgs : ∀ v a, r.outArgs[v]? = some a → IsLUB {x | ∃ i, env.program.Reachable entry i ∧
    ((∃ value, env.program.StoresAt v i value ∧ x = env.operandFact r value) ∨
      env.Fills v i ∧ x = .on i)} a

theorem Finished.effectsAgree (h : env.Finished entry m) :
    env.EffectsAgree (result env m) entry := by
  refine ⟨?_, fun a ha => ?_, fun arg => ?_, fun arg a ha => ?_, fun v => ?_, fun v a ha => ?_⟩
  · refine (h.isSome_effect (d := .returned) trivial).trans ?_
    simp only [Set.Nonempty, h.mem_returnedFacts]
    grind
  · have hset : {x | ∃ i, env.program.Reachable entry i ∧ ∃ v, env.program.Returns i v ∧
        (result env m).instruction? i = some x} = env.effectFacts m .returned := by
      ext x
      rw [h.mem_returnedFacts]
      refine exists_congr fun i => and_congr_right fun hi => exists_congr fun v =>
        and_congr_right fun hd => ?_
      rw [h.instruction?_of_returns hi hd, Option.some_inj, eq_comm]
    rw [hset]
    refine h.isLUB_effect (d := .returned) trivial (fun x hx => ?_) ha
    obtain ⟨i, hi, v, hd, rfl⟩ := h.mem_returnedFacts.1 hx
    rw [Program.Returns] at hd
    exact h.operandFact_ne_unknown hi (by simp [uses, hd, Definition.operands, Code.operands])
  · rw [Std.ExtTreeMap.mem_iff_isSome_getElem?]
    refine (h.isSome_effect (d := .callArg arg) trivial).trans ?_
    simp only [Set.Nonempty, h.mem_callArgFacts]
    grind
  · have hset : {x | ∃ i, env.program.Reachable entry i ∧ ∃ v, env.program.Passes arg i v ∧
        x = env.operandFact (result env m) v} = env.effectFacts m (.callArg arg) :=
      Set.ext fun x => h.mem_callArgFacts.symm
    rw [hset]
    refine h.isLUB_effect (d := .callArg arg) trivial (fun x hx => ?_) ha
    obtain ⟨i, hi, v, ⟨args, hd, hv, -⟩, rfl⟩ := h.mem_callArgFacts.1 hx
    refine h.operandFact_ne_unknown hi ?_
    simpa [uses, hd, Definition.operands, Code.operands] using List.mem_of_getElem? hv
  · rw [Std.ExtTreeMap.mem_iff_isSome_getElem?]
    refine (h.isSome_effect (d := .outArg v) trivial).trans ?_
    simp only [Set.Nonempty, h.mem_outArgFacts]
    grind
  · obtain ⟨x, hx⟩ := (h.isSome_effect (d := .outArg v) trivial).1 (Option.isSome_of_mem ha)
    obtain ⟨_, -, hr, -⟩ := h.mem_outArgFacts.1 hx
    have hset : {x | ∃ i, env.program.Reachable entry i ∧
        ((∃ value, env.program.StoresAt v i value ∧ x = env.operandFact (result env m) value) ∨
          env.Fills v i ∧ x = .on i)} = env.effectFacts m (.outArg v) := by
      ext x
      simp only [h.mem_outArgFacts, hr, true_and, Set.mem_ofPred_eq]
    rw [hset]
    refine h.isLUB_effect (d := .outArg v) trivial (fun x hx => ?_) ha
    obtain ⟨i, hi, -, ⟨value, ⟨pointer, hd, -⟩, rfl⟩ | ⟨-, rfl⟩⟩ := h.mem_outArgFacts.1 hx
    · exact h.operandFact_ne_unknown hi (by simp [uses, hd, mem_storeUses])
    · exact Fact.dependent_ne_unknown _

/-- What a function returns, passes to others and writes through its parameters. Each of these facts
is the least one above those of the instructions concerned, and it is there if there are any such
instructions. -/
theorem effects_agree_with_instructions {text : List Char} {env : Env} {rounds : Nat} {r : Procedure}
    {entry : BlockId} (hparse : Source.parse text = .ok env.program)
    (hcontext : env.context.IsOf env.program)
    (hentry : env.program.entryBlock? env.context.func = some entry)
    (hrun : env.run rounds = .ok r) : env.EffectsAgree r entry := by
  obtain ⟨entry', m, hfin, rfl⟩ := finished_of_run (Source.wellFormed_of_parse hparse) hcontext hrun
  obtain rfl : entry = entry' := Option.some.inj (hentry.symm.trans hfin.valid.entryBlock)
  exact hfin.effectsAgree

end Env

/-- The loop stores through a parameter, which the result tells of. -/
theorem fill_effects_agree :
    ∃ r, fillEnv.run 8 = .ok r ∧ fillEnv.EffectsAgree r 0 ∧ 3 ∈ r.outArgs := by
  obtain ⟨r, hr⟩ := fillEnv_runs
  obtain ⟨hreach, -⟩ := fillProgram_reaches_loop
  obtain ⟨hentry, hmem, hrole, hstore⟩ : fillProgram.entryBlock? 1 = some 0 ∧
      12 ∈ fillProgram.instructions 1 ∧ fillProgram.role 3 = .argument ∧
      fillProgram.definition? 12 = some (.inst (.store 9 3)) := by decide +kernel
  have hagree := Env.effects_agree_with_instructions parse_fillText fillEnv_isOf hentry hr
  refine ⟨r, hr, hagree, (hagree.mem_outArgs 3).2 ⟨hrole, 12, ⟨1, hreach, hmem⟩, .inl ?_⟩⟩
  exact ⟨9, 3, hstore, .self 3⟩

end InputFlow
