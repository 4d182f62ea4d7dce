import InputFlow.Proofs.Block.TraversalOrder
import InputFlow.Proofs.Procedure.Schedule

namespace InputFlow

section Except

variable {α β ε : Type} {e : ε}

theorem bind_eq_error {x : Except ε α} {f : α → Except ε β} :
    (x >>= f) = .error e ↔ x = .error e ∨ ∃ a, x = .ok a ∧ f a = .error e := by
  cases x <;> simp [bind, Except.bind]

/-- A fold stops at some element, after those before it have been passed. -/
theorem exists_of_foldlM_error {f : β → α → Except ε β} {xs : List α} {a : β}
    (h : xs.foldlM f a = .error e) :
    ∃ l x r a', xs = l ++ x :: r ∧ l.foldlM f a = .ok a' ∧ f a' x = .error e := by
  induction xs generalizing a with
  | nil => cases h
  | cons x xs ih =>
    rw [List.foldlM_cons, bind_eq_error] at h
    rcases h with hx | ⟨a₁, hx, h⟩
    · exact ⟨[], x, xs, a, rfl, rfl, hx⟩
    · obtain ⟨l, y, r, a', rfl, hl, hy⟩ := ih h
      exact ⟨x :: l, y, r, a', rfl, by rw [List.foldlM_cons, hx]; exact hl, hy⟩

end Except

namespace Env

variable {env : Env} {entry b : BlockId} {m : Blocks} {passed : List BlockId} {e : AnalysisError}
  {rounds : Nat}

/-- The analysis stops at a block that is entered. -/
def StopsAtEntry (env : Env) (entry : BlockId) (e : AnalysisError) : Prop :=
  ∃ (m : Blocks) (b : BlockId) (E : FactMap) (s : BlockState), env.Reached entry m ∧ b ∈ env.flow.order ∧
    env.Sent entry m b E ∧ env.analyze.run { block := b, entry := E } = .error e s

/-- The analysis gives up on the blocks of a cycle, which all have been entered. -/
def StopsSettling (env : Env) (entry : BlockId) (rounds : Nat) (C : Component) (e : AnalysisError) :
    Prop :=
  ∃ passed m, Stage env entry passed C.blocks m ∧ env.flow.Ready entry passed C ∧ C.isCyclic ∧
    env.settle env.flow env.initial rounds C.blocks (stepLimit rounds C.blocks.length)
      (.ofList (C.blocks.filterMap env.flow.index?)) m = .error e

theorem enter_eq_error {initial : FactMap} {flow : Flow}
    (h : env.enter flow initial m b = .error e) :
    ∃ s, env.analyze.run { block := b, entry := (exits flow m b).headD initial } = .error e s := by
  simp only [enter] at h
  split at h
  · cases h
  next hr => exact ⟨_, by rw [hr, Except.error.inj h]⟩

theorem settle_eq_error {flow : Flow} {initial : FactMap} {members : List BlockId} {steps : Nat}
    {pending : Std.ExtTreeSet Nat}
    (h : env.settle flow initial rounds members steps pending m = .error e) :
    e = .diverged env.context.func rounds := by
  induction steps generalizing pending m with
  | zero =>
    rw [settle] at h
    split at h
    · cases h
    · exact (Except.error.inj h).symm
  | succ steps ih =>
    rw [settle] at h
    split at h
    · cases h
    · dsimp only at h
      split at h
      · exact ih h
      · exact ih h

theorem Stage.component_eq_error (hv : env.Valid entry) (h : Stage env entry passed [] m) {C : Component}
    (hC : env.flow.Ready entry passed C)
    (hcomponent : env.component env.flow env.initial rounds m C = .error e) :
    env.StopsSettling entry rounds C e ∨ env.StopsAtEntry entry e := by
  rw [Env.component, bind_eq_error] at hcomponent
  rcases hcomponent with henter | ⟨m₁, henter, hrest⟩
  · obtain ⟨bs, b, rest, m', hsplit, hbs, hb⟩ := exists_of_foldlM_error henter
    have hstage := h.enterAll hv hC hsplit hbs
    obtain ⟨s, hs⟩ := enter_eq_error hb
    exact .inr ⟨m', b, _, s, hstage.reached, hC.reachable b (by simp [hsplit]),
      hstage.sent (hC.start bs b rest hsplit), hs⟩
  · left
    split at hrest
    next hcyclic =>
      rcases bind_eq_error.1 hrest with hsettle | ⟨m₂, -, hpure⟩
      · have hstage := h.enterAll hv hC (List.append_nil _).symm henter
        exact ⟨passed, m₁, hstage, hC, hcyclic, hsettle⟩
      · cases hpure
    · split at hrest <;> cases hrest

/-- Why the analysis of a function with a body stops. -/
theorem stops_of_run (hv : env.Valid entry) (hrun : env.run rounds = .error e) :
    (∃ C ∈ env.flow.components, env.StopsSettling entry rounds C e) ∨ env.StopsAtEntry entry e := by
  rw [run_of_entry hv.entryBlock, bind_eq_error] at hrun
  rcases hrun with hfold | ⟨m, -, hpure⟩
  · obtain ⟨Cs, C, rest, m', hsplit, hCs, hC⟩ := exists_of_foldlM_error hfold
    have hstage := stage_of_components hv hsplit hCs
    refine (hstage.component_eq_error hv (hv.startsAt.ready hsplit) hC).imp_left fun h => ?_
    exact ⟨C, by simp [hsplit], h⟩
  · cases hpure

theorem run_eq_error (hv : env.Valid entry) (hrun : env.run rounds = .error e) :
    e = .diverged env.context.func rounds ∨ env.StopsAtEntry entry e := by
  refine (stops_of_run hv hrun).imp_left ?_
  rintro ⟨C, -, passed, m, -, -, -, hsettle⟩
  exact settle_eq_error hsettle

end Env

end InputFlow
