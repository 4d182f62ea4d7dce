import Mathlib.Tactic.Ring
import InputFlow.Proofs.Procedure.Sources
import InputFlow.Proofs.Procedure.Stopping

namespace InputFlow

/-- How far the facts of the first `n` values at the end of a block can still go up. -/
def BlockState.slack (n : Nat) (s : BlockState) : Nat :=
  ((List.range n).map fun v => n + 2 - (s.values.fact v).height).sum

namespace BlockState

variable {n : Nat} {s t : BlockState}

theorem slack_le_mul (n : Nat) (s : BlockState) : s.slack n ≤ n * (n + 2) := by
  have hsum := List.sum_le_card_nsmul ((List.range n).map fun v => n + 2 - (s.values.fact v).height)
    (n + 2) (List.forall_mem_map.2 fun v _ => Nat.sub_le _ _)
  simpa [slack] using hsum

theorem slack_le (h : ∀ v, s.values.fact v ≤ t.values.fact v) : t.slack n ≤ s.slack n :=
  List.sum_le_sum fun v _ => Nat.sub_le_sub_left (Fact.height_mono (h v)) (n + 2)

theorem slack_lt (h : ∀ v, s.values.fact v ≤ t.values.fact v) {v : ValueId} (hv : v < n)
    (hne : s.values.fact v ≠ t.values.fact v) (hheight : (t.values.fact v).height ≤ n + 2) :
    t.slack n < s.slack n := by
  have hlt := Fact.height_lt (lt_of_le_of_ne (h v) hne)
  refine List.sum_lt_sum _ _ (fun u _ => ?_) ⟨v, List.mem_range.2 hv, ?_⟩
  · exact Nat.sub_le_sub_left (Fact.height_mono (h u)) (n + 2)
  · omega

end BlockState

def Blocks.slack (n : Nat) (members : List BlockId) (m : Blocks) : Nat :=
  (members.map fun b => (m.state b).slack n).sum

namespace Blocks

variable {n : Nat} {members : List BlockId} {m : Blocks} {b : BlockId} {s t : BlockState}

theorem state_insert (m : Blocks) (b c : BlockId) (s : BlockState) :
    state (m.insert b s) c = if b = c then s else m.state c := by
  rw [state, getElem?_insert]
  split <;> rfl

theorem slack_le_mul (n : Nat) (members : List BlockId) (m : Blocks) :
    m.slack n members ≤ members.length * (n * (n + 2)) := by
  have hsum := List.sum_le_card_nsmul (members.map fun b => (m.state b).slack n) (n * (n + 2))
    (List.forall_mem_map.2 fun b _ => BlockState.slack_le_mul n _)
  simpa [slack] using hsum

theorem slack_insert_le (hs : m[b]? = some s) (ht : t.slack n ≤ s.slack n) :
    slack n members (m.insert b t) ≤ m.slack n members := by
  refine List.sum_le_sum fun c _ => ?_
  rw [state_insert]
  split
  next hbc => rwa [← hbc, state_eq hs]
  next => exact le_refl _

theorem slack_insert_lt (hb : b ∈ members) (hs : m[b]? = some s) (ht : t.slack n < s.slack n) :
    slack n members (m.insert b t) < m.slack n members := by
  refine List.sum_lt_sum _ _ (fun c _ => ?_) ⟨b, hb, ?_⟩
  · rw [state_insert]
    split
    next hbc => exact hbc ▸ state_eq hs ▸ ht.le
    next => exact le_refl _
  · rwa [state_insert, if_pos rfl, state_eq hs]

end Blocks

/-- Steps that agree on what they return when they do lead to one result. -/
theorem foldlM_ok_unique {α β ε : Type} {f g : β → α → Except ε β}
    (h : ∀ a x c c', f a x = .ok c → g a x = .ok c' → c = c') {xs : List α} {a c c' : β}
    (hf : xs.foldlM f a = .ok c) (hg : xs.foldlM g a = .ok c') : c = c' := by
  induction xs generalizing a with
  | nil => exact (pure_eq_ok.1 hf).symm.trans (pure_eq_ok.1 hg)
  | cons x xs ih =>
    rw [List.foldlM_cons, bind_eq_ok] at hf hg
    obtain ⟨d, hd, hf⟩ := hf
    obtain ⟨d', hd', hg⟩ := hg
    obtain rfl := h a x d d' hd hd'
    exact ih hf hg

namespace Env

variable {env : Env} {entry b : BlockId} {m m' : Blocks} {passed current : List BlockId}
  {pending : Std.ExtTreeSet Nat} {rounds rounds' : Nat}

theorem Pending.size_le (h : env.Pending current pending m) : pending.size ≤ current.length := by
  have hmem : ∀ i ∈ pending, i ∈ Std.ExtTreeSet.ofList (current.filterMap env.flow.index?) := by
    intro i hi
    rw [Std.ExtTreeSet.mem_ofList, List.contains_iff_mem, List.mem_filterMap]
    exact h.places i hi
  have hsize := Fact.size_mono (α := Nat) hmem
  have hplaces : (Std.ExtTreeSet.ofList (current.filterMap env.flow.index?)).size ≤
      (current.filterMap env.flow.index?).length := Std.ExtTreeSet.size_ofList_le
  have hlength := List.length_filterMap_le env.flow.index? current
  omega

def turnsLeft (env : Env) (members : List BlockId) (pending : Std.ExtTreeSet Nat) (m : Blocks) : Nat :=
  pending.size + members.length * m.slack env.program.values.size members

/-- A revision that reports a change at the end of its block has raised a fact there, and there are only
so many facts that can be raised. -/
theorem Stage.slack_reviseBlock (hv : env.Valid entry) (hstage : Stage env entry passed current m)
    (hb : b ∈ current) :
    let r := env.reviseBlock env.flow env.initial false m b
    env.Reached entry r.1 →
      r.1.slack env.program.values.size current ≤ m.slack env.program.values.size current ∧
      (r.2.exitChanged → r.1.slack env.program.values.size current <
        m.slack env.program.values.size current) := by
  intro r hreached
  obtain ⟨s, hs⟩ := hstage.exists_state (Or.inr hb)
  obtain ⟨t, D, -, hD, hm, hexit, hle⟩ := reviseBlock_eq hv hs (hstage.isOpen b hb s hs) false
  obtain rfl := hD rfl
  have hr : r.1 = m.insert b t := hm
  have ht : r.1[b]? = some t := by rw [hr, Blocks.getElem?_insert, if_pos rfl]
  constructor
  · rw [hr]
    exact Blocks.slack_insert_le hs (BlockState.slack_le hle)
  · intro hchanged
    obtain ⟨v, hne⟩ : ∃ v, s.values.fact v ≠ t.values.fact v := by
      by_contra hall
      simp only [not_exists, not_not] at hall
      have hsame : r.2.exitChanged = false := hexit.2 fun v => (hall v).symm
      simp [hsame] at hchanged
    have hvalue : v ∈ t.values := by
      by_contra hnone
      have hunknown := Facts.fact_of_not_mem hnone
      exact hne (le_antisymm (hle v) (hunknown ▸ Fact.unknown_le _))
    have hlt := hreached.lt_of_mem_values hv ht hvalue
    have hheight := hreached.height_le hv ht v
    rw [hr]
    exact Blocks.slack_insert_lt hb hs (BlockState.slack_lt hle hlt hne hheight)

/-- Every turn of the loop uses up one of those that are left. -/
theorem Pending.turnsLeft_lt (hv : env.Valid entry) (hstage : Stage env entry passed current m)
    (h : env.Pending current pending m) (hreachable : ∀ b ∈ current, b ∈ env.flow.order)
    {place : Nat} (hplace : place ∈ pending) (hb : env.flow.order[place]? = some b) :
    let r := env.reviseBlock env.flow env.initial false m b
    let again := if r.2.exitChanged then followers env.flow current b else []
    env.turnsLeft current ((pending.erase place).insertMany again) r.1 <
      env.turnsLeft current pending m := by
  intro r again
  obtain ⟨hstage', hpending⟩ := h.revise hv hstage hreachable hplace hb
  obtain ⟨c, hc, hindex⟩ := h.places place hplace
  obtain rfl := Option.some.inj (hb.symm.trans (getElem?_of_index? hindex))
  have hslack := hstage.slack_reviseBlock hv hc hstage'.reached
  have hsize : 0 < pending.size := Nat.pos_of_ne_zero fun hzero =>
    Std.ExtTreeSet.not_mem_empty (Std.ExtTreeSet.eq_empty_iff_size_eq_zero.2 hzero ▸ hplace)
  rw [turnsLeft, turnsLeft]
  cases hchanged : r.2.exitChanged with
  | false =>
    have herase : ((pending.erase place).insertMany again).size = pending.size - 1 := by
      simp [again, hchanged, Std.ExtTreeSet.size_erase, hplace]
    have hle : r.1.slack env.program.values.size current ≤ m.slack env.program.values.size current :=
      hslack.1
    have hmul := Nat.mul_le_mul_left current.length hle
    omega
  | true =>
    -- the drop in slack pays for all blocks of the cycle being pending again
    have hbound : ((pending.erase place).insertMany again).size ≤ current.length := hpending.size_le
    have hlt : r.1.slack env.program.values.size current < m.slack env.program.values.size current :=
      hslack.2 hchanged
    have hmul := Nat.mul_le_mul_left current.length hlt
    rw [Nat.mul_succ] at hmul
    omega

/-- A loop with enough turns settles, whatever the limit that it would report. -/
theorem settle_ok (rounds : Nat) (hv : env.Valid entry) (hstage : Stage env entry passed current m)
    (h : env.Pending current pending m) (hreachable : ∀ b ∈ current, b ∈ env.flow.order) {steps : Nat}
    (hsteps : env.turnsLeft current pending m ≤ steps) :
    ∃ m', env.settle env.flow env.initial rounds current steps pending m = .ok m' := by
  induction steps generalizing pending m with
  | zero =>
    have hsize : pending.size = 0 := by
      rw [turnsLeft] at hsteps
      omega
    exact ⟨m, Std.ExtTreeSet.eq_empty_iff_size_eq_zero.2 hsize ▸ settle_empty⟩
  | succ steps ih =>
    by_cases hempty : pending = ∅
    · exact ⟨m, hempty ▸ settle_empty⟩
    · obtain ⟨place, b, hplace, hb, hturn⟩ := h.exists_turn hempty
      obtain ⟨hstage', hpending⟩ := h.revise hv hstage hreachable hplace hb
      have hlt := h.turnsLeft_lt hv hstage hreachable hplace hb
      rw [hturn]
      exact ih hstage' hpending (Nat.le_of_lt_succ (Nat.lt_of_lt_of_le hlt hsteps))

/-- A number of rounds in which the blocks of a component settle. -/
def roundsFor (env : Env) (C : Component) : Nat :=
  1 + C.blocks.length * env.program.values.size * (env.program.values.size + 2)

theorem turnsLeft_le {C : Component} (h : env.Pending C.blocks pending m) :
    env.turnsLeft C.blocks pending m ≤ env.roundsFor C * C.blocks.length := by
  have hslack := Nat.mul_le_mul_left C.blocks.length (m.slack_le_mul env.program.values.size C.blocks)
  refine (Nat.add_le_add h.size_le hslack).trans (le_of_eq ?_)
  rw [roundsFor]
  ring

theorem not_stopsSettling (hv : env.Valid entry) {C : Component} {e : AnalysisError}
    (hrounds : C.isCyclic → env.roundsFor C ≤ rounds ∧
      env.roundsFor C * C.blocks.length < UInt64.size) : ¬ env.StopsSettling entry rounds C e := by
  rintro ⟨passed, m, hstage, hready, hcyclic, herror⟩
  obtain ⟨hle, hfits⟩ := hrounds hcyclic
  have hpending := pending_start (m := m) hready.reachable
  have hsteps : env.turnsLeft C.blocks (.ofList (C.blocks.filterMap env.flow.index?)) m ≤
      stepLimit rounds C.blocks.length := by
    refine (turnsLeft_le hpending).trans (Nat.le_min.2 ⟨Nat.mul_le_mul_right _ hle, ?_⟩)
    exact Nat.le_sub_one_of_lt hfits
  obtain ⟨m', hok⟩ := settle_ok rounds hv hstage hpending hready.reachable hsteps
  rw [hok] at herror
  cases herror

/-- The number of turns does not matter once the blocks have settled. -/
theorem settle_unique {flow : Flow} {initial : FactMap} {members : List BlockId} {steps steps' : Nat}
    {m₁ m₂ : Blocks} (h : env.settle flow initial rounds members steps pending m = .ok m₁)
    (h' : env.settle flow initial rounds' members steps' pending m = .ok m₂) : m₁ = m₂ := by
  induction steps generalizing steps' pending m with
  | zero =>
    obtain ⟨rfl, rfl⟩ := settle_zero_eq_ok.1 h
    exact Except.ok.inj (settle_empty.symm.trans h')
  | succ steps ih =>
    cases steps' with
    | zero =>
      obtain ⟨rfl, rfl⟩ := settle_zero_eq_ok.1 h'
      exact Except.ok.inj (h.symm.trans settle_empty)
    | succ steps' =>
      rw [settle] at h h'
      cases hhead : pending.toList.head? with
      | none =>
        rw [hhead] at h h'
        exact Except.ok.inj (h.symm.trans h')
      | some place =>
        cases horder : flow.order[place]? with
        | none =>
          simp only [hhead, horder] at h h'
          exact ih h h'
        | some b =>
          simp only [hhead, horder] at h h'
          exact ih h h'

theorem component_unique {flow : Flow} {initial : FactMap} {C : Component} {m₁ m₂ : Blocks}
    (h : env.component flow initial rounds m C = .ok m₁)
    (h' : env.component flow initial rounds' m C = .ok m₂) : m₁ = m₂ := by
  rw [component, bind_eq_ok] at h h'
  obtain ⟨n, henter, h⟩ := h
  obtain ⟨n', henter', h'⟩ := h'
  obtain rfl := Except.ok.inj (henter.symm.trans henter')
  split at h
  next hcyclic =>
    rw [if_pos hcyclic] at h'
    obtain ⟨k, hsettle, h⟩ := bind_eq_ok.1 h
    obtain ⟨k', hsettle', h'⟩ := bind_eq_ok.1 h'
    obtain rfl := settle_unique hsettle hsettle'
    exact Except.ok.inj (h.symm.trans h')
  next hcyclic =>
    rw [if_neg hcyclic] at h'
    exact Except.ok.inj (h.symm.trans h')

theorem run_unique {r r' : Procedure} (h : env.run rounds = .ok r) (h' : env.run rounds' = .ok r') :
    r = r' := by
  obtain ⟨_, m, -, hfold, rfl⟩ := run_eq_ok.1 h
  obtain ⟨_, m', -, hfold', rfl⟩ := run_eq_ok.1 h'
  rw [foldlM_ok_unique (fun _ _ _ _ => component_unique) hfold hfold']

/-- The blocks of every cycle settle within a number of rounds that the program alone gives. The
limit on the number of revisions decides whether there is a result, and nothing else about it. -/
theorem settling_converges {text : List Char} {env : Env} (hparse : Source.parse text = .ok env.program)
    (hcontext : env.context.IsOf env.program) :
    (∀ rounds, (∀ C ∈ env.flow.components, C.isCyclic → env.roundsFor C ≤ rounds ∧
        env.roundsFor C * C.blocks.length < UInt64.size) →
      ∀ f k, env.run rounds ≠ .error (.diverged f k)) ∧
    ∀ rounds rounds' r r', env.run rounds = .ok r → env.run rounds' = .ok r' → r = r' := by
  refine ⟨fun rounds hrounds f k hrun => ?_, fun _ _ _ _ => run_unique⟩
  cases hentry : env.program.entryBlock? env.context.func with
  | none =>
    rw [run_of_no_entry hentry] at hrun
    cases hrun
  | some entry =>
    have hv : env.Valid entry := ⟨Source.wellFormed_of_parse hparse, hcontext, hentry⟩
    rcases stops_of_run hv hrun with ⟨C, hC, hstops⟩ | ⟨m, b, E, s, -, -, -, hstops⟩
    · exact not_stopsSettling hv (hrounds C hC) hstops
    · cases mayStop_of_analyze hstops

end Env

theorem fill_settles : ∃ r, fillEnv.run 8 = .ok r ∧ fillEnv.run 289 = .ok r ∧
    (∀ f k, fillEnv.run 289 ≠ .error (.diverged f k)) ∧
    ∃ C ∈ fillEnv.flow.components, C.isCyclic ∧ fillEnv.roundsFor C = 289 := by
  obtain ⟨hconverges, hunique⟩ := Env.settling_converges parse_fillText fillEnv_isOf
  obtain ⟨hbound, hcyclic, hsome⟩ :
      (∀ C ∈ fillEnv.flow.components, C.isCyclic → fillEnv.roundsFor C ≤ 289 ∧
        fillEnv.roundsFor C * C.blocks.length < UInt64.size) ∧
      (∃ C ∈ fillEnv.flow.components, C.isCyclic ∧ fillEnv.roundsFor C = 289) ∧
      (fillEnv.run 289).toOption.isSome := by decide +kernel
  obtain ⟨r, hrun⟩ := fillEnv_runs
  obtain ⟨r', hrun'⟩ := Option.isSome_iff_exists.1 hsome
  have hrun' := eq_ok_of_toOption hrun'
  obtain rfl := hunique 8 289 r r' hrun hrun'
  exact ⟨r, hrun, hrun', hconverges 289 hbound, hcyclic⟩

end InputFlow
