import InputFlow.Proofs.Block.Changes
import InputFlow.Proofs.Block.Steps

namespace InputFlow

/-- No value that stands for storage is a result. -/
theorem Program.ne_of_isStorage {p : Program} {v i : ValueId} (h : p.isStorage v) (hi : p.isResult i) :
    v ≠ i := by
  intro hv
  rw [← hv, isResult_of_isStorage h] at hi
  exact absurd hi (by simp)

namespace BlockState

def Has (s : BlockState) : Derived → Prop
  | .inst i => i ∈ s.instructions
  | .slot v => v ∈ s.slots
  | d => (s.effect? d).isSome

theorem setInstruction_eq (s : BlockState) (p : Program) (i : ValueId) (fact : Dep) :
    s.setInstruction p i fact = { s with
      instructions := s.instructions.insert i fact
      values := if p.isResult i then s.values.insert i fact else s.values
      defined := if p.isResult i then s.defined.insert i else s.defined } := by
  rw [setInstruction, Program.isResult]
  split <;> rfl

end BlockState

/-- The places where the facts of a block stand agree, for what the block has written and for the
instructions in `K`. What counts as derived is there, or is the fact of an instruction. -/
structure Coherent (env : Env) (b : BlockId) (K : ValueId → Prop) (s : BlockState) : Prop where
  block : s.block = b
  isOpen : s.isFinal = false
  users : ∀ k i, .inst i ∈ s.derivations.of k →
    i ∈ env.program.instructions b ∧ ¬ env.program.isAlloca i
  derived : ∀ k d, d ∈ s.derivations.of k → (∀ i, d ≠ .inst i) → s.Has d
  instructions : ∀ i ∈ s.instructions, i ∈ env.program.instructions b
  allocas : ∀ i ∈ s.instructions, env.program.isAlloca i → s.get (.inst i) ≠ .unknown
  storage : ∀ v ∈ s.slots, env.program.isStorage v
  slots : ∀ v ∈ s.slots, v ∈ s.defined ∧ s.values[v]? = some (s.get (.slot v))
  given : ∀ i, K i → i ∈ s.instructions
  results : ∀ i, K i → env.program.isResult i →
    i ∈ s.defined ∧ s.values[i]? = some (s.get (.inst i))

abbrev Complete (env : Env) (b : BlockId) (s : BlockState) : Prop :=
  Coherent env b (· ∈ env.program.instructions b) s

namespace Coherent

variable {env : Env} {b : BlockId} {K : ValueId → Prop} {s : BlockState} {d : Derived}
  {k v i : ValueId} {a fact : Dep} {keys : List ValueId}

theorem start (env : Env) (b : BlockId) (E : FactMap) :
    Coherent env b (fun _ => False) { block := b, entry := E } where
  block := rfl
  isOpen := rfl
  users := by simp
  derived := by simp
  instructions := by simp
  allocas := by simp
  storage := by simp
  slots := by simp
  given := by simp
  results := by simp

/-- Only the derivations change, and what is new there is as it must be. -/
theorem withDerivations (h : Coherent env b K s) {D : Derivations}
    (husers : ∀ k i, .inst i ∈ D.of k → i ∈ env.program.instructions b ∧ ¬ env.program.isAlloca i)
    (hderived : ∀ k d, d ∈ D.of k → (∀ i, d ≠ .inst i) → s.Has d) :
    Coherent env b K { s with derivations := D } :=
  { h with users := husers, derived := hderived }

section Change

theorem read (h : Coherent env b K s) (hi : i ∈ env.program.instructions b)
    (ha : ¬ env.program.isAlloca i) : Coherent env b K (s.record keys (.inst i)) := by
  apply h.withDerivations
  · intro k j hj
    rcases Derivations.mem_of_recordAll.1 hj with ⟨-, hj⟩ | hj
    · rw [Derived.inst.inj hj]
      exact ⟨hi, ha⟩
    · exact h.users k j hj
  · intro k d hd hne
    rcases Derivations.mem_of_recordAll.1 hd with ⟨-, hd⟩ | hd
    · exact absurd hd (hne i)
    · exact h.derived k d hd hne

/-- Putting a fact into a slot keeps all others, and the slot may come to count as derived. -/
theorem putSlot (h : Coherent env b K s) (hv : env.program.isStorage v) {D : Derivations}
    (hD : ∀ k d, d ∈ D.of k → d = .slot v ∨ d ∈ s.derivations.of k) (state : SlotState) :
    Coherent env b K (({ s with derivations := D } : BlockState).putSlot v state) := by
  have hvalue {u : ValueId} (hu : v ≠ u) :
      (s.values.insert v state.fact)[u]? = s.values[u]? := by
    rw [Facts.getElem?_insert, if_neg hu]
  refine { h with users := ?_, derived := ?_, storage := ?_, slots := ?_, results := ?_ }
  · intro k i hi
    exact h.users k i ((hD k _ hi).resolve_left (by simp))
  · intro k d hd hne
    rcases hD k d hd with rfl | hd
    · exact Std.ExtTreeMap.mem_insert_self
    · have hhas := h.derived k d hd hne
      cases d with
      | slot u => exact Std.ExtTreeMap.mem_insert.2 (.inr hhas)
      | _ => exact hhas
  · intro u hu
    rcases Std.ExtTreeMap.mem_insert.1 hu with huv | hu
    · rwa [← Std.LawfulEqOrd.compare_eq_iff_eq.1 huv]
    · exact h.storage u hu
  · intro u hu
    by_cases huv : v = u
    · subst huv
      simp [BlockState.putSlot, BlockState.get]
    · have hu : u ∈ s.slots := (Std.ExtTreeMap.mem_insert.1 hu).resolve_left
        fun hcompare => huv (Std.LawfulEqOrd.compare_eq_iff_eq.1 hcompare)
      have hget : (s.slots.insert v state)[u]? = s.slots[u]? := by
        rw [Std.ExtTreeMap.getElem?_insert, if_neg]
        rwa [Std.LawfulEqOrd.compare_eq_iff_eq]
      refine ⟨Std.ExtTreeSet.mem_insert.2 (.inr (h.slots u hu).1), ?_⟩
      simp only [BlockState.putSlot, BlockState.get, hvalue huv, hget]
      exact (h.slots u hu).2
  · intro i hi hr
    refine ⟨Std.ExtTreeSet.mem_insert.2 (.inr (h.results i hi hr).1), ?_⟩
    exact (hvalue (Program.ne_of_isStorage hv hr)).trans (h.results i hi hr).2

theorem overwrite (h : Coherent env b K s) (hv : env.program.isStorage v) :
    Coherent env b K (s.overwrite v fact keys) := by
  apply h.putSlot hv
  intro k d hd
  rcases Derivations.mem_of_recordAll.1 hd with ⟨-, hd⟩ | hd
  · exact .inl hd
  · exact .inr (Derivations.mem_of_forgetAll.1 hd).1

theorem blend (h : Coherent env b K s) (hv : env.program.isStorage v) :
    Coherent env b K (s.blend v fact keys) := by
  rw [BlockState.blend]
  split
  · apply h.putSlot hv
    intro k d hd
    exact (Derivations.mem_of_recordAll.1 hd).imp_left And.right
  · apply h.putSlot hv
    intro k d hd
    rcases Derivations.mem_of_recordAll.1 hd with ⟨-, hd⟩ | hd
    · exact .inl hd
    · exact (Derivations.mem_of_recordAll.1 hd).imp_left And.right

/-- An effect is added, or a fact joined into it, and it may come to count as derived. -/
theorem addEffect (h : Coherent env b K s) {outArgs : FactMap} {callArgs : Facts CallArg}
    {returned : Option Dep} {e : Derived} (he : e.IsEffect)
    (heffect : ∀ d, ({ s with outArgs, callArgs, returned } : BlockState).Has d ↔ d = e ∨ s.Has d) :
    Coherent env b K (({ s with outArgs, callArgs, returned } : BlockState).record keys e) := by
  refine { h with users := ?_, derived := ?_ }
  · intro k i hi
    rcases Derivations.mem_of_recordAll.1 hi with ⟨-, hi⟩ | hi
    · rw [← hi] at he
      exact he.elim
    · exact h.users k i hi
  · intro k d hd hne
    apply (heffect d).2
    exact (Derivations.mem_of_recordAll.1 hd).imp And.right fun hd => h.derived k d hd hne

theorem change {t : BlockState} (h : Coherent env b K s) (hi : i ∈ env.program.instructions b)
    (ha : ¬ env.program.isAlloca i) (hst : Change env i s t) : Coherent env b K t := by
  cases hst with
  | warn warnings => exact { h with }
  | read keys => exact h.read hi ha
  | overwrite hv fact keys => exact h.overwrite hv
  | blend hv fact keys => exact h.blend hv
  | writeOut param fact keys =>
    apply h.addEffect (e := .outArg param) trivial
    intro d
    cases d with
    | outArg u =>
      simp only [BlockState.Has, BlockState.effect?, ← Std.ExtTreeMap.mem_iff_isSome_getElem?,
        Facts.mem_joinAt, Derived.outArg.injEq, eq_comm (a := u)]
    | _ => simp [BlockState.Has, BlockState.effect?]
  | passArg arg fact keys =>
    apply h.addEffect (e := .callArg arg) trivial
    intro d
    cases d with
    | callArg u =>
      simp only [BlockState.Has, BlockState.effect?, ← Std.ExtTreeMap.mem_iff_isSome_getElem?,
        Facts.mem_joinAt, Derived.callArg.injEq, eq_comm (a := u)]
    | _ => simp [BlockState.Has, BlockState.effect?]
  | passReturn fact keys =>
    apply h.addEffect (e := .returned) trivial
    intro d
    cases d <;> simp [BlockState.Has, BlockState.effect?]

end Change

section Analysis

theorem setInstruction (h : Coherent env b K s) (hi : i ∈ env.program.instructions b)
    (ha : env.program.isAlloca i → fact ≠ .unknown) :
    Coherent env b (fun j => K j ∨ j = i) (s.setInstruction env.program i fact) := by
  have hdefined {j : ValueId} (hj : j ∈ s.defined) :
      j ∈ if env.program.isResult i then s.defined.insert i else s.defined := by
    split
    · exact Std.ExtTreeSet.mem_insert.2 (.inr hj)
    · exact hj
  have hvalue {j : ValueId} (hj : env.program.isResult i → i ≠ j) :
      (if env.program.isResult i then s.values.insert i fact else s.values)[j]? = s.values[j]? := by
    split
    next hr => rw [Facts.getElem?_insert, if_neg (hj hr)]
    next => rfl
  have hfact {j : ValueId} (hj : i ≠ j) :
      Facts.fact (s.instructions.insert i fact) j = s.instructions.fact j := by
    rw [Facts.fact_insert, if_neg hj]
  rw [BlockState.setInstruction_eq]
  refine { h with
    derived := ?_, instructions := ?_, allocas := ?_, slots := ?_, given := ?_, results := ?_ }
  · intro k d hd hne
    have hhas := h.derived k d hd hne
    cases d with
    | inst j => exact absurd rfl (hne j)
    | _ => exact hhas
  · intro j hj
    rcases Facts.mem_insert.1 hj with rfl | hj
    · exact hi
    · exact h.instructions j hj
  · intro j hj haj
    by_cases hij : i = j
    · subst hij
      simpa [BlockState.get, Facts.fact_insert] using ha haj
    · rw [BlockState.get, hfact hij]
      exact h.allocas j ((Facts.mem_insert.1 hj).resolve_left hij) haj
  · intro v hv
    refine ⟨hdefined (h.slots v hv).1, (hvalue fun hr => ?_).trans (h.slots v hv).2⟩
    exact (Program.ne_of_isStorage (h.storage v hv) hr).symm
  · intro j hj
    exact Facts.mem_insert.2 (hj.symm.imp Eq.symm (h.given j))
  · intro j hj hr
    by_cases hij : i = j
    · subst hij
      simp [hr, BlockState.get, Facts.fact_insert]
    · obtain ⟨hmem, hjvalue⟩ := h.results j (hj.resolve_right (Ne.symm hij)) hr
      refine ⟨hdefined hmem, (hvalue fun _ => hij).trans ?_⟩
      rwa [BlockState.get, hfact hij]

theorem settleInstructions (h : Coherent env b K s) :
    Coherent env b K (s.settleInstructions env.program) := by
  have hget (i : ValueId) (hi : i ∈ s.instructions) :
      (s.settleInstructions env.program).get (.inst i) = (s.get (.inst i)).settle :=
    Facts.fact_settle_of_mem hi
  refine { h with
    derived := ?_, instructions := ?_, allocas := ?_, slots := ?_, given := ?_, results := ?_ }
  · intro k d hd hne
    have hhas := h.derived k d hd hne
    cases d with
    | inst j => exact absurd rfl (hne j)
    | _ => exact hhas
  · intro i hi
    exact h.instructions i (Facts.mem_settle.1 hi)
  · intro i hi ha
    rw [hget i (Facts.mem_settle.1 hi)]
    exact Fact.settle_ne_unknown _
  · intro v hv
    refine ⟨(h.slots v hv).1, ?_⟩
    -- a slot that has a result is an allocation, whose own fact is known
    rw [BlockState.getElem?_values_settleInstructions, if_neg]
    · exact (h.slots v hv).2
    · rintro ⟨hunknown, hresult⟩
      have ha : env.program.isAlloca v := by
        simpa [Program.isResult, hresult] using Program.isResult_of_isStorage (h.storage v hv)
      exact h.allocas v (Facts.mem_of_some hunknown) ha (Facts.fact_of_some hunknown)
  · intro i hi
    exact Facts.mem_settle.2 (h.given i hi)
  · intro i hi hr
    obtain ⟨hmem, hvalue⟩ := h.results i hi hr
    refine ⟨hmem, ?_⟩
    rw [BlockState.getElem?_values_settleInstructions, hget i (h.given i hi), hvalue]
    split
    · rfl
    next hne =>
      have hresult : env.program.hasResult i := (Bool.and_eq_true_iff.1 hr).2
      rw [Fact.settle_of_ne_unknown]
      intro hunknown
      exact hne ⟨hunknown ▸ Facts.getElem?_of_mem (h.given i hi), hresult⟩

theorem mono (h : Coherent env b K s) {K' : ValueId → Prop} (hK : ∀ i, K' i → K i) :
    Coherent env b K' s :=
  { h with given := fun i hi => h.given i (hK i hi), results := fun i hi => h.results i (hK i hi) }

theorem instruction (hslots : env.SlotsAreStorage) (h : Coherent env b K s)
    (hi : i ∈ env.program.instructions b) :
    Coherent env b K ((env.instruction i).stateAfter s) := by
  by_cases ha : env.program.isAlloca i
  · rw [Env.instruction_of_isAlloca ha]
    exact h
  · have hchanges := Env.changes_instruction hslots i s
    generalize (env.instruction i).stateAfter s = t at hchanges ⊢
    induction hchanges with
    | refl => exact h
    | tail _ hchange ih => exact ih.change hi ha hchange

/-- The analysis of instructions in order gives them their facts, or fails at one of them. -/
theorem instructionsFrom (hslots : env.SlotsAreStorage) {is : List ValueId}
    (his : ∀ i ∈ is, i ∈ env.program.instructions b) (h : Coherent env b K s) :
    match (is.forM fun i => do
      let fact ← env.instruction i
      modify (·.setInstruction env.program i fact) : Transfer Unit).run s with
    | .ok _ t => Coherent env b (fun j => K j ∨ j ∈ is) t
    | .error _ t => Coherent env b K t := by
  induction is generalizing K s with
  | nil => exact h.mono (by simp)
  | cons i is ih =>
    have hi := his i List.mem_cons_self
    have hafter := h.instruction hslots hi
    rw [Transfer.stateAfter] at hafter
    rw [List.forM, run_bind, run_bind]
    cases hrun : (env.instruction i).run s with
    | error e t =>
      rw [hrun] at hafter
      exact hafter
    | ok fact t =>
      rw [hrun] at hafter
      have halloca : env.program.isAlloca i → fact ≠ .unknown := by
        intro ha
        rw [Env.instruction_of_isAlloca ha] at hrun
        cases hrun
        exact Fact.independent_ne_unknown
      have hrest := ih (fun j hj => his j (.tail _ hj)) (hafter.setInstruction hi halloca)
      change match (is.forM _ : Transfer Unit).run (t.setInstruction env.program i fact) with
        | .ok _ t => _
        | .error _ t => _
      split at hrest
      next hrun =>
        rw [hrun]
        exact hrest.mono fun j hj => by simpa [or_assoc] using hj
      next hrun =>
        rw [hrun]
        exact hrest.mono fun j hj => .inl hj

theorem analyze (hslots : env.SlotsAreStorage) (h : Coherent env b K s) :
    match env.analyze.run s with
    | .ok _ t => Complete env b t
    | .error _ t => Coherent env b K t := by
  have hrun := h.instructionsFrom hslots fun _ => id
  rw [Env.analyze, run_bind, run_get]
  dsimp only
  rw [h.block, run_bind]
  split at hrun
  next hrun' =>
    rw [hrun']
    exact (hrun.mono fun i hi => .inr hi).settleInstructions
  next hrun' =>
    rw [hrun']
    exact hrun

end Analysis

section Steps

theorem get_raise (h : Coherent env b K s) (hd : d ∈ s.derivations.of k) (e : Derived) :
    (s.raise env.program a d).get e = if e = d then s.get d ⊔ a else s.get e := by
  apply BlockState.get_raise
  intro v hv
  subst hv
  exact h.derived k (.slot v) hd (by simp)

/-- A value at the end still has the derived fact that it had, if no other that it might have is
raised. -/
theorem value_raise (h : Coherent env b K s) (hd : d ∈ s.derivations.of k) {e : Derived}
    (he : e.value? env.program = some v) (honly : d.value? env.program = some v → d = e)
    (hvalue : s.values[v]? = some (s.get e)) :
    (s.raise env.program a d).values[v]? = some ((s.raise env.program a d).get e) := by
  rw [h.get_raise hd, BlockState.getElem?_values_raise fun hvd => honly hvd ▸ hvalue]
  by_cases hed : e = d
  · rw [← hed, if_pos he, if_pos rfl]
  · rw [if_neg fun hvd => hed (honly hvd).symm, if_neg hed, hvalue]

theorem has_raise (h : Coherent env b K s) (hd : d ∈ s.derivations.of k) (e : Derived) :
    (s.raise env.program a d).Has e ↔ e = d ∨ s.Has e := by
  cases d with
  | inst i =>
    cases e with
    | inst j => exact Facts.mem_insert.trans (or_congr_left (by simp [eq_comm]))
    | _ => simp [BlockState.Has, BlockState.raise, BlockState.effect?]
  | slot v =>
    have hv : v ∈ s.slots := h.derived k (.slot v) hd (by simp)
    cases e with
    | slot u =>
      refine (Shaped.mem_slots_raise u).trans (or_iff_right_of_imp fun hu => ?_).symm
      obtain rfl := Derived.slot.inj hu
      exact hv
    | _ => simp [BlockState.Has, BlockState.raise, BlockState.effect?]
  | outArg v =>
    cases e with
    | outArg u =>
      simp only [BlockState.Has, BlockState.effect?, ← Std.ExtTreeMap.mem_iff_isSome_getElem?,
        BlockState.raise, Facts.mem_joinAt, Derived.outArg.injEq, eq_comm (a := u)]
    | _ => simp [BlockState.Has, BlockState.raise, BlockState.effect?]
  | callArg arg =>
    cases e with
    | callArg u =>
      simp only [BlockState.Has, BlockState.effect?, ← Std.ExtTreeMap.mem_iff_isSome_getElem?,
        BlockState.raise, Facts.mem_joinAt, Derived.callArg.injEq, eq_comm (a := u)]
    | _ => simp [BlockState.Has, BlockState.raise, BlockState.effect?]
  | returned => cases e <;> simp [BlockState.Has, BlockState.raise, BlockState.effect?]

theorem raise (h : Coherent env b K s) (hd : d ∈ s.derivations.of k) :
    Coherent env b K (s.raise env.program a d) := by
  have hhas {e : Derived} (he : s.Has e) : (s.raise env.program a d).Has e :=
    (h.has_raise hd e).2 (.inr he)
  have hback {e : Derived} (he : (s.raise env.program a d).Has e) (hne : e ≠ d) : s.Has e :=
    ((h.has_raise hd e).1 he).resolve_left hne
  have hslot {v : ValueId} (hv : (s.raise env.program a d).Has (.slot v)) : v ∈ s.slots := by
    by_cases hvd : .slot v = d
    · exact h.derived k (.slot v) (hvd ▸ hd) (by simp)
    · exact hback hv hvd
  refine
    { block := ?_, isOpen := ?_, users := ?_, derived := ?_, instructions := ?_, allocas := ?_,
      storage := ?_, slots := ?_, given := ?_, results := ?_ }
  · rw [← h.block]
    cases d <;> rfl
  · rw [BlockState.isFinal_raise]
    exact h.isOpen
  · rw [BlockState.derivations_raise]
    exact h.users
  · rw [BlockState.derivations_raise]
    intro j e he hne
    exact hhas (h.derived j e he hne)
  · intro i hi
    by_cases hid : .inst i = d
    · exact (h.users k i (hid ▸ hd)).1
    · exact h.instructions i (hback (e := .inst i) hi hid)
  · intro i hi ha
    rw [h.get_raise hd]
    split
    next hid => exact absurd ha (h.users k i (hid ▸ hd)).2
    next hid => exact h.allocas i (hback (e := .inst i) hi hid) ha
  · intro v hv
    exact h.storage v (hslot hv)
  · intro v hv
    rw [BlockState.defined_raise]
    -- no result has a slot's value, so only the slot itself can have raised it
    refine ⟨(h.slots v (hslot hv)).1, h.value_raise hd rfl ?_ (h.slots v (hslot hv)).2⟩
    intro hvd
    apply (Derived.value?_eq_some.1 hvd).resolve_left
    intro hi
    exact Program.ne_of_isStorage (h.storage v (hslot hv)) hi.2 rfl
  · intro i hi
    exact hhas (e := .inst i) (h.given i hi)
  · intro i hi hr
    rw [BlockState.defined_raise]
    refine ⟨(h.results i hi hr).1, h.value_raise hd ?_ ?_ (h.results i hi hr).2⟩
    · exact Derived.value?_eq_some.2 (.inl ⟨rfl, hr⟩)
    · intro hid
      rcases Derived.value?_eq_some.1 hid with hid | hid
      · exact hid.1
      · have hslot := h.derived k (.slot i) (hid ▸ hd) (by simp)
        exact absurd rfl (Program.ne_of_isStorage (h.storage i hslot) hr)

theorem enter (h : Coherent env b K s) : Coherent env b K (s.enter v a) := by
  have hvalue {u : ValueId} (hu : u ∈ s.defined) : (s.enter v a).values[u]? = s.values[u]? :=
    Shaped.getElem?_values_enter fun _ => hu
  refine { h with slots := ?_, results := ?_ }
  · intro u hu
    exact ⟨(h.slots u hu).1, (hvalue (h.slots u hu).1).trans (h.slots u hu).2⟩
  · intro i hi hr
    exact ⟨(h.results i hi hr).1, (hvalue (h.results i hi hr).1).trans (h.results i hi hr).2⟩

theorem steps {M : FactMap} {t : BlockState} (h : Coherent env b K s)
    (hst : Steps env.program M s t) : Coherent env b K t := by
  induction hst with
  | refl => exact h
  | enter _ _ ih => exact ih.enter
  | raise _ hd _ ih => exact ih.raise hd

theorem revise (h : Coherent env b K s) (preds : List FactMap) (initial : FactMap) (release : Bool) :
    Coherent env b K (s.revise env.program preds initial release).1 := by
  have hsteps := h.steps (s.steps_revision env.program (BlockState.mergedEntry preds initial))
  rw [BlockState.revise_eq h.isOpen]
  split
  · apply hsteps.withDerivations
    · intro k i hi
      exact hsteps.users k i (Derivations.mem_of_dropAll hi)
    · intro k d hd hne
      exact hsteps.derived k d (Derivations.mem_of_dropAll hd) hne
  · exact hsteps

end Steps

end Coherent

namespace Complete

variable {env : Env} {b : BlockId} {s : BlockState} {d : Derived} {k v : ValueId}

/-- All that counts as derived is there. -/
theorem has (h : Complete env b s) (hd : d ∈ s.derivations.of k) : s.Has d := by
  cases d with
  | inst i => exact h.given i (h.users k i hd).1
  | _ => exact h.derived k _ hd (by simp)

/-- A value at the end has the derived fact that is its own. -/
theorem value (h : Complete env b s) (hd : s.Has d) (hv : d.value? env.program = some v) :
    v ∈ s.defined ∧ s.values[v]? = some (s.get d) := by
  rcases Derived.value?_eq_some.1 hv with ⟨rfl, hr⟩ | rfl
  · exact h.results v (h.instructions v hd) hr
  · exact h.slots v hd

end Complete

namespace Env

/-- What becomes of a block before its facts are final: it is analysed, maybe without success, and
revised, any number of times. -/
inductive Handled (env : Env) (b : BlockId) : BlockState → Prop
  | start (E : FactMap) : Handled env b { block := b, entry := E }
  | analyze {s : BlockState} (h : Handled env b s) : Handled env b (env.analyze.stateAfter s)
  | revise {s : BlockState} (h : Handled env b s) (preds : List FactMap) (initial : FactMap)
    (release : Bool) : Handled env b (s.revise env.program preds initial release).1

/-- A block that has been analysed with success, maybe revised since, and whose facts are not final. -/
inductive Revisable (env : Env) (b : BlockId) : BlockState → Prop
  | analyze {s t : BlockState} (h : Handled env b s) (hrun : env.analyze.run s = .ok () t) :
    Revisable env b t
  | revise {s : BlockState} (h : Revisable env b s) (preds : List FactMap) (initial : FactMap)
    (release : Bool) : Revisable env b (s.revise env.program preds initial release).1

variable {env : Env} {b : BlockId} {s : BlockState}

theorem Handled.coherent (hslots : env.SlotsAreStorage) (h : env.Handled b s) :
    Coherent env b (fun _ => False) s := by
  induction h with
  | start E => exact .start env b E
  | analyze _ ih =>
    have hafter := ih.analyze hslots
    rw [Transfer.stateAfter]
    split at hafter
    next hrun => exact hrun ▸ hafter.mono fun _ => False.elim
    next hrun => exact hrun ▸ hafter
  | revise _ preds initial release ih => exact ih.revise preds initial release

theorem Revisable.complete (hslots : env.SlotsAreStorage) (h : env.Revisable b s) :
    Complete env b s := by
  induction h with
  | analyze h hrun =>
    have hafter := (h.coherent hslots).analyze hslots
    rw [hrun] at hafter
    exact hafter
  | revise _ preds initial release ih => exact ih.revise preds initial release

end Env

end InputFlow
