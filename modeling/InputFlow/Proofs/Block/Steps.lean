import InputFlow.Block.Revision
import InputFlow.Proofs.Block.Analysis

namespace InputFlow

namespace Derived

def value? (p : Program) : Derived → Option ValueId
  | .inst i => if p.isResult i then some i else none
  | .slot v => some v
  | _ => none

theorem value?_eq_some {p : Program} {d : Derived} {v : ValueId} :
    d.value? p = some v ↔ (d = .inst v ∧ p.isResult v) ∨ d = .slot v := by
  cases d with
  | inst i =>
    simp only [value?, inst.injEq, reduceCtorEq, or_false]
    split
    next hr =>
      rw [Option.some.injEq]
      exact ⟨fun hi => ⟨hi, hi ▸ hr⟩, And.left⟩
    next hr => exact iff_of_false (by simp) fun hi => hr (hi.1 ▸ hi.2)
  | _ => simp [value?]

end Derived

namespace BlockState

/-- Joins a fact into a derived one. A result is also a value at the end of the block. -/
def raise (s : BlockState) (p : Program) (a : Dep) : Derived → BlockState
  | .inst i =>
    { s with
      instructions := s.instructions.insert i (s.instructions.fact i ⊔ a)
      values := if p.isResult i && (s.instructions.fact i).grows a then
          s.values.insert i (s.instructions.fact i ⊔ a)
        else s.values }
  | .slot v =>
    { s with
      values := s.values.joinAt v a
      slots := s.slots.modify v fun state => { state with fact := state.fact ⊔ a } }
  | .outArg v => { s with outArgs := s.outArgs.joinAt v a }
  | .callArg arg => { s with callArgs := s.callArgs.joinAt arg a }
  | .returned => { s with returned := some (s.returned.getD .unknown ⊔ a) }

/-- Joins a fact into one on entry, and into that at the end if the block does not define the
value. -/
def enter (s : BlockState) (v : ValueId) (a : Dep) : BlockState :=
  { s with
    entry := s.entry.insert v (s.entry.fact v ⊔ a)
    values := if (s.entry.fact v).grows a && !s.defined.contains v then
        s.values.joinAt v (s.entry.fact v ⊔ a)
      else s.values }

variable {p : Program} {s : BlockState} {a : Dep} {d : Derived} {v : ValueId}

@[simp] theorem entry_raise : (s.raise p a d).entry = s.entry := by
  cases d <;> rfl

@[simp] theorem defined_raise : (s.raise p a d).defined = s.defined := by
  cases d <;> rfl

@[simp] theorem derivations_raise : (s.raise p a d).derivations = s.derivations := by
  cases d <;> rfl

@[simp] theorem isFinal_raise : (s.raise p a d).isFinal = s.isFinal := by
  cases d <;> rfl

/-- A step changes one derived fact. -/
theorem get_raise (hd : ∀ v, d = .slot v → v ∈ s.slots) (d' : Derived) :
    (s.raise p a d).get d' = if d' = d then s.get d ⊔ a else s.get d' := by
  cases d with
  | inst i =>
    cases d' with
    | inst j => simp [raise, get, Facts.fact_insert, eq_comm (a := i)]
    | _ => simp [raise, get, effect?]
  | slot v =>
    cases d' with
    | slot u =>
      have hv := Std.ExtTreeMap.mem_iff_isSome_getElem?.1 (hd v rfl)
      simp only [raise, get, Derived.slot.injEq]
      rw [Std.ExtTreeMap.getElem?_modify]
      simp only [Std.LawfulEqOrd.compare_eq_iff_eq, eq_comm (a := v)]
      split
      · obtain ⟨state, hs⟩ := Option.isSome_iff_exists.1 hv
        simp [hs]
      · rfl
    | _ => simp [raise, get, effect?]
  | outArg v =>
    cases d' with
    | outArg u =>
      have h := Facts.fact_joinAt s.outArgs v u a
      simp only [Facts.fact_eq] at h
      simpa [raise, get, effect?, eq_comm (a := u)] using h
    | _ => simp [raise, get, effect?]
  | callArg arg =>
    cases d' with
    | callArg arg' =>
      have h := Facts.fact_joinAt s.callArgs arg arg' a
      simp only [Facts.fact_eq] at h
      simpa [raise, get, effect?, eq_comm (a := arg')] using h
    | _ => simp [raise, get, effect?]
  | returned => cases d' <;> simp [raise, get, effect?]

/-- A derived fact that a value at the end has stays the fact of that value. -/
theorem getElem?_values_raise (h : d.value? p = some v → s.values[v]? = some (s.get d)) :
    (s.raise p a d).values[v]? =
      if d.value? p = some v then some (s.get d ⊔ a) else s.values[v]? := by
  cases d with
  | inst i =>
    by_cases hr : p.isResult i
    · simp only [Derived.value?, hr, if_true, Option.some.injEq] at h ⊢
      simp only [raise, hr, Bool.true_and]
      split
      · exact Facts.getElem?_insert _ _ _ _
      next hgrows =>
        split
        next hi =>
          rw [h hi, get, Fact.sup_eq_of_not_grows (by simpa using hgrows)]
        next => rfl
    · simp [raise, hr, Derived.value?]
  | slot w =>
    simp only [Derived.value?, Option.some.injEq] at h ⊢
    rw [raise, Facts.joinAt, Facts.getElem?_insert]
    split
    next hw => rw [hw, Facts.fact_of_some (h hw), hw, Fact.join_eq_sup]
    next => rfl
  | _ => simp [raise, Derived.value?]

/-- A step adds no effect. -/
theorem isSome_effect?_raise (hd : d.IsEffect → (s.effect? d).isSome) (d' : Derived) :
    ((s.raise p a d).effect? d').isSome = (s.effect? d').isSome := by
  cases d with
  | inst i => cases d' <;> rfl
  | slot v => cases d' <;> rfl
  | outArg u =>
    cases d' with
    | outArg w =>
      simp only [raise, effect?, Facts.joinAt, Facts.getElem?_insert]
      split
      · subst_vars
        exact (hd trivial).symm
      · rfl
    | _ => rfl
  | callArg arg =>
    cases d' with
    | callArg arg' =>
      simp only [raise, effect?, Facts.joinAt, Facts.getElem?_insert]
      split
      · subst_vars
        exact (hd trivial).symm
      · rfl
    | _ => rfl
  | returned =>
    cases d' with
    | returned => exact (hd trivial).symm
    | _ => rfl

@[simp] theorem get_enter (d : Derived) : (s.enter v a).get d = s.get d := by
  cases d <;> rfl

theorem fact_entry_enter (u : ValueId) :
    (s.enter v a).entry.fact u = if v = u then s.entry.fact v ⊔ a else s.entry.fact u :=
  Facts.fact_insert _ _ _ _

end BlockState

namespace Shaped

variable {env : Env} {b : BlockId} {s : BlockState} {a : Dep} {d : Derived} {k v : ValueId}

theorem inst_of_edge (h : (env.outline b).Edge k (.inst v)) : v ∈ env.program.instructions b := by
  obtain ⟨f, hf, -⟩ := Env.mem_reads.1 h
  exact Env.mem_of_mem_rules hf

theorem not_defines_of_written (hslots : env.SlotsAreStorage) (h : v ∈ (env.outline b).written) :
    ¬ env.program.Defines b v := fun hd => by
  simpa [Program.isResult_of_isStorage (Env.isStorage_of_written hslots v h)] using hd.2

theorem get_raise (h : Shaped env b s) (hd : (env.outline b).Edge k d) (d' : Derived) :
    (s.raise env.program a d).get d' = if d' = d then s.get d ⊔ a else s.get d' := by
  refine BlockState.get_raise ?_ d'
  rintro v rfl
  exact (h.mem_slots v).2 hd.1

theorem getElem?_values_raise (h : Shaped env b s) (hd : (env.outline b).Edge k d) (v : ValueId) :
    (s.raise env.program a d).values[v]? =
      if (d = .inst v ∧ env.program.isResult v) ∨ d = .slot v then some (s.get d ⊔ a)
      else s.values[v]? := by
  simp only [← Derived.value?_eq_some]
  apply BlockState.getElem?_values_raise
  intro hv
  rcases Derived.value?_eq_some.1 hv with ⟨rfl, hr⟩ | rfl
  · exact h.results v ⟨inst_of_edge hd, hr⟩
  · exact h.slots v hd.1

theorem effect_of_edge (h : Shaped env b s) (hd : (env.outline b).Edge k d) (heffect : d.IsEffect) :
    (s.effect? d).isSome := by
  have hk : k ∈ ((env.outline b).effect d).sources := by
    cases d <;> first | exact hd | exact heffect.elim
  obtain ⟨o, ho, -⟩ := List.mem_map.1 hk
  obtain ⟨f, hf, -⟩ := Outline.mem_effect_origins.1 ho
  exact (h.effects d).2 (List.mem_map_of_mem hf)

theorem mem_instructions_raise (h : Shaped env b s) (hd : (env.outline b).Edge k d) (i : ValueId) :
    i ∈ (s.raise env.program a d).instructions ↔ i ∈ s.instructions := by
  cases d with
  | inst j =>
    simp only [BlockState.raise, Facts.mem_insert]
    exact or_iff_right_of_imp fun hj => hj ▸ (h.instructions j).2 (inst_of_edge hd)
  | _ => rfl

theorem mem_slots_raise (i : ValueId) :
    i ∈ (s.raise env.program a d).slots ↔ i ∈ s.slots := by
  cases d with
  | slot w => exact Std.ExtTreeMap.mem_modify
  | _ => rfl

theorem raise (h : Shaped env b s) (hslots : env.SlotsAreStorage) (hd : (env.outline b).Edge k d) :
    Shaped env b (s.raise env.program a d) where
  instructions i := (h.mem_instructions_raise hd i).trans (h.instructions i)
  results v hv := by
    rw [h.getElem?_values_raise hd]
    change _ = some ((s.raise env.program a d).get (.inst v))
    rw [h.get_raise hd]
    have hslot : d ≠ .slot v := by
      rintro rfl
      exact not_defines_of_written hslots hd.1 hv
    by_cases hi : d = .inst v
    · simp [hi, hv.2]
    · rw [if_neg (by simp [hi, hslot]), if_neg (Ne.symm hi)]
      exact h.results v hv
  slots v hv := by
    rw [h.getElem?_values_raise hd, h.get_raise hd]
    have hinst : ¬ (d = .inst v ∧ env.program.isResult v) := by
      rintro ⟨rfl, hr⟩
      exact not_defines_of_written hslots hv ⟨inst_of_edge hd, hr⟩
    by_cases hs : d = .slot v
    · simp [hs]
    · rw [if_neg (by simp [hinst, hs]), if_neg (Ne.symm hs)]
      exact h.slots v hv
  others v hv := by
    rw [BlockState.defined_raise, h.defined, not_or] at hv
    rw [Facts.fact_eq, h.getElem?_values_raise hd, if_neg ?_, ← Facts.fact_eq,
      BlockState.entry_raise]
    · exact h.others v (by rw [h.defined, not_or]; exact hv)
    · rintro (⟨rfl, hr⟩ | rfl)
      · exact hv.1 ⟨inst_of_edge hd, hr⟩
      · exact hv.2 hd.1
  passed v hv hnew := by
    rw [BlockState.entry_raise]
    rw [BlockState.defined_raise] at hnew
    refine h.passed v ?_ hnew
    rw [h.defined, not_or] at hnew
    rw [Std.ExtTreeMap.mem_iff_isSome_getElem?, h.getElem?_values_raise hd, if_neg ?_] at hv
    · exact Std.ExtTreeMap.mem_iff_isSome_getElem?.2 hv
    · rintro (⟨rfl, hr⟩ | rfl)
      · exact hnew.1 ⟨inst_of_edge hd, hr⟩
      · exact hnew.2 hd.1
  defined v := by
    rw [BlockState.defined_raise]
    exact h.defined v
  mem_slots v := (mem_slots_raise v).trans (h.mem_slots v)
  effects d' := by
    rw [BlockState.isSome_effect?_raise (h.effect_of_edge hd)]
    exact h.effects d'
  edges k d' := by
    rw [BlockState.derivations_raise]
    exact h.edges k d'

theorem getElem?_values_enter {u : ValueId} (h : v = u → u ∈ s.defined) :
    (s.enter v a).values[u]? = s.values[u]? := by
  simp only [BlockState.enter]
  split
  · rename_i hv
    rw [Facts.joinAt, Facts.getElem?_insert, if_neg]
    intro huv
    have hu := Std.ExtTreeSet.contains_iff_mem.2 (h huv)
    simp [huv, hu] at hv
  · rfl

/-- A value that the block does not define keeps the same fact on entry and at the end. -/
theorem fact_values_enter {u : ValueId} (hu : u ∉ s.defined) (h : s.values.fact u = s.entry.fact u) :
    (s.enter v a).values.fact u = (s.enter v a).entry.fact u := by
  rw [BlockState.fact_entry_enter]
  by_cases hv : v = u
  · subst hv
    rw [if_pos rfl]
    simp only [BlockState.enter]
    split
    · rw [Facts.fact_joinAt, if_pos rfl, h, sup_left_idem]
    · rename_i hgrows
      have hng : (s.entry.fact v).grows a = false := by
        have hc : s.defined.contains v = false :=
          Bool.eq_false_iff.2 fun hc => hu (Std.ExtTreeSet.contains_iff_mem.1 hc)
        simpa [hc] using hgrows
      rw [h, Fact.sup_eq_of_not_grows hng]
  · rw [if_neg hv, Facts.fact_eq, getElem?_values_enter fun huv => absurd huv hv, ← Facts.fact_eq]
    exact h

theorem enter (h : Shaped env b s) : Shaped env b (s.enter v a) where
  instructions := h.instructions
  results u hu := by
    rw [getElem?_values_enter fun _ => (h.defined u).2 (Or.inl hu)]
    exact h.results u hu
  slots u hu := by
    rw [getElem?_values_enter fun _ => (h.defined u).2 (Or.inr hu), BlockState.get_enter]
    exact h.slots u hu
  others u hu := fact_values_enter hu (h.others u hu)
  passed u hu hnew := by
    refine Facts.mem_insert.2 ?_
    by_cases hv : v = u
    · exact Or.inl hv
    · rw [Std.ExtTreeMap.mem_iff_isSome_getElem?, getElem?_values_enter fun huv => absurd huv hv,
        ← Std.ExtTreeMap.mem_iff_isSome_getElem?] at hu
      exact Or.inr (h.passed u hu hnew)
  defined := h.defined
  mem_slots := h.mem_slots
  effects d := by
    have heffect : (s.enter v a).effect? d = s.effect? d := by cases d <;> rfl
    rw [heffect]
    exact h.effects d
  edges := h.edges

end Shaped

namespace Revision

variable {p : Program} {r : Revision} {a : Dep} {d : Derived}

/-- What becomes pending when a fact is joined into a derived one. -/
def news (r : Revision) (p : Program) (a : Dep) : Derived → List (ValueId × Dep)
  | .inst i =>
    if p.isResult i && (r.state.instructions.fact i).grows a then
      [(i, r.state.instructions.fact i ⊔ a)]
    else []
  | _ => []

theorem mem_news {k : ValueId} {c : Dep} : (k, c) ∈ r.news p a d ↔
    d = .inst k ∧ p.isResult k ∧ (r.state.get (.inst k)).grows a ∧ c = r.state.get (.inst k) ⊔ a := by
  cases d with
  | inst i =>
    simp only [news, BlockState.get, Derived.inst.injEq]
    split
    next hi =>
      simp only [Bool.and_eq_true] at hi
      rw [List.mem_singleton, Prod.mk.injEq]
      constructor
      · rintro ⟨rfl, rfl⟩
        exact ⟨rfl, hi.1, hi.2, rfl⟩
      · rintro ⟨rfl, -, -, rfl⟩
        exact ⟨rfl, rfl⟩
    next hi =>
      refine iff_of_false List.not_mem_nil ?_
      rintro ⟨rfl, hr, hgrows, -⟩
      exact hi (by simp [hr, hgrows])
  | _ => simp [news]

theorem isResult_eq (p : Program) (i : ValueId) :
    p.isResult i = !(p.isAlloca i || !p.hasResult i) := by
  simp [Program.isResult]

theorem state_joinDerived (r : Revision) (p : Program) (a : Dep) (d : Derived) :
    (r.joinDerived p a d).state = r.state.raise p a d := by
  cases d with
  | inst i =>
    simp only [joinDerived, joinInstruction, BlockState.raise, isResult_eq, valueChanged]
    cases p.isAlloca i || !p.hasResult i <;> cases (r.state.instructions.fact i).grows a <;> rfl
  | slot v =>
    simp only [joinDerived, joinSlot, BlockState.raise, valueChanged]
    split <;> rfl
  | _ => rfl

theorem pending_joinDerived (r : Revision) (p : Program) (a : Dep) (d : Derived) :
    (r.joinDerived p a d).pending = r.pending ++ r.news p a d := by
  cases d with
  | inst i =>
    simp only [joinDerived, joinInstruction, news, isResult_eq, valueChanged]
    cases p.isAlloca i || !p.hasResult i <;> cases (r.state.instructions.fact i).grows a <;> simp
  | slot v =>
    simp only [joinDerived, joinSlot, news, valueChanged]
    split <;> simp
  | _ => simp [joinDerived, effectChanged, news]

end Revision

/-- A fact that may be joined into what was derived from a value in a revision with the facts `M`: it
is within that on entry, if `M` has one of the value, or within that of the result. -/
def BlockState.Offers (s : BlockState) (p : Program) (M : FactMap) (k : ValueId) (a : Dep) : Prop :=
  (k ∈ M ∧ a ≤ s.entry.fact k) ∨ p.isResult k ∧ a ≤ s.instructions.fact k

theorem BlockState.Offers.raise {s : BlockState} {p : Program} {M : FactMap} {k : ValueId} {a c : Dep}
    {d : Derived} (h : s.Offers p M k c) : (s.raise p a d).Offers p M k c := by
  rw [Offers, entry_raise]
  refine h.imp_right fun hc => ⟨hc.1, hc.2.trans ?_⟩
  cases d with
  | inst i =>
    simp only [BlockState.raise, Facts.fact_insert]
    split
    · subst_vars
      exact le_sup_left
    · exact le_refl _
  | _ => exact le_refl _

/-- The steps of a revision with the facts `M`: a fact of `M` is joined into that on entry, or one
that a value offers into what was derived from it. The bookkeeping of pending facts only decides
which steps are taken. -/
inductive Steps (p : Program) (M : FactMap) (s : BlockState) : BlockState → Prop
  | refl : Steps p M s s
  | enter {t : BlockState} {v : ValueId} {a : Dep} (h : Steps p M s t) (hv : M[v]? = some a) :
    Steps p M s (t.enter v a)
  | raise {t : BlockState} {k : ValueId} {a : Dep} {d : Derived} (h : Steps p M s t)
    (hd : d ∈ t.derivations.of k) (ha : t.Offers p M k a) : Steps p M s (t.raise p a d)

namespace Steps

variable {env : Env} {b : BlockId} {M : FactMap} {s t : BlockState}

theorem shaped (h : Steps env.program M s t) (hslots : env.SlotsAreStorage) (hs : Shaped env b s) :
    Shaped env b t := by
  induction h with
  | refl => exact hs
  | enter _ _ ih => exact ih.enter
  | @raise t k a d _ hd _ ih => exact ih.raise hslots ((ih.edges k d).1 hd)

/-- Facts only go up. -/
theorem get_mono (h : Steps env.program M s t) (hslots : env.SlotsAreStorage) (hs : Shaped env b s)
    (d : Derived) : s.get d ≤ t.get d := by
  induction h with
  | refl => exact le_refl _
  | enter _ _ ih => exact ih
  | @raise t k a d' h hd _ ih =>
    have ht := h.shaped hslots hs
    refine ih.trans ?_
    rw [ht.get_raise ((ht.edges k d').1 hd)]
    split
    · subst_vars
      exact le_sup_left
    · exact le_refl _

theorem entry_mono {p : Program} (h : Steps p M s t) (v : ValueId) :
    s.entry.fact v ≤ t.entry.fact v := by
  induction h with
  | refl => exact le_refl _
  | enter _ _ ih =>
    refine ih.trans ?_
    rw [BlockState.fact_entry_enter]
    split
    · subst_vars
      exact le_sup_left
    · exact le_refl _
  | raise _ _ _ ih => rwa [BlockState.entry_raise]

theorem entry_le {p : Program} (h : Steps p M s t) (v : ValueId) :
    t.entry.fact v ≤ s.entry.fact v ⊔ M.fact v := by
  induction h with
  | refl => exact le_sup_left
  | enter _ hv ih =>
    rw [BlockState.fact_entry_enter]
    split
    · subst_vars
      exact sup_le ih (le_sup_of_le_right (Facts.fact_of_some hv).ge)
    · exact ih
  | raise _ _ _ ih => rwa [BlockState.entry_raise]

theorem isFinal_eq {p : Program} (h : Steps p M s t) : t.isFinal = s.isFinal := by
  induction h with
  | refl => rfl
  | enter _ _ ih => exact ih
  | raise _ _ _ ih => rwa [BlockState.isFinal_raise]

theorem mem_values (h : Steps env.program M s t) (hslots : env.SlotsAreStorage) (hs : Shaped env b s)
    {v : ValueId} (hv : v ∈ s.values) : v ∈ t.values := by
  induction h with
  | refl => exact hv
  | enter _ _ ih =>
    simp only [BlockState.enter]
    split
    · exact Facts.mem_joinAt.2 (Or.inr ih)
    · exact ih
  | @raise t k a d h hd _ ih =>
    have ht := h.shaped hslots hs
    rw [Std.ExtTreeMap.mem_iff_isSome_getElem?] at ih ⊢
    rw [ht.getElem?_values_raise ((ht.edges k d).1 hd)]
    split
    · rfl
    · exact ih

end Steps

namespace Revision

variable {p : Program} {M : FactMap} {s : BlockState} {r : Revision}

/-- Every pending fact is offered by its value. -/
def Sound (r : Revision) (p : Program) (M : FactMap) : Prop :=
  ∀ k a, (k, a) ∈ r.pending → r.state.Offers p M k a

theorem Sound.joinDerived {a : Dep} {d : Derived} (h : r.Sound p M) :
    (r.joinDerived p a d).Sound p M := by
  intro k c hk
  rw [pending_joinDerived] at hk
  rw [state_joinDerived]
  rcases List.mem_append.1 hk with hk | hk
  · exact (h k c hk).raise
  · obtain ⟨rfl, hr, -, rfl⟩ := mem_news.1 hk
    simp [BlockState.Offers, BlockState.raise, BlockState.get, Facts.fact_insert, hr]

theorem steps_joinAll {k : ValueId} {a : Dep} {ds : List Derived} (hs : Steps p M s r.state)
    (hr : r.Sound p M) (hds : ∀ d ∈ ds, d ∈ r.state.derivations.of k) (ha : r.state.Offers p M k a) :
    Steps p M s (ds.foldl (fun r d => r.joinDerived p a d) r).state ∧
      (ds.foldl (fun r d => r.joinDerived p a d) r).Sound p M := by
  induction ds generalizing r with
  | nil => exact ⟨hs, hr⟩
  | cons d ds ih =>
    have hstep : Steps p M s (r.joinDerived p a d).state := by
      rw [state_joinDerived]
      exact hs.raise (hds d List.mem_cons_self) ha
    refine ih hstep hr.joinDerived ?_ ?_
    · intro e he
      rw [state_joinDerived, BlockState.derivations_raise]
      exact hds e (List.mem_cons_of_mem d he)
    · rw [state_joinDerived]
      exact ha.raise

theorem steps_step (hs : Steps p M s r.state) (hr : r.Sound p M) :
    Steps p M s (r.step p).state ∧ (r.step p).Sound p M := by
  rw [step]
  split
  · exact ⟨hs, hr⟩
  · rename_i source fact rest hpending
    refine steps_joinAll (k := source) hs ?_ (fun d hd => hd) (hr source fact (by simp [hpending]))
    intro k a hk
    exact hr k a (by simp [hpending, hk])

theorem steps_cascade (fuel : Nat) (hs : Steps p M s r.state) (hr : r.Sound p M) :
    Steps p M s (cascade p fuel r).state := by
  induction fuel generalizing r with
  | zero => exact hs
  | succ fuel ih =>
    rw [cascade]
    split
    · exact hs
    · obtain ⟨hs, hr⟩ := steps_step hs hr
      exact ih hs hr

def entered (r : Revision) (v : ValueId) (a : Dep) : Revision :=
  let entered := { r with state := r.state.enter v a }
  if (r.state.entry.fact v).grows a && !r.state.defined.contains v &&
      (r.state.values.fact v).grows (r.state.entry.fact v ⊔ a) then entered.valueChanged v
  else entered

def opened (r : Revision) (v : ValueId) (a : Dep) : Revision :=
  { r.entered v a with pending := [(v, r.state.entry.fact v ⊔ a)] }

theorem joinEntry_eq (r : Revision) (p : Program) (v : ValueId) (a : Dep) :
    r.joinEntry p v a = if (r.state.entry.fact v).grows a then
      cascade p ((r.entered v a).bound (r.state.entry.fact v ⊔ a)) (r.opened v a)
    else r.entered v a := by
  simp only [joinEntry, spread, opened, entered, BlockState.enter, valueChanged, Fact.join_eq_sup]
  cases (r.state.entry.fact v).grows a with
  | false => simp
  | true =>
    cases r.state.defined.contains v with
    | true => simp
    | false => cases (r.state.values.fact v).grows (r.state.entry.fact v ⊔ a) <;> simp

@[simp] theorem state_entered (r : Revision) (v : ValueId) (a : Dep) :
    (r.entered v a).state = r.state.enter v a := by
  rw [entered]
  split <;> rfl

@[simp] theorem state_opened (r : Revision) (v : ValueId) (a : Dep) :
    (r.opened v a).state = r.state.enter v a :=
  state_entered r v a

theorem sound_opened {v : ValueId} {a : Dep} (r : Revision) (p : Program) (hv : M[v]? = some a) :
    (r.opened v a).Sound p M := by
  intro k c hk
  obtain ⟨rfl, rfl⟩ : k = v ∧ c = r.state.entry.fact v ⊔ a := by simpa [opened] using hk
  refine Or.inl ⟨Std.ExtTreeMap.mem_iff_isSome_getElem?.2 (by simp [hv]), ?_⟩
  rw [state_opened, BlockState.fact_entry_enter, if_pos rfl]

theorem steps_joinEntry {v : ValueId} {a : Dep} (hs : Steps p M s r.state) (hv : M[v]? = some a) :
    Steps p M s (r.joinEntry p v a).state := by
  have henter := hs.enter hv
  rw [joinEntry_eq]
  split
  · exact steps_cascade _ (by rwa [state_opened]) (sound_opened r p hv)
  · rwa [state_entered]

/-- What is left alone when a fact is joined into one that was derived is so when it is joined into
many. -/
theorem unchanged_joinAll {β : Type} {f : Revision → β} {a : Dep}
    (hf : ∀ r d, f (r.joinDerived p a d) = f r) (ds : List Derived) (r : Revision) :
    f (ds.foldl (fun r d => r.joinDerived p a d) r) = f r := by
  induction ds generalizing r with
  | nil => rfl
  | cons d ds ih => rw [List.foldl_cons, ih, hf]

theorem entry_step (r : Revision) (p : Program) : (r.step p).state.entry = r.state.entry := by
  rw [step]
  split
  · rfl
  · refine unchanged_joinAll (f := fun r => r.state.entry) (fun r d => ?_) _ _
    rw [state_joinDerived, BlockState.entry_raise]

theorem entry_cascade (r : Revision) (p : Program) (fuel : Nat) :
    (cascade p fuel r).state.entry = r.state.entry := by
  induction fuel generalizing r with
  | zero => rfl
  | succ fuel ih =>
    rw [cascade]
    split
    · rfl
    · rw [ih, entry_step]

theorem entry_joinEntry (r : Revision) (p : Program) (v : ValueId) (a : Dep) :
    (r.joinEntry p v a).state.entry = (r.state.enter v a).entry := by
  rw [joinEntry_eq]
  split
  · rw [entry_cascade, state_opened]
  · rw [state_entered]

theorem entry_joinEntries (r : Revision) (p : Program) (vs : List (ValueId × Dep)) :
    (vs.foldl (fun r v => r.joinEntry p v.1 v.2) r).state.entry =
      vs.foldl (fun m v => Facts.joinAt m v.1 v.2) r.state.entry := by
  induction vs generalizing r with
  | nil => rfl
  | cons v vs ih =>
    rw [List.foldl_cons, ih, entry_joinEntry]
    rfl

theorem steps_joinEntries {vs : List (ValueId × Dep)} (hs : Steps p M s r.state)
    (hvs : ∀ v ∈ vs, M[v.1]? = some v.2) :
    Steps p M s (vs.foldl (fun r v => r.joinEntry p v.1 v.2) r).state := by
  induction vs generalizing r with
  | nil => exact hs
  | cons v vs ih =>
    exact ih (steps_joinEntry hs (hvs v List.mem_cons_self)) fun u hu => hvs u (.tail _ hu)

end Revision

namespace BlockState

def revision (s : BlockState) (p : Program) (M : FactMap) : Revision :=
  M.toList.foldl (fun r v => r.joinEntry p v.1 v.2) { state := s }

theorem steps_revision (s : BlockState) (p : Program) (M : FactMap) :
    Steps p M s (s.revision p M).state :=
  Revision.steps_joinEntries .refl fun _ hv => Std.ExtTreeMap.mem_toList_iff_getElem?_eq_some.1 hv

theorem entry_revision (s : BlockState) (p : Program) (M : FactMap) :
    (s.revision p M).state.entry = s.entry.join M := by
  rw [revision, Revision.entry_joinEntries]
  exact Facts.foldl_joinAt_toList s.entry M

theorem revise_eq {s : BlockState} (hopen : s.isFinal = false) (p : Program) (preds : List FactMap)
    (initial : FactMap) (release : Bool) :
    s.revise p preds initial release =
      let r := s.revision p (mergedEntry preds initial)
      (if release then { r.state with
        derivations := r.passed.foldl (fun d v => d.drop v) r.state.derivations } else r.state,
        r.outcome) := by
  rw [revise, if_neg (by simp [hopen])]
  rfl

end BlockState

end InputFlow
