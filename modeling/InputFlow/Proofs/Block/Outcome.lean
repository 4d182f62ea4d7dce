import InputFlow.Proofs.Block.Steps

namespace InputFlow

/-- A property of blocks that the steps of a revision keep. Under it a derived fact that is also the
fact of a value at the end of the block is the same in both places. -/
structure Stable (p : Program) (I : BlockState → Prop) : Prop where
  enter : ∀ s v a, I s → I (s.enter v a)
  raise : ∀ s k a d, I s → d ∈ s.derivations.of k → I (s.raise p a d)
  slots : ∀ s k v, I s → .slot v ∈ s.derivations.of k → v ∈ s.slots
  values : ∀ s k d v, I s → d ∈ s.derivations.of k → d.value? p = some v →
    s.values[v]? = some (s.get d)

/-- On the way up, the ends differ just if one of the two parts does. -/
theorem Fact.ne_iff_of_le {a b c : Dep} (hab : a ≤ b) (hbc : b ≤ c) : a ≠ c ↔ a ≠ b ∨ b ≠ c := by
  constructor
  · intro hac
    by_contra hsame
    push Not at hsame
    exact hac (hsame.1.trans hsame.2)
  · rintro hne rfl
    have hsame : a = b := le_antisymm hab hbc
    exact hne.elim (· hsame) (· hsame.symm)

namespace Revision

variable {p : Program} {I : BlockState → Prop} {r r' r'' : Revision} {k v : ValueId} {a : Dep}
  {d : Derived}

/-- From the first revision to the second facts go up, and the outcome tells just which do. -/
structure Reports (r r' : Revision) : Prop where
  values_le : ∀ v, r.state.values.fact v ≤ r'.state.values.fact v
  get_le : ∀ d, r.state.get d ≤ r'.state.get d
  values : ∀ v, v ∈ r'.outcome.changedValues ↔
    v ∈ r.outcome.changedValues ∨ r.state.values.fact v ≠ r'.state.values.fact v
  instructions : ∃ n, r'.outcome.changedInstructions = r.outcome.changedInstructions + n ∧
    (n ≠ 0 ↔ ∃ i, r.state.get (.inst i) ≠ r'.state.get (.inst i))
  effects : r'.outcome.changedEffects ↔
    r.outcome.changedEffects ∨ ∃ d : Derived, d.IsEffect ∧ r.state.get d ≠ r'.state.get d

namespace Reports

/-- Nothing changes but the facts on entry and what is pending. -/
theorem of_eq (hvalues : r'.state.values = r.state.values) (hget : r'.state.get = r.state.get)
    (houtcome : r'.outcome = r.outcome) : r.Reports r' where
  values_le v := by rw [hvalues]
  get_le d := by rw [hget]
  values v := by simp [hvalues, houtcome]
  instructions := ⟨0, by rw [houtcome, Nat.add_zero], by simp [hget]⟩
  effects := by simp [hget, houtcome]

theorem trans (h : r.Reports r') (h' : r'.Reports r'') : r.Reports r'' where
  values_le v := (h.values_le v).trans (h'.values_le v)
  get_le d := (h.get_le d).trans (h'.get_le d)
  values v := by
    rw [h'.values, h.values, or_assoc, Fact.ne_iff_of_le (h.values_le v) (h'.values_le v)]
  instructions := by
    obtain ⟨n, hn, hne⟩ := h.instructions
    obtain ⟨m, hm, hme⟩ := h'.instructions
    refine ⟨n + m, by rw [hm, hn, Nat.add_assoc], ?_⟩
    simp only [Fact.ne_iff_of_le (h.get_le _) (h'.get_le _), exists_or, ← hne, ← hme]
    omega
  effects := by
    rw [h'.effects, h.effects, or_assoc]
    simp only [Fact.ne_iff_of_le (h.get_le _) (h'.get_le _), and_or_left, exists_or]

end Reports

theorem mem_valueChanged {u : ValueId} :
    u ∈ (r.valueChanged v).outcome.changedValues ↔ u ∈ r.outcome.changedValues ∨ v = u := by
  rw [valueChanged, or_comm]
  exact Std.ExtTreeSet.mem_insert.trans (by rw [Std.LawfulEqOrd.compare_eq_iff_eq])

/-- A value counts as changed if it has the derived fact and this one goes up. -/
theorem mem_changedValues_joinDerived (h : d.value? p = some v → r.state.values.fact v = r.state.get d) :
    v ∈ (r.joinDerived p a d).outcome.changedValues ↔
      v ∈ r.outcome.changedValues ∨ d.value? p = some v ∧ (r.state.get d).grows a := by
  cases d with
  | inst i =>
    simp only [joinDerived, joinInstruction, Derived.value?, isResult_eq, BlockState.get]
    by_cases hr : p.isAlloca i || !p.hasResult i
    · simp only [hr]
      split <;> simp
    · by_cases hgrows : (r.state.instructions.fact i).grows a
      · simp only [hr, hgrows]
        simpa using mem_valueChanged
      · simp [hgrows]
  | slot w =>
    simp only [joinDerived, joinSlot, Derived.value?, Option.some.injEq] at h ⊢
    by_cases hv : w = v
    · subst hv
      rw [← h rfl]
      split
      next hgrows => simp [mem_valueChanged, hgrows]
      next hgrows => simp [hgrows]
    · split
      · simp [mem_valueChanged, hv]
      · simp [hv]
  | _ => simp [joinDerived, effectChanged, Derived.value?]

theorem changedInstructions_joinDerived (r : Revision) (p : Program) (a : Dep) (d : Derived) :
    ∃ n, (r.joinDerived p a d).outcome.changedInstructions = r.outcome.changedInstructions + n ∧
      (n ≠ 0 ↔ (∃ i, d = .inst i) ∧ (r.state.get d).grows a) := by
  cases d with
  | inst i =>
    simp only [joinDerived, joinInstruction, BlockState.get, valueChanged]
    cases (r.state.instructions.fact i).grows a with
    | false => exact ⟨0, by simp, by simp⟩
    | true =>
      refine ⟨1, ?_, by simp⟩
      cases p.isAlloca i || !p.hasResult i <;> rfl
  | slot v =>
    refine ⟨0, ?_, by simp⟩
    simp only [joinDerived, joinSlot, valueChanged]
    split <;> rfl
  | _ => exact ⟨0, rfl, by simp⟩

theorem changedEffects_joinDerived : (r.joinDerived p a d).outcome.changedEffects ↔
    r.outcome.changedEffects ∨ d.IsEffect ∧ (r.state.get d).grows a := by
  cases d with
  | inst i =>
    simp only [joinDerived, joinInstruction, Derived.IsEffect, valueChanged]
    cases p.isAlloca i || !p.hasResult i <;> cases (r.state.instructions.fact i).grows a <;> simp
  | slot v =>
    simp only [joinDerived, joinSlot, Derived.IsEffect, valueChanged]
    split <;> simp
  | outArg v =>
    simp [joinDerived, effectChanged, Derived.IsEffect, BlockState.get, BlockState.effect?,
      Facts.fact_eq]
  | callArg arg =>
    simp [joinDerived, effectChanged, Derived.IsEffect, BlockState.get, BlockState.effect?,
      Facts.fact_eq]
  | returned =>
    simp [joinDerived, effectChanged, Derived.IsEffect, BlockState.get, BlockState.effect?]

theorem reports_joinDerived (hI : Stable p I) (hs : I r.state) (hd : d ∈ r.state.derivations.of k) :
    r.Reports (r.joinDerived p a d) := by
  have hget (e : Derived) := r.state.get_raise (p := p) (a := a) (d := d)
    (fun v hv => hI.slots _ k v hs (hv ▸ hd)) e
  have hvalue {v : ValueId} (hv : d.value? p = some v) : r.state.values[v]? = some (r.state.get d) :=
    hI.values _ k d v hs hd hv
  have hraised (v : ValueId) : (r.state.raise p a d).values.fact v =
      if d.value? p = some v then r.state.get d ⊔ a else r.state.values.fact v := by
    rw [Facts.fact_eq, BlockState.getElem?_values_raise hvalue]
    split
    · rfl
    · rw [← Facts.fact_eq]
  have hgrows : (r.state.get d).grows a ↔ r.state.get d ≠ r.state.get d ⊔ a := by
    rw [Fact.grows_iff, ne_eq, left_eq_sup]
  have hne (e : Derived) : r.state.get e ≠ (r.state.raise p a d).get e ↔
      e = d ∧ (r.state.get d).grows a := by
    rw [hget, hgrows]
    by_cases he : e = d
    · simp [he]
    · simp [he]
  constructor
  · intro v
    rw [state_joinDerived, hraised]
    split
    next hv => exact (Facts.fact_of_some (hvalue hv)).trans_le le_sup_left
    next => exact le_refl _
  · intro e
    rw [state_joinDerived, hget]
    split
    next he => exact he ▸ le_sup_left
    next => exact le_refl _
  · intro v
    rw [mem_changedValues_joinDerived fun hv => Facts.fact_of_some (hvalue hv), state_joinDerived,
      hraised, hgrows]
    apply or_congr_right
    split
    next hv => rw [Facts.fact_of_some (hvalue hv), and_iff_right hv]
    next hv => simp [hv]
  · obtain ⟨n, hn, hcount⟩ := changedInstructions_joinDerived r p a d
    refine ⟨n, hn, hcount.trans ?_⟩
    simp only [state_joinDerived, hne, exists_and_right, eq_comm]
  · rw [changedEffects_joinDerived, state_joinDerived]
    simp only [hne]
    apply or_congr_right
    constructor
    · exact fun h => ⟨d, h.1, rfl, h.2⟩
    · rintro ⟨e, he, rfl, hgrows⟩
      exact ⟨he, hgrows⟩

theorem reports_joinAll (hI : Stable p I) {ds : List Derived} (hs : I r.state)
    (hds : ∀ d ∈ ds, d ∈ r.state.derivations.of k) :
    I (ds.foldl (fun r d => r.joinDerived p a d) r).state ∧
      r.Reports (ds.foldl (fun r d => r.joinDerived p a d) r) := by
  induction ds generalizing r with
  | nil => exact ⟨hs, .of_eq rfl rfl rfl⟩
  | cons d ds ih =>
    have hd := hds d List.mem_cons_self
    have hraise : I (r.joinDerived p a d).state := by
      rw [state_joinDerived]
      exact hI.raise _ k a d hs hd
    have hrest : ∀ e ∈ ds, e ∈ (r.joinDerived p a d).state.derivations.of k := by
      rw [state_joinDerived, BlockState.derivations_raise]
      exact fun e he => hds e (.tail _ he)
    obtain ⟨hkept, hreports⟩ := ih hraise hrest
    exact ⟨hkept, (reports_joinDerived hI hs hd).trans hreports⟩

theorem reports_step (hI : Stable p I) (hs : I r.state) :
    I (r.step p).state ∧ r.Reports (r.step p) := by
  rw [step]
  split
  · exact ⟨hs, .of_eq rfl rfl rfl⟩
  next source fact rest _ =>
    let r₀ : Revision := { r with pending := rest, passed := r.passed ++ [source] }
    have hfirst : r.Reports r₀ := .of_eq rfl rfl rfl
    obtain ⟨hkept, hreports⟩ := reports_joinAll (r := r₀) (a := fact) hI hs fun _ hd => hd
    exact ⟨hkept, hfirst.trans hreports⟩

theorem reports_cascade (hI : Stable p I) (fuel : Nat) (hs : I r.state) :
    I (cascade p fuel r).state ∧ r.Reports (cascade p fuel r) := by
  induction fuel generalizing r with
  | zero => exact ⟨hs, .of_eq rfl rfl rfl⟩
  | succ fuel ih =>
    rw [cascade]
    split
    · exact ⟨hs, .of_eq rfl rfl rfl⟩
    · obtain ⟨hkept, hreports⟩ := reports_step hI hs
      obtain ⟨hkept', hreports'⟩ := ih hkept
      exact ⟨hkept', hreports.trans hreports'⟩

/-- A new fact on entry goes on to the end of the block where the block does not define the value. -/
theorem reports_entered (r : Revision) (v : ValueId) (a : Dep) : r.Reports (r.entered v a) := by
  have hget : (r.entered v a).state.get = r.state.get := by
    funext d
    rw [state_entered, BlockState.get_enter]
  by_cases hnew : (r.state.entry.fact v).grows a && !r.state.defined.contains v
  · have hvalues (u : ValueId) : (r.entered v a).state.values.fact u =
        if v = u then r.state.values.fact v ⊔ (r.state.entry.fact v ⊔ a)
        else r.state.values.fact u := by
      simp only [state_entered, BlockState.enter, hnew, if_true]
      exact Facts.fact_joinAt _ _ _ _
    have hchanged (u : ValueId) : u ∈ (r.entered v a).outcome.changedValues ↔
        u ∈ r.outcome.changedValues ∨
          v = u ∧ (r.state.values.fact v).grows (r.state.entry.fact v ⊔ a) := by
      simp only [entered, hnew, Bool.true_and]
      split
      next hgrows => simp [mem_valueChanged, hgrows]
      next hgrows => simp [hgrows]
    have hrest : (r.entered v a).outcome.changedInstructions = r.outcome.changedInstructions ∧
        (r.entered v a).outcome.changedEffects = r.outcome.changedEffects := by
      rw [entered]
      split <;> exact ⟨rfl, rfl⟩
    refine ⟨fun u => ?_, fun d => by rw [hget], fun u => ?_, ⟨0, hrest.1, by simp⟩,
      by simp [hrest.2]⟩
    · rw [hvalues]
      split
      next hu => exact hu ▸ le_sup_left
      next => exact le_refl _
    · rw [hchanged, hvalues]
      apply or_congr_right
      by_cases hu : v = u
      · subst hu
        rw [if_pos rfl, Fact.grows_iff, ne_eq, left_eq_sup]
        exact and_iff_right rfl
      · simp [hu]
  · exact .of_eq (by simp [BlockState.enter, hnew]) hget (by simp [entered, hnew])

theorem reports_joinEntry (hI : Stable p I) (hs : I r.state) (v : ValueId) (a : Dep) :
    I (r.joinEntry p v a).state ∧ r.Reports (r.joinEntry p v a) := by
  have hentered := reports_entered r v a
  rw [joinEntry_eq]
  split
  · have hopened : r.Reports (r.opened v a) := hentered.trans (.of_eq rfl rfl rfl)
    have hkept : I (r.opened v a).state := by
      rw [state_opened]
      exact hI.enter _ v a hs
    obtain ⟨hkept', hreports⟩ := reports_cascade hI _ hkept
    exact ⟨hkept', hopened.trans hreports⟩
  · refine ⟨?_, hentered⟩
    rw [state_entered]
    exact hI.enter _ v a hs

theorem reports_joinEntries (hI : Stable p I) (vs : List (ValueId × Dep)) (hs : I r.state) :
    r.Reports (vs.foldl (fun r v => r.joinEntry p v.1 v.2) r) := by
  induction vs generalizing r with
  | nil => exact .of_eq rfl rfl rfl
  | cons v vs ih =>
    obtain ⟨hkept, hreports⟩ := reports_joinEntry hI hs v.1 v.2
    exact hreports.trans (ih hkept)

end Revision

end InputFlow
