import InputFlow.Proofs.Block.Cascade

namespace InputFlow

/-- Every derived fact of the block is above what its formula says. -/
def Closed (env : Env) (b : BlockId) (s : BlockState) : Prop :=
  ∀ f d, (env.outline b).Defines f d → f.eval s.origin ≤ (s.get d).settle

theorem closed_iff {env : Env} {b : BlockId} {s : BlockState} :
    Closed env b s ↔ ∀ f d, (env.outline b).Defines f d →
      f.base ≤ (s.get d).settle ∧ ∀ o ∈ f.origins, s.origin o ≤ (s.get d).settle := by
  simp only [Closed, Formula.eval_le_iff]

namespace Env

variable {env : Env} {b : BlockId} {f : Formula} {d : Derived} {o : Origin}

theorem edge_of_origin (hf : (env.outline b).Defines f d) (ho : o ∈ f.origins) :
    (env.outline b).Edge o.value d := by
  have hsource : o.value ∈ f.sources := List.mem_map_of_mem ho
  have heffect (d : Derived) (h : f = (env.outline b).effect d) :
      o.value ∈ ((env.outline b).effect d).sources := h ▸ hsource
  cases d with
  | inst i => exact mem_reads.2 ⟨f, hf, Or.inl hsource⟩
  | slot v => exact ⟨hf.1, hf.2 ▸ hsource⟩
  | outArg v => exact heffect _ hf
  | callArg arg => exact heffect _ hf
  | returned => exact heffect _ hf

/-- What holds of all origins of an outline holds of those of every derived fact. -/
theorem originsIn_defines (hslots : env.SlotsAreStorage) {P : Origin → Prop}
    (h : (env.outline b).OriginsIn env.program P) (hf : (env.outline b).Defines f d)
    (ho : o ∈ f.origins) : P o := by
  have heffect (d : Derived) (hd : f = (env.outline b).effect d) : P o := by
    obtain ⟨g, hg, ho⟩ := Outline.mem_effect_origins.1 (hd ▸ ho)
    exact h.effects _ hg _ ho
  cases d with
  | inst i => exact h.rules _ hf _ ho
  | slot v =>
    obtain ⟨hv, rfl⟩ := hf
    exact h.content v (isStorage_of_written hslots v hv) _ ho
  | outArg v => exact heffect _ hf
  | callArg arg => exact heffect _ hf
  | returned => exact heffect _ hf

theorem defines_of_result (hslots : env.SlotsAreStorage) {k : ValueId}
    (hf : (env.outline b).Defines f d) (ho : .result k ∈ f.origins) : env.program.Defines b k :=
  originsIn_defines hslots (originsIn_results hslots (env.program.instructions b)) hf ho k rfl

end Env

namespace Revision

variable {env : Env} {b : BlockId} {M : FactMap} {r : Revision} {k : ValueId} {a : Dep} {d : Derived}

/-- What holds while the consequences of `a`, a fact of `k`, are drawn for `ds`: an origin that a
derived fact is not above is pending, or its turn among `ds` is to come. -/
def Covers (env : Env) (b : BlockId) (r : Revision) (k : ValueId) (a : Dep) (ds : List Derived) :
    Prop :=
  ∀ f d, (env.outline b).Defines f d → ∀ o ∈ f.origins,
    r.state.origin o ≤ (r.state.get d).settle ∨
      (∃ c, (o.value, c) ∈ r.pending ∧ r.state.origin o ≤ c.settle) ∨
        o.value = k ∧ r.state.origin o ≤ a.settle ∧ d ∈ ds

theorem Covers.joinDerived (hslots : env.SlotsAreStorage) {ds : List Derived}
    (hs : Shaped env b r.state) (hd : (env.outline b).Edge k d) (h : r.Covers env b k a (d :: ds)) :
    (r.joinDerived env.program a d).Covers env b k a ds := by
  intro f d' hf o ho
  have hget := hs.get_raise (a := a) hd d'
  have hmono : r.state.get d' ≤ (r.state.raise env.program a d).get d' := by
    rw [hget]
    split
    · subst_vars
      exact le_sup_left
    · exact le_refl _
  rw [state_joinDerived, pending_joinDerived]
  -- a result that goes up becomes pending, and all other origins stay as they are
  have hsame : (r.state.raise env.program a d).origin o = r.state.origin o ∨
      (o.value, (r.state.raise env.program a d).origin o) ∈ r.news env.program a d := by
    cases o with
    | entry v =>
      left
      simp [BlockState.origin]
    | result i =>
      have hi := Env.defines_of_result hslots hf ho
      by_cases hdi : d = .inst i
      · subst hdi
        have hfact : (r.state.raise env.program a (.inst i)).origin (.result i) =
            r.state.instructions.fact i ⊔ a := by
          simp [BlockState.origin, BlockState.raise, Facts.fact_insert]
        by_cases hg : (r.state.instructions.fact i).grows a
        · right
          simp [hfact, news, hi.2, hg, Origin.value]
        · left
          rw [hfact, Fact.sup_eq_of_not_grows (by simpa using hg)]
          rfl
      · left
        have hne : Derived.inst i ≠ d := Ne.symm hdi
        have hinst := hs.get_raise (a := a) hd (.inst i)
        rw [if_neg hne] at hinst
        exact hinst
  rcases hsame with hsame | hnew
  · rw [hsame]
    rcases h f d' hf o ho with hle | ⟨c, hc, hle⟩ | ⟨hk, hle, hmem⟩
    · exact Or.inl (hle.trans (Fact.settle_mono hmono))
    · exact Or.inr (Or.inl ⟨c, List.mem_append_left _ hc, hle⟩)
    · rcases List.mem_cons.1 hmem with rfl | hmem
      · left
        rw [hget, if_pos rfl]
        exact hle.trans (Fact.settle_mono le_sup_right)
      · exact Or.inr (Or.inr ⟨hk, hle, hmem⟩)
  · exact Or.inr (Or.inl ⟨_, List.mem_append_right _ hnew, Fact.le_settle _⟩)

theorem Covers.joinAll (hslots : env.SlotsAreStorage) {ds : List Derived}
    (hs : Shaped env b r.state) (hds : ∀ d ∈ ds, (env.outline b).Edge k d)
    (h : r.Covers env b k a ds) :
    (ds.foldl (fun r d => r.joinDerived env.program a d) r).Covers env b k a [] := by
  induction ds generalizing r with
  | nil => exact h
  | cons d ds ih =>
    have hd := hds d List.mem_cons_self
    refine ih ?_ (fun e he => hds e (List.mem_cons_of_mem d he)) (h.joinDerived hslots hs hd)
    rw [state_joinDerived]
    exact hs.raise hslots hd

/-- An origin that a derived fact is not above is pending. -/
def Covered (env : Env) (b : BlockId) (r : Revision) : Prop :=
  ∀ f d, (env.outline b).Defines f d → ∀ o ∈ f.origins,
    r.state.origin o ≤ (r.state.get d).settle ∨
      ∃ c, (o.value, c) ∈ r.pending ∧ r.state.origin o ≤ c.settle

theorem Covered.step (hslots : env.SlotsAreStorage) (hs : Shaped env b r.state)
    (h : r.Covered env b) : (r.step env.program).Covered env b := by
  rw [Revision.step]
  split
  · exact h
  · rename_i source fact rest hpending
    have hds : ∀ d ∈ r.state.derivations.of source, (env.outline b).Edge source d :=
      fun d hd => (hs.edges source d).1 hd
    let r₀ : Revision := { r with pending := rest, passed := r.passed ++ [source] }
    have hcovers : r₀.Covers env b source fact (r.state.derivations.of source) := by
      intro f d hf o ho
      rcases h f d hf o ho with hle | ⟨c, hc, hle⟩
      · exact Or.inl hle
      · rw [hpending] at hc
        rcases List.mem_cons.1 hc with heq | hc
        · obtain ⟨hk, rfl⟩ := Prod.mk.inj heq
          refine Or.inr (Or.inr ⟨hk, hle, (hs.edges source d).2 ?_⟩)
          rw [← hk]
          exact Env.edge_of_origin hf ho
        · exact Or.inr (Or.inl ⟨c, hc, hle⟩)
    intro f d hf o ho
    rcases hcovers.joinAll (r := r₀) hslots hs hds f d hf o ho with hle | hc | ⟨-, -, hd⟩
    · exact Or.inl hle
    · exact Or.inr hc
    · simp at hd

theorem Covered.cascade (hslots : env.SlotsAreStorage) (fuel : Nat) (hs : Shaped env b r.state)
    (hr : r.Sound env.program M) (h : r.Covered env b) :
    (cascade env.program fuel r).Covered env b := by
  induction fuel generalizing r with
  | zero => exact h
  | succ fuel ih =>
    rw [Revision.cascade]
    split
    · exact h
    · obtain ⟨hsteps, hsound⟩ := steps_step (s := r.state) .refl hr
      exact ih (hsteps.shaped hslots hs) hsound (h.step hslots hs)

/-- Joining a fact into one on entry, with all consequences, keeps the block closed. -/
theorem closed_joinEntry (hslots : env.SlotsAreStorage) (hs : Shaped env b r.state)
    (h : Closed env b r.state) {v : ValueId} (hv : M[v]? = some a) :
    Closed env b (r.joinEntry env.program v a).state := by
  have horigin {o : Origin} (ho : o ≠ .entry v) :
      (r.state.enter v a).origin o = r.state.origin o := by
    cases o with
    | entry u =>
      simp only [BlockState.origin, BlockState.fact_entry_enter]
      exact if_neg fun huv => ho (by rw [huv])
    | result i => rfl
  rw [joinEntry_eq]
  split
  · -- only the fact on entry went up, and it is pending
    have hcovered : (r.opened v a).Covered env b := by
      intro f d hf o ho
      rw [state_opened, BlockState.get_enter]
      by_cases hov : o = .entry v
      · subst hov
        refine Or.inr ⟨r.state.entry.fact v ⊔ a, by simp [opened, Origin.value], ?_⟩
        simp only [BlockState.origin, BlockState.fact_entry_enter, if_true]
        exact Fact.le_settle _
      · rw [horigin hov]
        exact Or.inl ((closed_iff.1 h f d hf).2 o ho)
    have hsound := sound_opened r env.program hv
    have hshaped : Shaped env b (r.opened v a).state := by
      rw [state_opened]
      exact hs.enter
    have hfinal := hcovered.cascade hslots ((r.entered v a).bound (r.state.entry.fact v ⊔ a))
      hshaped hsound
    have hsteps := steps_cascade ((r.entered v a).bound (r.state.entry.fact v ⊔ a))
      .refl hsound
    have hpending := pending_spread (r.entered v a) env.program v (r.state.entry.fact v ⊔ a)
    refine closed_iff.2 fun f d hf => ⟨?_, fun o ho => ?_⟩
    · refine (closed_iff.1 h f d hf).1.trans (Fact.settle_mono ?_)
      have hmono := hsteps.get_mono hslots hshaped d
      rwa [state_opened, BlockState.get_enter] at hmono
    · rcases hfinal f d hf o ho with hle | ⟨c, hc, -⟩
      · exact hle
      · rw [spread] at hpending
        rw [opened, hpending] at hc
        simp at hc
  · rename_i hgrows
    rw [state_entered]
    have hsame (o : Origin) : (r.state.enter v a).origin o = r.state.origin o := by
      by_cases hov : o = .entry v
      · subst hov
        simp only [BlockState.origin, BlockState.fact_entry_enter, if_true]
        exact Fact.sup_eq_of_not_grows (by simpa using hgrows)
      · exact horigin hov
    refine closed_iff.2 fun f d hf => ?_
    simp only [hsame, BlockState.get_enter]
    exact closed_iff.1 h f d hf

end Revision

end InputFlow
