import InputFlow.Proofs.Block.Closure
import InputFlow.Proofs.Block.JoinSet
import InputFlow.Proofs.Block.Outcome

namespace InputFlow

/-- The form of an analysed block is kept by the steps of a revision. -/
theorem stable_shaped {env : Env} (b : BlockId) (hslots : env.SlotsAreStorage) :
    Stable env.program (Shaped env b) where
  enter _ _ _ h := h.enter
  raise _ k _ d h hd := h.raise hslots ((h.edges k d).1 hd)
  slots _ k v h hd := (h.mem_slots v).2 ((h.edges k _).1 hd).1
  values _ k d v h hd hv := by
    have hedge := (h.edges k d).1 hd
    rcases Derived.value?_eq_some.1 hv with ⟨rfl, hr⟩ | rfl
    · exact h.results v ⟨Shaped.inst_of_edge hedge, hr⟩
    · exact h.slots v hedge.1

/-- What a revision for the facts `M` makes of a block. -/
structure Revised (env : Env) (b : BlockId) (M : FactMap) (s t : BlockState) : Prop where
  steps : Steps env.program M s t
  shaped : Shaped env b t
  closed : Closed env b t
  entry : ∀ v, t.entry.fact v = s.entry.fact v ⊔ M.fact v
  mem_entry : ∀ v, v ∈ t.entry ↔ v ∈ s.entry ∨ v ∈ M
  /-- What counts as derived from a value stays above its fact on entry, if it was before. -/
  derived : ∀ k d, (env.outline b).Edge k d → s.entry.fact k ≤ s.get d → t.entry.fact k ≤ t.get d
  /-- New facts are joins of old ones and those of `M`. -/
  joined : ∀ J : JoinSet, s.StaysIn J → (∀ v, M.fact v ∈ J) → t.StaysIn J

namespace Revision

variable {env : Env} {b : BlockId} {M : FactMap} {s : BlockState} {r : Revision}

/-- A fact that is joined into derived ones is below them afterwards. -/
theorem le_joinAll (hslots : env.SlotsAreStorage) {k : ValueId} {a : Dep} {ds : List Derived}
    (hs : Shaped env b r.state) (hds : ∀ d ∈ ds, (env.outline b).Edge k d) (d : Derived) :
    r.state.get d ≤ (ds.foldl (fun r d => r.joinDerived env.program a d) r).state.get d ∧
      (d ∈ ds → a ≤ (ds.foldl (fun r d => r.joinDerived env.program a d) r).state.get d) := by
  induction ds generalizing r with
  | nil => simp
  | cons e ds ih =>
    have he := hds e List.mem_cons_self
    have hshaped : Shaped env b (r.joinDerived env.program a e).state := by
      rw [state_joinDerived]
      exact hs.raise hslots he
    obtain ⟨hmono, hle⟩ := ih hshaped fun d hd => hds d (List.mem_cons_of_mem e hd)
    have hget := hs.get_raise (a := a) he d
    rw [state_joinDerived, hget] at hmono
    rw [List.foldl_cons]
    split at hmono
    · subst_vars
      exact ⟨le_sup_left.trans hmono, fun _ => le_sup_right.trans hmono⟩
    · exact ⟨hmono, fun hd => hle ((List.mem_cons.1 hd).resolve_left ‹_›)⟩

/-- A fact that goes up on entry is below all that counts as derived from it. -/
theorem le_joinEntry (hslots : env.SlotsAreStorage) (hs : Shaped env b r.state) {v : ValueId} {a : Dep}
    {d : Derived} (hv : M[v]? = some a) (hgrows : (r.state.entry.fact v).grows a)
    (hd : (env.outline b).Edge v d) :
    r.state.entry.fact v ⊔ a ≤ (r.joinEntry env.program v a).state.get d := by
  have hshaped : Shaped env b (r.opened v a).state := by
    rw [state_opened]
    exact hs.enter
  have hmem : d ∈ (r.opened v a).state.derivations.of v := (hshaped.edges v d).2 hd
  have hstep : r.state.entry.fact v ⊔ a ≤ ((r.opened v a).step env.program).state.get d :=
    (le_joinAll (r := { r.entered v a with pending := [], passed := (r.entered v a).passed ++ [v] })
      hslots hshaped (fun d hd => (hshaped.edges v d).1 hd) d).2 hmem
  obtain ⟨hsteps, hsound⟩ := steps_step (r := r.opened v a) .refl (sound_opened r env.program hv)
  have hcascade := steps_cascade (Revision.derivedInstructions (r.entered v a).state.derivations *
    (occurringSources (r.state.entry.fact v ⊔ a) (r.entered v a).state.instructions + 2)) .refl hsound
  rw [joinEntry_eq, if_pos hgrows, bound, Nat.add_comm, cascade, if_neg (by simp [opened])]
  exact hstep.trans (hcascade.get_mono hslots (hsteps.shaped hslots hshaped) d)

/-- What holds before each fact of `M` is joined in, and after all. -/
structure Progress (env : Env) (b : BlockId) (M : FactMap) (s : BlockState) (r : Revision) : Prop where
  steps : Steps env.program M s r.state
  shaped : Shaped env b r.state
  closed : Closed env b r.state
  derived : ∀ k d, (env.outline b).Edge k d → s.entry.fact k ≤ s.get d →
    r.state.entry.fact k ≤ r.state.get d

theorem Progress.joinEntry (hslots : env.SlotsAreStorage) (h : r.Progress env b M s) {v : ValueId}
    {a : Dep} (hv : M[v]? = some a) : (r.joinEntry env.program v a).Progress env b M s := by
  have hsteps : Steps env.program M r.state (r.joinEntry env.program v a).state :=
    steps_joinEntry .refl hv
  refine ⟨steps_joinEntry h.steps hv, hsteps.shaped hslots h.shaped,
    closed_joinEntry hslots h.shaped h.closed hv, fun k d hd hle => ?_⟩
  have hold := (h.derived k d hd hle).trans (hsteps.get_mono hslots h.shaped d)
  rw [entry_joinEntry, BlockState.fact_entry_enter]
  split
  next hvk =>
    subst hvk
    by_cases hgrows : (r.state.entry.fact v).grows a
    · exact le_joinEntry hslots h.shaped hv hgrows hd
    · rwa [Fact.sup_eq_of_not_grows (by simpa using hgrows)]
  next => exact hold

theorem Progress.joinEntries (hslots : env.SlotsAreStorage) {vs : List (ValueId × Dep)}
    (hvs : ∀ v ∈ vs, M[v.1]? = some v.2) (h : r.Progress env b M s) :
    (vs.foldl (fun r v => r.joinEntry env.program v.1 v.2) r).Progress env b M s := by
  induction vs generalizing r with
  | nil => exact h
  | cons u vs ih =>
    exact ih (fun v hv => hvs v (.tail _ hv)) (h.joinEntry hslots (hvs u List.mem_cons_self))

end Revision

/-- A revision joins the new facts into those on entry and keeps the block closed. Afterwards some
derivations may be forgotten. -/
theorem revised_revise {env : Env} {b : BlockId} {s : BlockState} (hslots : env.SlotsAreStorage)
    (hs : Shaped env b s) (hc : Closed env b s) (hopen : s.isFinal = false) (preds : List FactMap)
    (initial : FactMap) (release : Bool) :
    ∃ t D, Revised env b (BlockState.mergedEntry preds initial) s t ∧
      (release = false → D = t.derivations) ∧
      (s.revise env.program preds initial release).1 = { t with derivations := D } ∧
      ((s.revise env.program preds initial release).2.exitChanged = false ↔
        ∀ v, t.values.fact v = s.values.fact v) ∧
      ∀ v, s.values.fact v ≤ t.values.fact v := by
  let M := BlockState.mergedEntry preds initial
  let r := s.revision env.program M
  have hstart : ({ state := s } : Revision).Progress env b M s :=
    ⟨.refl, hs, hc, fun _ _ _ => id⟩
  have hr : r.Progress env b M s := hstart.joinEntries hslots fun _ hv =>
    Std.ExtTreeMap.mem_toList_iff_getElem?_eq_some.1 hv
  have hreports : ({ state := s } : Revision).Reports r :=
    Revision.reports_joinEntries (stable_shaped b hslots) _ hs
  have hentry : r.state.entry = s.entry.join M := s.entry_revision env.program M
  have hrevised : Revised env b M s r.state := by
    refine ⟨hr.steps, hr.shaped, hr.closed, fun v => ?_, fun v => ?_, hr.derived,
      fun J hs hM => ?_⟩
    · rw [hentry, Facts.fact_join]
    · rw [hentry, Facts.mem_join]
    · refine (Revision.StaysIn.joinEntries (r := { state := s }) ⟨hs, by simp⟩ ?_).state
      intro v hv
      rw [← Facts.fact_of_some (Std.ExtTreeMap.mem_toList_iff_getElem?_eq_some.1 hv)]
      exact hM v.1
  have hexit : r.outcome.exitChanged = false ↔ ∀ v, r.state.values.fact v = s.values.fact v := by
    have hchanged (v : ValueId) : v ∈ r.outcome.changedValues ↔
        s.values.fact v ≠ r.state.values.fact v := by simpa using hreports.values v
    rw [Outcome.exitChanged, Bool.not_eq_false', Std.ExtTreeSet.isEmpty_iff,
      Std.ExtTreeSet.eq_empty_iff_forall_not_mem]
    simp only [hchanged, not_not]
    exact forall_congr' fun v => eq_comm
  rw [BlockState.revise_eq hopen]
  cases release with
  | false => exact ⟨r.state, _, hrevised, fun _ => rfl, rfl, hexit, hreports.values_le⟩
  | true => exact ⟨r.state, _, hrevised, by simp, rfl, hexit, hreports.values_le⟩

end InputFlow
