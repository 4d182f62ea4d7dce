import InputFlow.Proofs.Block.Cascade
import InputFlow.Proofs.Block.Coherence

namespace InputFlow

attribute [ext] BlockState

namespace BlockState

/-- The facts of values that are not what they are in `s`, when `E` are the facts on entry and `X`
the derived ones. -/
inductive New (s : BlockState) (p : Program) (E : FactMap) (X : Derived → Dep) : ValueId → Dep → Prop
  | entry {k : ValueId} (h : E.fact k ≠ s.entry.fact k) : New s p E X k (E.fact k)
  | result {k : ValueId} (hr : p.isResult k) (h : X (.inst k) ≠ s.get (.inst k)) :
    New s p E X k (X (.inst k))

/-- Derived facts that are above those of `s`, and above every new fact that they were derived from. -/
structure Absorbs (s : BlockState) (p : Program) (E : FactMap) (X : Derived → Dep) : Prop where
  le : ∀ d, s.get d ≤ X d
  new : ∀ k a, s.New p E X k a → ∀ d ∈ s.derivations.of k, a ≤ X d

end BlockState

/-- The second state differs from the first in that facts have gone up, in the places where they
stood. A value at the end that has no derived fact has gone up with its fact on entry. -/
structure Extends (p : Program) (s t : BlockState) : Prop where
  block : t.block = s.block
  defined : t.defined = s.defined
  derivations : t.derivations = s.derivations
  isFinal : t.isFinal = s.isFinal
  warnings : t.warnings = s.warnings
  has : ∀ d, t.Has d ↔ s.Has d
  keys : ∀ v : ValueId, t.slots[v]?.map (·.keys) = s.slots[v]?.map (·.keys)
  entry_le : ∀ v, s.entry.fact v ≤ t.entry.fact v
  get_le : ∀ d, s.get d ≤ t.get d
  values : ∀ v : ValueId, (∀ d, s.Has d → d.value? p ≠ some v) → t.values[v]? =
    if t.entry.fact v ≠ s.entry.fact v ∧ v ∉ s.defined then some (s.values.fact v ⊔ t.entry.fact v)
    else s.values[v]?

namespace Extends

variable {env : Env} {b : BlockId} {p : Program} {s t u : BlockState} {k v : ValueId} {a : Dep}
  {d : Derived}

theorem refl (p : Program) (s : BlockState) : Extends p s s where
  block := rfl
  defined := rfl
  derivations := rfl
  isFinal := rfl
  warnings := rfl
  has _ := Iff.rfl
  keys _ := rfl
  entry_le _ := le_refl _
  get_le _ := le_refl _
  values v _ := by simp

theorem trans (h : Extends p s t) (h' : Extends p t u) : Extends p s u where
  block := h'.block.trans h.block
  defined := h'.defined.trans h.defined
  derivations := h'.derivations.trans h.derivations
  isFinal := h'.isFinal.trans h.isFinal
  warnings := h'.warnings.trans h.warnings
  has d := (h'.has d).trans (h.has d)
  keys v := (h'.keys v).trans (h.keys v)
  entry_le v := (h.entry_le v).trans (h'.entry_le v)
  get_le d := (h.get_le d).trans (h'.get_le d)
  values v hv := by
    have hfirst := h.values v hv
    have hsecond := h'.values v fun d hd => hv d ((h.has d).1 hd)
    rw [h.defined] at hsecond
    by_cases hdefined : v ∈ s.defined
    · simp only [hdefined, not_true_eq_false, and_false, if_false] at hfirst hsecond ⊢
      rw [hsecond, hfirst]
    · simp only [hdefined, not_false_eq_true, and_true] at hfirst hsecond ⊢
      by_cases hsame : u.entry.fact v = t.entry.fact v
      · rw [hsecond, if_neg (not_not.2 hsame), hfirst, hsame]
      · have hne : u.entry.fact v ≠ s.entry.fact v := by
          intro heq
          exact hsame (le_antisymm (heq ▸ h.entry_le v) (h'.entry_le v))
        rw [hsecond, if_pos hsame, if_pos hne, Facts.fact_eq t.values, hfirst]
        split
        · rw [Option.getD_some, sup_assoc, sup_of_le_right (h'.entry_le v)]
        · rw [← Facts.fact_eq]

theorem raise (h : Complete env b s)
    (hd : d ∈ s.derivations.of k) : Extends env.program s (s.raise env.program a d) where
  block := by cases d <;> rfl
  defined := s.defined_raise
  derivations := s.derivations_raise
  isFinal := s.isFinal_raise
  warnings := by cases d <;> rfl
  has e := by
    rw [h.has_raise hd]
    exact or_iff_right_of_imp fun he => he ▸ h.has hd
  keys v := by
    cases d with
    | slot w =>
      simp only [BlockState.raise, Std.ExtTreeMap.getElem?_modify]
      split
      next hw =>
        rw [Std.LawfulEqOrd.compare_eq_iff_eq.1 hw]
        cases s.slots[v]? <;> rfl
      next => rfl
    | _ => rfl
  entry_le v := by rw [BlockState.entry_raise]
  get_le e := by
    rw [h.get_raise hd]
    split
    next he =>
      rw [he]
      exact le_sup_left
    next => exact le_refl _
  values v hv := by
    have hother := hv d (h.has hd)
    rw [BlockState.getElem?_values_raise fun hvd => absurd hvd hother, if_neg hother]
    simp

theorem enter (s : BlockState) (p : Program) (v : ValueId) (a : Dep) : Extends p s (s.enter v a) where
  block := rfl
  defined := rfl
  derivations := rfl
  isFinal := rfl
  warnings := rfl
  has d := by cases d <;> rfl
  keys _ := rfl
  entry_le u := by
    rw [BlockState.fact_entry_enter]
    split
    next hvu =>
      rw [hvu]
      exact le_sup_left
    next => exact le_refl _
  get_le d := by rw [BlockState.get_enter]
  values u _ := by
    rw [BlockState.fact_entry_enter]
    by_cases hvu : v = u ∧ u ∉ s.defined
    · obtain ⟨rfl, hdefined⟩ := hvu
      have hcontains : s.defined.contains v = false :=
        Bool.eq_false_iff.2 fun hc => hdefined (Std.ExtTreeSet.contains_iff_mem.1 hc)
      by_cases hgrows : (s.entry.fact v).grows a
      · have hne : ¬ s.entry.fact v ⊔ a = s.entry.fact v :=
          fun heq => Fact.grows_iff.1 hgrows (sup_eq_left.1 heq)
        simp [BlockState.enter, hgrows, hcontains, hne, hdefined, Facts.joinAt]
      · simp [BlockState.enter, hgrows, Fact.sup_eq_of_not_grows (by simpa using hgrows)]
    · rw [Shaped.getElem?_values_enter fun heq => not_not.1 fun hu => hvu ⟨heq, hu⟩, if_neg]
      rintro ⟨hne, hu⟩
      rw [if_neg fun heq => hvu ⟨heq, hu⟩] at hne
      exact hne rfl

end Extends

/-- The second state has the least facts that the new facts on entry make of the first. They do not
depend on the order in which facts become pending. -/
structure Settles (p : Program) (s t : BlockState) : Prop extends Extends p s t where
  absorbs : s.Absorbs p t.entry t.get
  least : ∀ X, s.Absorbs p t.entry X → ∀ d, t.get d ≤ X d

namespace Settles

variable {env : Env} {b : BlockId} {p : Program} {s t u : BlockState}

/-- Nothing is new if no fact on entry has changed. -/
theorem of_entry_eq (h : Extends p s t) (hentry : ∀ v, t.entry.fact v = s.entry.fact v)
    (hget : ∀ d, t.get d = s.get d) : Settles p s t where
  toExtends := h
  absorbs := by
    refine ⟨fun d => (hget d).ge, fun k a ha => ?_⟩
    cases ha with
    | entry hk => exact absurd (hentry k) hk
    | result _ hk => exact absurd (hget (.inst k)) hk
  least X hX d := (hget d).le.trans (hX.le d)

/-- What has settled twice has settled. -/
theorem trans (h : Settles p s t) (h' : Settles p t u) : Settles p s u where
  toExtends := h.toExtends.trans h'.toExtends
  absorbs := by
    refine ⟨fun d => (h.get_le d).trans (h'.get_le d), fun k a ha d hd => ?_⟩
    have hd' : d ∈ t.derivations.of k := h.derivations ▸ hd
    -- a fact that is not new in the second step was new in the first
    cases ha with
    | entry hk =>
      by_cases hsame : u.entry.fact k = t.entry.fact k
      · rw [hsame] at hk ⊢
        exact (h.absorbs.new k _ (.entry hk) d hd).trans (h'.get_le d)
      · exact h'.absorbs.new k _ (.entry hsame) d hd'
    | result hr hk =>
      by_cases hsame : u.get (.inst k) = t.get (.inst k)
      · rw [hsame] at hk ⊢
        exact (h.absorbs.new k _ (.result hr hk) d hd).trans (h'.get_le d)
      · exact h'.absorbs.new k _ (.result hr hsame) d hd'
  least X hX := by
    have hne {a c e : Dep} (hac : a ≤ c) (hce : c ≤ e) (h : c ≠ a ∨ e ≠ c) : e ≠ a := by
      intro hea
      subst hea
      exact h.elim (· (le_antisymm hce hac)) (· (le_antisymm hac hce))
    have hfirst : ∀ d, t.get d ≤ X d := by
      apply h.least X
      refine ⟨hX.le, fun k a ha d hd => ?_⟩
      cases ha with
      | entry hk =>
        have hnew := hne (h.entry_le k) (h'.entry_le k) (.inl hk)
        exact (h'.entry_le k).trans (hX.new k _ (.entry hnew) d hd)
      | result hr hk => exact hX.new k _ (.result hr hk) d hd
    apply h'.least X
    refine ⟨hfirst, fun k a ha d hd => ?_⟩
    rw [h.derivations] at hd
    cases ha with
    | entry hk =>
      exact hX.new k _ (.entry (hne (h.entry_le k) (h'.entry_le k) (.inr hk))) d hd
    | result hr hk =>
      exact hX.new k _ (.result hr (hne (h.get_le _) (hfirst _) (.inr hk))) d hd

/-- A block settles on the same state whenever its facts on entry become the same. -/
theorem unique (h : Settles env.program s t) (h' : Settles env.program s u)
    (ht : Complete env b t)
    (hu : Complete env b u) (hentry : t.entry = u.entry) :
    t = u := by
  have hget (d : Derived) : t.get d = u.get d :=
    le_antisymm (h.least u.get (hentry ▸ h'.absorbs) d) (h'.least t.get (hentry ▸ h.absorbs) d)
  have hhas (d : Derived) : t.Has d ↔ u.Has d := (h.has d).trans (h'.has d).symm
  have heffect (d : Derived) (hd : d.IsEffect) : t.effect? d = u.effect? d := by
    have hoption {o o' : Option Dep} (hsome : o.isSome ↔ o'.isSome)
        (hfact : o.getD .unknown = o'.getD .unknown) : o = o' := by
      cases o <;> cases o' <;> simp_all
    cases d with
    | inst i => exact hd.elim
    | slot v => exact hd.elim
    | outArg v => exact hoption (hhas (.outArg v)) (hget (.outArg v))
    | callArg arg => exact hoption (hhas (.callArg arg)) (hget (.callArg arg))
    | returned => exact hoption (hhas .returned) (hget .returned)
  apply BlockState.ext
  · rw [h.block, h'.block]
  · exact hentry
  · apply Std.ExtTreeMap.ext_getElem?
    intro v
    by_cases hv : ∃ d, s.Has d ∧ d.value? env.program = some v
    · obtain ⟨d, hd, hvd⟩ := hv
      rw [(ht.value ((h.has d).2 hd) hvd).2, (hu.value ((h'.has d).2 hd) hvd).2, hget]
    · have hnone : ∀ d, s.Has d → d.value? env.program ≠ some v :=
        fun d hd hvd => hv ⟨d, hd, hvd⟩
      rw [h.values v hnone, h'.values v hnone, hentry]
  · exact Facts.eq_of_fact_eq (fun i => hhas (.inst i)) fun i => hget (.inst i)
  · exact Std.ExtTreeMap.ext_getElem? fun v => heffect (.outArg v) trivial
  · exact Std.ExtTreeMap.ext_getElem? fun arg => heffect (.callArg arg) trivial
  · exact heffect .returned trivial
  · apply Std.ExtTreeMap.ext_getElem?
    intro v
    have hkeys := (h.keys v).trans (h'.keys v).symm
    have hfact := hget (.slot v)
    simp only [BlockState.get] at hfact
    cases ht : t.slots[v]? with
    | none => cases hu : u.slots[v]? <;> simp_all
    | some x =>
      cases hu : u.slots[v]? with
      | none => simp_all
      | some y =>
        obtain ⟨fact, keys⟩ := x
        obtain ⟨fact', keys'⟩ := y
        simp_all
  · rw [h.defined, h'.defined]
  · rw [h.derivations, h'.derivations]
  · rw [h.isFinal, h'.isFinal]
  · rw [h.warnings, h'.warnings]

end Settles

namespace Revision

variable {env : Env} {b : BlockId} {s : BlockState} {r : Revision} {k v : ValueId} {a : Dep}
  {d : Derived} {ds : List Derived}

/-- That the fact `c` of `j` is still to be joined into `d`: it is pending, or it is `a`, the fact of
`k` whose consequences are being drawn, and `ds` are those left. -/
def Due (r : Revision) (k : ValueId) (a : Dep) (ds : List Derived) (j : ValueId) (c : Dep)
    (d : Derived) : Prop :=
  ((j, c) ∈ r.pending ∧ d ∈ r.state.derivations.of j) ∨ (j, c) = (k, a) ∧ d ∈ ds

/-- What holds while the consequences of new facts are drawn: nothing goes beyond what must be
absorbed, and what has not been absorbed is due. -/
structure Drawing (env : Env) (b : BlockId) (s : BlockState) (r : Revision) (k : ValueId) (a : Dep)
    (ds : List Derived) : Prop where
  frame : Extends env.program s r.state
  complete : Complete env b r.state
  left : ∀ d ∈ ds, d ∈ r.state.derivations.of k
  bounded : ∀ X, s.Absorbs env.program r.state.entry X →
    (∀ d, r.state.get d ≤ X d) ∧ ∀ j c d, r.Due k a ds j c d → c ≤ X d
  covered : ∀ j c, s.New env.program r.state.entry r.state.get j c → ∀ d ∈ s.derivations.of j,
    c ≤ r.state.get d ∨ ∃ c', c ≤ c' ∧ r.Due k a ds j c' d

theorem Due.joinDerived {p : Program} {j : ValueId} {c : Dep} {e : Derived}
    (h : r.Due k a (d :: ds) j c e) :
    (r.joinDerived p a d).Due k a ds j c e ∨ c = a ∧ e = d := by
  rw [Due, state_joinDerived, pending_joinDerived, BlockState.derivations_raise]
  rcases h with h | ⟨hjc, he⟩
  · exact .inl (.inl ⟨List.mem_append_left _ h.1, h.2⟩)
  · rcases List.mem_cons.1 he with he | he
    · exact .inr ⟨(Prod.mk.inj hjc).2, he⟩
    · exact .inl (.inr ⟨hjc, he⟩)

namespace Drawing

theorem bounded_joinDerived (h : r.Drawing env b s k a (d :: ds)) {X : Derived → Dep}
    (hX : s.Absorbs env.program r.state.entry X) :
    (∀ e, (r.state.raise env.program a d).get e ≤ X e) ∧
      ∀ j c e, (r.joinDerived env.program a d).Due k a ds j c e → c ≤ X e := by
  obtain ⟨hle, hdue⟩ := h.bounded X hX
  have ha : a ≤ X d := hdue k a d (.inr ⟨rfl, List.mem_cons_self⟩)
  constructor
  · intro e
    rw [h.complete.get_raise (h.left d List.mem_cons_self)]
    split
    next he =>
      rw [he]
      exact sup_le (hle d) ha
    next => exact hle e
  · intro j c e he
    rw [Due, state_joinDerived, pending_joinDerived, BlockState.derivations_raise] at he
    rcases he with ⟨hjc, he⟩ | ⟨hjc, he⟩
    · rcases List.mem_append.1 hjc with hjc | hjc
      · exact hdue j c e (.inl ⟨hjc, he⟩)
      · -- the result has gone up, and so it is new in whatever absorbs the new facts
        obtain ⟨rfl, hr, hgrows, rfl⟩ := mem_news.1 hjc
        have hc : r.state.get (.inst j) ⊔ a ≤ X (.inst j) := sup_le (hle _) ha
        have hne : X (.inst j) ≠ s.get (.inst j) := by
          intro heq
          have hback := (le_sup_right.trans hc).trans (heq ▸ h.frame.get_le (.inst j))
          exact Fact.grows_iff.1 hgrows hback
        rw [h.frame.derivations] at he
        exact hc.trans (hX.new j _ (.result hr hne) e he)
    · exact hdue j c e (.inr ⟨hjc, .tail _ he⟩)

theorem covered_joinDerived (h : r.Drawing env b s k a (d :: ds)) {j : ValueId} {c : Dep}
    (hnew : s.New env.program r.state.entry (r.state.raise env.program a d).get j c) {e : Derived}
    (he : e ∈ s.derivations.of j) : c ≤ (r.state.raise env.program a d).get e ∨
      ∃ c', c ≤ c' ∧ (r.joinDerived env.program a d).Due k a ds j c' e := by
  have hd := h.left d List.mem_cons_self
  have hget := h.complete.get_raise (a := a) hd
  have hold (hnew : s.New env.program r.state.entry r.state.get j c) :
      c ≤ (r.state.raise env.program a d).get e ∨
        ∃ c', c ≤ c' ∧ (r.joinDerived env.program a d).Due k a ds j c' e := by
    rcases h.covered j c hnew e he with hle | ⟨c', hle, hc'⟩
    · exact .inl (hle.trans ((Extends.raise h.complete hd).get_le e))
    · rcases hc'.joinDerived with hc' | ⟨rfl, rfl⟩
      · exact .inr ⟨c', hle, hc'⟩
      · rw [hget, if_pos rfl]
        exact .inl (le_sup_of_le_right hle)
  cases hnew with
  | entry hj => exact hold (.entry hj)
  | result hr hj =>
    by_cases hsame : (r.state.raise env.program a d).get (.inst j) = r.state.get (.inst j)
    · rw [hsame] at hj hold ⊢
      exact hold (.result hr hj)
    · -- the result has gone up in this step, and is pending
      have hjd : .inst j = d := by
        by_contra hjd
        exact hsame ((hget _).trans (if_neg hjd))
      subst hjd
      rw [hget, if_pos rfl] at hsame ⊢
      have hgrows : (r.state.get (.inst j)).grows a :=
        Fact.grows_iff.2 fun hle => hsame (sup_eq_left.2 hle)
      refine .inr ⟨_, le_refl _, .inl ⟨?_, ?_⟩⟩
      · rw [pending_joinDerived]
        exact List.mem_append_right _ (mem_news.2 ⟨rfl, hr, hgrows, rfl⟩)
      · rwa [state_joinDerived, BlockState.derivations_raise, h.frame.derivations]

theorem joinDerived (h : r.Drawing env b s k a (d :: ds)) :
    (r.joinDerived env.program a d).Drawing env b s k a ds := by
  have hd : d ∈ r.state.derivations.of k := h.left d List.mem_cons_self
  have hstate := state_joinDerived r env.program a d
  refine ⟨?_, ?_, ?_, ?_, ?_⟩
  · rw [hstate]
    exact h.frame.trans (.raise h.complete hd)
  · rw [hstate]
    exact h.complete.raise hd
  · rw [hstate, BlockState.derivations_raise]
    exact fun e he => h.left e (.tail _ he)
  · rw [hstate, BlockState.entry_raise]
    exact fun X => h.bounded_joinDerived
  · rw [hstate, BlockState.entry_raise]
    exact fun j c hnew e => h.covered_joinDerived hnew

theorem joinAll (h : r.Drawing env b s k a ds) :
    (ds.foldl (fun r d => r.joinDerived env.program a d) r).Drawing env b s k a [] := by
  induction ds generalizing r with
  | nil => exact h
  | cons d ds ih => exact ih h.joinDerived

/-- With nothing left of the consequences of one fact, it does not matter which fact that was. -/
theorem of_nil (h : r.Drawing env b s k a []) (j : ValueId) (c : Dep) :
    r.Drawing env b s j c [] := by
  have hdue : r.Due k a [] = r.Due j c [] := by
    funext i e d
    simp [Due]
  exact ⟨h.frame, h.complete, by simp, hdue ▸ h.bounded, hdue ▸ h.covered⟩

theorem step (h : r.Drawing env b s k a []) :
    (r.step env.program).Drawing env b s k a [] := by
  rw [Revision.step]
  split
  · exact h
  next source fact rest hpending =>
    apply Drawing.of_nil (k := source) (a := fact)
    apply Drawing.joinAll
    have hdue (j : ValueId) (c : Dep) (d : Derived) : r.Due k a [] j c d ↔
        ({ r with pending := rest, passed := r.passed ++ [source] } : Revision).Due source fact
          (r.state.derivations.of source) j c d := by
      simp only [Due, hpending, List.mem_cons, Prod.mk.injEq, List.not_mem_nil, and_false, or_false]
      constructor
      · rintro ⟨⟨rfl, rfl⟩ | hjc, hd⟩
        · exact .inr ⟨⟨rfl, rfl⟩, hd⟩
        · exact .inl ⟨hjc, hd⟩
      · rintro (⟨hjc, hd⟩ | ⟨⟨rfl, rfl⟩, hd⟩)
        · exact ⟨.inr hjc, hd⟩
        · exact ⟨.inl ⟨rfl, rfl⟩, hd⟩
    refine ⟨h.frame, h.complete, fun d hd => hd, fun X hX => ?_, fun j c hnew d hd => ?_⟩
    · obtain ⟨hle, hX⟩ := h.bounded X hX
      exact ⟨hle, fun j c d hd => hX j c d ((hdue j c d).2 hd)⟩
    · refine (h.covered j c hnew d hd).imp_right ?_
      rintro ⟨c', hle, hc'⟩
      exact ⟨c', hle, (hdue j c' d).1 hc'⟩

theorem cascade (h : r.Drawing env b s k a []) (fuel : Nat) :
    (Revision.cascade env.program fuel r).Drawing env b s k a [] := by
  induction fuel generalizing r with
  | zero => exact h
  | succ fuel ih =>
    rw [Revision.cascade]
    split
    · exact h
    · exact ih h.step

/-- When nothing is pending any more, the block has settled. -/
theorem settles (h : r.Drawing env b s k a []) (hr : r.pending = []) :
    Settles env.program s r.state := by
  have hdue {j : ValueId} {c : Dep} {d : Derived} : ¬ r.Due k a [] j c d := by simp [Due, hr]
  refine ⟨h.frame, ⟨h.frame.get_le, fun j c hnew d hd => ?_⟩, fun X hX => (h.bounded X hX).1⟩
  rcases h.covered j c hnew d hd with hle | ⟨c', -, hc'⟩
  · exact hle
  · exact absurd hc' hdue

end Drawing

/-- A fact on entry has gone up, and its consequences are to be drawn. -/
theorem drawing_opened (hs : Complete env b r.state)
    (hgrows : (r.state.entry.fact v).grows a) :
    (r.opened v a).Drawing env b r.state v a [] := by
  have hne : r.state.entry.fact v ⊔ a ≠ r.state.entry.fact v :=
    fun heq => Fact.grows_iff.1 hgrows (sup_eq_left.1 heq)
  have hentry (u : ValueId) := r.state.fact_entry_enter (v := v) (a := a) u
  have hdue {j : ValueId} {c : Dep} {d : Derived} : (r.opened v a).Due v a [] j c d ↔
      (j = v ∧ c = r.state.entry.fact v ⊔ a) ∧ d ∈ r.state.derivations.of j := by
    simp [Due, opened, BlockState.enter]
  refine ⟨?_, ?_, by simp, ?_, ?_⟩
  · rw [state_opened]
    exact .enter r.state env.program v a
  · rw [state_opened]
    exact hs.enter
  · rw [state_opened]
    intro X hX
    refine ⟨fun d => (BlockState.get_enter d).le.trans (hX.le d), fun j c d hjc => ?_⟩
    obtain ⟨⟨rfl, rfl⟩, hd⟩ := hdue.1 hjc
    have hj := hentry j
    rw [if_pos rfl] at hj
    rw [← hj] at hne ⊢
    exact hX.new j _ (.entry hne) d hd
  · rw [state_opened]
    intro j c hnew d hd
    right
    cases hnew with
    | entry hj =>
      rw [hentry] at hj ⊢
      split at hj
      next hvj => exact ⟨_, le_refl _, hdue.2 ⟨⟨hvj.symm, if_pos hvj⟩, hd⟩⟩
      next => exact absurd rfl hj
    | result hr hj => exact absurd (BlockState.get_enter _) hj

theorem settles_joinEntry (hs : Complete env b r.state)
    (v : ValueId) (a : Dep) : Settles env.program r.state (r.joinEntry env.program v a).state := by
  rw [joinEntry_eq]
  split
  next hgrows =>
    have hdrawing := (drawing_opened hs hgrows).cascade
      ((r.entered v a).bound (r.state.entry.fact v ⊔ a))
    exact hdrawing.settles (pending_spread (r.entered v a) env.program v _)
  next hgrows =>
    rw [state_entered]
    apply Settles.of_entry_eq (.enter r.state env.program v a)
    · intro u
      rw [BlockState.fact_entry_enter, Fact.sup_eq_of_not_grows (by simpa using hgrows)]
      split
      next hvu => rw [hvu]
      next => rfl
    · exact BlockState.get_enter

theorem settles_joinEntries (vs : List (ValueId × Dep))
    (hs : Complete env b r.state) :
    Settles env.program r.state (vs.foldl (fun r v => r.joinEntry env.program v.1 v.2) r).state := by
  induction vs generalizing r with
  | nil => exact .of_entry_eq (.refl _ _) (fun _ => rfl) fun _ => rfl
  | cons v vs ih =>
    have hfirst := settles_joinEntry hs v.1 v.2
    have hcomplete : Complete env b (r.joinEntry env.program v.1 v.2).state :=
      hs.steps (steps_joinEntry (M := (∅ : FactMap).insert v.1 v.2) .refl (by simp))
    exact hfirst.trans (ih hcomplete)

end Revision

end InputFlow
