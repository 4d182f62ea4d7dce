import InputFlow.Proofs.Procedure.Moves

namespace InputFlow

namespace Env

variable {env : Env} {entry b u : BlockId} {m : Blocks} {s t : BlockState} {k v : ValueId}

/-- A value that has a fact at the end of a block, told by the program alone: the block gives it
one, or it comes to the block along an edge. -/
inductive Available (env : Env) (entry : BlockId) : BlockId → ValueId → Prop
  | initial {v : ValueId} (hv : v ∈ env.initial) : Available env entry entry v
  | result {b : BlockId} {v : ValueId} (hb : b ∈ env.flow.order) (hv : env.program.Defines b v) :
    Available env entry b v
  | written {b : BlockId} {v : ValueId} (hb : b ∈ env.flow.order)
    (hv : v ∈ (env.outline b).written) : Available env entry b v
  | pass {u b : BlockId} {v : ValueId} (hu : u ∈ env.flow.preds b) (hv : Available env entry u v) :
    Available env entry b v

/-- How the facts of an analysed block are known. -/
structure Sourced (env : Env) (entry b : BlockId) (s : BlockState) : Prop where
  available : ∀ v ∈ s.entry, env.Available entry b v
  results : ∀ i ∈ env.program.instructions b, s.instructions.fact i ≠ .unknown
  locals : ∀ k ∈ s.entry, env.IsLocal k → s.entry.fact k ≠ .unknown
  /-- What counts as derived from a result of the block is above what comes back of it. -/
  own : ∀ k d, env.program.Defines b k → (env.outline b).Edge k d → s.entry.fact k ≤ s.get d
  contents : ∀ v ∈ (env.outline b).written, s.get (.slot v) ≠ .unknown ∨
    ∃ k, env.program.Defines b k ∧ (env.outline b).Edge k (.slot v)

namespace Sourced

theorem available_of_mem_values (hb : b ∈ env.flow.order) (hcore : env.Core b s t)
    (h : env.Sourced entry b s) (hv : v ∈ s.values) : env.Available entry b v := by
  by_cases hdefined : v ∈ t.defined
  · rcases (hcore.shaped.defined v).1 hdefined with hd | hw
    · exact .result hb hd
    · exact .written hb hw
  · refine h.available v ?_
    rw [hcore.entry]
    exact hcore.shaped.passed v ((hcore.mem_values v).1 hv) hdefined

theorem result_known (hcore : env.Core b s t) (h : env.Sourced entry b s)
    (hk : env.program.Defines b k) : s.values.fact k ≠ .unknown := by
  intro hunknown
  refine h.results k hk.1 (Fact.le_unknown.1 ?_)
  rw [← hunknown, hcore.instructions, ← Facts.fact_of_some (hcore.shaped.results k hk)]
  exact hcore.le_values k

theorem local_known (hv : env.Valid entry) (hcore : env.Core b s t) (h : env.Sourced entry b s)
    (hk : k ∈ s.values) (hlocal : env.IsLocal k) : s.values.fact k ≠ .unknown := by
  by_cases hd : env.program.Defines b k
  · exact h.result_known hcore hd
  · have hentry := (hcore.defines_or_mem_entry hv hk hlocal).resolve_left hd
    intro hunknown
    refine h.locals k hentry hlocal (Fact.le_unknown.1 ?_)
    rw [← hunknown, hcore.entry, ← fact_of_isLocal hv hcore.shaped hlocal hd]
    exact hcore.le_values k

end Sourced

/-- A fact that is sent is that of an available value, and known if the value is local. -/
theorem Sent.sourced (hv : env.Valid entry) (hm : env.Reached entry m)
    (ih : ∀ b s, m[b]? = some s → env.Sourced entry b s) {X : FactMap} (hX : env.Sent entry m b X) :
    (∀ v ∈ X, env.Available entry b v) ∧ ∀ k ∈ X, env.IsLocal k → X.fact k ≠ .unknown := by
  rcases hX with ⟨rfl, rfl⟩ | ⟨u, hu, t, ht, rfl⟩
  · exact ⟨fun v hv => .initial hv, fun k hk hlocal => absurd hlocal (hv.not_isLocal_of_initial hk)⟩
  · obtain ⟨c, hcore⟩ := (hm.present hv u t ht).core
    have huo := (mem_preds.1 hu).1
    exact ⟨fun v hvt => .pass hu ((ih u t ht).available_of_mem_values huo hcore hvt),
      fun k hk hlocal => (ih u t ht).local_known hv hcore hk hlocal⟩

theorem Sourced.enter (hv : env.Valid entry) (hm : env.Reached entry m)
    (ih : ∀ b s, m[b]? = some s → env.Sourced entry b s) {E : FactMap} (hnew : m[b]? = none)
    (hE : env.Sent entry m b E) (hs : env.analyze.run { block := b, entry := E } = .ok () s) :
    env.Sourced entry b s := by
  obtain ⟨havailable, hlocals⟩ := hE.sourced hv hm ih
  have hneeds := hv.run_ok_iff.1 ⟨s, hs⟩
  have hfresh := hE.not_defines hv (hm.present hv) hnew
  obtain ⟨ρ, hs⟩ := hv.analysed hs
  refine ⟨by rwa [hs.entry], fun i hi => ?_, by rwa [hs.entry], fun k d hk _ => ?_, fun v hw => ?_⟩
  · rw [hs.inst i hi]
    exact Fact.settle_ne_unknown _
  · rw [hs.entry, Facts.fact_of_not_mem fun hkE => hfresh k hkE hk]
    exact Fact.unknown_le _
  · have hf : (env.outline b).Defines _ (.slot v) := ⟨hw, rfl⟩
    rw [hs.other _ (.slot v) nofun hf]
    refine (supplied_content hs.solves.entry hlocals hneeds v hw).imp_right fun ⟨k, hk⟩ => ?_
    exact ⟨k, defines_of_result hv.slots hf hk, edge_of_origin hf hk⟩

theorem Sourced.revise (hv : env.Valid entry) (hm : env.Reached entry m)
    (ih : ∀ b s, m[b]? = some s → env.Sourced entry b s) (hs : m[b]? = some s)
    (hopen : env.Open b s) (ht : Revised env b (env.merged m b) s t) (D : Derivations) :
    env.Sourced entry b { t with derivations := D } := by
  have hb := ih b s hs
  have hmono := ht.steps.get_mono hv.slots hopen.shaped
  have hraised {d : Derived} (h : s.get d ≠ .unknown) : t.get d ≠ .unknown :=
    fun hunknown => h (Fact.le_unknown.1 (hunknown ▸ hmono d))
  have hsent {k : ValueId} (hk : k ∈ t.entry) :
      k ∈ s.entry ∨ ∃ X, env.Sent entry m b X ∧ k ∈ X :=
    ((ht.mem_entry k).1 hk).imp_right (mem_merged (hm.present hv) hs)
  refine ⟨fun v hvt => ?_, fun i hi => hraised (d := .inst i) (hb.results i hi), fun k hk hlocal => ?_,
    fun k d hk hd => ht.derived k d hd (hb.own k d hk hd),
    fun v hw => (hb.contents v hw).imp_left hraised⟩
  · rcases hsent hvt with hvs | ⟨X, hX, hvX⟩
    · exact hb.available v hvs
    · exact (hX.sourced hv hm ih).1 v hvX
  · dsimp only
    rw [ht.entry]
    intro hunknown
    rcases hsent hk with hks | ⟨X, hX, hkX⟩
    · exact hb.locals k hks hlocal (Fact.le_unknown.1 (hunknown ▸ le_sup_left))
    · refine (hX.sourced hv hm ih).2 k hkX hlocal (Fact.le_unknown.1 ?_)
      rcases hX with ⟨-, rfl⟩ | ⟨u, hu, t, ht, rfl⟩
      · exact absurd hlocal (hv.not_isLocal_of_initial hkX)
      · exact (le_merged hu ht k).trans (hunknown ▸ le_sup_right)

theorem Reached.sourced (hv : env.Valid entry) (h : env.Reached entry m) :
    ∀ b s, m[b]? = some s → env.Sourced entry b s :=
  h.blocks_induction (fun _ _ _ _ hm ih _ hnew hE hs => .enter hv hm ih hnew hE hs)
    (fun _ _ _ _ _ hm ih hs hopen ht => .revise hv hm ih hs hopen ht _)
    fun _ _ _ _ _ ih => ⟨ih.available, ih.results, ih.locals, ih.own, ih.contents⟩

def Covered (env : Env) (m : Blocks) (b : BlockId) : Prop :=
  ∀ u ∈ env.flow.preds b, ∀ s t, m[u]? = some s → m[b]? = some t → s.values.Below t.entry

def Determined (m : Blocks) (b : BlockId) : Prop :=
  ∀ s, m[b]? = some s → ∀ v ∈ s.values, s.values.fact v ≠ .unknown

theorem initial_known (hv : v ∈ env.initial) : env.initial.fact v ≠ .unknown := by
  rw [fact_initial]
  split_ifs with hglobal _ hparam
  · exact Fact.dependent_ne_unknown _
  · exact Fact.independent_ne_unknown
  · exact Fact.dependent_ne_unknown _
  · exact Fact.independent_ne_unknown
  · exact absurd (mem_initial.1 hv) (by simp [hglobal, hparam])

/-- Analysed blocks that are covered, with all their predecessors among them. -/
structure Balanced (env : Env) (entry : BlockId) (m : Blocks) : Prop where
  valid : env.Valid entry
  reached : env.Reached entry m
  covered : ∀ b ∈ m, env.Covered m b
  preds : ∀ b ∈ m, ∀ u ∈ env.flow.preds b, u ∈ m

namespace Balanced

theorem exists_pred (h : env.Balanced entry m) (hu : u ∈ env.flow.preds b) (hs : m[b]? = some s) :
    ∃ t, m[u]? = some t ∧ t.values.Below s.entry := by
  have hb := mem_of_getElem? hs
  obtain ⟨t, ht⟩ := exists_state_of_mem (h.preds b hb u hu)
  exact ⟨t, ht, h.covered b hb u hu t s ht hs⟩

/-- A result is known wherever it comes to. -/
theorem entry_known (h : env.Balanced entry m) (hk : env.program.Defines b k)
    (hb : b ∈ env.flow.order) (hlead : env.program.Leads b u) (hs : m[u]? = some s) :
    s.entry.fact k ≠ .unknown := by
  have hv := h.valid
  -- a block on the way passes on what it has of the result
  have hstep {c d : BlockId} (hc : c ∈ env.flow.order) (hd : d ∈ env.program.successors c)
      {s : BlockState} (hs : m[d]? = some s)
      (hown : ¬ env.program.Defines c k → ∀ t, m[c]? = some t → t.entry.fact k ≠ .unknown) :
      s.entry.fact k ≠ .unknown := by
    obtain ⟨t, ht, hle⟩ := h.exists_pred (mem_preds.2 ⟨hc, hd⟩) hs
    obtain ⟨t', hcore⟩ := (h.reached.present hv c t ht).core
    intro hunknown
    have hvalue : t.values.fact k = .unknown := Fact.le_unknown.1 (hunknown ▸ hle k)
    by_cases hdc : env.program.Defines c k
    · exact (h.reached.sourced hv c t ht).result_known hcore hdc hvalue
    · refine hown hdc t ht (Fact.le_unknown.1 ?_)
      rw [← hvalue, hcore.entry, ← fact_of_isLocal hv hcore.shaped (isLocal_of_defines hk) hdc]
      exact hcore.le_values k
  induction hlead generalizing s with
  | single hc => exact hstep hb hc hs fun hdb => absurd hk hdb
  | tail hlead hd ih =>
    have hc := hv.mem_order.2 ((hv.mem_order.1 hb).trans hlead.to_reflTransGen)
    exact hstep hc hd hs fun _ t ht => ih ht

/-- What a block gives a fact is known at its end, once the fact has come round a cycle. -/
theorem defined_known (h : env.Balanced entry m)
    (hcycle : ∀ b ∈ m, Determined m b ∨ env.program.Leads b b) (hs : m[b]? = some s)
    (hv : env.program.Defines b v ∨ v ∈ (env.outline b).written) : s.values.fact v ≠ .unknown := by
  obtain ⟨t, hcore⟩ := (h.reached.present h.valid b s hs).core
  have hsourced := h.reached.sourced h.valid b s hs
  rcases hcycle b (mem_of_getElem? hs) with hknown | hlead
  · refine hknown s hs v ((hcore.mem_values v).2 ?_)
    rcases hv with hd | hw
    · exact Facts.mem_of_some (hcore.shaped.results v hd)
    · exact Facts.mem_of_some (hcore.shaped.slots v hw)
  rcases hv with hd | hw
  · exact hsourced.result_known hcore hd
  · intro hunknown
    have hget : s.get (.slot v) = .unknown := by
      refine Fact.le_unknown.1 ?_
      rw [hcore.get, ← Facts.fact_of_some (hcore.shaped.slots v hw), ← hunknown]
      exact hcore.le_values v
    obtain ⟨k, hk, hedge⟩ := (hsourced.contents v hw).resolve_left (not_not_intro hget)
    refine h.entry_known hk (h.reached.present h.valid b s hs).reachable hlead hs ?_
    exact Fact.le_unknown.1 (hget ▸ hsourced.own k (.slot v) hk hedge)

theorem known_of_available (h : env.Balanced entry m)
    (hcycle : ∀ b ∈ m, Determined m b ∨ env.program.Leads b b) (hv : env.Available entry b v)
    (hs : m[b]? = some s) : s.values.fact v ≠ .unknown := by
  have hpass {b : BlockId} {s : BlockState} (hs : m[b]? = some s) {v : ValueId}
      (hentry : s.entry.fact v ≠ .unknown) : s.values.fact v ≠ .unknown := by
    obtain ⟨t, hcore⟩ := (h.reached.present h.valid b s hs).core
    by_cases hdefined : v ∈ t.defined
    · exact h.defined_known hcycle hs ((hcore.shaped.defined v).1 hdefined)
    · intro hunknown
      refine hentry (Fact.le_unknown.1 ?_)
      rw [← hunknown, hcore.entry, ← hcore.shaped.others v hdefined]
      exact hcore.le_values v
  induction hv generalizing s with
  | initial hv =>
    refine hpass hs fun hunknown => initial_known hv (Fact.le_unknown.1 ?_)
    exact hunknown ▸ h.reached.initial_le h.valid _ s hs rfl _
  | result _ hv => exact h.defined_known hcycle hs (Or.inl hv)
  | written _ hv => exact h.defined_known hcycle hs (Or.inr hv)
  | pass hu _ ih =>
    obtain ⟨t, ht, hle⟩ := h.exists_pred hu hs
    exact hpass hs fun hunknown => ih ht (Fact.le_unknown.1 (hunknown ▸ hle _))

/-- The values with a fact at the end of a block are those that are available there, and no fact is
left unknown. -/
theorem mem_values_iff (h : env.Balanced entry m)
    (hcycle : ∀ b ∈ m, Determined m b ∨ env.program.Leads b b) (hs : m[b]? = some s) :
    v ∈ s.values ↔ env.Available entry b v := by
  have hpresent := h.reached.present h.valid b s hs
  obtain ⟨t, hcore⟩ := hpresent.core
  exact ⟨(h.reached.sourced h.valid b s hs).available_of_mem_values hpresent.reachable hcore,
    fun hv => Facts.mem_of_fact_ne (h.known_of_available hcycle hv hs)⟩

theorem determined (h : env.Balanced entry m)
    (hcycle : ∀ b ∈ m, Determined m b ∨ env.program.Leads b b) (b : BlockId) : Determined m b :=
  fun _ hs _ hv => h.known_of_available hcycle ((h.mem_values_iff hcycle hs).1 hv) hs

end Balanced

end Env

end InputFlow
