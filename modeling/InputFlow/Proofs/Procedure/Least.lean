import InputFlow.Proofs.Procedure.Schedule
import Mathlib.Data.Nat.Find

namespace InputFlow

namespace Facts

variable {κ : Type} [Ord κ] [Std.TransOrd κ] [Std.LawfulEqOrd κ]

def meet (m : Facts κ) (g : κ → Dep → Dep) : Facts κ :=
  m.map fun k a => a ⊓ g k a

theorem fact_meet (m : Facts κ) (g : κ → Dep → Dep) (k : κ) :
    (m.meet g).fact k = m.fact k ⊓ g k (m.fact k) := by
  rw [meet, fact_map]
  split
  · rfl
  · rw [fact_of_not_mem ‹_›]
    exact (bot_inf_eq _).symm

end Facts

namespace Env

variable {env : Env} {entry b u : BlockId} {E E' : BlockId → FactMap} {m : Blocks} {s t : BlockState}
  {k v : ValueId}

/-- Facts on entry to the blocks that the analyses of all of them respect: those on entry to the
first block cover the initial facts, and those on entry to any other the facts at the end of its
predecessors, when each of these is analysed by itself. -/
structure IsSolution (env : Env) (entry : BlockId) (E : BlockId → FactMap) : Prop where
  initial : env.initial.Below (E entry)
  flows : ∀ u, Graph.Reaches env.program.successors entry u →
    ∃ s, env.analyze.run { block := u, entry := E u } = .ok () s ∧
      ∀ b ∈ env.program.successors u, s.values.Below (E b)

structure IsLeastSolution (env : Env) (entry : BlockId) (E : BlockId → FactMap) : Prop
    extends IsSolution env entry E where
  least : ∀ E', env.IsSolution entry E' →
    ∀ b, Graph.Reaches env.program.successors entry b → (E b).Below (E' b)

/-- Facts on entry to the blocks that all analyses respect that succeed. -/
structure Bounds (env : Env) (entry : BlockId) (E : BlockId → FactMap) : Prop where
  initial : env.initial.Below (E entry)
  flows : ∀ u ∈ env.flow.order, ∀ s, env.analyze.run { block := u, entry := E u } = .ok () s →
    ∀ b ∈ env.program.successors u, s.values.Below (E b)

theorem IsSolution.bounds (hv : env.Valid entry) (h : env.IsSolution entry E) : env.Bounds entry E where
  initial := h.initial
  flows u hu s hs := by
    obtain ⟨t, ht, hflows⟩ := h.flows u (hv.mem_order.1 hu)
    rw [ht] at hs
    cases hs
    exact hflows

/-- A local value that a block passes on has a fact at its end whenever it has one on entry. -/
theorem Core.known_of_known (hv : env.Valid entry) (h : env.Core b s t) {X : FactMap}
    {r : BlockState} (hr : env.analyze.run { block := b, entry := X } = .ok () r)
    (hX : ∀ k ∈ s.entry, env.IsLocal k → X.fact k ≠ .unknown) (hk : k ∈ s.values)
    (hlocal : env.IsLocal k) : r.values.fact k ≠ .unknown := by
  obtain ⟨ρ, hr⟩ := hv.analysed hr
  by_cases hd : env.program.Defines b k
  · rw [Facts.fact_of_some (hr.results k hd), hr.inst k hd.1]
    exact Fact.settle_ne_unknown _
  · rw [fact_of_isLocal hv hr.toShaped hlocal hd, hr.entry]
    exact hX k ((h.defines_or_mem_entry hv hk hlocal).resolve_left hd) hlocal

/-- All blocks that get analysed can be analysed with the facts on entry of any bounds. -/
theorem Bounds.exists_run (hv : env.Valid entry) (hE : env.Bounds entry E)
    (hm : env.Reached entry m) : ∀ b s, m[b]? = some s →
      (∃ t, env.analyze.run { block := b, entry := E b } = .ok () t) ∧
        ∀ k ∈ s.entry, env.IsLocal k → (E b).fact k ≠ .unknown := by
  have hsent {m : Blocks} {b : BlockId} {X : FactMap} (hm : env.Reached entry m)
      (ih : ∀ b s, m[b]? = some s → (∃ t, env.analyze.run { block := b, entry := E b } = .ok () t) ∧
        ∀ k ∈ s.entry, env.IsLocal k → (E b).fact k ≠ .unknown)
      (hX : env.Sent entry m b X) : ∀ k ∈ X, env.IsLocal k → (E b).fact k ≠ .unknown := by
    intro k hk hlocal
    rcases hX with ⟨-, rfl⟩ | ⟨u, hu, t, ht, rfl⟩
    · exact absurd hlocal (hv.not_isLocal_of_initial hk)
    · obtain ⟨hu, hedge⟩ := mem_preds.1 hu
      obtain ⟨⟨r, hr⟩, hknown⟩ := ih u t ht
      obtain ⟨t', hcore⟩ := (hm.present hv u t ht).core
      intro hunknown
      refine hcore.known_of_known hv hr hknown hk hlocal ?_
      rw [← Fact.le_unknown, ← hunknown]
      exact hE.flows u hu r hr b hedge k
  refine hm.blocks_induction ?_ ?_ ?_
  · intro m b X s hm ih _ _ hX hs
    have hknown := hsent hm ih hX
    refine ⟨hv.run_ok_iff.2 ((hv.run_ok_iff.1 ⟨s, hs⟩).mono fun k hk hlocal => ?_), ?_⟩
    · exact Facts.mem_of_fact_ne (hknown k hk hlocal)
    · rw [hv.entry_of_run hs]
      exact hknown
  · intro m b s t D hm ih hs _ ht
    refine ⟨(ih b s hs).1, fun k hk hlocal => ?_⟩
    rcases (ht.mem_entry k).1 hk with hk | hk
    · exact (ih b s hs).2 k hk hlocal
    · obtain ⟨X, hX, hkX⟩ := mem_merged (hm.present hv) hs hk
      exact hsent hm ih hX k hkX hlocal
  · exact fun _ _ _ _ _ ih => ih

def entries (m : Blocks) (b : BlockId) : FactMap :=
  (m[b]?.map BlockState.entry).getD ∅

theorem entries_eq (hs : m[b]? = some s) : entries m b = s.entry := by
  rw [entries, hs]
  rfl

namespace Finished

theorem isSolution_of_bounds (h : env.Finished entry m) (hE : env.Bounds entry E) :
    env.IsSolution entry E where
  initial := hE.initial
  flows u hu := by
    have hu := h.valid.mem_order.2 hu
    obtain ⟨s, hs⟩ := h.exists_state hu
    obtain ⟨⟨t, ht⟩, -⟩ := hE.exists_run h.valid h.reached u s hs
    exact ⟨t, ht, hE.flows u hu t ht⟩

/-- They are a solution. -/
theorem isSolution_entries (h : env.Finished entry m) : env.IsSolution entry (entries m) := by
  have hv := h.valid
  refine h.isSolution_of_bounds ⟨?_, fun u hu r hr b hb k => ?_⟩
  · obtain ⟨s, hs⟩ := h.exists_state (hv.mem_order.2 .refl)
    rw [entries_eq hs]
    exact h.reached.initial_le hv entry s hs rfl
  · have hb' : b ∈ env.flow.order := hv.mem_order.2 ((hv.mem_order.1 hu).tail hb)
    obtain ⟨s, hs⟩ := h.exists_state hu
    obtain ⟨t, ht⟩ := h.exists_state hb'
    obtain ⟨c, hcore⟩ := (h.reached.present hv u s hs).core
    obtain ⟨ρ, hr⟩ := hv.analysed hr
    rw [entries_eq hs] at hr
    rw [entries_eq ht]
    refine le_trans ?_ (h.covered b hb' u (mem_preds.2 ⟨hu, hb⟩) s t hs ht k)
    by_cases hk : k ∈ s.values
    · rw [← Fact.settle_of_ne_unknown (h.determined u hu s hs k hk)]
      refine le_trans ?_ (Fact.settle_mono (hcore.le_values k))
      refine hr.values_le hv.slots hcore.shaped hcore.closed (fun v => ?_) k
      rw [← hcore.entry]
      exact Fact.le_settle _
    · -- the block does not define the value and has no fact of it on entry
      rw [hcore.mem_values] at hk
      have hdefined : k ∉ c.defined := by
        rw [hcore.shaped.defined]
        rintro (hd | hw)
        · exact hk (Facts.mem_of_some (hcore.shaped.results k hd))
        · exact hk (Facts.mem_of_some (hcore.shaped.slots k hw))
      have hentry := hcore.shaped.others k hdefined
      rw [Facts.fact_of_not_mem hk, ← hcore.entry] at hentry
      rw [hcore.shaped.defined, ← hr.defined] at hdefined
      rw [hr.others k hdefined, hr.entry, ← hentry]
      exact Fact.unknown_le _

end Finished

def meet (E E' : BlockId → FactMap) (b : BlockId) : FactMap :=
  (E b).meet fun k _ => (E' b).fact k

theorem fact_meet (E E' : BlockId → FactMap) (b : BlockId) (k : ValueId) :
    (meet E E' b).fact k = (E b).fact k ⊓ (E' b).fact k :=
  Facts.fact_meet _ _ _

theorem IsSolution.meet (hv : env.Valid entry) (h : env.IsSolution entry E)
    (h' : env.IsSolution entry E') : env.Bounds entry (meet E E') where
  initial k := by
    rw [fact_meet]
    exact le_inf (h.initial k) (h'.initial k)
  flows u hu s hs b hb k := by
    obtain ⟨r, hr, hflows⟩ := h.flows u (hv.mem_order.1 hu)
    obtain ⟨r', hr', hflows'⟩ := h'.flows u (hv.mem_order.1 hu)
    obtain ⟨_, hs⟩ := hv.analysed hs
    obtain ⟨_, hr⟩ := hv.analysed hr
    obtain ⟨_, hr'⟩ := hv.analysed hr'
    rw [fact_meet]
    refine le_inf ((hs.mono hv.slots hr (fun v => ?_) k).trans (hflows b hb k))
      ((hs.mono hv.slots hr' (fun v => ?_) k).trans (hflows' b hb k))
    · rw [fact_meet]
      exact inf_le_left
    · rw [fact_meet]
      exact inf_le_right

/-- How far the facts on entry to some blocks are from unknown. -/
def height (bs : List BlockId) (E : BlockId → FactMap) : Nat :=
  (bs.map fun b => ((E b).keys.map fun k => ((E b).fact k).height).sum).sum

theorem height_meet_lt {bs : List BlockId} (hb : b ∈ bs) (hk : ¬ (E b).fact k ≤ (E' b).fact k) :
    height bs (meet E E') < height bs E := by
  have hkeys (b : BlockId) : (meet E E' b).keys = (E b).keys := Std.ExtTreeMap.keys_map
  have hle (b : BlockId) (k : ValueId) : ((meet E E' b).fact k).height ≤ ((E b).fact k).height := by
    rw [fact_meet]
    exact Fact.height_mono inf_le_left
  have hlt : ((meet E E' b).fact k).height < ((E b).fact k).height := by
    rw [fact_meet]
    exact Fact.height_lt (inf_lt_left.2 hk)
  have hmem : k ∈ (E b).keys := by
    rw [Std.ExtTreeMap.mem_keys]
    refine Facts.mem_of_fact_ne fun hunknown => hk ?_
    rw [hunknown]
    exact Fact.unknown_le _
  simp only [height, hkeys]
  exact List.sum_lt_sum _ _ (fun b _ => List.sum_le_sum fun k _ => hle b k)
    ⟨b, hb, List.sum_lt_sum _ _ (fun k _ => hle b k) ⟨k, hmem, hlt⟩⟩

/-- A solution of least height is below all others. -/
theorem Finished.exists_least (h : env.Finished entry m) : ∃ E, env.IsLeastSolution entry E := by
  have hsome : ∃ n E, env.IsSolution entry E ∧ height env.flow.order E = n :=
    ⟨_, _, h.isSolution_entries, rfl⟩
  classical
  obtain ⟨E, hE, hheight⟩ := Nat.find_spec hsome
  refine ⟨E, hE, fun E' hE' b hb k => ?_⟩
  by_contra hk
  refine Nat.find_min hsome (m := height env.flow.order (meet E E')) ?_
    ⟨meet E E', h.isSolution_of_bounds (hE.meet h.valid hE'), rfl⟩
  rw [← hheight]
  exact height_meet_lt (h.valid.mem_order.2 hb) hk

/-- A result comes to every block that its own leads to. -/
theorem IsSolution.result_le (hv : env.Valid entry) (h : env.IsSolution entry E)
    (hb : b ∈ env.flow.order) (hs : env.analyze.run { block := b, entry := E b } = .ok () s)
    (hk : env.program.Defines b k) (hlead : env.program.Leads b u) :
    s.instructions.fact k ≤ (E u).fact k := by
  have hbounds := h.bounds hv
  have hfirst {c : BlockId} (hc : c ∈ env.program.successors b) :
      s.instructions.fact k ≤ (E c).fact k := by
    rw [← Facts.fact_of_some ((hv.open_of_run hs).shaped.results k hk)]
    exact hbounds.flows b hb s hs c hc k
  induction hlead with
  | single hc => exact hfirst hc
  | @tail c u hlead hu ih =>
    by_cases hcb : c = b
    · exact hfirst (hcb ▸ hu)
    · have hreach : Graph.Reaches env.program.successors entry c :=
        (hv.mem_order.1 hb).trans hlead.to_reflTransGen
      obtain ⟨r, hr, hflows⟩ := h.flows c hreach
      have hpass := fact_of_isLocal hv (hv.open_of_run hr).shaped (isLocal_of_defines hk)
        fun hd => hcb (hv.wellFormed.eq_of_mem_instructions hd.1 hk.1)
      rw [hv.entry_of_run hr] at hpass
      exact ih.trans (hpass.ge.trans (hflows u hu k))

/-- In the least solution no block has more of a result on entry than the instruction gives. -/
theorem IsLeastSolution.le_result (hfin : env.Finished entry m) (h : env.IsLeastSolution entry E)
    (hs : env.analyze.run { block := b, entry := E b } = .ok () s)
    (hk : env.program.Defines b k) (hu : u ∈ env.flow.order) :
    (E u).fact k ≤ s.instructions.fact k := by
  have hv := hfin.valid
  have hlocal := isLocal_of_defines hk
  obtain ⟨_, hs⟩ := hv.analysed hs
  -- capping the fact of `k` everywhere gives a solution
  let C (c : BlockId) : FactMap :=
    (E c).meet fun k' a => if k' = k then s.instructions.fact k else a
  have hC (c : BlockId) : (C c).Below (E c) := by
    intro v
    rw [Facts.fact_meet]
    exact inf_le_left
  have hcap (c : BlockId) : (C c).fact k = (E c).fact k ⊓ s.instructions.fact k := by
    rw [Facts.fact_meet, if_pos rfl]
  have hother (c : BlockId) {v : ValueId} (hvk : v ≠ k) : (C c).fact v = (E c).fact v := by
    rw [Facts.fact_meet, if_neg hvk, inf_idem]
  have hbounds : env.Bounds entry C := by
    refine ⟨fun v => ?_, fun c hc r hr c' hc' v => ?_⟩
    · by_cases hi : v ∈ env.initial
      · rw [hother entry (by rintro rfl; exact hv.not_isLocal_of_initial hi hlocal)]
        exact h.initial v
      · rw [Facts.fact_of_not_mem hi]
        exact Fact.unknown_le _
    · obtain ⟨r', hr', hflows⟩ := h.flows c (hv.mem_order.1 hc)
      obtain ⟨_, hr⟩ := hv.analysed hr
      obtain ⟨_, hr'⟩ := hv.analysed hr'
      have hle := (hr.mono hv.slots hr' (hC c) v).trans (hflows c' hc' v)
      by_cases hvk : v = k
      · subst hvk
        rw [hcap]
        refine le_inf hle ?_
        by_cases hcb : c = b
        · subst hcb
          rw [← Facts.fact_of_some (hs.results v hk)]
          exact hr.mono hv.slots hs (hC c) v
        · rw [fact_of_isLocal hv hr.toShaped hlocal
            fun hd => hcb (hv.wellFormed.eq_of_mem_instructions hd.1 hk.1), hr.entry, hcap]
          exact inf_le_right
      · rw [hother c' hvk]
        exact hle
  refine (h.least C (hfin.isSolution_of_bounds hbounds) u (hv.mem_order.1 hu) k).trans ?_
  rw [hcap]
  exact inf_le_right

end Env

end InputFlow
