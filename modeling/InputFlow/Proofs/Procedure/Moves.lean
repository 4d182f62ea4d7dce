import InputFlow.Procedure
import InputFlow.Proofs.Block.Widening
import InputFlow.Proofs.Graph.Components

namespace InputFlow

namespace Blocks

theorem getElem?_insert (m : Blocks) (b c : BlockId) (s : BlockState) :
    (m.insert b s)[c]? = if b = c then some s else m[c]? := by
  rw [Std.ExtTreeMap.getElem?_insert]
  simp only [Std.LawfulEqOrd.compare_eq_iff_eq]

def state (m : Blocks) (b : BlockId) : BlockState :=
  m[b]?.getD { block := b, entry := ∅ }

theorem state_eq {m : Blocks} {b : BlockId} {s : BlockState} (h : m[b]? = some s) : m.state b = s := by
  rw [state, h, Option.getD_some]

end Blocks

namespace Program

def Leads (p : Program) : BlockId → BlockId → Prop :=
  Relation.TransGen fun a b => b ∈ p.successors a

end Program

namespace Env

variable {env : Env} {entry b u : BlockId} {m m' : Blocks} {s t : BlockState} {v k : ValueId}

abbrev flow (env : Env) : Flow :=
  env.program.flow env.context.func

abbrev initial (env : Env) : FactMap :=
  env.context.initialFacts env.program

/-- The function starts at the block, in a well formed program and a context of its own. -/
structure Valid (env : Env) (entry : BlockId) : Prop where
  wellFormed : env.program.WellFormed
  isOf : env.context.IsOf env.program
  entryBlock : env.program.entryBlock? env.context.func = some entry

namespace Valid

theorem slots (h : env.Valid entry) : env.SlotsAreStorage :=
  slotsAreStorage h.wellFormed h.isOf

theorem startsAt (h : env.Valid entry) : env.flow.StartsAt entry :=
  h.wellFormed.startsAt h.entryBlock

theorem mem_order (h : env.Valid entry) :
    b ∈ env.flow.order ↔ Graph.Reaches env.program.successors entry b :=
  h.wellFormed.mem_order h.entryBlock

end Valid

theorem mem_preds : u ∈ env.flow.preds b ↔ u ∈ env.flow.order ∧ b ∈ env.program.successors u := by
  rw [Flow.mem_preds]
  exact and_congr_right fun _ => List.mem_eraseDups

/-- A value whose fact is that of the instruction that defines it. -/
def IsLocal (env : Env) (v : ValueId) : Prop :=
  env.keys v = [v]

theorem isLocal_iff : env.IsLocal v ↔ env.program.role v = .instruction ∧ ¬ env.program.isAlloca v := by
  rw [IsLocal, keys]
  split <;> simp_all

theorem isLocal_of_defines (h : env.program.Defines b v) : env.IsLocal v := by
  obtain ⟨hv, hr⟩ := h
  have hconst := (List.mem_filter.1 hv).2
  simp only [Program.isResult, Bool.and_eq_true, Bool.not_eq_true'] at hr
  refine isLocal_iff.2 ⟨?_, by simp [hr.1]⟩
  obtain ⟨x, hx⟩ : ∃ x, env.program.values[v]? = some x := by
    cases hx : env.program.values[v]? with
    | none => simp [Program.hasResult, hx] at hr
    | some x => exact ⟨x, rfl⟩
  obtain ⟨name, d⟩ := x
  cases d with
  | inst code => cases code <;> simp_all [Program.role, Program.definition?, Program.isConst]
  | _ => simp_all [Program.role, Program.definition?, Program.hasResult]

theorem not_isLocal_of_isStorage (h : env.program.isStorage v) : ¬ env.IsLocal v := by
  rw [isLocal_iff]
  rintro ⟨hr, ha⟩
  simp [Program.isStorage, hr, ha] at h

/-- The facts on entry to the function are those of parameters and globals. -/
theorem mem_initial : v ∈ env.initial ↔ v ∈ env.context.params ∨ v ∈ env.program.globals := by
  simp [initial, Context.initialFacts, Std.ExtTreeMap.mem_ofList]

theorem fact_insertMany_map (facts : FactMap) (vs : List ValueId) (F : ValueId → Dep) (v : ValueId) :
    Facts.fact (facts.insertMany (vs.map fun v => (v, F v))) v =
      if v ∈ vs then F v else facts.fact v := by
  induction vs generalizing facts with
  | nil => simp
  | cons u vs ih =>
    rw [List.map_cons, Std.ExtTreeMap.insertMany_cons, ih, Facts.fact_insert]
    by_cases hu : u = v
    · simp [hu]
    · simp [hu, Ne.symm hu]

theorem fact_initial (env : Env) (v : ValueId) : env.initial.fact v =
    if v ∈ env.program.globals then
      if env.context.inputGlobals.contains v then .on v else .independent
    else if v ∈ env.context.params then
      if env.context.isInput v then .on v else .independent
    else .unknown := by
  rw [initial, Context.initialFacts, Std.ExtTreeMap.ofList_eq_insertMany_empty,
    Std.ExtTreeMap.insertMany_append, fact_insertMany_map, fact_insertMany_map]
  rfl

theorem Valid.role_of_initial (h : env.Valid entry) (hv : v ∈ env.initial) :
    env.program.role v = .argument ∨ env.program.role v = .global := by
  have hkey := mem_initial.1 hv
  rw [h.isOf.params] at hkey
  exact hkey.imp h.wellFormed.role_of_mem_params h.wellFormed.mem_globals_iff.1

theorem Valid.not_isLocal_of_initial (h : env.Valid entry) (hv : v ∈ env.initial) : ¬ env.IsLocal v := by
  rw [isLocal_iff]
  rintro ⟨hr, -⟩
  rcases h.role_of_initial hv with ha | hg
  · simp [hr] at ha
  · simp [hr] at hg

/-- A map of facts that comes to a block: that of an analysed predecessor, or the initial facts. -/
def Sent (env : Env) (entry : BlockId) (m : Blocks) (b : BlockId) (X : FactMap) : Prop :=
  (b = entry ∧ X = env.initial) ∨ ∃ u ∈ env.flow.preds b, ∃ t, m[u]? = some t ∧ t.values = X

structure Open (env : Env) (b : BlockId) (s : BlockState) : Prop where
  shaped : Shaped env b s
  closed : Closed env b s
  isOpen : s.isFinal = false

theorem Open.revised {M : FactMap} (h : env.Open b s) (ht : Revised env b M s t) : env.Open b t :=
  ⟨ht.shaped, ht.closed, ht.steps.isFinal_eq.trans h.isOpen⟩

namespace Valid

variable {E : FactMap}

theorem run_ok_iff (h : env.Valid entry) :
    (∃ s, env.analyze.run { block := b, entry := E } = .ok () s) ↔
      env.NeedsAll E (env.program.instructions b) :=
  analyze_ok_iff h.slots (nodup_instructions _ _)

theorem analysed (h : env.Valid entry)
    (hs : env.analyze.run { block := b, entry := E } = .ok () s) : ∃ ρ, Analysed env b E ρ s :=
  analysed_of_run h.slots (nodup_instructions _ _) hs

theorem open_of_run (h : env.Valid entry)
    (hs : env.analyze.run { block := b, entry := E } = .ok () s) : env.Open b s := by
  obtain ⟨ρ, hs⟩ := h.analysed hs
  exact ⟨hs.toShaped, hs.closed h.slots, hs.isOpen⟩

theorem entry_of_run (h : env.Valid entry)
    (hs : env.analyze.run { block := b, entry := E } = .ok () s) : s.entry = E := by
  obtain ⟨ρ, hs⟩ := h.analysed hs
  exact hs.entry

end Valid

/-- The moves of the analysis of a function. -/
inductive Move (env : Env) (entry : BlockId) : Blocks → Blocks → Prop
  | enter {m : Blocks} {b : BlockId} {E : FactMap} {s : BlockState} (hb : b ∈ env.flow.order)
    (hnew : m[b]? = none) (hE : env.Sent entry m b E)
    (hs : env.analyze.run { block := b, entry := E } = .ok () s) : Move env entry m (m.insert b s)
  | revise {m : Blocks} {b : BlockId} {s t : BlockState} {D : Derivations} (hs : m[b]? = some s)
    (hopen : env.Open b s)
    (ht : Revised env b (BlockState.mergedEntry (exits env.flow m b) env.initial) s t) :
    Move env entry m (m.insert b { t with derivations := D })
  | conclude {m : Blocks} {b : BlockId} {s : BlockState} (hs : m[b]? = some s) :
    Move env entry m (m.insert b (s.conclude env.initial))

/-- The analysed blocks at some point of the analysis. What holds of all that is reached by moves
holds of the result, in whatever order the blocks are taken. -/
def Reached (env : Env) (entry : BlockId) (m : Blocks) : Prop :=
  Relation.ReflTransGen (env.Move entry) ∅ m

/-- What a block reports has the form of an analysed block, except that unknown facts at its end may
have been taken for independent and that derivations may have been forgotten. -/
structure Core (env : Env) (b : BlockId) (s t : BlockState) : Prop where
  shaped : Shaped env b t
  closed : Closed env b t
  entry : s.entry = t.entry
  instructions : s.instructions = t.instructions
  effect : ∀ d, s.effect? d = t.effect? d
  get : ∀ d, s.get d = t.get d
  mem_values : ∀ v, v ∈ s.values ↔ v ∈ t.values
  le_values : ∀ v, t.values.fact v ≤ s.values.fact v
  values_le : ∀ v, s.values.fact v ≤ (t.values.fact v).settle

theorem Open.core (h : env.Open b s) : env.Core b s s :=
  ⟨h.shaped, h.closed, rfl, rfl, fun _ => rfl, fun _ => rfl, fun _ => Iff.rfl, fun _ => le_refl _,
    fun _ => Fact.le_settle _⟩

theorem Core.closed_left (h : env.Core b s t) : Closed env b s := by
  have horigin : s.origin = t.origin := by
    funext o
    cases o with
    | entry k => rw [BlockState.origin, BlockState.origin, h.entry]
    | result k => rw [BlockState.origin, BlockState.origin, h.instructions]
  intro f d hf
  rw [horigin, h.get]
  exact h.closed f d hf

theorem Core.forget (h : env.Core b s t) (D : Derivations) :
    env.Core b { s with derivations := D } t :=
  { h with }

theorem fact_values_conclude {initial : FactMap} (h : ∀ v ∈ initial, v ∈ s.values) (v : ValueId) :
    (s.conclude initial).values.fact v =
      if v ∈ s.values then (s.values.fact v).settle else .unknown := by
  rw [BlockState.conclude]
  dsimp only
  split
  next hv =>
    rw [Facts.fact_settle_of_mem (Facts.mem_orElse.2 (Or.inl hv)), Facts.fact_orElse_of_mem hv]
  next hv =>
    refine Facts.fact_of_not_mem fun hmem => hv ?_
    exact (Facts.mem_orElse.1 (Facts.mem_settle.1 hmem)).elim id (h v)

theorem Core.conclude {initial : FactMap} (h : env.Core b s t) (hi : ∀ v ∈ initial, v ∈ s.values) :
    env.Core b (s.conclude initial) t := by
  have hfact := fact_values_conclude hi
  refine { h with mem_values := fun v => ?_, le_values := fun v => ?_, values_le := fun v => ?_ }
  · rw [← h.mem_values]
    refine Facts.mem_settle.trans (Facts.mem_orElse.trans ?_)
    exact or_iff_left_of_imp (hi v)
  · rw [hfact]
    split
    · exact (h.le_values v).trans (Fact.le_settle _)
    · rw [← Facts.fact_of_not_mem ‹v ∉ s.values›]
      exact h.le_values v
  · rw [hfact]
    split
    · exact Fact.settle_le_settle.2 (h.values_le v)
    · exact Fact.unknown_le _

theorem mem_of_getElem? (h : m[b]? = some s) : b ∈ m :=
  Std.ExtTreeMap.mem_iff_isSome_getElem?.2 (by simp [h])

theorem exists_state_of_mem (h : b ∈ m) : ∃ s, m[b]? = some s :=
  Option.isSome_iff_exists.1 (Std.ExtTreeMap.mem_iff_isSome_getElem?.1 h)

/-- What holds of every analysed block. -/
structure Present (env : Env) (entry : BlockId) (m : Blocks) (b : BlockId) (s : BlockState) : Prop where
  reachable : b ∈ env.flow.order
  core : ∃ t, env.Core b s t
  initial : ∀ v ∈ env.initial, v ∈ s.values
  sent : b = entry ∨ ∃ u ∈ env.flow.preds b, u ∈ m
  /-- A local value that comes in has been defined on the way. -/
  locals : ∀ k ∈ s.entry, env.IsLocal k →
    ∃ c ∈ m, env.program.Defines c k ∧ env.program.Leads c b
  /-- The block was entered with facts that no instruction of its own had given. -/
  entered : ∃ E, env.NeedsAll E (env.program.instructions b) ∧
    (∀ k ∈ E, ¬ env.program.Defines b k) ∧ ∀ k ∈ E, k ∈ s.entry

theorem Present.of_mem_imp (h : env.Present entry m b s) (hm : ∀ u ∈ m, u ∈ m') :
    env.Present entry m' b s :=
  { h with
    sent := h.sent.imp_right fun ⟨u, hu, hum⟩ => ⟨u, hu, hm u hum⟩
    locals := fun k hk hlocal => (h.locals k hk hlocal).imp fun _ hc => ⟨hm _ hc.1, hc.2⟩ }

theorem fact_of_isLocal (hv : env.Valid entry) (h : Shaped env b s) (hlocal : env.IsLocal k)
    (hk : ¬ env.program.Defines b k) : s.values.fact k = s.entry.fact k := by
  refine h.others k fun hdefined => ?_
  have hwritten := ((h.defined k).1 hdefined).resolve_left hk
  exact not_isLocal_of_isStorage (isStorage_of_written hv.slots k hwritten) hlocal

theorem Core.defines_or_mem_entry (hv : env.Valid entry) (h : env.Core b s t) (hk : k ∈ s.values)
    (hlocal : env.IsLocal k) : env.program.Defines b k ∨ k ∈ s.entry := by
  refine or_iff_not_imp_left.2 fun hd => ?_
  rw [h.entry]
  refine h.shaped.passed k ((h.mem_values k).1 hk) fun hdefined => ?_
  have hwritten := ((h.shaped.defined k).1 hdefined).resolve_left hd
  exact not_isLocal_of_isStorage (isStorage_of_written hv.slots k hwritten) hlocal

/-- A local value that is sent has been defined on the way. -/
theorem Sent.defines_of_isLocal (hv : env.Valid entry)
    (hpresent : ∀ c t, m[c]? = some t → env.Present entry m c t) {X : FactMap}
    (hX : env.Sent entry m b X) (hk : k ∈ X) (hlocal : env.IsLocal k) :
    ∃ c ∈ m, env.program.Defines c k ∧ env.program.Leads c b := by
  rcases hX with ⟨-, rfl⟩ | ⟨u, hu, t, ht, rfl⟩
  · exact absurd hlocal (hv.not_isLocal_of_initial hk)
  · have hedge := (mem_preds.1 hu).2
    obtain ⟨t', hcore⟩ := (hpresent u t ht).core
    rcases hcore.defines_or_mem_entry hv hk hlocal with hd | hentry
    · exact ⟨u, mem_of_getElem? ht, hd, .single hedge⟩
    · obtain ⟨c, hc, hd, hlead⟩ := (hpresent u t ht).locals k hentry hlocal
      exact ⟨c, hc, hd, hlead.tail hedge⟩

/-- A block that is new is sent no result of its own. -/
theorem Sent.not_defines (hv : env.Valid entry)
    (hpresent : ∀ c t, m[c]? = some t → env.Present entry m c t) {X : FactMap} (hnew : m[b]? = none)
    (hX : env.Sent entry m b X) (k : ValueId) (hk : k ∈ X) : ¬ env.program.Defines b k := by
  intro hd
  obtain ⟨c, hc, hdc, -⟩ := hX.defines_of_isLocal hv hpresent hk (isLocal_of_defines hd)
  obtain rfl := hv.wellFormed.eq_of_mem_instructions hd.1 hdc.1
  simp [Std.ExtTreeMap.mem_iff_isSome_getElem?, hnew] at hc

theorem mem_insert_of_mem (h : u ∈ m) : u ∈ m.insert b s :=
  Std.ExtTreeMap.mem_insert.2 (Or.inr h)

/-- An invariant of the blocks at every point holds after a move if it holds of the block that has
been moved. -/
theorem forall_insert {P : BlockId → BlockState → Prop} (h : ∀ c t, m[c]? = some t → P c t)
    (hb : P b s) : ∀ c t, (m.insert b s)[c]? = some t → P c t := by
  intro c t hc
  rw [Blocks.getElem?_insert] at hc
  split at hc
  · subst_vars
    exact Option.some.inj hc ▸ hb
  · exact h c t hc

/-- The facts that the predecessors of a block bring together. -/
abbrev merged (env : Env) (m : Blocks) (b : BlockId) : FactMap :=
  BlockState.mergedEntry (exits env.flow m b) env.initial

theorem mem_exits {X : FactMap} :
    X ∈ exits env.flow m b ↔ ∃ u ∈ env.flow.preds b, ∃ t, m[u]? = some t ∧ t.values = X := by
  simp [exits]

theorem le_merged (hu : u ∈ env.flow.preds b) (ht : m[u]? = some t) (v : ValueId) :
    t.values.fact v ≤ (env.merged m b).fact v := by
  have hmem : t.values ∈ exits env.flow m b := mem_exits.2 ⟨u, hu, t, ht, rfl⟩
  by_cases hv : v ∈ t.values
  · rw [merged, BlockState.mergedEntry,
      Facts.fact_orElse_of_mem (Facts.mem_joinAll.2 ⟨_, hmem, hv⟩)]
    exact Facts.le_joinAll hmem v
  · rw [Facts.fact_of_not_mem hv]
    exact Fact.unknown_le _

theorem Present.sent_of_initial (h : env.Present entry m b s)
    (hpresent : ∀ c t, m[c]? = some t → env.Present entry m c t) (hv : v ∈ env.initial) :
    (b = entry) ∨ v ∈ Facts.joinAll (exits env.flow m b) := by
  refine h.sent.imp_right fun ⟨u, hu, hum⟩ => ?_
  obtain ⟨t, ht⟩ := Option.isSome_iff_exists.1 (Std.ExtTreeMap.mem_iff_isSome_getElem?.1 hum)
  exact Facts.mem_joinAll.2 ⟨t.values, mem_exits.2 ⟨u, hu, t, ht, rfl⟩, (hpresent u t ht).initial v hv⟩

theorem mem_merged (hpresent : ∀ c t, m[c]? = some t → env.Present entry m c t) (hs : m[b]? = some s)
    (hmem : v ∈ env.merged m b) : ∃ X, env.Sent entry m b X ∧ v ∈ X := by
  have hjoined (hjoin : v ∈ Facts.joinAll (exits env.flow m b)) :
      ∃ X, env.Sent entry m b X ∧ v ∈ X := by
    obtain ⟨X, hX, hvX⟩ := Facts.mem_joinAll.1 hjoin
    exact ⟨X, Or.inr (mem_exits.1 hX), hvX⟩
  rcases Facts.mem_orElse.1 hmem with hjoin | hinit
  · exact hjoined hjoin
  · rcases (hpresent b s hs).sent_of_initial hpresent hinit with hb | hjoin
    · exact ⟨_, Or.inl ⟨hb, rfl⟩, hinit⟩
    · exact hjoined hjoin

theorem Present.enter (hv : env.Valid entry)
    (hpresent : ∀ c t, m[c]? = some t → env.Present entry m c t) {E : FactMap}
    (hb : b ∈ env.flow.order) (hnew : m[b]? = none) (hE : env.Sent entry m b E)
    (hs : env.analyze.run { block := b, entry := E } = .ok () s) : env.Present entry m b s := by
  refine ⟨hb, ⟨s, (hv.open_of_run hs).core⟩, fun v hi => ?_, ?_, ?_, E, hv.run_ok_iff.1 ⟨s, hs⟩,
    fun k hk hd => ?_, fun k hk => hv.entry_of_run hs ▸ hk⟩
  · obtain ⟨ρ, hs⟩ := hv.analysed hs
    refine hs.kept v ?_
    rcases hE with ⟨-, rfl⟩ | ⟨u, -, t, ht, rfl⟩
    · exact hi
    · exact (hpresent u t ht).initial v hi
  · rcases hE with ⟨hb, -⟩ | ⟨u, hu, t, ht, -⟩
    · exact Or.inl hb
    · exact Or.inr ⟨u, hu, mem_of_getElem? ht⟩
  · rw [hv.entry_of_run hs]
    exact fun k hk hlocal => hE.defines_of_isLocal hv hpresent hk hlocal
  · exact hE.not_defines hv hpresent hnew k hk hd

theorem Present.revise (hv : env.Valid entry)
    (hpresent : ∀ c t, m[c]? = some t → env.Present entry m c t) (hs : m[b]? = some s)
    (hopen : env.Open b s) (ht : Revised env b (env.merged m b) s t) (D : Derivations) :
    env.Present entry m b { t with derivations := D } := by
  have hb := hpresent b s hs
  refine ⟨hb.reachable, ⟨t, (hopen.revised ht).core.forget D⟩,
    fun v hi => ht.steps.mem_values hv.slots hopen.shaped (hb.initial v hi), hb.sent,
    fun k hk hlocal => ?_, ?_⟩
  · rcases (ht.mem_entry k).1 hk with hk | hk
    · exact hb.locals k hk hlocal
    · obtain ⟨X, hX, hkX⟩ := mem_merged hpresent hs hk
      exact hX.defines_of_isLocal hv hpresent hkX hlocal
  · obtain ⟨E, hneeds, hfresh, hE⟩ := hb.entered
    exact ⟨E, hneeds, hfresh, fun k hk => (ht.mem_entry k).2 (Or.inl (hE k hk))⟩

theorem Present.conclude (h : env.Present entry m b s) :
    env.Present entry m b (s.conclude env.initial) := by
  obtain ⟨t, ht⟩ := h.core
  have hcore := ht.conclude h.initial
  exact { h with
    core := ⟨t, hcore⟩
    initial := fun v hi => (hcore.mem_values v).2 ((ht.mem_values v).1 (h.initial v hi)) }

theorem Reached.present (hv : env.Valid entry) (h : env.Reached entry m) :
    ∀ b s, m[b]? = some s → env.Present entry m b s := by
  induction h with
  | refl => simp
  | @tail m m' _ hmove ih =>
    have hinsert {b : BlockId} {s : BlockState} (h : env.Present entry m b s) :
        ∀ c t, (m.insert b s)[c]? = some t → env.Present entry (m.insert b s) c t :=
      forall_insert (fun c t hc => (ih c t hc).of_mem_imp fun _ => mem_insert_of_mem)
        (h.of_mem_imp fun _ => mem_insert_of_mem)
    cases hmove with
    | enter hb hnew hE hs => exact hinsert (.enter hv ih hb hnew hE hs)
    | revise hs hopen ht => exact hinsert (.revise hv ih hs hopen ht _)
    | conclude hs => exact hinsert (ih _ _ hs).conclude

/-- All that a revision brings has been sent. -/
theorem Reached.merged_mem (hv : env.Valid entry) (h : env.Reached entry m) (hs : m[b]? = some s)
    {J : JoinSet} (hsent : ∀ X, env.Sent entry m b X → X.fact v ∈ J) :
    (env.merged m b).fact v ∈ J := by
  have hpresent := h.present hv
  rw [merged, BlockState.mergedEntry]
  by_cases hjoin : v ∈ Facts.joinAll (exits env.flow m b)
  · rw [Facts.fact_orElse_of_mem hjoin]
    exact JoinSet.fact_joinAll_mem fun X hX => hsent X (Or.inr (mem_exits.1 hX))
  · rw [Facts.fact_orElse_of_not_mem hjoin]
    by_cases hinit : v ∈ env.initial
    · have hb := ((hpresent b s hs).sent_of_initial hpresent hinit).resolve_right hjoin
      exact hsent _ (Or.inl ⟨hb, rfl⟩)
    · rw [Facts.fact_of_not_mem hinit]
      exact J.unknown_mem

theorem Reached.merged_le (hv : env.Valid entry) (h : env.Reached entry m) (hs : m[b]? = some s)
    {c : Dep} (hsent : ∀ X, env.Sent entry m b X → X.fact v ≤ c) : (env.merged m b).fact v ≤ c :=
  Order.Ideal.mem_principal.1 (h.merged_mem hv hs (J := .ofIdeal (.principal c)) fun X hX =>
    Order.Ideal.mem_principal.2 (hsent X hX))

/-- The entry is taken before all other blocks. -/
theorem Reached.entry_mem (h : env.Reached entry m) (hb : b ∈ m) : entry ∈ m := by
  induction h generalizing b with
  | refl => simp at hb
  | tail _ hmove ih =>
    cases hmove with
    | enter _ _ hE _ =>
      rcases hE with ⟨rfl, -⟩ | ⟨u, -, t, ht, -⟩
      · exact Std.ExtTreeMap.mem_insert_self
      · exact mem_insert_of_mem (ih (mem_of_getElem? ht))
    | revise hs _ _ => exact mem_insert_of_mem (ih (mem_of_getElem? hs))
    | conclude hs => exact mem_insert_of_mem (ih (mem_of_getElem? hs))

/-- An invariant of each block by itself, which may refer to where the moves lead in the end. -/
theorem Reached.blocks_induction_until (h : env.Reached entry m) {P : BlockId → BlockState → Prop}
    (henter : ∀ m₁ b E s, env.Reached entry m₁ → Relation.ReflTransGen (env.Move entry) m₁ m →
      (∀ c t, m₁[c]? = some t → P c t) → b ∈ env.flow.order → m₁[b]? = none →
      env.Sent entry m₁ b E → env.analyze.run { block := b, entry := E } = .ok () s → P b s)
    (hrevise : ∀ m₁ b s t D, env.Reached entry m₁ → Relation.ReflTransGen (env.Move entry) m₁ m →
      (∀ c t, m₁[c]? = some t → P c t) → m₁[b]? = some s → env.Open b s →
      Revised env b (env.merged m₁ b) s t → P b { t with derivations := D })
    (hconclude : ∀ m₁ b s, env.Reached entry m₁ → m₁[b]? = some s → P b s →
      P b (s.conclude env.initial)) :
    ∀ b s, m[b]? = some s → P b s := by
  suffices h : ∀ m₁, env.Reached entry m₁ → Relation.ReflTransGen (env.Move entry) m₁ m →
      ∀ b s, m₁[b]? = some s → P b s from h m ‹_› .refl
  intro m₁ hm₁
  induction hm₁ with
  | refl => simp
  | @tail m₁ m₂ hm₁ hmove ih =>
    intro hrest
    have hend : Relation.ReflTransGen (env.Move entry) m₁ m := .head hmove hrest
    have ih := ih hend
    cases hmove with
    | enter hb hnew hE hs => exact forall_insert ih (henter _ _ _ _ hm₁ hend ih hb hnew hE hs)
    | revise hs hopen ht => exact forall_insert ih (hrevise _ _ _ _ _ hm₁ hend ih hs hopen ht)
    | conclude hs => exact forall_insert ih (hconclude _ _ _ hm₁ hs (ih _ _ hs))

/-- An invariant of each block by itself. -/
theorem Reached.blocks_induction (h : env.Reached entry m) {P : BlockId → BlockState → Prop}
    (henter : ∀ m b E s, env.Reached entry m → (∀ c t, m[c]? = some t → P c t) →
      b ∈ env.flow.order → m[b]? = none → env.Sent entry m b E →
      env.analyze.run { block := b, entry := E } = .ok () s → P b s)
    (hrevise : ∀ m b s t D, env.Reached entry m → (∀ c t, m[c]? = some t → P c t) →
      m[b]? = some s → env.Open b s → Revised env b (env.merged m b) s t →
      P b { t with derivations := D })
    (hconclude : ∀ m b s, env.Reached entry m → m[b]? = some s → P b s →
      P b (s.conclude env.initial)) :
    ∀ b s, m[b]? = some s → P b s :=
  h.blocks_induction_until (fun m₁ b E s hm₁ _ => henter m₁ b E s hm₁)
    (fun m₁ b s t D hm₁ _ => hrevise m₁ b s t D hm₁) hconclude

theorem Reached.initial_le (hv : env.Valid entry) (h : env.Reached entry m) :
    ∀ b s, m[b]? = some s → b = entry → env.initial.Below s.entry := by
  refine h.blocks_induction ?_ ?_ ?_
  · rintro m b E s hm - - hnew hE hs rfl
    rw [hv.entry_of_run hs]
    rcases hE with ⟨-, rfl⟩ | ⟨u, -, t, ht, -⟩
    · exact .refl _
    · -- the entry is not new once a predecessor has been analysed
      have hmem := hm.entry_mem (mem_of_getElem? ht)
      simp [Std.ExtTreeMap.mem_iff_isSome_getElem?, hnew] at hmem
  · intro m b s t D _ ih hs _ ht hb v
    exact (ih b s hs hb v).trans (le_sup_left.trans (ht.entry v).ge)
  · exact fun _ _ _ _ _ ih => ih

/-- States of the blocks that go along with the equations of all blocks and with the control flow. -/
structure Encloses (env : Env) (entry : BlockId) (φ : Widening) (S : BlockId → BlockState) : Prop where
  block : ∀ b ∈ env.flow.order, φ.Encloses env b (S b)
  initial : ∀ v, env.initial.fact v ∈ φ ((S entry).entry.fact v)
  flows : ∀ u ∈ env.flow.order, ∀ b ∈ env.program.successors u, ∀ v,
    (S u).values.fact v ≤ ((S b).entry.fact v).settle

theorem Core.outgoing_le (h : env.Core b s t) (v : ValueId) :
    s.outgoing env b v ≤ s.values.fact v := by
  have hsame : s.outgoing env b v = t.outgoing env b v := by
    simp only [BlockState.outgoing, h.get, h.entry]
  rw [hsame, ← h.shaped.fact_values]
  exact h.le_values v

/-- The facts at the end of a block are within those of such a state as well. -/
theorem Core.values_mem {φ : Widening} {S : BlockState} (hcore : env.Core b s t)
    (hS : φ.Encloses env b S) (hs : φ.Within env S s) (v : ValueId) :
    s.values.fact v ∈ φ (S.values.fact v) := by
  have ht : φ.Within env S t :=
    ⟨fun v => hcore.entry ▸ hs.entry v, fun d hd => hcore.get d ▸ hs.get d hd⟩
  have hmem := hS.values_mem hcore.shaped ht v
  exact Order.Ideal.lower _ (hcore.values_le v)
    (JoinSet.settle_mem (J := .ofIdeal (φ (S.values.fact v))) (φ.independent_mem _) hmem)

/-- No move leaves such states. -/
theorem Reached.within (hv : env.Valid entry) (h : env.Reached entry m) {φ : Widening}
    {S : BlockId → BlockState} (hS : env.Encloses entry φ S) :
    ∀ b s, m[b]? = some s → φ.Within env (S b) s := by
  have hsent {m : Blocks} {b : BlockId} {X : FactMap} (hm : env.Reached entry m)
      (ih : ∀ b s, m[b]? = some s → φ.Within env (S b) s) (hX : env.Sent entry m b X) (v : ValueId) :
      X.fact v ∈ φ ((S b).entry.fact v) := by
    rcases hX with ⟨rfl, rfl⟩ | ⟨u, hu, t, ht, rfl⟩
    · exact hS.initial v
    · obtain ⟨hu, hedge⟩ := mem_preds.1 hu
      obtain ⟨t₀, hcore⟩ := (hm.present hv u t ht).core
      exact φ.mono (hS.flows u hu b hedge v) (hcore.values_mem (hS.block u hu) (ih u t ht) v)
  refine h.blocks_induction ?_ ?_ ?_
  · intro m b E s hm ih hb _ hE hs
    obtain ⟨ρ, hs⟩ := hv.analysed hs
    exact (hS.block b hb).analysed hv.slots hs (hsent hm ih hE)
  · intro m b s t D hm ih hs hopen ht
    have hb := (hm.present hv b s hs).reachable
    have hwithin := (hS.block b hb).steps hv.slots ht.steps hopen.shaped
      (fun v => hm.merged_mem hv hs (J := .ofIdeal (φ _)) fun X hX => hsent hm ih hX v) (ih b s hs)
    exact ⟨hwithin.entry, hwithin.get⟩
  · exact fun _ _ _ _ _ ih => ⟨ih.entry, ih.get⟩

end Env

end InputFlow
