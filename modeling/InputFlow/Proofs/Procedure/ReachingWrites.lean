import InputFlow.Proofs.Procedure.Effects

namespace InputFlow

/-- A point of a function: a block, and the instructions of the block that come before. -/
structure Point where
  block : BlockId
  before : List ValueId

namespace Program

variable {p : Program} {s i : ValueId}

def Overwrites (p : Program) (s i : ValueId) : Prop :=
  ∃ value, p.definition? i = some (.inst (.store value s))

/-- Control goes on from one point to the next and keeps the content of a slot. -/
inductive Keeps (p : Program) (s : ValueId) : Point → Point → Prop
  | next {b : BlockId} {before after : List ValueId} {i : ValueId}
    (his : p.instructions b = before ++ i :: after) (hi : ¬ p.Overwrites s i) :
    Keeps p s ⟨b, before⟩ ⟨b, before ++ [i]⟩
  | jump {b c : BlockId} (hc : c ∈ p.successors b) : Keeps p s ⟨b, p.instructions b⟩ ⟨c, []⟩

/-- A path from one point to another on which the content of a slot is not written over. -/
def ClearPath (p : Program) (s : ValueId) : Point → Point → Prop :=
  Relation.ReflTransGen (p.Keeps s)

end Program

namespace Env

variable {env : Env} {entry b : BlockId} {m : Blocks} {t : BlockState} {r : Procedure}
  {i s v : ValueId} {f : Formula} {σ : Outline} {before after : List ValueId} {x c : Dep}
  {P : Point}

/-- What an instruction writes to a slot, given the final facts. -/
inductive Written (env : Env) (r : Procedure) (s i : ValueId) : Dep → Prop
  /-- A store to the slot itself. -/
  | whole {value : ValueId} (hd : env.program.definition? i = some (.inst (.store value s))) :
    Written env r s i (env.operandFact r value)
  /-- A store to an element of the slot also depends on where the element is. -/
  | element {value pointer : ValueId}
    (hd : env.program.definition? i = some (.inst (.store value pointer)))
    (hroot : env.program.RootedAt pointer s) (hne : pointer ≠ s) :
    Written env r s i (env.operandFact r value ⊔ env.operandFact r pointer)
  /-- A store through a pointer that may lead to the slot. -/
  | aliased {value pointer : ValueId}
    (hd : env.program.definition? i = some (.inst (.store value pointer)))
    (hroot : env.program.Unrooted pointer) (halias : env.oracle.mayAlias pointer s) :
    Written env r s i (env.operandFact r value)
  /-- A call of an input function with a pointer that leads to the slot or may do so. -/
  | filled {callee : FuncId} {args : List ValueId} {pointer : ValueId}
    (hd : env.program.definition? i = some (.inst (.call (some callee) args)))
    (hinput : env.context.isInputFunction callee) (hmem : pointer ∈ args)
    (hroot : env.program.RootedAt pointer s ∨
      env.program.Unrooted pointer ∧ env.oracle.mayAlias pointer s) :
    Written env r s i (.on i)

/-- The facts that come to a point in a slot: those written on the way, and that of a global at the
start. -/
def reaching (env : Env) (r : Procedure) (entry : BlockId) (s : ValueId) (P : Point) : Set Dep :=
  {x | x = .independent ∨
    (∃ b before i after, Graph.Reaches env.program.successors entry b ∧
      env.program.instructions b = before ++ i :: after ∧ env.Written r s i x ∧
      env.program.ClearPath s ⟨b, before ++ [i]⟩ P) ∨
    env.program.role s = .global ∧ env.program.ClearPath s ⟨entry, []⟩ P ∧ x = env.initial.fact s}

section Writes

variable {w : Write}

theorem mem_fillWrites {input : Dep} {pointer : ValueId} : w ∈ env.fillWrites input pointer ↔
    w.whole = false ∧ w.formula = .fixed input ∧
      ((∃ whole, env.program.pointer? pointer = some (.slot w.slot whole)) ∨
        ((∃ a, env.program.pointer? pointer = some (.param a)) ∨
          ∃ u, env.program.pointer? pointer = some (.untraced u)) ∧
        w.slot ∈ env.aliases pointer env.context.slots) := by
  obtain ⟨slot, whole, formula⟩ := w
  rw [fillWrites]
  split <;> simp_all <;> grind

theorem mem_storeWrites {value pointer : ValueId} : w ∈ env.storeWrites σ value pointer ↔
    env.program.pointer? pointer = some (.slot w.slot true) ∧ w.whole = true ∧
        w.formula = env.operandFormula σ value ∨
    env.program.pointer? pointer = some (.slot w.slot false) ∧ w.whole = false ∧
        w.formula = (env.operandFormula σ value).join (env.operandFormula σ pointer) ∨
    ((∃ a, env.program.pointer? pointer = some (.param a)) ∨
        ∃ u, env.program.pointer? pointer = some (.untraced u)) ∧ w.whole = false ∧
      w.slot ∈ env.aliases pointer env.context.slots ∧ w.formula = env.operandFormula σ value := by
  obtain ⟨slot, whole, formula⟩ := w
  rw [storeWrites]
  split <;> simp_all <;> grind

theorem mem_writes : w ∈ env.writes σ i ↔
    (∃ value pointer, env.program.definition? i = some (.inst (.store value pointer)) ∧
      w ∈ env.storeWrites σ value pointer) ∨
    ∃ callee args pointer, env.program.definition? i = some (.inst (.call (some callee) args)) ∧
      env.context.isInputFunction callee ∧ pointer ∈ args ∧ w ∈ env.fillWrites (.on i) pointer := by
  rw [writes]
  split
  next hd => simp [hd]
  next callee args hd =>
    cases callee with
    | none => simp [hd]
    | some callee => by_cases hinput : env.context.isInputFunction callee <;> simp [hd, hinput]
  next hstore hcall =>
    simp only [List.not_mem_nil, false_iff]
    rintro (⟨_, _, hd, -⟩ | ⟨_, _, _, hd, -⟩)
    · exact hstore _ _ hd
    · exact hcall _ _ hd

end Writes

theorem content_foldl_write_le_iff {ws : List Write} (hws : ∀ w ∈ ws, w.slot = s → ¬ w.whole)
    {ρ : Origin → Dep} : ((ws.foldl Outline.write σ).content s).eval ρ ≤ c ↔
      (σ.content s).eval ρ ≤ c ∧ ∀ w ∈ ws, w.slot = s → w.formula.eval ρ ≤ c := by
  induction ws generalizing σ with
  | nil => simp
  | cons w ws ih =>
    rw [List.foldl_cons, ih fun w hw => hws w (.tail _ hw), List.forall_mem_cons, ← and_assoc]
    refine and_congr_left fun _ => ?_
    by_cases hs : w.slot = s
    · have hw : w.whole = false := by simpa using hws w List.mem_cons_self hs
      simp [Outline.write, Outline.put, hs, hw, Formula.eval_join]
    · simp [Outline.write, Outline.put, hs, Ne.symm hs]

section Traceable

variable (hi : env.Traceable i) (hs : env.program.isStorage s)

include hi

theorem Traceable.overwrites_of_whole {w : Write} (hw : w ∈ env.writes σ i) (hwhole : w.whole) :
    env.program.Overwrites w.slot i := by
  rcases mem_writes.1 hw with ⟨value, pointer, hd, hw⟩ | ⟨_, _, pointer, -, -, -, hw⟩
  · have hpointer : env.program.pointer? pointer = some (.slot w.slot true) := by
      rcases mem_storeWrites.1 hw with ⟨hp, -⟩ | ⟨-, hfalse, -⟩ | ⟨-, hfalse, -⟩
      · exact hp
      all_goals simp [hwhole] at hfalse
    have htraceable := hi pointer (by simp [addresses, hd])
    obtain ⟨-, -, hself⟩ := (Program.pointer?_eq_slot_iff htraceable).1 hpointer
    exact ⟨value, by rw [hd, hself.1 rfl]⟩
  · simp [(mem_fillWrites.1 hw).1] at hwhole

include hs

theorem Traceable.writes_of_overwrites {value : ValueId}
    (hd : env.program.definition? i = some (.inst (.store value s))) :
    env.writes σ i = [⟨s, true, env.operandFormula σ value⟩] := by
  have hp : env.program.pointer? s = some (.slot s true) :=
    (Program.pointer?_eq_slot_iff (hi s (by simp [addresses, hd]))).2 ⟨.self s, hs, by simp⟩
  simp [writes, hd, storeWrites, hp]

/-- What is in a slot after an instruction has been there before or is written by it. -/
theorem Traceable.content_append_le_iff {is : List ValueId} {ρ : Origin → Dep} :
    ((env.outlineOf (is ++ [i])).content s).eval ρ ≤ c ↔
      (¬ env.program.Overwrites s i → ((env.outlineOf is).content s).eval ρ ≤ c) ∧
        ∀ w ∈ env.writes (env.outlineOf is) i, w.slot = s → w.formula.eval ρ ≤ c := by
  rw [outlineOf_append, content_extend]
  by_cases ho : env.program.Overwrites s i
  · obtain ⟨value, hd⟩ := id ho
    simp [hi.writes_of_overwrites hs hd, ho, Outline.write, Outline.put]
  · have hwhole : ∀ w ∈ env.writes (env.outlineOf is) i, w.slot = s → ¬ w.whole := by
      rintro w hw rfl hwhole
      exact ho (hi.overwrites_of_whole hw hwhole)
    rw [content_foldl_write_le_iff hwhole]
    simp [ho, Outline.read]

theorem Traceable.written_iff (hslot : s ∈ env.context.slots) : env.Written r s i x ↔
    ∃ w ∈ env.writes σ i, w.slot = s ∧ x = w.formula.eval (env.final r t) := by
  have haliases (pointer : ValueId) :
      s ∈ env.aliases pointer env.context.slots ↔ env.oracle.mayAlias pointer s := by
    simp [aliases, hslot]
  have hstore {value pointer : ValueId}
      (hd : env.program.definition? i = some (.inst (.store value pointer))) :=
    hi pointer (by simp [addresses, hd])
  have hcall {callee : FuncId} {args : List ValueId} {pointer : ValueId}
      (hd : env.program.definition? i = some (.inst (.call (some callee) args)))
      (hinput : env.context.isInputFunction callee) (hmem : pointer ∈ args) :=
    hi pointer (by simp [addresses, hd, hinput, hmem])
  constructor
  · rintro (⟨hd⟩ | @⟨value, pointer, hd, hroot, hne⟩ | ⟨hd, hroot, halias⟩ | ⟨hd, hinput, hmem, hroot⟩)
    · refine ⟨⟨s, true, _⟩, mem_writes.2 (.inl ⟨_, _, hd, mem_storeWrites.2 (.inl ⟨?_, rfl, rfl⟩)⟩), rfl,
        (eval_operandFormula ..).symm⟩
      exact (Program.pointer?_eq_slot_iff (hstore hd)).2 ⟨.self s, hs, by simp⟩
    · refine ⟨⟨s, false, (env.operandFormula σ value).join (env.operandFormula σ pointer)⟩,
        mem_writes.2 (.inl ⟨_, _, hd, mem_storeWrites.2 (.inr (.inl ⟨?_, rfl, rfl⟩))⟩), rfl, ?_⟩
      · exact (Program.pointer?_eq_slot_iff (hstore hd)).2 ⟨hroot, hs, by simpa using hne⟩
      · rw [Formula.eval_join, eval_operandFormula, eval_operandFormula]
    · refine ⟨⟨s, false, _⟩, mem_writes.2 (.inl ⟨_, _, hd, mem_storeWrites.2 (.inr (.inr
        ⟨?_, rfl, (haliases _).2 halias, rfl⟩))⟩), rfl, (eval_operandFormula ..).symm⟩
      exact (Program.unrooted_iff (hstore hd)).1 hroot
    · refine ⟨⟨s, false, .fixed (.on i)⟩, mem_writes.2 (.inr ⟨_, _, _, hd, hinput, hmem,
        mem_fillWrites.2 ⟨rfl, rfl, ?_⟩⟩), rfl, (Formula.eval_fixed ..).symm⟩
      have htrace := hcall hd hinput hmem
      rcases hroot with hroot | ⟨hroot, halias⟩
      · exact .inl ⟨_, (Program.pointer?_eq_slot_iff htrace).2 ⟨hroot, hs, decide_eq_true_iff⟩⟩
      · exact .inr ⟨(Program.unrooted_iff htrace).1 hroot, (haliases _).2 halias⟩
  · rintro ⟨w, hw, rfl, rfl⟩
    rcases mem_writes.1 hw with ⟨value, pointer, hd, hw⟩ | ⟨callee, args, pointer, hd, hinput, hmem, hw⟩
    · rcases mem_storeWrites.1 hw with ⟨hp, -, hf⟩ | ⟨hp, -, hf⟩ | ⟨hp, -, halias, hf⟩
      · obtain ⟨-, -, hself⟩ := (Program.pointer?_eq_slot_iff (hstore hd)).1 hp
        rw [hf, eval_operandFormula]
        exact .whole (by rw [hd, hself.1 rfl])
      · obtain ⟨hroot, -, hne⟩ := (Program.pointer?_eq_slot_iff (hstore hd)).1 hp
        rw [hf, Formula.eval_join, eval_operandFormula, eval_operandFormula]
        exact .element hd hroot (by simpa using hne)
      · rw [hf, eval_operandFormula]
        exact .aliased hd ((Program.unrooted_iff (hstore hd)).2 hp) ((haliases pointer).1 halias)
    · obtain ⟨-, hf, hroot⟩ := mem_fillWrites.1 hw
      have htrace := hcall hd hinput hmem
      rw [hf, Formula.eval_fixed]
      refine .filled hd hinput hmem ?_
      rcases hroot with ⟨whole, hp⟩ | ⟨hp, halias⟩
      · exact .inl ((Program.pointer?_eq_slot_iff htrace).1 hp).1
      · exact .inr ⟨(Program.unrooted_iff htrace).2 hp, (haliases pointer).1 halias⟩

end Traceable

def contentAt (env : Env) (r : Procedure) (s : ValueId) (t : BlockState) (is : List ValueId) : Dep :=
  (((env.outlineOf is).content s).eval (env.final r t)).settle

theorem contentAt_nil (hs : env.program.isStorage s) :
    env.contentAt r s t [] = (t.entry.fact s).settle := by
  simp [contentAt, outlineOf, final, Origin.value, not_isLocal_of_isStorage hs]

theorem Grown.offer_le {t u : BlockState} (h : Grown t u) (o : Origin) :
    t.offer env.program o ≤ u.offer env.program o := by
  refine sup_le_sup (h.entry o.value) ?_
  split
  · exact h.get (.inst o.value)
  · exact le_refl _

/-- A block passes on no more in a slot than its formula says. -/
theorem Core.values_le_content {t₀ : BlockState} (h : env.Core b t t₀) (ht : Supported env b t)
    (hs : env.program.isStorage s) :
    t.values.fact s ≤ (((env.outline b).content s).eval (t.offer env.program)).settle := by
  refine Fact.le_settle_trans (h.values_le s) ?_
  by_cases hw : s ∈ (env.outline b).written
  · rw [Facts.fact_of_some (h.shaped.slots s hw), ← h.get]
    exact ht _ (.slot s) nofun ⟨hw, rfl⟩
  · have hnot : ¬ env.program.Defines b s := fun hd =>
      not_isLocal_of_isStorage hs (isLocal_of_defines hd)
    rw [h.shaped.others s (by simp [h.shaped.defined, hnot, hw]), ← h.entry, outline,
      content_of_not_written hw, Formula.eval_ofOrigin]
    exact le_sup_left.trans (Fact.le_settle _)

theorem Valid.fact_initial_of_not_global (h : env.Valid entry) (hs : env.program.isStorage s)
    (hg : env.program.role s ≠ .global) : env.initial.fact s = .unknown := by
  refine Facts.fact_of_not_mem fun hmem => ?_
  exact Program.not_isStorage_of_argument ((h.role_of_initial hmem).resolve_right hg) hs

/-- Storage that an instruction of the function names is a slot of the function. -/
theorem Valid.mem_slots (h : env.Valid entry) (hb : Graph.Reaches env.program.successors entry b)
    (hi : i ∈ env.program.instructions b) (hs : env.program.isStorage s)
    (hmem : s ∈ env.program.operands i) : s ∈ env.context.slots := by
  have hb := h.wellFormed.mem_functionBlocks_of_reaches h.entryBlock hb
  have hi := Program.mem_blockValues_of_mem_instructions hi
  rw [h.isOf.mem_slots]
  rcases h.wellFormed.scope_of_mem_operands hb hi hmem with hg | hparam | ⟨c, hc, hsc⟩
  · exact .inl hg
  · exact absurd hs (Program.not_isStorage_of_argument (h.wellFormed.role_of_mem_params hparam))
  · rw [Program.isStorage, Bool.or_eq_true, beq_iff_eq] at hs
    refine hs.imp h.wellFormed.mem_globals_iff.2 fun ha => ⟨c, hc, List.mem_filter.2 ⟨hsc, ?_⟩, ha⟩
    rw [Program.isAlloca] at ha
    split at ha
    next hd => simp [Program.isConst, hd]
    next => cases ha

namespace Finished

theorem reachable_of_split (h : env.Finished entry m) (ht : m[b]? = some t)
    (his : env.program.instructions b = before ++ i :: after) : env.program.Reachable entry i :=
  h.reachable_iff.2 ⟨b, t, before, after, ht, his⟩

/-- What is in a slot stays there on a clear path. -/
theorem contentAt_le_of_clearPath (h : env.Finished entry m) (hs : env.program.isStorage s)
    {P Q : Point} (hpath : env.program.ClearPath s P Q) (ht : m[P.block]? = some t) :
    ∃ u, m[Q.block]? = some u ∧
      env.contentAt (result env m) s t P.before ≤ env.contentAt (result env m) s u Q.before := by
  induction hpath with
  | refl => exact ⟨t, ht, le_refl _⟩
  | tail _ hkeeps ih =>
    obtain ⟨u, hu, hle⟩ := ih
    cases hkeeps with
    | next his hi =>
      have htrace := h.traceable (h.reachable_of_split hu his)
      refine ⟨u, hu, hle.trans (Fact.settle_mono ?_)⟩
      exact ((htrace.content_append_le_iff hs).1 (le_refl _)).1 hi
    | @jump b c hc =>
      have hb := (h.mem b).1 (mem_of_getElem? hu)
      have hc' : c ∈ env.flow.order := h.valid.mem_order.2 ((h.valid.mem_order.1 hb).tail hc)
      obtain ⟨u', hu'⟩ := h.exists_state hc'
      refine ⟨u', hu', hle.trans ?_⟩
      rw [contentAt_nil hs]
      refine (h.settle_content hu hs).ge.trans (Fact.settle_mono ?_)
      exact h.covered c hc' b (mem_preds.2 ⟨hb, hc⟩) u u' hu hu' s

/-- The content of a slot at a point of a block with a clear path is below any bound of what has been
written, if that on entry to the block is. -/
theorem content_le_of_reaching (h : env.Finished entry m) (hs : env.program.isStorage s)
    (hslot : s ∈ env.context.slots) (hc : ∀ x ∈ env.reaching (result env m) entry s P, x ≤ c)
    (ht : m[b]? = some t) {ρ : Origin → Dep} (hρ : ∀ o, ρ o ≤ env.final (result env m) t o)
    (hentry : env.program.ClearPath s ⟨b, []⟩ P → ρ (.entry s) ≤ c)
    (his : env.program.instructions b = before ++ after)
    (hpath : env.program.ClearPath s ⟨b, before⟩ P) :
    ((env.outlineOf before).content s).eval ρ ≤ c := by
  induction before using List.reverseRecOn generalizing after with
  | nil => simpa [outlineOf] using hentry hpath
  | append_singleton before i ih =>
    have his : env.program.instructions b = before ++ i :: after := by simpa using his
    have htrace := h.traceable (h.reachable_of_split ht his)
    refine (htrace.content_append_le_iff hs).2 ⟨fun hi => ?_, fun w hw hws => ?_⟩
    · exact ih his (.head (.next his hi) hpath)
    · refine (Formula.eval_mono fun o _ => hρ o).trans ?_
      refine hc _ (.inr (.inl ⟨b, before, i, after, ?_, his, ?_, hpath⟩))
      · exact h.valid.mem_order.1 ((h.mem b).1 (mem_of_getElem? ht))
      · exact (htrace.written_iff hs hslot).2 ⟨w, hw, hws, rfl⟩

/-- What comes into a slot on a clear path is below any bound of what has been written. -/
theorem entry_le_of_reaching (h : env.Finished entry m) (hs : env.program.isStorage s)
    (hslot : s ∈ env.context.slots)
    (hc : ∀ x ∈ env.reaching (result env m) entry s P, x ≤ c) :
    ∀ (b : BlockId) (t : BlockState), m[b]? = some t → env.program.ClearPath s ⟨b, []⟩ P →
      t.entry.fact s ≤ c := by
  have hv := h.valid
  have hsent {m₁ : Blocks} {b : BlockId} {X : FactMap} (hm₁ : env.Reached entry m₁)
      (hend : Relation.ReflTransGen (env.Move entry) m₁ m)
      (ih : ∀ (b : BlockId) (t : BlockState), m₁[b]? = some t →
        env.program.ClearPath s ⟨b, []⟩ P → t.entry.fact s ≤ c)
      (hX : env.Sent entry m₁ b X) (hpath : env.program.ClearPath s ⟨b, []⟩ P) : X.fact s ≤ c := by
    rcases hX with ⟨rfl, rfl⟩ | ⟨u, hu, t, ht, rfl⟩
    · by_cases hg : env.program.role s = .global
      · exact hc _ (.inr (.inr ⟨hg, hpath, rfl⟩))
      · rw [hv.fact_initial_of_not_global hs hg]
        exact Fact.unknown_le _
    · obtain ⟨t₀, hcore⟩ := (hm₁.present hv u t ht).core
      refine (hcore.values_le_content (hm₁.supported hv u t ht) hs).trans ?_
      obtain ⟨t', ht', hgrown⟩ := grown_of_moves hv hend ht
      rw [Fact.settle_eq_sup]
      refine sup_le ?_ (hc _ (.inl rfl))
      refine h.content_le_of_reaching hs hslot hc ht'
        (fun o => (hgrown.offer_le o).trans (h.offer_le_final ht' o)) (fun hpath => ?_)
        (List.append_nil _).symm (.head (.jump (mem_preds.1 hu).2) hpath)
      simpa [BlockState.offer, Origin.value, Program.isResult_of_isStorage hs] using ih u t ht hpath
  refine h.reached.blocks_induction_until ?_ ?_ ?_
  · intro m₁ b E t hm₁ hend ih _ _ hE ht hpath
    rw [hv.entry_of_run ht]
    exact hsent hm₁ hend ih hE hpath
  · intro m₁ b t t' D hm₁ hend ih ht _ ht' hpath
    refine (ht'.entry s).trans_le (sup_le (ih b t ht hpath) ?_)
    exact hm₁.merged_le hv ht fun X hX => hsent hm₁ hend ih hX hpath
  · exact fun _ _ _ _ _ ih => ih

/-- The final content of a slot at a point. -/
theorem isLUB_contentAt (h : env.Finished entry m) (hs : env.program.isStorage s)
    (hslot : s ∈ env.context.slots) (ht : m[b]? = some t)
    (his : env.program.instructions b = before ++ after) :
    IsLUB (env.reaching (result env m) entry s ⟨b, before⟩)
      (env.contentAt (result env m) s t before) := by
  constructor
  · rintro x (rfl | ⟨u, l, i, rest, hu, hui, hwritten, hpath⟩ | ⟨hg, hpath, rfl⟩)
    · exact Fact.independent_le_settle _
    · obtain ⟨t₁, ht₁⟩ := h.exists_state (h.valid.mem_order.2 hu)
      have htrace := h.traceable (h.reachable_of_split ht₁ hui)
      obtain ⟨t₂, ht₂, hle⟩ := h.contentAt_le_of_clearPath hs hpath ht₁
      obtain rfl := Option.some.inj (ht.symm.trans ht₂)
      obtain ⟨w, hw, hws, rfl⟩ :=
        (htrace.written_iff (σ := env.outlineOf l) (t := t₁) hs hslot).1 hwritten
      exact (((htrace.content_append_le_iff hs).1 (Fact.le_settle _)).2 w hw hws).trans hle
    · obtain ⟨t₁, ht₁⟩ := h.exists_state (h.valid.mem_order.2 .refl)
      obtain ⟨t₂, ht₂, hle⟩ := h.contentAt_le_of_clearPath hs hpath ht₁
      obtain rfl := Option.some.inj (ht.symm.trans ht₂)
      refine le_trans ?_ hle
      rw [contentAt_nil hs]
      exact (h.reached.initial_le h.valid entry t₁ ht₁ rfl s).trans (Fact.le_settle _)
  · intro c hc
    rw [contentAt, Fact.settle_eq_sup]
    refine sup_le (h.content_le_of_reaching hs hslot hc ht (fun _ => le_refl _) (fun hpath => ?_) his
      .refl) (hc (.inl rfl))
    rw [final, Origin.value, if_neg (not_isLocal_of_isStorage hs)]
    exact h.entry_le_of_reaching hs hslot hc b t ht hpath

end Finished

/-- A load of a slot sees what has been written to the slot on some path to it, unless all of the
slot has been written over in between. -/
theorem load_sees_reaching_writes {text : List Char} {env : Env} {rounds : Nat} {r : Procedure}
    {entry b : BlockId} {i s : ValueId} {before after : List ValueId}
    (hparse : Source.parse text = .ok env.program) (hcontext : env.context.IsOf env.program)
    (hentry : env.program.entryBlock? env.context.func = some entry) (hrun : env.run rounds = .ok r)
    (hb : Graph.Reaches env.program.successors entry b)
    (his : env.program.instructions b = before ++ i :: after)
    (hd : env.program.definition? i = some (.inst (.load s))) (hs : env.program.isStorage s) :
    ∃ a, r.instruction? i = some a ∧ IsLUB (env.reaching r entry s ⟨b, before⟩) a := by
  obtain ⟨entry', m, hfin, rfl⟩ := finished_of_run (Source.wellFormed_of_parse hparse) hcontext hrun
  obtain rfl : entry = entry' := Option.some.inj (hentry.symm.trans hfin.valid.entryBlock)
  obtain ⟨t, ht⟩ := hfin.exists_state (hfin.valid.mem_order.2 hb)
  have hi : i ∈ env.program.instructions b := by simp [his]
  have hslot : s ∈ env.context.slots := hfin.valid.mem_slots hb hi hs
    (by simp [Program.operands, hd, Definition.operands, Code.operands])
  have hpointer : env.program.pointer? s = some (.slot s true) := by
    have htrace := hfin.traceable ⟨b, hb, hi⟩ s (by simp [addresses, hd])
    exact (Program.pointer?_eq_slot_iff htrace).2 ⟨.self s, hs, by simp⟩
  have hrule : env.rule (env.outlineOf before) i = (env.outlineOf before).content s := by
    simp [rule, hd, loadFormula, hpointer]
  refine ⟨env.contentAt (Finished.result env m) s t before, ?_, hfin.isLUB_contentAt hs hslot ht his⟩
  rw [contentAt, ← hrule, ← hfin.fact_eq_rule ht his (by simp [IsElementStore, hd])
    (by simp [Program.isPhi, hd])]
  exact hfin.instruction?_eq_fact ht hi

end Env

/-- In the loop that fills a slot, the load sees what the call at the end has written. -/
theorem loop_load_sees_call : ∃ r a, fillEnv.run 8 = .ok r ∧ r.instruction? 8 = some a ∧
    IsLUB (fillEnv.reaching r 0 4 ⟨1, [7]⟩) a ∧ .on 13 ≤ a := by
  obtain ⟨r, hr⟩ := fillEnv_runs
  obtain ⟨hreach, -⟩ := fillProgram_reaches_loop
  obtain ⟨hentry, his, hload, hcall, hphi, hbranch, hstorage, hinput, hback⟩ :
      fillProgram.entryBlock? 1 = some 0 ∧
        fillProgram.instructions 1 = [7, 8, 9, 10, 11, 12, 13, 14] ∧
        fillProgram.definition? 8 = some (.inst (.load 4)) ∧
        fillProgram.definition? 13 = some (.inst (.call (some 0) [4])) ∧
        fillProgram.isPhi 7 ∧ fillProgram.definition? 14 = some (.inst (.condbr 13 1 2)) ∧
        fillProgram.isStorage 4 ∧ fillEnv.context.isInputFunction 0 ∧
        1 ∈ fillProgram.successors 1 := by decide +kernel
  have hclear : fillProgram.ClearPath 4 ⟨1, [7, 8, 9, 10, 11, 12] ++ [13]⟩ ⟨1, [7]⟩ := by
    have hlast : fillProgram.Keeps 4 ⟨1, [7, 8, 9, 10, 11, 12, 13]⟩ ⟨1, fillProgram.instructions 1⟩ :=
      his ▸ .next (his : _ = _ ++ 14 :: []) (by simp [Program.Overwrites, hbranch])
    have hfirst : fillProgram.Keeps 4 ⟨1, []⟩ ⟨1, [7]⟩ :=
      .next (his : _ = [] ++ 7 :: _) (by rintro ⟨value, hd⟩; simp [Program.isPhi, hd] at hphi)
    exact .head hlast (.head (.jump hback) (.single hfirst))
  have hsplit : fillProgram.instructions 1 = [7] ++ 8 :: [9, 10, 11, 12, 13, 14] := his
  obtain ⟨a, ha, hlub⟩ := Env.load_sees_reaching_writes parse_fillText fillEnv_isOf hentry hr hreach
    hsplit hload hstorage
  refine ⟨r, a, hr, ha, hlub, hlub.1 (.inr (.inl ?_))⟩
  refine ⟨1, [7, 8, 9, 10, 11, 12], 13, [14], hreach, his, ?_, hclear⟩
  exact .filled hcall hinput List.mem_cons_self (.inl (.self 4))

end InputFlow
