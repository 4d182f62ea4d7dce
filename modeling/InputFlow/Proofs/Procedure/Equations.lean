import InputFlow.Proofs.Block.Support
import InputFlow.Proofs.Procedure.Schedule

namespace InputFlow

theorem Outline.value_origin (σ : Outline) (p : Program) (v : ValueId) : (σ.origin p v).value = v := by
  rw [Outline.origin]
  split <;> rfl

namespace Env

variable {env : Env} {entry b c : BlockId} {m m' : Blocks} {s t : BlockState} {i k v : ValueId}
  {E : FactMap} {f : Formula} {d : Derived} {is : List ValueId}

instance : Decidable (env.IsLocal v) :=
  inferInstanceAs (Decidable (_ = _))

/-- The fact of an operand, given those that the analysis ends with. -/
def operandFact (env : Env) (r : Procedure) (v : ValueId) : Dep :=
  match env.program.role v with
  | .constant | .global => .independent
  | .argument => env.paramFact v
  | .instruction => if env.program.isAlloca v then .independent else r.instructions.fact v

/-- The facts of origins at the end: those of instructions for all local values, and those on entry
to the block for storage. -/
def final (env : Env) (r : Procedure) (s : BlockState) (o : Origin) : Dep :=
  if env.IsLocal o.value then r.instructions.fact o.value else s.entry.fact o.value

theorem eval_operandFormula (r : Procedure) (s : BlockState) (σ : Outline) (v : ValueId) :
    (env.operandFormula σ v).eval (env.final r s) = env.operandFact r v := by
  rw [operandFormula, operandFact]
  cases hr : env.program.role v with
  | instruction =>
    by_cases ha : env.program.isAlloca v
    · simp [ha]
    · have hlocal : env.IsLocal v := isLocal_iff.2 ⟨hr, ha⟩
      simp [ha, final, Outline.value_origin, hlocal]
  | _ => rfl

section Known

/-- The operands of an instruction that writes something must be known. -/
theorem uses_of_writes {σ : Outline} {w : Write} (hw : w ∈ env.writes σ i) :
    env.inputs i = env.uses i := by
  rw [writes] at hw
  rw [inputs]
  split at hw <;> simp_all

theorem uses_of_effects {σ : Outline} {e : Derived × Formula} (he : e ∈ env.effects σ i) :
    env.inputs i = env.uses i := by
  rw [effects] at he
  rw [inputs]
  split at he <;> simp_all

theorem uses_of_not_isPhi (h : ¬ env.program.isPhi i) : env.inputs i = env.uses i := by
  rw [inputs]
  split
  · simp [Program.isPhi, *] at h
  · rfl

theorem known_content (his : env.NeedsAll E is) (v : ValueId)
    (hv : env.program.isStorage v) (k : ValueId) (hk : .entry k ∈ ((env.outlineOf is).content v).origins)
    (hlocal : env.IsLocal k) : k ∈ E := by
  suffices h : ∀ v, env.program.isStorage v → ∀ o ∈ ((env.outlineOf is).content v).origins,
      ∀ k, o = .entry k → env.IsLocal k → k ∈ E from h v hv _ hk k rfl hlocal
  clear hk hv
  induction is using List.reverseRecOn with
  | nil =>
    rintro v hv o ho k rfl hlocal
    obtain rfl : k = v := by simpa [outlineOf, Formula.ofOrigin] using ho
    exact absurd hlocal (not_isLocal_of_isStorage hv)
  | append_singleton is i ih =>
    rw [outlineOf_append, content_extend]
    refine Outline.content_foldl_write (fun w hw o ho k hok _ => ?_)
      (ih fun l j r hr => his l j (r ++ [i]) (by simp [hr]))
    obtain ⟨u, hu, ho⟩ := origins_writes hw ho
    rw [uses_of_writes hw] at hu
    exact (his is i [] rfl).1 u hu k (hok ▸ ho)

theorem known_rule (hslots : env.SlotsAreStorage) {before after : List ValueId}
    (his : env.NeedsAll E (before ++ i :: after)) (hi : ¬ env.program.isPhi i) (k : ValueId)
    (hk : .entry k ∈ (env.rule (env.outlineOf before) i).origins) (hlocal : env.IsLocal k) : k ∈ E := by
  have hbefore : env.NeedsAll E before :=
    fun l j r hr => his l j (r ++ i :: after) (by simp [hr])
  rcases origins_rule hslots hk with ⟨v, hv, ho⟩ | ⟨v, hv, ho⟩
  · rw [uses_of_not_isPhi hi] at hv
    exact (his before i after rfl).1 v hv k ho
  · exact known_content hbefore v hv k ho hlocal

theorem known_effect (his : env.NeedsAll E is) (k : ValueId)
    (hk : .entry k ∈ ((env.outlineOf is).effect d).origins) : k ∈ E := by
  obtain ⟨f, hf, ho⟩ := Outline.mem_effect_origins.1 hk
  obtain ⟨before, i, after, h, he⟩ := mem_effects.1 hf
  obtain ⟨v, hv, ho⟩ := origins_effects he ho
  rw [uses_of_effects he] at hv
  exact (his before i after h).1 v hv k ho

end Known

theorem Reached.supported (hv : env.Valid entry) (h : env.Reached entry m) :
    ∀ b s, m[b]? = some s → Supported env b s := by
  refine h.blocks_induction ?_ ?_ ?_
  · intro m b E s _ _ _ _ _ hs
    obtain ⟨ρ, hs⟩ := hv.analysed hs
    exact hs.supported hv.slots
  · exact fun m b s t D _ ih hs hopen ht => ht.steps.supported hv.slots hopen.shaped (ih b s hs)
  · exact fun _ _ _ _ _ ih => ih

structure Grown (s t : BlockState) : Prop where
  entry : s.entry.Below t.entry
  get : ∀ d, s.get d ≤ t.get d

theorem Grown.refl (s : BlockState) : Grown s s :=
  ⟨.refl _, fun _ => le_refl _⟩

theorem Grown.trans {r : BlockState} (h : Grown r s) (h' : Grown s t) : Grown r t :=
  ⟨fun v => (h.entry v).trans (h'.entry v), fun d => (h.get d).trans (h'.get d)⟩

theorem Move.grown (hv : env.Valid entry) (h : env.Move entry m m') (hs : m[b]? = some s) :
    ∃ t, m'[b]? = some t ∧ Grown s t := by
  have hinsert {c : BlockId} {t : BlockState} (h : ∀ s, m[c]? = some s → Grown s t) :
      ∃ t', (m.insert c t)[b]? = some t' ∧ Grown s t' := by
    rw [Blocks.getElem?_insert]
    split
    · subst_vars
      exact ⟨t, rfl, h s hs⟩
    · exact ⟨s, hs, .refl s⟩
  cases h with
  | enter _ hnew _ _ => exact hinsert fun s hs => by simp [hnew] at hs
  | revise hs hopen ht =>
    refine hinsert fun s' hs' => ?_
    obtain rfl := Option.some.inj (hs.symm.trans hs')
    exact ⟨fun v => ht.steps.entry_mono v, ht.steps.get_mono hv.slots hopen.shaped⟩
  | conclude hs =>
    refine hinsert fun s' hs' => ?_
    obtain rfl := Option.some.inj (hs.symm.trans hs')
    exact ⟨.refl _, fun _ => le_refl _⟩

/-- Facts only go up on the way to the end. -/
theorem grown_of_moves (hv : env.Valid entry) (h : Relation.ReflTransGen (env.Move entry) m m')
    (hs : m[b]? = some s) : ∃ t, m'[b]? = some t ∧ Grown s t := by
  induction h with
  | refl => exact ⟨s, hs, .refl s⟩
  | tail _ hmove ih =>
    obtain ⟨t, ht, hgrown⟩ := ih
    obtain ⟨t', ht', hgrown'⟩ := hmove.grown hv ht
    exact ⟨t', ht', hgrown.trans hgrown'⟩

/-- A result comes to a block if it is defined in a reachable block that leads there. -/
def Comes (env : Env) (entry b : BlockId) (k : ValueId) : Prop :=
  ∃ c, Graph.Reaches env.program.successors entry c ∧ env.program.Defines c k ∧
    env.program.Leads c b

namespace Finished

abbrev result (env : Env) (m : Blocks) : Procedure :=
  Procedure.ofBlocks env.context env.flow.order m

theorem exitFact?_eq (hs : m[b]? = some s) (v : ValueId) :
    (result env m).exitFact? b v = s.values[v]? := by
  simp [Procedure.exitFact?, Procedure.ofBlocks, hs]

theorem fact_result (h : env.Finished entry m) (hs : m[b]? = some s)
    (hi : i ∈ env.program.instructions b) :
    (result env m).instructions.fact i = s.instructions.fact i := by
  rw [Facts.fact_eq, Facts.fact_eq]
  exact congrArg (Option.getD · _) (h.instruction?_eq hs hi)

theorem instruction?_eq_fact (h : env.Finished entry m) (hs : m[b]? = some s)
    (hi : i ∈ env.program.instructions b) :
    (result env m).instruction? i = some ((result env m).instructions.fact i) := by
  rw [h.fact_result hs hi, h.instruction?_eq hs hi]
  exact Facts.getElem?_of_mem ((h.mem_instructions_iff hs).2 hi)

theorem instruction_known (h : env.Finished entry m) (hs : m[b]? = some s)
    (hi : i ∈ env.program.instructions b) : (s.instructions.fact i).settle = s.instructions.fact i :=
  Fact.settle_of_ne_unknown ((h.reached.sourced h.valid b s hs).results i hi)

/-- A result is passed on with no more than its final fact. -/
theorem values_le (h : env.Finished entry m) {m₁ : Blocks} (hm₁ : env.Reached entry m₁)
    (hend : Relation.ReflTransGen (env.Move entry) m₁ m) (ht : m[c]? = some t)
    (hk : env.program.Defines c k) (hs : m₁[b]? = some s)
    (hentry : s.entry.fact k ≤ t.instructions.fact k) : s.values.fact k ≤ t.instructions.fact k := by
  have hv := h.valid
  obtain ⟨s', hcore⟩ := (hm₁.present hv b s hs).core
  rw [← h.instruction_known ht hk.1]
  refine Fact.le_settle_trans (hcore.values_le k) ((?_ : _ ≤ _).trans (Fact.le_settle _))
  by_cases hd : env.program.Defines b k
  · obtain rfl := hv.wellFormed.eq_of_mem_instructions hk.1 hd.1
    obtain ⟨t', ht', hgrown⟩ := grown_of_moves hv hend hs
    obtain rfl := Option.some.inj (ht.symm.trans ht')
    rw [Facts.fact_of_some (hcore.shaped.results k hd), ← hcore.instructions]
    exact hgrown.get (.inst k)
  · rw [fact_of_isLocal hv hcore.shaped (isLocal_of_defines hk) hd, ← hcore.entry]
    exact hentry

theorem entry_le_result (h : env.Finished entry m) (ht : m[c]? = some t)
    (hk : env.program.Defines c k) :
    ∀ (b : BlockId) (s : BlockState), m[b]? = some s →
      s.entry.fact k ≤ t.instructions.fact k := by
  have hv := h.valid
  have hsent {m₁ : Blocks} {b : BlockId} {X : FactMap} (hm₁ : env.Reached entry m₁)
      (hend : Relation.ReflTransGen (env.Move entry) m₁ m)
      (ih : ∀ (b : BlockId) (s : BlockState), m₁[b]? = some s →
        s.entry.fact k ≤ t.instructions.fact k)
      (hX : env.Sent entry m₁ b X) : X.fact k ≤ t.instructions.fact k := by
    rcases hX with ⟨-, rfl⟩ | ⟨u, -, s, hs, rfl⟩
    · rw [Facts.fact_of_not_mem fun hmem =>
        hv.not_isLocal_of_initial hmem (isLocal_of_defines hk)]
      exact Fact.unknown_le _
    · exact h.values_le hm₁ hend ht hk hs (ih u s hs)
  refine h.reached.blocks_induction_until ?_ ?_ ?_
  · intro m₁ b E s hm₁ hend ih _ _ hE hs
    rw [hv.entry_of_run hs]
    exact hsent hm₁ hend ih hE
  · intro m₁ b s t' D hm₁ hend ih hs _ ht'
    refine (ht'.entry k).trans_le (sup_le (ih b s hs) ?_)
    exact hm₁.merged_le hv hs fun X hX => hsent hm₁ hend ih hX
  · exact fun _ _ _ _ _ ih => ih

/-- A result comes to the blocks that its own leads to with its final fact. -/
theorem result_le_entry (h : env.Finished entry m) (ht : m[c]? = some t)
    (hk : env.program.Defines c k) (hlead : env.program.Leads c b) (hs : m[b]? = some s) :
    t.instructions.fact k ≤ s.entry.fact k := by
  have hv := h.valid
  have hreach := hv.mem_order.1 ((h.mem c).1 (mem_of_getElem? ht))
  -- a block that has the fact, on entry or as its own, passes it on
  have hstep {u d : BlockId} (hu : u ∈ env.flow.order) (hd : d ∈ env.program.successors u)
      {s : BlockState} (hs : m[d]? = some s)
      (hown : ¬ env.program.Defines u k → ∀ s', m[u]? = some s' →
        t.instructions.fact k ≤ s'.entry.fact k) : t.instructions.fact k ≤ s.entry.fact k := by
    obtain ⟨s', hs'⟩ := h.exists_state hu
    obtain ⟨s₀, hcore⟩ := (h.reached.present hv u s' hs').core
    have hcovered := h.covered d ((h.mem d).1 (mem_of_getElem? hs)) u (mem_preds.2 ⟨hu, hd⟩) s' s hs' hs
    refine le_trans ((?_ : _ ≤ s₀.values.fact k).trans (hcore.le_values k)) (hcovered k)
    by_cases hdu : env.program.Defines u k
    · obtain rfl := hv.wellFormed.eq_of_mem_instructions hk.1 hdu.1
      obtain rfl := Option.some.inj (ht.symm.trans hs')
      rw [Facts.fact_of_some (hcore.shaped.results k hdu), hcore.instructions]
    · rw [fact_of_isLocal hv hcore.shaped (isLocal_of_defines hk) hdu, ← hcore.entry]
      exact hown hdu s' hs'
  induction hlead generalizing s with
  | single hc => exact hstep (hv.mem_order.2 hreach) hc hs fun hd => absurd hk hd
  | tail hlead hd ih =>
    have hu := hv.mem_order.2 (hreach.trans hlead.to_reflTransGen)
    exact hstep hu hd hs fun _ s' hs' => ih hs'

theorem comes_of_mem_entry (h : env.Finished entry m) (hs : m[b]? = some s) (hk : k ∈ s.entry)
    (hlocal : env.IsLocal k) : env.Comes entry b k := by
  obtain ⟨c, hc, hd, hlead⟩ := (h.reached.present h.valid b s hs).locals k hk hlocal
  exact ⟨c, h.valid.mem_order.1 ((h.mem c).1 hc), hd, hlead⟩

theorem offer_le_final (h : env.Finished entry m) (hs : m[b]? = some s) (o : Origin) :
    s.offer env.program o ≤ env.final (result env m) s o := by
  refine sup_le ?_ ?_
  · rw [final]
    split
    next hlocal =>
      by_cases hentry : o.value ∈ s.entry
      · obtain ⟨c, hc, hd, -⟩ := h.comes_of_mem_entry hs hentry hlocal
        obtain ⟨t, ht⟩ := h.exists_state (h.valid.mem_order.2 hc)
        rw [h.fact_result ht hd.1]
        exact h.entry_le_result ht hd b s hs
      · rw [Facts.fact_of_not_mem hentry]
        exact Fact.unknown_le _
    next => exact le_refl _
  · split
    next hr =>
      by_cases hb : o.value ∈ env.program.instructions b
      · rw [final, if_pos (isLocal_of_defines ⟨hb, hr⟩), h.fact_result hs hb]
      · rw [Facts.fact_of_not_mem fun hmem => hb ((h.mem_instructions_iff hs).1 hmem)]
        exact Fact.unknown_le _
    next => exact Fact.unknown_le _

theorem final_le_origin (h : env.Finished entry m) (hs : m[b]? = some s)
    (hf : (env.outline b).Defines f d) {o : Origin} (ho : o ∈ f.origins)
    (hcomes : ∀ k, o = .entry k → env.IsLocal k → env.Comes entry b k) :
    env.final (result env m) s o ≤ s.origin o := by
  rw [final]
  cases o with
  | entry k =>
    split
    next hlocal =>
      obtain ⟨c, hc, hd, hlead⟩ := hcomes k rfl hlocal
      obtain ⟨t, ht⟩ := h.exists_state (h.valid.mem_order.2 hc)
      rw [Origin.value, h.fact_result ht hd.1]
      exact h.result_le_entry ht hd hlead hs
    next => exact le_refl _
  | result k =>
    have hd := defines_of_result h.valid.slots hf ho
    rw [Origin.value, if_pos (isLocal_of_defines hd), h.fact_result hs hd.1]
    exact le_refl _

/-- A derived fact is what its formula says of the final facts, if all that it reads on entry comes
to the block. -/
theorem settle_get (h : env.Finished entry m) (hs : m[b]? = some s) (hd : env.IsExact d)
    (hf : (env.outline b).Defines f d)
    (hcomes : ∀ k, .entry k ∈ f.origins → env.IsLocal k → env.Comes entry b k) :
    (s.get d).settle = (f.eval (env.final (result env m) s)).settle := by
  obtain ⟨t, hcore⟩ := (h.reached.present h.valid b s hs).core
  refine le_antisymm (Fact.settle_le_settle.2 ?_) (Fact.settle_le_settle.2 ?_)
  · refine (h.reached.supported h.valid b s hs f d hd hf).trans ?_
    exact Fact.settle_mono (Formula.eval_mono fun o _ => h.offer_le_final hs o)
  · refine le_trans (Formula.eval_mono fun o ho => ?_) (hcore.closed_left f d hf)
    exact h.final_le_origin hs hf ho fun k hk => hcomes k (hk ▸ ho)

/-- What instructions other than phis read on entry comes to the block. -/
theorem comes_of_needs (h : env.Finished entry m) (hs : m[b]? = some s) :
    ∃ E, env.NeedsAll E (env.program.instructions b) ∧
      ∀ k ∈ E, env.IsLocal k → env.Comes entry b k := by
  obtain ⟨E, hneeds, -, hE⟩ := (h.reached.present h.valid b s hs).entered
  exact ⟨E, hneeds, fun k hk => h.comes_of_mem_entry hs (hE k hk)⟩

/-- The final fact of an instruction. -/
theorem fact_eq_rule (h : env.Finished entry m) (hs : m[b]? = some s) {before after : List ValueId}
    (his : env.program.instructions b = before ++ i :: after) (hi : ¬ env.IsElementStore i)
    (hphi : env.program.isPhi i → ∀ k ∈ env.program.operands i, env.IsLocal k → env.Comes entry b k) :
    (result env m).instructions.fact i =
      ((env.rule (env.outlineOf before) i).eval (env.final (result env m) s)).settle := by
  have hmem : i ∈ env.program.instructions b := by simp [his]
  rw [h.fact_result hs hmem, ← h.instruction_known hs hmem]
  refine h.settle_get hs (d := .inst i) (by rintro j ⟨⟩; exact hi)
    (mem_rules.2 ⟨before, after, his, rfl⟩) fun k hk hlocal => ?_
  obtain ⟨E, hneeds, hE⟩ := h.comes_of_needs hs
  rw [his] at hneeds
  by_cases hp : env.program.isPhi i
  · rcases origins_rule h.valid.slots hk with ⟨v, hv, ho⟩ | ⟨v, hv, ho⟩
    · obtain ⟨ho, -⟩ := origin_of_mem_operandFormula ho
      obtain rfl : k = v := (congrArg Origin.value ho).trans (Outline.value_origin _ _ _)
      exact hphi hp k (mem_operands_of_mem_inputs hv) hlocal
    · have hbefore : env.NeedsAll E before :=
        fun l j r hr => hneeds l j (r ++ i :: after) (by simp [hr])
      exact hE k (known_content hbefore v hv k ho hlocal) hlocal
  · exact hE k (known_rule h.valid.slots hneeds hp k hk hlocal) hlocal

/-- The final fact of an effect of a block. -/
theorem settle_effect (h : env.Finished entry m) (hs : m[b]? = some s)
    (hf : (env.outline b).Defines ((env.outline b).effect d) d) (hd : env.IsExact d) :
    (s.get d).settle = (((env.outline b).effect d).eval (env.final (result env m) s)).settle := by
  obtain ⟨E, hneeds, hE⟩ := h.comes_of_needs hs
  exact h.settle_get hs hd hf fun k hk => hE k (known_effect hneeds k hk)

/-- The final content of a slot at the end of a block. -/
theorem settle_content (h : env.Finished entry m) (hs : m[b]? = some s)
    (hv : env.program.isStorage v) : (s.values.fact v).settle =
      (((env.outline b).content v).eval (env.final (result env m) s)).settle := by
  obtain ⟨t, hcore⟩ := (h.reached.present h.valid b s hs).core
  have hvalues : (s.values.fact v).settle = (t.values.fact v).settle :=
    le_antisymm (Fact.settle_le_settle.2 (hcore.values_le v)) (Fact.settle_mono (hcore.le_values v))
  rw [hvalues]
  by_cases hw : v ∈ (env.outline b).written
  · obtain ⟨E, hneeds, hE⟩ := h.comes_of_needs hs
    rw [Facts.fact_of_some (hcore.shaped.slots v hw), ← hcore.get]
    exact h.settle_get hs (d := .slot v) nofun ⟨hw, rfl⟩
      fun k hk hlocal => hE k (known_content hneeds v hv k hk hlocal) hlocal
  · have hnot : ¬ env.program.Defines b v := fun hd =>
      not_isLocal_of_isStorage hv (isLocal_of_defines hd)
    rw [hcore.shaped.others v (by simp [hcore.shaped.defined, hnot, hw]), ← hcore.entry, outline,
      content_of_not_written hw, Formula.eval_ofOrigin, final, Origin.value,
      if_neg (not_isLocal_of_isStorage hv)]

end Finished

end Env

end InputFlow
