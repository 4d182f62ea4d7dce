import InputFlow.Proofs.Block.Tracking

namespace InputFlow

/-- From a state that follows `σ` the step succeeds just when it has what it needs. Then its answer
satisfies `Q`, and the state follows `σ'`. -/
def Carries {α : Type} (p : Program) (E : FactMap) (ρ : Origin → Dep) (x : Transfer α) (σ : Outline)
    (needs : Prop) (Q : α → Prop) (σ' : Outline) : Prop :=
  ∀ s, Tracks p E ρ σ s →
    match x.run s with
    | .ok a s' => needs ∧ Q a ∧ Tracks p E ρ σ' s'
    | .error _ _ => ¬ needs

theorem run_bind {α β : Type} (x : Transfer α) (f : α → Transfer β) (s : BlockState) :
    (x >>= f).run s = match x.run s with
      | .ok a s' => (f a).run s'
      | .error e s' => .error e s' := by
  change EStateM.bind x f s = _
  simp only [EStateM.bind, EStateM.run]
  cases x s <;> rfl

theorem run_get (s : BlockState) : (get : Transfer BlockState).run s = .ok s s := rfl

namespace Carries

variable {α β : Type} {p : Program} {E : FactMap} {ρ : Origin → Dep} {x : Transfer α}
  {f : α → Transfer β} {σ σ₁ σ' : Outline} {n m : Prop} {Q Q' : α → Prop} {R : β → Prop}

theorem pure {a : α} (h : Q a) : Carries p E ρ (Pure.pure a) σ True Q σ :=
  fun _ hs => ⟨trivial, h, hs⟩

theorem fail {e : AnalysisError} : Carries p E ρ (throw e : Transfer α) σ False Q σ' :=
  fun _ _ h => h

theorem bind (hx : Carries p E ρ x σ n Q σ₁)
    (hf : ∀ a, n → Q a → Carries p E ρ (f a) σ₁ m R σ') : Carries p E ρ (x >>= f) σ (n ∧ m) R σ' := by
  intro s hs
  have hx := hx s hs
  rw [run_bind]
  cases hr : x.run s with
  | ok a s' =>
    rw [hr] at hx
    obtain ⟨hn, ha, hs'⟩ := hx
    have hf := hf a hn ha s' hs'
    simp only [hn, true_and]
    exact hf
  | error e s' =>
    rw [hr] at hx
    exact fun h => hx h.1

theorem modify {g : BlockState → BlockState} (h : ∀ s, Tracks p E ρ σ s → Tracks p E ρ σ' (g s)) :
    Carries p E ρ (modify g) σ True (fun _ => True) σ' :=
  fun s hs => ⟨trivial, trivial, h s hs⟩

theorem congr (h : Carries p E ρ x σ n Q σ') (hn : n ↔ m) (hQ : ∀ a, Q a → Q' a) :
    Carries p E ρ x σ m Q' σ' := by
  intro s hs
  have h := h s hs
  rw [← propext hn]
  cases hr : x.run s with
  | ok a s' =>
    rw [hr] at h
    exact ⟨h.1, hQ a h.2.1, h.2.2⟩
  | error e s' =>
    rw [hr] at h
    exact h

end Carries

namespace Env

variable {env : Env} {E : FactMap} {ρ : Origin → Dep} {σ : Outline} {user v : ValueId}

theorem carries_param (env : Env) (σ : Outline) (v : ValueId) :
    Carries env.program E ρ (env.param v) σ True (· = env.paramFact v) σ := by
  intro s hs
  by_cases h : env.context.isInput v
  · simp only [param, h]
    exact ⟨trivial, rfl, hs⟩
  · simp only [param, h]
    exact ⟨trivial, rfl, hs.warn _⟩

theorem known_of_fixed {a : Dep} (h : env.operandFormula σ v = .fixed a) : env.Known σ E v := by
  intro k hk
  simp [h, Formula.fixed] at hk

theorem run_operand (hr : env.program.role v = .instruction) (ha : ¬ env.program.isAlloca v)
    (user : ValueId) (s : BlockState) : (env.operand user v).run s = match s.values[v]? with
      | some fact => .ok fact (s.record [v] (.inst user))
      | none => .error (.traversalOrder v s.block) s := by
  simp only [operand, hr, ha, Bool.false_eq_true, if_false]
  simp only [run_bind, run_get]
  cases s.values[v]? <;> rfl

theorem carries_operand (user : ValueId) (σ : Outline) (v : ValueId) :
    Carries env.program E ρ (env.operand user v) σ (env.Known σ E v)
      (· = (env.operandFormula σ v).eval ρ) (σ.read user (env.operandFormula σ v).sources) := by
  have hfixed {a : Dep} (h : env.operandFormula σ v = .fixed a) :
      Carries env.program E ρ (pure a) σ (env.Known σ E v)
        (· = (env.operandFormula σ v).eval ρ) (σ.read user (env.operandFormula σ v).sources) := by
    rw [h, Formula.sources_fixed, Outline.read_nil]
    exact (Carries.pure (Q := (· = a)) rfl).congr (iff_of_true trivial (known_of_fixed h)) fun _ => id
  cases hr : env.program.role v with
  | constant =>
    simp only [operand, hr]
    exact hfixed (by simp [operandFormula, hr])
  | global =>
    simp only [operand, hr]
    exact hfixed (by simp [operandFormula, hr])
  | argument =>
    have h : env.operandFormula σ v = .fixed (env.paramFact v) := by simp [operandFormula, hr]
    simp only [operand, hr]
    rw [h, Formula.sources_fixed, Outline.read_nil]
    exact (carries_param env σ v).congr (iff_of_true trivial (known_of_fixed h)) fun _ => id
  | instruction =>
    by_cases ha : env.program.isAlloca v
    · simp only [operand, hr, ha]
      exact hfixed (by simp [operandFormula, hr, ha])
    · have h : env.operandFormula σ v = .ofOrigin (σ.origin env.program v) := by
        simp [operandFormula, hr, ha]
      intro s hs
      have hw : v ∉ σ.written := fun hw => by
        have := hs.storage v hw
        simp [Program.isStorage, hr, ha] at this
      rw [run_operand hr ha, h, Formula.eval_ofOrigin, Formula.sources_ofOrigin]
      have hknown : env.Known σ E v ↔ ∀ k, σ.origin env.program v = .entry k → k ∈ E := by
        simp [Known, h, Formula.ofOrigin, eq_comm]
      rw [hs.values, if_neg hw, propext hknown]
      by_cases hd : v ∈ σ.done ∧ env.program.isResult v
      · have ho : σ.origin env.program v = .result v := if_pos hd
        rw [if_pos hd, ho]
        exact ⟨fun k hk => (by cases hk), rfl, hs.read user [v]⟩
      · have ho : σ.origin env.program v = .entry v := if_neg hd
        rw [if_neg hd, ho]
        cases hE : E[v]? with
        | none =>
          intro hk
          simp [Std.ExtTreeMap.getElem?_eq_some_getElem (hk v rfl)] at hE
        | some fact =>
          refine ⟨fun k hk => ?_, ?_, hs.read user [v]⟩
          · cases hk
            exact Std.ExtTreeMap.mem_iff_isSome_getElem?.2 (by simp [hE])
          · rw [hs.origin, Facts.fact_of_some hE]

/-- A fold that joins the facts of several sources. -/
theorem carries_joins {x : ValueId → Transfer Dep} {f : ValueId → Formula} {N : ValueId → Prop}
    {vs : List ValueId} (a : Dep)
    (h : ∀ v ∈ vs, ∀ ks, Carries env.program E ρ (x v) (σ.read user ks) (N v) (· = (f v).eval ρ)
      (σ.read user (ks ++ (f v).sources))) :
    Carries env.program E ρ (vs.foldlM (fun a v => return a.join (← x v)) a) σ (∀ v ∈ vs, N v)
      (· = a ⊔ (Formula.sum (vs.map f)).eval ρ) (σ.read user (Formula.sum (vs.map f)).sources) := by
  have hgen (ks : List ValueId) : Carries env.program E ρ
      (vs.foldlM (fun a v => return a.join (← x v)) a) (σ.read user ks) (∀ v ∈ vs, N v)
      (· = a ⊔ (Formula.sum (vs.map f)).eval ρ)
      (σ.read user (ks ++ (Formula.sum (vs.map f)).sources)) := by
    induction vs generalizing a ks with
    | nil =>
      have hpure : Carries env.program E ρ (pure a) (σ.read user ks) True (· = a) (σ.read user ks) :=
        Carries.pure rfl
      simpa using hpure
    | cons v vs ih =>
      rw [List.foldlM_cons]
      have hv := h v List.mem_cons_self ks
      have hrest (b : Dep) := ih b (fun u hu => h u (List.mem_cons_of_mem v hu))
        (ks ++ (f v).sources)
      have hstep : Carries env.program E ρ (do return a.join (← x v)) (σ.read user ks) (N v)
          (· = a ⊔ (f v).eval ρ) (σ.read user (ks ++ (f v).sources)) := by
        refine (hv.bind (m := True) (R := (· = a ⊔ (f v).eval ρ)) fun b _ hb => ?_).congr
          (and_iff_left trivial) fun _ => id
        exact Carries.pure (by rw [hb]; rfl)
      rw [List.map_cons, Formula.sum_cons, Formula.sources_join, Formula.eval_join,
        ← List.append_assoc, ← sup_assoc]
      refine (hstep.bind fun b _ hb => ?_).congr List.forall_mem_cons.symm fun _ => id
      subst hb
      exact hrest _
  simpa using hgen []

theorem carries_joinOperands (user : ValueId) (σ : Outline) (a : Dep) (vs : List ValueId) :
    Carries env.program E ρ (env.joinOperands user a vs) σ (∀ v ∈ vs, env.Known σ E v)
      (· = a ⊔ (Formula.sum (vs.map (env.operandFormula σ))).eval ρ)
      (σ.read user (Formula.sum (vs.map (env.operandFormula σ))).sources) := by
  refine carries_joins a fun v _ ks => ?_
  rw [Outline.read_append]
  exact carries_operand user (σ.read user ks) v

theorem carries_incomingFact (user : ValueId) (σ : Outline) (v : ValueId) :
    Carries env.program E ρ (env.incomingFact user v) σ True
      (· = (env.operandFormula σ v).eval ρ) (σ.read user (env.operandFormula σ v).sources) := by
  have hfixed {a : Dep} (h : env.operandFormula σ v = .fixed a) :
      Carries env.program E ρ (pure a) σ True
        (· = (env.operandFormula σ v).eval ρ) (σ.read user (env.operandFormula σ v).sources) := by
    rw [h, Formula.sources_fixed, Outline.read_nil]
    exact Carries.pure rfl
  cases hr : env.program.role v with
  | constant =>
    simp only [incomingFact, hr]
    exact hfixed (by simp [operandFormula, hr])
  | global =>
    simp only [incomingFact, hr]
    exact hfixed (by simp [operandFormula, hr])
  | argument =>
    have h : env.operandFormula σ v = .fixed (env.paramFact v) := by simp [operandFormula, hr]
    simp only [incomingFact, hr]
    rw [h, Formula.sources_fixed, Outline.read_nil]
    exact carries_param env σ v
  | instruction =>
    by_cases ha : env.program.isAlloca v
    · simp only [incomingFact, hr, ha]
      exact hfixed (by simp [operandFormula, hr, ha])
    · have h : env.operandFormula σ v = .ofOrigin (σ.origin env.program v) := by
        simp [operandFormula, hr, ha]
      intro s hs
      have hw : v ∉ σ.written := fun hw => by
        have := hs.storage v hw
        simp [Program.isStorage, hr, ha] at this
      have hfact : s.values.fact v = ρ (σ.origin env.program v) := by
        rw [Facts.fact_eq, hs.values, if_neg hw, Outline.origin]
        split
        · rfl
        · rw [hs.origin, Facts.fact_eq]
      have hrun : (env.incomingFact user v).run s =
          .ok (s.values.fact v) (s.record [v] (.inst user)) := by
        simp only [incomingFact, hr, ha]
        rfl
      have hsources : (env.operandFormula σ v).sources = [v] := by
        rw [sources_operandFormula]
        simp [keys, hr, ha]
      rw [hrun, hsources]
      exact ⟨trivial, by rw [hfact, h, Formula.eval_ofOrigin], hs.read user [v]⟩

theorem carries_phi (user : ValueId) (σ : Outline) (vs : List ValueId) :
    Carries env.program E ρ (env.phi user vs) σ True
      (· = (Formula.sum (vs.map (env.operandFormula σ))).eval ρ)
      (σ.read user (Formula.sum (vs.map (env.operandFormula σ))).sources) := by
  have h := @carries_joins env E ρ σ user (env.incomingFact user) (env.operandFormula σ)
    (fun _ => True) vs .unknown fun v _ ks => by
      rw [Outline.read_append]
      exact carries_incomingFact user (σ.read user ks) v
  exact h.congr (by simp) fun _ hq => by rwa [Fact.unknown_sup] at hq

theorem carries_aliasingSlots (σ : Outline) (v : ValueId) :
    Carries env.program E ρ (env.aliasingSlots v) σ True
      (· = env.aliases v env.context.slots) σ :=
  fun _ hs => ⟨trivial, rfl, hs.warn _⟩

theorem carries_readSlot (user : ValueId) (σ : Outline) {slot : ValueId}
    (hslot : env.program.isStorage slot) :
    Carries env.program E ρ (readSlot user slot) σ True (· = (σ.content slot).eval ρ)
      (σ.read user (σ.content slot).sources) := by
  intro s hs
  have hfact : s.slotFact slot = (σ.content slot).eval ρ := by
    rw [BlockState.slotFact, hs.slots]
    by_cases hw : slot ∈ σ.written
    · simp [hw]
    · simp only [hw, if_false]
      exact hs.values_fact hslot
  have hnote : s.noteRead user slot = s.record (σ.content slot).sources (.inst user) := by
    rw [BlockState.noteRead, hs.slots]
    by_cases hw : slot ∈ σ.written
    · simp [hw]
    · simp only [hw, if_false]
      rw [hs.fresh slot hw]
      rfl
  have hrun : (readSlot user slot).run s = .ok (s.slotFact slot) (s.noteRead user slot) := rfl
  rw [hrun, hfact, hnote]
  exact ⟨trivial, rfl, hs.read user _⟩

theorem carries_pointer (σ : Outline) (v : ValueId) :
    Carries env.program E ρ (env.pointer v) σ (env.program.pointer? v ≠ none)
      (fun pointer => env.program.pointer? v = some pointer) σ := by
  rw [pointer]
  cases h : env.program.pointer? v with
  | none => exact Carries.fail.congr (by simp) fun _ => id
  | some pointer => exact (Carries.pure (Q := (some pointer = some ·)) rfl).congr (by simp) fun _ => id

/-- A load takes the fact of its formula. -/
theorem carries_load (hslots : env.SlotsAreStorage) (user : ValueId) (σ : Outline) (v : ValueId) :
    Carries env.program E ρ (env.load user v) σ
      (env.program.pointer? v ≠ none ∧ ∀ u ∈ env.loadUses v, env.Known σ E u)
      (· = (env.loadFormula σ v).eval ρ) (σ.read user (env.loadFormula σ v).sources) := by
  rw [load]
  refine (carries_pointer σ v).bind fun pointer _ hp => ?_
  have hother (root : ValueId) : Carries env.program E ρ (do
      let fact := (Fact.on root).join (← env.operand user v)
      (← env.aliasingSlots v).foldlM (fun fact slot => return fact.join (← readSlot user slot)) fact)
      σ (env.Known σ E v)
      (· = (((Formula.fixed (.on root)).join (env.operandFormula σ v)).join
        (.sum ((env.aliases v env.context.slots).map σ.content))).eval ρ)
      (σ.read user (((Formula.fixed (.on root)).join (env.operandFormula σ v)).join
        (.sum ((env.aliases v env.context.slots).map σ.content))).sources) := by
    refine ((carries_operand user σ v).bind (m := True) fun a _ ha => ?_).congr
      (and_iff_left trivial) fun _ => id
    refine ((carries_aliasingSlots _ v).bind (m := True) fun slots _ hs => ?_).congr
      (and_iff_left trivial) fun _ => id
    subst ha hs
    rw [Formula.sources_join, Formula.sources_join, Formula.sources_fixed, List.nil_append,
      Outline.read_append]
    refine (carries_joins (f := σ.content) (N := fun _ => True) _ fun s hs ks => ?_).congr
      (by simp) ?_
    · rw [Outline.read_append]
      exact carries_readSlot user _ (isStorage_of_mem_aliases hslots hs)
    · intro b hb
      rw [hb, Formula.eval_join, Formula.eval_join, Formula.eval_fixed]
      rfl
  cases pointer with
  | slot slot whole =>
    have hstore := Program.isStorage_of_pointer? hp
    cases whole with
    | true =>
      simp only [loadUses, loadFormula, hp]
      refine ((carries_readSlot user σ hstore).bind (m := True) fun a _ ha => ?_).congr
        (by simp) fun _ => id
      exact Carries.pure ha
    | false =>
      simp only [loadUses, loadFormula, hp, Bool.false_eq_true, if_false, Formula.sources_join,
        Outline.read_append]
      refine ((carries_readSlot user σ hstore).bind (m := env.Known σ E v) fun a _ ha => ?_).congr
        (by simp) fun _ => id
      refine ((carries_operand user _ v).bind (m := True) fun b _ hb => ?_).congr
        (and_iff_left trivial) fun _ => id
      refine Carries.pure ?_
      subst ha hb
      exact (Formula.eval_join ρ _ _).symm
  | param root =>
    simp only [loadUses, loadFormula, hp]
    exact (hother root).congr (by simp) fun _ => id
  | untraced root =>
    simp only [loadUses, loadFormula, hp]
    exact (hother root).congr (by simp) fun _ => id

theorem carries_blendAliasing (hslots : env.SlotsAreStorage) (σ : Outline) (v : ValueId)
    (f : Formula) :
    Carries env.program E ρ (env.blendAliasing v (f.eval ρ) f.sources) σ True (fun _ => True)
      (((env.aliases v env.context.slots).map (Write.mk · false f)).foldl Outline.write σ) := by
  rw [blendAliasing]
  refine ((carries_aliasingSlots σ v).bind (m := True) fun slots _ hs => ?_).congr
    (and_iff_left trivial) fun _ => id
  refine Carries.modify fun s hs' => ?_
  have hstore : ∀ slot ∈ slots, env.program.isStorage slot := fun slot hm => by
    rw [hs] at hm
    exact isStorage_of_mem_aliases hslots hm
  rw [← hs, List.foldl_map, BlockState.blendAll]
  clear hs
  induction slots generalizing σ s with
  | nil => exact hs'
  | cons slot slots ih =>
    exact ih _ _ (hs'.blend (hstore slot List.mem_cons_self) f)
      fun u hu => hstore u (List.mem_cons_of_mem slot hu)

/-- A store writes what its formulas say, and has the fact of the stored value. -/
theorem carries_store (hslots : env.SlotsAreStorage) {i value v : ValueId}
    (hd : env.program.definition? i = some (.inst (.store value v))) (σ : Outline) :
    Carries env.program E ρ (env.store i value v) σ (env.Needs σ E i)
      (· = (env.rule σ i).eval ρ) (env.perform σ i) := by
  have hrule : env.rule σ i = env.operandFormula σ value := by simp [rule, hd]
  have hneeds : env.Needs σ E i ↔ env.Known σ E value ∧ env.program.pointer? v ≠ none ∧
      ∀ u ∈ env.storeUses value v, env.Known σ E u := by
    simp only [Needs, uses, addresses, hd, List.mem_singleton, forall_eq]
    exact ⟨fun h => ⟨h.1 value (mem_storeUses value v), h.2, h.1⟩, fun h => ⟨h.2.2, h.2.1⟩⟩
  rw [store]
  refine Carries.congr (Carries.bind (carries_operand i σ value) fun fact hvalue hfact => ?_)
    hneeds.symm fun _ => id
  refine (carries_pointer _ v).bind fun pointer _ hp => ?_
  rw [← sources_operandFormula σ value]
  subst hfact
  cases pointer with
  | slot slot whole =>
    have hstore := Program.isStorage_of_pointer? hp
    cases whole with
    | true =>
      have hperform : env.perform σ i = (σ.read i (env.operandFormula σ value).sources).write
          ⟨slot, true, env.operandFormula σ value⟩ := by
        simp [perform, effects, writes, noted, hd, hrule, storeWrites, outEffects, hp]
      have huses : ∀ u ∈ env.storeUses value v, env.Known σ E u := by
        simpa [storeUses, hp] using hvalue
      rw [hperform, hrule]
      refine Carries.congr (n := True ∧ True) (Carries.bind
        (Carries.modify fun s hs => hs.overwrite hstore (env.operandFormula σ value))
        fun _ _ _ => ?_) (by simpa using huses) fun _ => id
      exact Carries.pure rfl
    | false =>
      have hperform : env.perform σ i = ((σ.read i (env.operandFormula σ value).sources).read i
          (env.operandFormula σ v).sources).write
            ⟨slot, false, (env.operandFormula σ value).join (env.operandFormula σ v)⟩ := by
        simp [perform, effects, writes, noted, hd, hrule, storeWrites, outEffects, hp,
          sources_operandFormula, Outline.read_append]
      have huses : (∀ u ∈ env.storeUses value v, env.Known σ E u) ↔ env.Known σ E v := by
        simpa [storeUses, hp] using fun _ => hvalue
      rw [hperform, hrule, ← sources_operandFormula σ v]
      refine Carries.congr (Carries.bind (carries_operand i _ v) fun a _ ha => ?_)
        ((and_iff_left (b := True ∧ True) ⟨trivial, trivial⟩).trans huses.symm) fun _ => id
      subst ha
      refine Carries.bind (Carries.modify fun s hs => ?_) fun _ _ _ => Carries.pure rfl
      have hblend := hs.blend hstore ((env.operandFormula σ value).join (env.operandFormula σ v))
      rw [Formula.eval_join, Formula.sources_join] at hblend
      exact hblend
  | param root =>
    have huses : ∀ u ∈ env.storeUses value v, env.Known σ E u := by
      simpa [storeUses, hp] using hvalue
    have hperform : env.perform σ i = ((env.aliases v env.context.slots).map
        (Write.mk · false (env.operandFormula σ value))).foldl Outline.write
          ((σ.read i (env.operandFormula σ value).sources).addEffect
            (.outArg root, env.operandFormula σ value)) := by
      have h := Outline.foldl_write_foldl_addEffect ((env.aliases v env.context.slots).map
        (Write.mk · false (env.operandFormula σ value))) [(.outArg root, env.operandFormula σ value)]
        (σ.read i (env.operandFormula σ value).sources)
      simpa [perform, effects, writes, noted, hd, hrule, storeWrites, outEffects, hp] using h.symm
    rw [hperform, hrule]
    refine Carries.congr (n := True ∧ True ∧ True) (Carries.bind
      (Carries.modify fun s hs => hs.writeOut root (env.operandFormula σ value))
      fun _ _ _ => ?_) (by simpa using huses) fun _ => id
    exact (carries_blendAliasing hslots _ v _).bind fun _ _ _ => Carries.pure rfl
  | untraced root =>
    have huses : ∀ u ∈ env.storeUses value v, env.Known σ E u := by
      simpa [storeUses, hp] using hvalue
    have hperform : env.perform σ i = ((env.aliases v env.context.slots).map
        (Write.mk · false (env.operandFormula σ value))).foldl Outline.write
          (σ.read i (env.operandFormula σ value).sources) := by
      simp [perform, effects, writes, noted, hd, hrule, storeWrites, outEffects, hp]
    rw [hperform, hrule]
    refine Carries.congr (n := True ∧ True) (Carries.bind (carries_blendAliasing hslots _ v _)
      fun _ _ _ => ?_) (by simpa using huses) fun _ => id
    exact Carries.pure rfl

theorem carries_fill (hslots : env.SlotsAreStorage) (input : Dep) (σ : Outline) (v : ValueId) :
    Carries env.program E ρ (env.fill input v) σ (env.program.pointer? v ≠ none) (fun _ => True)
      ((env.outEffects (.fixed input) v).foldl Outline.addEffect
        ((env.fillWrites input v).foldl Outline.write σ)) := by
  rw [fill]
  refine ((carries_pointer σ v).bind (m := True) fun pointer _ hp => ?_).congr
    (and_iff_left trivial) fun _ => id
  have halias := carries_blendAliasing (E := E) (ρ := ρ) hslots (f := .fixed input) (v := v)
  cases pointer with
  | slot slot whole =>
    simp only [outEffects, fillWrites, hp]
    exact Carries.modify fun s hs =>
      hs.blend (Program.isStorage_of_pointer? hp) (.fixed input)
  | param root =>
    simp only [outEffects, fillWrites, hp]
    rw [← Outline.foldl_write_foldl_addEffect]
    refine ((Carries.modify fun s hs => hs.writeOut root (.fixed input)).bind fun _ _ _ => ?_).congr
      (and_iff_left trivial) fun _ => id
    exact halias _
  | untraced root =>
    simp only [outEffects, fillWrites, hp]
    exact halias σ

theorem carries_fillAll (hslots : env.SlotsAreStorage) (input : Dep) (σ : Outline)
    (vs : List ValueId) :
    Carries env.program E ρ (vs.forM (env.fill input)) σ (∀ v ∈ vs, env.program.pointer? v ≠ none)
      (fun _ => True)
      ((vs.flatMap (env.outEffects (.fixed input))).foldl Outline.addEffect
        ((vs.flatMap (env.fillWrites input)).foldl Outline.write σ)) := by
  induction vs generalizing σ with
  | nil =>
    exact (Carries.pure (Q := fun _ => True) trivial).congr (by simp) fun _ => id
  | cons v vs ih =>
    rw [List.forM, List.flatMap_cons, List.flatMap_cons, List.foldl_append, List.foldl_append]
    refine Carries.congr (Carries.bind (carries_fill hslots input σ v) fun _ _ _ => ?_)
      (List.forall_mem_cons (p := fun u => env.program.pointer? u ≠ none)).symm fun _ => id
    have ih := ih ((env.outEffects (.fixed input) v).foldl Outline.addEffect
      ((env.fillWrites input v).foldl Outline.write σ))
    rwa [Outline.foldl_write_foldl_addEffect] at ih

/-- The effects of passing arguments, if the callee is known. -/
def passEffects (env : Env) (σ : Outline) (callee : Option FuncId) (position : Nat)
    (args : List ValueId) : List (Derived × Formula) :=
  match callee with
  | some f => env.argEffects σ f position args
  | none => []

theorem read_foldl_addEffect (σ : Outline) (es : List (Derived × Formula)) (user : ValueId)
    (ks : List ValueId) :
    (es.foldl Outline.addEffect σ).read user ks = es.foldl Outline.addEffect (σ.read user ks) := by
  simp [Outline.foldl_addEffect, Outline.read]

theorem operandFormula_addEffects (σ : Outline) (es : List (Derived × Formula)) :
    env.operandFormula (es.foldl Outline.addEffect σ) = env.operandFormula σ := by
  rw [Outline.foldl_addEffect]
  rfl

theorem argEffects_congr {σ σ' : Outline} (h : env.operandFormula σ = env.operandFormula σ')
    (f : FuncId) (position : Nat) (args : List ValueId) :
    env.argEffects σ f position args = env.argEffects σ' f position args := by
  induction args generalizing position with
  | nil => rfl
  | cons v rest ih => rw [argEffects, argEffects, h, ih]

theorem carries_passArg (f : FuncId) (position : Nat) (σ : Outline) (v : ValueId) :
    Carries env.program E ρ (env.passArg f position v ((env.operandFormula σ v).eval ρ)) σ True
      (fun _ => True)
      ((if env.program.role v == .constant then []
        else [(.callArg ⟨f, position⟩, env.operandFormula σ v)]).foldl Outline.addEffect σ) := by
  rw [passArg, ← sources_operandFormula σ v]
  by_cases h : env.program.role v == .constant
  · simp only [h]
    exact Carries.pure trivial
  · simp only [h]
    exact Carries.modify fun s hs => hs.passArg ⟨f, position⟩ (env.operandFormula σ v)

theorem carries_joinArgs (user : ValueId) (callee : Option FuncId) (position : Nat) (a : Dep)
    (σ : Outline) (vs : List ValueId) :
    Carries env.program E ρ (env.joinArgs user callee position a vs) σ (∀ v ∈ vs, env.Known σ E v)
      (· = a ⊔ (Formula.sum (vs.map (env.operandFormula σ))).eval ρ)
      ((env.passEffects σ callee position vs).foldl Outline.addEffect
        (σ.read user (Formula.sum (vs.map (env.operandFormula σ))).sources)) := by
  induction vs generalizing σ a position with
  | nil =>
    have hpass : env.passEffects σ callee position [] = [] := by
      cases callee <;> rfl
    have hpure : Carries env.program E ρ (pure a) σ True (· = a) σ := Carries.pure rfl
    simpa [hpass, joinArgs] using hpure
  | cons v vs ih =>
    rw [joinArgs, List.map_cons, Formula.sum_cons, Formula.sources_join, Outline.read_append,
      Formula.eval_join, ← sup_assoc]
    refine Carries.congr (Carries.bind (carries_operand user σ v) fun b _ hb => ?_)
      List.forall_mem_cons.symm fun _ => id
    subst hb
    cases callee with
    | none => exact ih (position + 1) _ (σ.read user (env.operandFormula σ v).sources)
    | some f =>
      have hpass := @carries_passArg env E ρ f position
        (σ.read user (env.operandFormula σ v).sources) v
      refine Carries.congr (n := True ∧ _) (Carries.bind hpass fun _ _ _ => ?_)
        (and_iff_right trivial) fun _ => id
      let σ' := (if env.program.role v == .constant then []
        else [(.callArg ⟨f, position⟩, env.operandFormula σ v)]).foldl Outline.addEffect
          (σ.read user (env.operandFormula σ v).sources)
      have hop : env.operandFormula σ' = env.operandFormula σ := operandFormula_addEffects _ _
      have ih := ih (position + 1) (a ⊔ (env.operandFormula σ v).eval ρ) σ'
      simp only [Known, passEffects, argEffects_congr hop] at ih
      rw [hop, read_foldl_addEffect] at ih
      rw [passEffects, argEffects, List.foldl_append]
      exact ih

theorem carries_call (hslots : env.SlotsAreStorage) {i : ValueId} {callee : Option FuncId}
    {args : List ValueId} (hd : env.program.definition? i = some (.inst (.call callee args)))
    (σ : Outline) :
    Carries env.program E ρ (env.call i callee args) σ (env.Needs σ E i)
      (· = (env.rule σ i).eval ρ) (env.perform σ i) := by
  have hargs := @carries_joinArgs env E ρ i callee 0 .independent σ args
  rw [call]
  by_cases hinput : callee.any env.context.isInputFunction
  · have hneeds : env.Needs σ E i ↔
        (∀ v ∈ args, env.Known σ E v) ∧ ∀ v ∈ args, env.program.pointer? v ≠ none := by
      simp [Needs, uses, addresses, hd, hinput, Definition.operands, Code.operands]
    have hrule : env.rule σ i = ((Formula.fixed .independent).join
        (.sum (args.map (env.operandFormula σ)))).join (.fixed (.on i)) := by
      simp [rule, hd, hinput]
    have hperform : env.perform σ i = (args.flatMap (env.outEffects (.fixed (.on i)))).foldl
        Outline.addEffect ((args.flatMap (env.fillWrites (.on i))).foldl Outline.write
          ((env.passEffects σ callee 0 args).foldl Outline.addEffect
            (σ.read i (Formula.sum (args.map (env.operandFormula σ))).sources))) := by
      rw [Outline.foldl_write_foldl_addEffect, ← List.foldl_append]
      cases callee <;> simp [perform, effects, writes, noted, hd, hinput, hrule, passEffects]
    simp only [hinput, if_true]
    rw [hperform, hrule]
    refine Carries.congr (Carries.bind hargs fun a _ ha => ?_) hneeds.symm fun _ => id
    refine ((carries_fillAll hslots (.on i) _ args).bind (m := True) fun _ _ _ => ?_).congr
      (and_iff_left trivial) fun _ => id
    refine Carries.pure ?_
    rw [ha, Formula.eval_join, Formula.eval_join]
    rfl
  · have hneeds : env.Needs σ E i ↔ ∀ v ∈ args, env.Known σ E v := by
      simp [Needs, uses, addresses, hd, hinput, Definition.operands, Code.operands]
    have hrule : env.rule σ i =
        (Formula.fixed .independent).join (.sum (args.map (env.operandFormula σ))) := by
      simp [rule, hd, hinput]
    have hperform : env.perform σ i = (env.passEffects σ callee 0 args).foldl Outline.addEffect
        (σ.read i (Formula.sum (args.map (env.operandFormula σ))).sources) := by
      cases callee <;> simp [perform, effects, writes, noted, hd, hinput, hrule, passEffects]
    simp only [hinput]
    rw [hperform, hrule]
    refine Carries.congr (Carries.bind (m := True) hargs fun a _ ha => ?_)
      ((and_iff_left trivial).trans hneeds.symm) fun _ => id
    exact Carries.pure (by rw [ha, Formula.eval_join]; rfl)

theorem carries_ret {i : ValueId} {value : Option ValueId}
    (hd : env.program.definition? i = some (.inst (.ret value))) (σ : Outline) :
    Carries env.program E ρ (env.ret i value) σ (env.Needs σ E i)
      (· = (env.rule σ i).eval ρ) (env.perform σ i) := by
  cases value with
  | none =>
    have hpure : Carries env.program E ρ (pure (.independent : Dep)) σ True (· = .independent) σ :=
      Carries.pure rfl
    simpa [ret, Needs, uses, addresses, rule, perform, effects, writes, noted, hd,
      Definition.operands, Code.operands] using hpure
  | some v =>
    have hneeds : env.Needs σ E i ↔ env.Known σ E v := by
      simp [Needs, uses, addresses, hd, Definition.operands, Code.operands]
    have hrule : env.rule σ i = env.operandFormula σ v := by simp [rule, hd]
    have hperform : env.perform σ i = (σ.read i (env.operandFormula σ v).sources).addEffect
        (.returned, env.operandFormula σ v) := by
      simp [perform, effects, writes, noted, hd, hrule]
    rw [ret, hperform, hrule, ← sources_operandFormula σ v]
    refine Carries.congr (Carries.bind (carries_operand i σ v) fun a _ ha => ?_)
      ((and_iff_left (b := True ∧ True) ⟨trivial, trivial⟩).trans hneeds.symm) fun _ => id
    subst ha
    exact (Carries.modify fun s hs => hs.passReturn (env.operandFormula σ v)).bind
      fun _ _ _ => Carries.pure rfl

/-- The rule of an instruction gives the fact of its formula. -/
theorem carries_instruction (hslots : env.SlotsAreStorage) (σ : Outline) (i : ValueId) :
    Carries env.program E ρ (env.instruction i) σ (env.Needs σ E i) (· = (env.rule σ i).eval ρ)
      (env.perform σ i) := by
  rw [instruction]
  split
  · rename_i incoming hd
    have h := @carries_phi env E ρ i σ (incoming.map (·.1))
    simpa [Needs, uses, addresses, rule, perform, effects, writes, noted, hd, Function.comp_def]
      using h
  · rename_i pointer hd
    have h := carries_load (E := E) (ρ := ρ) hslots i σ pointer
    have hneeds : env.Needs σ E i ↔
        env.program.pointer? pointer ≠ none ∧ ∀ u ∈ env.loadUses pointer, env.Known σ E u := by
      simp [Needs, uses, addresses, hd, and_comm]
    simpa [hneeds, rule, perform, effects, writes, noted, hd] using h
  · exact carries_store hslots ‹_› σ
  · exact carries_call hslots ‹_› σ
  · exact carries_ret ‹_› σ
  · rename_i condition _ _ hd
    have h := @carries_operand env E ρ i σ condition
    simpa [Needs, uses, addresses, rule, perform, effects, writes, noted, hd, Definition.operands,
      Code.operands] using h
  · rename_i tested _ _ _ hd
    have h := @carries_operand env E ρ i σ tested
    simpa [Needs, uses, addresses, rule, perform, effects, writes, noted, hd, Definition.operands,
      Code.operands] using h
  · rename_i d h₁ h₂ h₃ h₄ h₅ h₆ h₇ hd
    have h := @carries_joinOperands env E ρ i σ .independent d.operands
    -- no other kind of instruction writes or has effects
    have hwrites : env.writes σ i = [] ∧ env.effects σ i = [] ∧ env.noted i = [] := by
      refine ⟨?_, ?_, ?_⟩
      · unfold writes
        split <;> grind
      · unfold effects
        split <;> grind
      · unfold noted
        split <;> grind
    have hneeds : env.Needs σ E i ↔ ∀ v ∈ d.operands, env.Known σ E v := by
      have huses : env.uses i = d.operands := by
        unfold uses
        split <;> grind
      have haddresses : env.addresses i = [] := by
        unfold addresses
        split <;> grind
      simp [Needs, huses, haddresses]
    have hrule : env.rule σ i = (Formula.fixed .independent).join
        (.sum (d.operands.map (env.operandFormula σ))) := by
      unfold rule
      split <;> grind
    simpa [hneeds, hrule, hwrites, perform] using h
  · rename_i hd
    have hpure : Carries env.program E ρ (pure (.independent : Dep)) σ True (· = .independent) σ :=
      Carries.pure rfl
    simpa [Needs, uses, addresses, rule, perform, effects, writes, noted, hd] using hpure

end Env

end InputFlow
