import InputFlow.Proofs.Block.Reanalysis

namespace InputFlow

/-- A way to widen facts to ideals, in which unknown facts count as independent. -/
structure Widening where
  toIdeal : Dep → Order.Ideal Dep
  independent_mem : ∀ a, .independent ∈ toIdeal a
  mono : ∀ {a c}, a ≤ c.settle → toIdeal a ≤ toIdeal c

instance : CoeFun Widening fun _ => Dep → Order.Ideal Dep :=
  ⟨Widening.toIdeal⟩

variable {env : Env} {b : BlockId} {φ : Widening} {s t S : BlockState}

/-- Where the fact of a value at the end of a block comes from. -/
def BlockState.outgoing (s : BlockState) (env : Env) (b : BlockId) (v : ValueId) : Dep :=
  if env.program.Defines b v then s.get (.inst v)
  else if v ∈ (env.outline b).written then s.get (.slot v)
  else s.entry.fact v

theorem Shaped.fact_values (hs : Shaped env b s) (v : ValueId) :
    s.values.fact v = s.outgoing env b v := by
  rw [BlockState.outgoing]
  split_ifs with hd hw
  · exact Facts.fact_of_some (hs.results v hd)
  · exact Facts.fact_of_some (hs.slots v hw)
  · exact hs.others v (by simp [hs.defined, hd, hw])

namespace Widening

/-- Every fact is among those that it is widened to. -/
def Extensive (φ : Widening) : Prop :=
  ∀ a, a ∈ φ a

theorem mem_of_le (φ : Widening) {a c d : Dep} (h : c ≤ d) (ha : a ∈ φ c) : a ∈ φ d :=
  φ.mono (h.trans (Fact.le_settle d)) ha

/-- The facts of a state go along with the equations of a block, where all facts of a value count
wherever one of them is read. -/
structure Encloses (φ : Widening) (env : Env) (b : BlockId) (S : BlockState) : Prop where
  base : ∀ f d, env.IsExact d → (env.outline b).Defines f d → f.base ∈ φ (S.get d)
  entry : ∀ f d, env.IsExact d → (env.outline b).Defines f d → ∀ o ∈ f.origins,
    S.entry.fact o.value ≤ (S.get d).settle
  result : ∀ f d, env.IsExact d → (env.outline b).Defines f d → ∀ o ∈ f.origins,
    env.program.Defines b o.value → S.instructions.fact o.value ≤ (S.get d).settle
  values : ∀ v, S.outgoing env b v ≤ (S.values.fact v).settle

structure Within (φ : Widening) (env : Env) (S s : BlockState) : Prop where
  entry : ∀ v, s.entry.fact v ∈ φ (S.entry.fact v)
  get : ∀ d, env.IsExact d → s.get d ∈ φ (S.get d)

namespace Encloses

/-- A state above what its formulas say goes along with them if the facts of a result of the block are
the same on entry and at the end, wherever that matters. -/
theorem of_origins (hslots : env.SlotsAreStorage)
    (hbase : ∀ f d, (env.outline b).Defines f d → f.base ∈ φ (S.get d))
    (horigin : ∀ f d, (env.outline b).Defines f d → ∀ o ∈ f.origins, S.origin o ≤ (S.get d).settle)
    (hentry : ∀ k, env.program.Defines b k → S.entry.fact k ≤ S.instructions.fact k)
    (hown : ∀ f d k, (env.outline b).Defines f d → .entry k ∈ f.origins → env.program.Defines b k →
      S.instructions.fact k ≤ S.entry.fact k)
    (hvalues : ∀ v, S.outgoing env b v ≤ (S.values.fact v).settle) : φ.Encloses env b S where
  base f d _ hf := hbase f d hf
  entry f d _ hf o ho := by
    refine le_trans ?_ (horigin f d hf o ho)
    cases o with
    | entry k => exact le_refl _
    | result k => exact hentry k (Env.defines_of_result hslots hf ho)
  result f d _ hf o ho hk := by
    refine le_trans ?_ (horigin f d hf o ho)
    cases o with
    | entry k => exact hown f d k hf ho hk
    | result k => exact le_refl _
  values := hvalues

theorem eval_mem (h : φ.Encloses env b S) (hslots : env.SlotsAreStorage) {ρ : Origin → Dep}
    (hentry : ∀ v, ρ (.entry v) ∈ φ (S.entry.fact v))
    {f : Formula} {d : Derived} (hd : env.IsExact d) (hf : (env.outline b).Defines f d)
    (hresult : ∀ k, .result k ∈ f.origins → ρ (.result k) ∈ φ (S.instructions.fact k)) :
    f.eval ρ ∈ φ (S.get d) := by
  refine JoinSet.eval_mem (J := .ofIdeal (φ (S.get d))) (h.base f d hd hf) fun o ho => ?_
  cases o with
  | entry v => exact φ.mono (h.entry f d hd hf _ ho) (hentry v)
  | result k =>
    exact φ.mono (h.result f d hd hf _ ho (Env.defines_of_result hslots hf ho)) (hresult k ho)

theorem analysed (h : φ.Encloses env b S) (hslots : env.SlotsAreStorage) {E : FactMap}
    {ρ : Origin → Dep} (hs : Analysed env b E ρ s) (hE : ∀ v, E.fact v ∈ φ (S.entry.fact v)) :
    φ.Within env S s := by
  have hentry (v : ValueId) : ρ (.entry v) ∈ φ (S.entry.fact v) := hs.solves.entry v ▸ hE v
  have hresult : ∀ i ∈ env.program.instructions b, env.IsExact (.inst i) →
      ρ (.result i) ∈ φ (S.instructions.fact i) := by
    refine Env.rules_induction hslots fun i f hf ih hi => ?_
    rw [hs.solves.result _ hf]
    refine h.eval_mem hslots hentry hi (d := .inst i) hf fun k hk => ih k hk ?_
    exact Env.isExact_of_defines (Env.defines_of_result hslots (d := .inst i) hf hk)
  refine ⟨fun v => hs.entry ▸ hE v, fun d hd => ?_⟩
  rcases hs.defines_or d with ⟨f, hf⟩ | hunknown
  · refine (φ (S.get d)).lower (Fact.le_settle _) ?_
    rw [hs.settle_get hf]
    refine JoinSet.settle_mem (J := .ofIdeal (φ (S.get d))) (φ.independent_mem _)
      (h.eval_mem hslots hentry hd hf fun k hk => ?_)
    have hk := Env.defines_of_result hslots hf hk
    exact hresult k hk.1 (Env.isExact_of_defines hk)
  · rw [hunknown]
    exact Order.Ideal.bot_mem _

theorem steps (h : φ.Encloses env b S) (hslots : env.SlotsAreStorage) {M : FactMap}
    (hst : Steps env.program M s t) (hs : Shaped env b s) (hM : ∀ v, M.fact v ∈ φ (S.entry.fact v))
    (hw : φ.Within env S s) : φ.Within env S t := by
  have hentry (v : ValueId) {t : BlockState} (hst : Steps env.program M s t) :
      t.entry.fact v ∈ φ (S.entry.fact v) :=
    Order.Ideal.lower _ (hst.entry_le v) (Order.Ideal.sup_mem (hw.entry v) (hM v))
  refine ⟨fun v => hentry v hst, ?_⟩
  induction hst with
  | refl => exact hw.get
  | enter _ _ ih => exact ih
  | @raise t k a d' hst hk ha ih =>
    intro d hd
    have ht := hst.shaped hslots hs
    have hedge := (ht.edges k d').1 hk
    rw [ht.get_raise hedge]
    split
    · subst_vars
      refine Order.Ideal.sup_mem (ih _ hd) ?_
      obtain ⟨f, hf, o, ho, rfl⟩ := Env.origin_of_edge hd hedge
      rcases ha with ⟨-, ha⟩ | ⟨hr, ha⟩
      · exact φ.mono (h.entry f _ hd hf o ho) (Order.Ideal.lower _ ha (hentry o.value hst))
      · by_cases hk : o.value ∈ env.program.instructions b
        · refine φ.mono (h.result f _ hd hf o ho ⟨hk, hr⟩) (Order.Ideal.lower _ ha ?_)
          exact ih (.inst o.value) (Env.isExact_of_defines ⟨hk, hr⟩)
        · rw [Facts.fact_of_not_mem fun hm => hk ((ht.instructions o.value).1 hm)] at ha
          exact Order.Ideal.lower _ ha (Order.Ideal.bot_mem _)
    · exact ih d hd

theorem values_mem (h : φ.Encloses env b S) (hs : Shaped env b s) (hw : φ.Within env S s)
    (v : ValueId) : s.values.fact v ∈ φ (S.values.fact v) := by
  refine φ.mono (h.values v) ?_
  rw [hs.fact_values, BlockState.outgoing, BlockState.outgoing]
  split_ifs with hd
  · exact hw.get (.inst v) (Env.isExact_of_defines hd)
  · exact hw.get (.slot v) (by rintro i ⟨⟩)
  · exact hw.entry v

end Encloses

end Widening

end InputFlow
