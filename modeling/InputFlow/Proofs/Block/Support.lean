import InputFlow.Proofs.Block.Reanalysis

namespace InputFlow

/-- All that a state has of the value of an origin: on entry, and from an instruction of the block. -/
def BlockState.offer (s : BlockState) (p : Program) (o : Origin) : Dep :=
  s.entry.fact o.value ⊔ if p.isResult o.value then s.instructions.fact o.value else .unknown

/-- Every derived fact but that of a store to an element is below what its formula says. A revision
joins the fact of a result into all that counts as derived from it, also where a phi reads the fact
on entry of a result of its own block, so both facts of a value count here. -/
def Supported (env : Env) (b : BlockId) (s : BlockState) : Prop :=
  ∀ f d, env.IsExact d → (env.outline b).Defines f d →
    s.get d ≤ (f.eval (s.offer env.program)).settle

variable {env : Env} {b : BlockId} {s t : BlockState}

/-- An instruction stands at one place of its block. -/
theorem Env.split_unique {i : ValueId} {before after before' after' : List ValueId}
    (h : env.program.instructions b = before ++ i :: after)
    (h' : env.program.instructions b = before' ++ i :: after') : before = before' ∧ after = after' := by
  obtain ⟨-, hafter, hbefore⟩ := List.nodup_append.1 (h ▸ nodup_instructions env.program b)
  obtain ⟨hleft, -, hright⟩ := (List.append_cons_inj_of_notMem
    (fun hi => hbefore i hi i List.mem_cons_self rfl) (List.nodup_cons.1 hafter).1).1 (h.symm.trans h')
  exact ⟨hleft, hright⟩

theorem Env.defines_unique {f g : Formula} {d : Derived} (hf : (env.outline b).Defines f d)
    (hg : (env.outline b).Defines g d) : f = g := by
  cases d with
  | inst i =>
    obtain ⟨before, after, h, rfl⟩ := mem_rules.1 hf
    obtain ⟨before', after', h', rfl⟩ := mem_rules.1 hg
    rw [(split_unique h h').1]
  | slot v => exact hf.2.trans hg.2.symm
  | outArg v => exact Eq.trans hf (Eq.symm hg)
  | callArg arg => exact Eq.trans hf (Eq.symm hg)
  | returned => exact Eq.trans hf (Eq.symm hg)

theorem Analysed.supported {E : FactMap} {ρ : Origin → Dep} (hslots : env.SlotsAreStorage)
    (h : Analysed env b E ρ s) : Supported env b s := by
  intro f d _ hf
  have hle : f.eval ρ ≤ f.eval (s.offer env.program) := by
    refine Formula.eval_mono fun o ho => ?_
    cases o with
    | entry v =>
      rw [h.solves.entry, ← h.entry]
      exact le_sup_left
    | result k =>
      have hk := Env.defines_of_result hslots hf ho
      rw [BlockState.offer, if_pos (by exact hk.2)]
      exact (Fact.le_settle _).trans ((h.inst k hk.1).ge.trans le_sup_right)
  exact (Fact.le_settle _).trans ((h.settle_get hf).le.trans (Fact.settle_mono hle))

namespace Steps

variable {M : FactMap}

theorem offer_le (h : Steps env.program M s t) (hslots : env.SlotsAreStorage) (hs : Shaped env b s)
    (o : Origin) : s.offer env.program o ≤ t.offer env.program o := by
  refine sup_le_sup (h.entry_mono o.value) ?_
  split
  · exact h.get_mono hslots hs (.inst o.value)
  · exact le_refl _

/-- What is raised has an origin among those of its formula. -/
theorem supported (h : Steps env.program M s t) (hslots : env.SlotsAreStorage) (hs : Shaped env b s)
    (hsup : Supported env b s) : Supported env b t := by
  induction h with
  | refl => exact hsup
  | @enter t v a h hv ih =>
    intro f d hd hf
    have hle := fun o => (Steps.refl.enter hv).offer_le hslots (h.shaped hslots hs) o
    rw [BlockState.get_enter]
    exact (ih f d hd hf).trans (Fact.settle_mono (Formula.eval_mono fun o _ => hle o))
  | @raise t k a d' h hk ha ih =>
    intro f d hd hf
    have ht := h.shaped hslots hs
    have hedge := (ht.edges k d').1 hk
    have hle := fun o => (Steps.refl.raise hk ha).offer_le hslots ht o
    have hkept := (ih f d hd hf).trans (Fact.settle_mono (Formula.eval_mono fun o _ => hle o))
    rw [ht.get_raise hedge]
    split
    · subst_vars
      refine sup_le hkept ?_
      obtain ⟨f', hf', o, ho, rfl⟩ := Env.origin_of_edge hd hedge
      obtain rfl := Env.defines_unique hf hf'
      refine le_trans ?_ ((hle o).trans ((Formula.origin_le_eval ho).trans (Fact.le_settle _)))
      rcases ha with ⟨-, ha⟩ | ⟨hr, ha⟩
      · exact ha.trans le_sup_left
      · rw [BlockState.offer, if_pos hr]
        exact ha.trans le_sup_right
    · exact hkept

end Steps

end InputFlow
