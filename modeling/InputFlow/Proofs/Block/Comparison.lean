import InputFlow.Proofs.Block.Revision

namespace InputFlow

namespace Fact

theorem le_settle_trans {a b c : Dep} (hab : a ≤ b.settle) (hbc : b ≤ c.settle) : a ≤ c.settle :=
  hab.trans (settle_le_settle.2 hbc)

end Fact

namespace Env

variable {env : Env} {b : BlockId} {E : FactMap} {ρ X : Origin → Dep} {f : Formula} {d : Derived}

/-- A solution is below everything that is above the formulas, and this up to a map `c` that raises
facts and keeps their order. -/
theorem solves_le (hslots : env.SlotsAreStorage) (hρ : (env.outline b).Solves E ρ) {c : Dep → Dep}
    (hc : ∀ a, a ≤ c a) (hmono : ∀ a a', a ≤ a' → c a ≤ c a')
    (hentry : ∀ v, E.fact v ≤ c (X (.entry v)))
    (hX : ∀ r ∈ (env.outline b).rules, c (r.2.eval X) ≤ c (X (.result r.1)))
    (hf : (env.outline b).Defines f d) : f.eval ρ ≤ c (f.eval X) := by
  have heval {f : Formula} (h : ∀ k, .result k ∈ f.origins → ρ (.result k) ≤ c (X (.result k))) :
      f.eval ρ ≤ c (f.eval X) := by
    refine Formula.eval_le_iff.2 ⟨(Formula.base_le_eval X f).trans (hc _), fun o ho => ?_⟩
    refine le_trans ?_ (hmono _ _ (Formula.origin_le_eval ho))
    cases o with
    | entry v => exact hρ.entry v ▸ hentry v
    | result k => exact h k ho
  have hresult : ∀ i ∈ env.program.instructions b, ρ (.result i) ≤ c (X (.result i)) := by
    refine rules_induction hslots fun i f hf ih => ?_
    rw [hρ.result _ hf]
    exact (heval ih).trans (hX _ hf)
  exact heval fun k hk => hresult k (defines_of_result hslots hf hk).1

/-- A formula has the same fact with the settled facts of instructions, once it is settled. -/
theorem eval_origin_le (hslots : env.SlotsAreStorage) {s : BlockState} (h : Analysed env b E ρ s)
    (hf : (env.outline b).Defines f d) : f.eval s.origin ≤ (f.eval ρ).settle := by
  refine Formula.eval_le_iff.2 ⟨(Formula.base_le_eval ρ f).trans (Fact.le_settle _), fun o ho => ?_⟩
  refine le_trans ?_ (Fact.settle_mono (Formula.origin_le_eval ho))
  cases o with
  | entry v =>
    rw [BlockState.origin, h.entry, ← h.solves.entry]
    exact Fact.le_settle _
  | result k => exact (h.inst k (defines_of_result hslots hf ho).1).le

end Env

/-- A derived fact has a formula, or the block does not derive it. -/
theorem Shaped.defines_or {env : Env} {b : BlockId} {s : BlockState} (h : Shaped env b s)
    (d : Derived) : (∃ f, (env.outline b).Defines f d) ∨ s.get d = .unknown := by
  cases d with
  | inst i =>
    by_cases hi : i ∈ env.program.instructions b
    · exact Or.inl (Env.exists_rule hi)
    · exact Or.inr (Facts.fact_of_not_mem fun hm => hi ((h.instructions i).1 hm))
  | slot v =>
    by_cases hv : v ∈ (env.outline b).written
    · exact Or.inl ⟨_, hv, rfl⟩
    · have hnone : s.slots[v]? = none :=
        Std.ExtTreeMap.getElem?_eq_none fun hm => hv ((h.mem_slots v).1 hm)
      exact Or.inr (by simp [BlockState.get, hnone])
  | outArg v => exact Or.inl ⟨_, rfl⟩
  | callArg arg => exact Or.inl ⟨_, rfl⟩
  | returned => exact Or.inl ⟨_, rfl⟩

namespace Analysed

variable {env : Env} {b : BlockId} {E E' : FactMap} {ρ ρ' : Origin → Dep} {s s' t : BlockState}
  {f : Formula} {d : Derived}

theorem settle_get (h : Analysed env b E ρ s) (hf : (env.outline b).Defines f d) :
    (s.get d).settle = (f.eval ρ).settle := by
  by_cases hd : ∃ i, d = .inst i
  · obtain ⟨i, rfl⟩ := hd
    rw [BlockState.get, h.inst i (Env.mem_of_mem_rules hf), Fact.settle_settle, h.solves.result _ hf]
  · rw [h.other f d (fun i hi => hd ⟨i, hi⟩) hf]

theorem closed (hslots : env.SlotsAreStorage) (h : Analysed env b E ρ s) : Closed env b s :=
  fun _ _ hf => (Env.eval_origin_le hslots h hf).trans (h.settle_get hf).ge

/-- The analysis gives the least facts among those that are closed. -/
theorem get_le (hslots : env.SlotsAreStorage) (h : Analysed env b E ρ s) (ht : Closed env b t)
    (hentry : ∀ v, E.fact v ≤ (t.entry.fact v).settle) (d : Derived) :
    s.get d ≤ (t.get d).settle := by
  rcases h.defines_or d with ⟨f, hf⟩ | hunknown
  · have hle : f.eval ρ ≤ (f.eval t.origin).settle :=
      Env.solves_le hslots h.solves Fact.le_settle (fun _ _ => Fact.settle_mono) hentry
        (fun r hr => Fact.settle_le_settle.2 (ht r.2 (.inst r.1) hr)) hf
    refine (Fact.le_settle _).trans ?_
    rw [h.settle_get hf]
    exact Fact.settle_le_settle.2 (Fact.le_settle_trans hle (ht f d hf))
  · rw [hunknown]
    exact Fact.unknown_le _

/-- What is on entry to a block and what the block derives bounds what is at its end. -/
theorem values_le_of_get_le (h : Shaped env b s) (ht : Shaped env b t) {c : Dep → Dep}
    (hentry : ∀ v, s.entry.fact v ≤ c (t.entry.fact v))
    (hinst : ∀ i, env.program.Defines b i → s.get (.inst i) ≤ c (t.get (.inst i)))
    (hslot : ∀ v ∈ (env.outline b).written, s.get (.slot v) ≤ c (t.get (.slot v))) (v : ValueId) :
    s.values.fact v ≤ c (t.values.fact v) := by
  by_cases hd : env.program.Defines b v
  · rw [Facts.fact_of_some (h.results v hd), Facts.fact_of_some (ht.results v hd)]
    exact hinst v hd
  by_cases hw : v ∈ (env.outline b).written
  · rw [Facts.fact_of_some (h.slots v hw), Facts.fact_of_some (ht.slots v hw)]
    exact hslot v hw
  · rw [h.others v (by simp [h.defined, hd, hw]), ht.others v (by simp [ht.defined, hd, hw])]
    exact hentry v

theorem values_le (hslots : env.SlotsAreStorage) (h : Analysed env b E ρ s) (hs : Shaped env b t)
    (ht : Closed env b t) (hentry : ∀ v, E.fact v ≤ (t.entry.fact v).settle) (v : ValueId) :
    s.values.fact v ≤ (t.values.fact v).settle := by
  have hget := h.get_le hslots ht hentry
  exact values_le_of_get_le h.toShaped hs (by rwa [h.entry]) (fun i _ => hget (.inst i))
    (fun v _ => hget (.slot v)) v

/-- The analysis of a block is monotone. -/
theorem mono (hslots : env.SlotsAreStorage) (h : Analysed env b E ρ s)
    (h' : Analysed env b E' ρ' s') (hE : E.Below E') : s.values.Below s'.values := by
  have hle {f : Formula} {d : Derived} (hf : (env.outline b).Defines f d) : f.eval ρ ≤ f.eval ρ' :=
    Env.solves_le hslots h.solves (c := id) (fun _ => le_refl _) (fun _ _ => id)
      (fun v => (hE v).trans (h'.solves.entry v).ge) (fun r hr => (h'.solves.result r hr).ge) hf
  intro v
  refine values_le_of_get_le (c := id) h.toShaped h'.toShaped ?_ (fun i hi => ?_) (fun v hv => ?_) v
  · rw [h.entry, h'.entry]
    exact hE
  · obtain ⟨f, hf⟩ := @Env.exists_rule env _ _ hi.1
    rw [BlockState.get, BlockState.get, h.inst i hi.1, h'.inst i hi.1, h.solves.result _ hf,
      h'.solves.result _ hf]
    exact Fact.settle_mono (hle (d := .inst i) hf)
  · have hf : (env.outline b).Defines _ (.slot v) := ⟨hv, rfl⟩
    have hslot (i : ValueId) : Derived.slot v ≠ .inst i := by rintro ⟨⟩
    rw [h.other _ (.slot v) hslot hf, h'.other _ (.slot v) hslot hf]
    exact hle hf

end Analysed

namespace Env

variable {env : Env} {b : BlockId} {i k : ValueId} {d : Derived}

def IsElementStore (env : Env) (i : ValueId) : Prop :=
  ∃ value pointer slot, env.program.definition? i = some (.inst (.store value pointer)) ∧
    env.program.pointer? pointer = some (.slot slot false)

/-- Any derived fact but that of a store to an element. -/
def IsExact (env : Env) (d : Derived) : Prop :=
  ∀ i, d = .inst i → ¬ env.IsElementStore i

theorem noted_of_not_isElementStore (h : ¬ env.IsElementStore i) : env.noted i = [] := by
  rw [noted]
  split
  · split
    · exact absurd ⟨_, _, _, ‹_›, ‹_›⟩ h
    · rfl
  · rfl

theorem not_isElementStore_of_isResult (h : env.program.isResult i) : ¬ env.IsElementStore i := by
  rintro ⟨value, pointer, slot, hd, -⟩
  obtain ⟨x, hx, hv⟩ := Option.map_eq_some_iff.1 hd
  obtain ⟨name, d⟩ := x
  cases hv
  simp [Program.isResult, Program.hasResult, hx, Code.opcode, Opcode.isDefinition] at h

/-- Only the fact of a store to an element counts as derived from a value that its formula lacks. -/
theorem origin_of_edge (hd : env.IsExact d) (h : (env.outline b).Edge k d) :
    ∃ f, (env.outline b).Defines f d ∧ ∃ o ∈ f.origins, o.value = k := by
  have heffect (d : Derived) (h : k ∈ ((env.outline b).effect d).sources) :
      ∃ f, f = (env.outline b).effect d ∧ ∃ o ∈ f.origins, o.value = k :=
    ⟨_, rfl, List.mem_map.1 h⟩
  cases d with
  | inst i =>
    obtain ⟨f, hf, hk | hk⟩ := mem_reads.1 h
    · exact ⟨f, hf, List.mem_map.1 hk⟩
    · rw [noted_of_not_isElementStore (hd i rfl)] at hk
      simp at hk
  | slot v => exact ⟨_, ⟨h.1, rfl⟩, List.mem_map.1 h.2⟩
  | outArg v => exact heffect _ h
  | callArg arg => exact heffect _ h
  | returned => exact heffect _ h

end Env

/-- Bounds that a state respects are kept by all steps, if each of them is above the bounds of the
values that it counts as derived from. -/
theorem Steps.get_le {env : Env} {b : BlockId} {M : FactMap} {s t : BlockState}
    (h : Steps env.program M s t) (hslots : env.SlotsAreStorage) (hs : Shaped env b s)
    {X : Derived → Dep} {Y : ValueId → Dep} (hget : ∀ d, env.IsExact d → s.get d ≤ X d)
    (hentry : ∀ v, s.entry.fact v ≤ Y v) (hM : ∀ v, M.fact v ≤ Y v)
    (hY : ∀ k d, (env.outline b).Edge k d → env.IsExact d → k ∈ M → Y k ≤ X d)
    (hX : ∀ k d, (env.outline b).Edge k d → env.IsExact d → env.program.Defines b k →
      X (.inst k) ≤ X d) (d : Derived) (hd : env.IsExact d) : t.get d ≤ X d := by
  induction h generalizing d with
  | refl => exact hget d hd
  | enter _ _ ih => exact ih d hd
  | @raise t k a d' h hk ha ih =>
    have ht := h.shaped hslots hs
    have hedge := (ht.edges k d').1 hk
    rw [ht.get_raise hedge]
    split
    · rename_i heq
      subst heq
      refine sup_le (ih d hd) ?_
      rcases ha with ⟨hkM, ha⟩ | ⟨hr, ha⟩
      · have hle := (h.entry_le k).trans (sup_le (hentry k) (hM k))
        exact ha.trans (hle.trans (hY k d hedge hd hkM))
      · by_cases hk : k ∈ env.program.instructions b
        · have hexact : env.IsExact (.inst k) := by
            rintro i ⟨⟩
            exact Env.not_isElementStore_of_isResult hr
          exact ha.trans ((ih (.inst k) hexact).trans (hX k d hedge hd ⟨hk, hr⟩))
        · rw [Facts.fact_of_not_mem fun hm => hk ((ht.instructions k).1 hm)] at ha
          exact ha.trans (Fact.unknown_le _)
    · exact ih d hd

end InputFlow
