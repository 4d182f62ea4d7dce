import InputFlow.Proofs.Block.Outline
import Mathlib.Data.List.Induction

namespace InputFlow

namespace Program

variable {p : Program}

theorem isStorage_of_pointerFrom {fuel : Nat} {whole whole' : Bool} {v s : ValueId}
    (h : p.pointerFrom fuel whole v = some (.slot s whole')) : p.isStorage s := by
  induction fuel generalizing whole v with
  | zero => simp [pointerFrom] at h
  | succ fuel ih =>
    rw [pointerFrom] at h
    split at h
    · rename_i hr
      simp only [Option.some.injEq, Pointer.slot.injEq] at h
      simp [isStorage, ← h.1, hr]
    · simp at h
    · simp at h
    · split at h
      · simp only [Option.some.injEq, Pointer.slot.injEq] at h
        rename_i hc
        have hd : ∃ a b, p.definition? v = some (.inst (.alloca a b)) := by
          simp only [code?] at hc
          split at hc <;> simp_all
        obtain ⟨a, b, hd⟩ := hd
        simp [isStorage, isAlloca, ← h.1, hd]
      · exact ih h
      · simp at h

theorem isStorage_of_pointer? {v s : ValueId} {whole : Bool}
    (h : p.pointer? v = some (.slot s whole)) : p.isStorage s :=
  isStorage_of_pointerFrom h

theorem isResult_of_isStorage {v : ValueId} (h : p.isStorage v) : p.isResult v = false := by
  simp only [isStorage, Bool.or_eq_true, beq_iff_eq] at h
  rcases h with h | h
  · have hd : p.definition? v = some .global := by
      simp only [role] at h
      split at h <;> simp_all
    obtain ⟨x, hx, hg⟩ := Option.map_eq_some_iff.1 hd
    obtain ⟨name, d⟩ := x
    cases hg
    simp [isResult, hasResult, hx]
  · simp [isResult, h]

end Program

namespace Env

variable {env : Env} {σ : Outline} {i v : ValueId} {o : Origin} {P : Origin → Prop}

theorem sources_operandFormula (σ : Outline) (v : ValueId) :
    (env.operandFormula σ v).sources = env.keys v := by
  simp only [operandFormula, keys]
  split
  · simp [*]
  · simp [*]
  · simp [*]
  · by_cases h : env.program.isAlloca v
    · simp [h]
    · simp only [Bool.false_eq_true, if_false, Formula.sources_ofOrigin, Outline.origin, *]
      split <;> rfl

theorem origin_of_mem_operandFormula (h : o ∈ (env.operandFormula σ v).origins) :
    o = σ.origin env.program v ∧ env.keys v = [v] := by
  simp only [operandFormula] at h
  split at h
  · simp [Formula.fixed] at h
  · simp [Formula.fixed] at h
  · simp [Formula.fixed] at h
  · rename_i hr
    by_cases ha : env.program.isAlloca v
    · simp [ha, Formula.fixed] at h
    · rw [if_neg ha] at h
      exact ⟨by simpa [Formula.ofOrigin] using h, by simp [keys, hr, ha]⟩

/-- The slots of the context are storage. -/
def SlotsAreStorage (env : Env) : Prop :=
  ∀ s ∈ env.context.slots, env.program.isStorage s

theorem isStorage_of_mem_aliases (hs : env.SlotsAreStorage) {s : ValueId}
    (h : s ∈ env.aliases v env.context.slots) : env.program.isStorage s :=
  hs s (List.mem_filter.1 h).1

theorem mem_storeUses (value pointer : ValueId) : value ∈ env.storeUses value pointer := by
  rw [storeUses]
  split <;> simp

theorem inputs_store {value pointer : ValueId}
    (hd : env.program.definition? i = some (.inst (.store value pointer))) :
    env.inputs i = env.storeUses value pointer := by
  simp [inputs, uses, hd]

/-- An origin in the formula of an instruction is one of an operand or of the content of a slot. -/
theorem origins_rule (hs : env.SlotsAreStorage) (h : o ∈ (env.rule σ i).origins) :
    (∃ v ∈ env.inputs i, o ∈ (env.operandFormula σ v).origins) ∨
      ∃ s, env.program.isStorage s ∧ o ∈ (σ.content s).origins := by
  simp only [rule] at h
  split at h
  · obtain ⟨f, hf, ho⟩ := Formula.mem_origins_sum.1 h
    obtain ⟨x, hx, rfl⟩ := List.mem_map.1 hf
    exact Or.inl ⟨x.1, by simpa [inputs, *] using ⟨x.2, hx⟩, ho⟩
  · rename_i pointer hd
    have hinputs : env.inputs i = env.loadUses pointer := by simp [inputs, uses, hd]
    rw [hinputs, loadUses]
    simp only [loadFormula] at h
    split at h
    · rename_i s whole hp
      have hstore := Program.isStorage_of_pointer? hp
      cases whole with
      | true => exact Or.inr ⟨s, hstore, h⟩
      | false =>
        rcases List.mem_append.1 h with h | h
        · exact Or.inr ⟨s, hstore, h⟩
        · exact Or.inl ⟨pointer, by simp [hp], h⟩
    all_goals simp only [Formula.join, Formula.fixed, List.nil_append, List.mem_append,
      List.not_mem_nil] at h
    all_goals
      rename_i hp
      rcases h with h | h
      · exact Or.inl ⟨pointer, by simp [hp], h⟩
      · obtain ⟨f, hf, ho⟩ := Formula.mem_origins_sum.1 h
        obtain ⟨s, hm, rfl⟩ := List.mem_map.1 hf
        exact Or.inr ⟨s, isStorage_of_mem_aliases hs hm, ho⟩
  · rename_i value pointer hd
    exact Or.inl ⟨value, inputs_store hd ▸ mem_storeUses value pointer, h⟩
  · rename_i callee args hd
    have ho : o ∈ (Formula.sum (args.map (env.operandFormula σ))).origins := by
      split at h <;> simpa [Formula.join, Formula.fixed] using h
    obtain ⟨f, hf, ho⟩ := Formula.mem_origins_sum.1 ho
    obtain ⟨v, hv, rfl⟩ := List.mem_map.1 hf
    exact Or.inl ⟨v, by simpa [inputs, uses, hd, Definition.operands, Code.operands] using hv, ho⟩
  · rename_i v hd
    exact Or.inl ⟨v, by simp [inputs, uses, hd, Definition.operands, Code.operands], h⟩
  · rename_i v _ _ hd
    exact Or.inl ⟨v, by simp [inputs, uses, hd, Definition.operands, Code.operands], h⟩
  · rename_i v _ _ _ hd
    exact Or.inl ⟨v, by simp [inputs, uses, hd, Definition.operands, Code.operands], h⟩
  · rename_i d _ _ _ _ _ _ _ hd
    have hinputs : env.inputs i = d.operands := by
      unfold inputs uses
      split <;> grind
    have ho : o ∈ (Formula.sum (d.operands.map (env.operandFormula σ))).origins := by
      simpa [Formula.join, Formula.fixed] using h
    obtain ⟨f, hf, ho⟩ := Formula.mem_origins_sum.1 ho
    obtain ⟨v, hv, rfl⟩ := List.mem_map.1 hf
    exact Or.inl ⟨v, hinputs ▸ hv, ho⟩
  · simp [Formula.fixed] at h

theorem origins_writes {w : Write} (hw : w ∈ env.writes σ i) (h : o ∈ w.formula.origins) :
    ∃ v ∈ env.inputs i, o ∈ (env.operandFormula σ v).origins := by
  simp only [writes] at hw
  split at hw
  · rename_i value pointer hd
    rw [inputs_store hd]
    have hvalue (h : o ∈ (env.operandFormula σ value).origins) :
        ∃ v ∈ env.storeUses value pointer, o ∈ (env.operandFormula σ v).origins :=
      ⟨value, mem_storeUses value pointer, h⟩
    simp only [storeWrites] at hw
    split at hw
    · obtain rfl := List.mem_singleton.1 hw
      exact hvalue h
    · rename_i hp
      obtain rfl := List.mem_singleton.1 hw
      rcases List.mem_append.1 h with h | h
      · exact hvalue h
      · exact ⟨pointer, by simp [storeUses, hp], h⟩
    · obtain ⟨s, -, rfl⟩ := List.mem_map.1 hw
      exact hvalue h
    · obtain ⟨s, -, rfl⟩ := List.mem_map.1 hw
      exact hvalue h
    · simp at hw
  · split at hw
    · obtain ⟨v, -, hw⟩ := List.mem_flatMap.1 hw
      exfalso
      simp only [fillWrites] at hw
      split at hw <;> simp only [List.mem_map, List.mem_singleton, List.not_mem_nil] at hw
      · subst hw
        simp [Formula.fixed] at h
      all_goals
        obtain ⟨s, -, rfl⟩ := hw
        simp [Formula.fixed] at h
    · simp at hw
  · simp at hw

theorem isStorage_of_writes (hs : env.SlotsAreStorage) {w : Write} (hw : w ∈ env.writes σ i) :
    env.program.isStorage w.slot := by
  have halias (pointer : ValueId) (f : Formula)
      (hw : w ∈ (env.aliases pointer env.context.slots).map (Write.mk · false f)) :
      env.program.isStorage w.slot := by
    obtain ⟨s, hm, rfl⟩ := List.mem_map.1 hw
    exact isStorage_of_mem_aliases hs hm
  simp only [writes] at hw
  split at hw
  · simp only [storeWrites] at hw
    split at hw
    · obtain rfl := List.mem_singleton.1 hw
      exact Program.isStorage_of_pointer? ‹_›
    · obtain rfl := List.mem_singleton.1 hw
      exact Program.isStorage_of_pointer? ‹_›
    · exact halias _ _ hw
    · exact halias _ _ hw
    · simp at hw
  · split at hw
    · obtain ⟨v, -, hw⟩ := List.mem_flatMap.1 hw
      simp only [fillWrites] at hw
      split at hw
      · obtain rfl := List.mem_singleton.1 hw
        exact Program.isStorage_of_pointer? ‹_›
      · exact halias _ _ hw
      · exact halias _ _ hw
      · simp at hw
    · simp at hw
  · simp at hw

theorem origins_argEffects {callee : FuncId} {position : Nat} {args : List ValueId}
    {e : Derived × Formula} (he : e ∈ env.argEffects σ callee position args)
    (h : o ∈ e.2.origins) : ∃ v ∈ args, o ∈ (env.operandFormula σ v).origins := by
  induction args generalizing position with
  | nil => simp [argEffects] at he
  | cons v rest ih =>
    rcases List.mem_append.1 he with he | he
    · split at he
      · simp at he
      · obtain rfl := List.mem_singleton.1 he
        exact ⟨v, List.mem_cons_self, h⟩
    · obtain ⟨u, hu, ho⟩ := ih he
      exact ⟨u, List.mem_cons_of_mem v hu, ho⟩

theorem origins_effects {e : Derived × Formula} (he : e ∈ env.effects σ i) (h : o ∈ e.2.origins) :
    ∃ v ∈ env.inputs i, o ∈ (env.operandFormula σ v).origins := by
  have hout (f : Formula) (pointer : ValueId) (he : e ∈ env.outEffects f pointer) :
      o ∈ f.origins := by
    simp only [outEffects] at he
    split at he
    · obtain rfl := List.mem_singleton.1 he
      exact h
    · simp at he
  simp only [effects] at he
  split at he
  · rename_i value pointer hd
    exact ⟨value, inputs_store hd ▸ mem_storeUses value pointer, hout _ _ he⟩
  · rename_i callee args hd
    have hinputs : env.inputs i = args := by
      simp [inputs, uses, hd, Definition.operands, Code.operands]
    rw [hinputs]
    rcases List.mem_append.1 he with he | he
    · split at he
      · exact origins_argEffects he h
      · simp at he
    · split at he
      · obtain ⟨v, -, he⟩ := List.mem_flatMap.1 he
        simpa [Formula.fixed] using hout _ _ he
      · simp at he
  · rename_i v hd
    obtain rfl := List.mem_singleton.1 he
    exact ⟨v, by simp [inputs, uses, hd, Definition.operands, Code.operands], h⟩
  · simp at he

end Env

namespace Outline

variable {σ : Outline} {p : Program} {P : Origin → Prop}

theorem foldl_addEffect (es : List (Derived × Formula)) (σ : Outline) :
    es.foldl addEffect σ = { σ with effects := σ.effects ++ es } := by
  induction es generalizing σ with
  | nil => simp
  | cons e es ih => simp [ih, addEffect]

theorem foldl_write_foldl_addEffect (ws : List Write) (es : List (Derived × Formula)) (σ : Outline) :
    ws.foldl write (es.foldl addEffect σ) = es.foldl addEffect (ws.foldl write σ) := by
  induction ws generalizing σ with
  | nil => rfl
  | cons w ws ih =>
    rw [List.foldl_cons, List.foldl_cons, ← ih]
    congr 1
    simp [foldl_addEffect, write, put]

@[simp] theorem rules_foldl_write (ws : List Write) (σ : Outline) :
    (ws.foldl write σ).rules = σ.rules := by
  induction ws generalizing σ with
  | nil => rfl
  | cons w ws ih => simp [ih, write, put]

@[simp] theorem effects_foldl_write (ws : List Write) (σ : Outline) :
    (ws.foldl write σ).effects = σ.effects := by
  induction ws generalizing σ with
  | nil => rfl
  | cons w ws ih => simp [ih, write, put]

@[simp] theorem reads_foldl_write (ws : List Write) (σ : Outline) :
    (ws.foldl write σ).reads = σ.reads := by
  induction ws generalizing σ with
  | nil => rfl
  | cons w ws ih => simp [ih, write, put]

/-- What holds of all written slots after some writes. -/
theorem written_foldl_write {Q : ValueId → Prop} {ws : List Write} (hws : ∀ w ∈ ws, Q w.slot)
    (h : ∀ v ∈ σ.written, Q v) : ∀ v ∈ (ws.foldl write σ).written, Q v := by
  induction ws generalizing σ with
  | nil => exact h
  | cons w ws ih =>
    refine ih (fun w' hw' => hws w' (List.mem_cons_of_mem w hw')) ?_
    intro v hv
    rcases List.mem_cons.1 hv with rfl | hv
    · exact hws w List.mem_cons_self
    · exact h v hv

theorem content_foldl_write_of_not_mem {ws : List Write} {v : ValueId}
    (h : ∀ v ∉ σ.written, σ.content v = .ofOrigin (.entry v))
    (hv : v ∉ (ws.foldl write σ).written) :
    (ws.foldl write σ).content v = .ofOrigin (.entry v) := by
  induction ws generalizing σ with
  | nil => exact h v hv
  | cons w ws ih =>
    refine ih (σ := σ.write w) ?_ hv
    intro u hu
    simp only [write, put, List.mem_cons, not_or] at hu ⊢
    rw [if_neg hu.1]
    exact h u hu.2

/-- What holds of the written contents after some writes, if it holds of what is written. -/
theorem content_foldl_write_of_mem {G : Formula → Prop} (hjoin : ∀ f g : Formula, G g → G (f.join g))
    {ws : List Write} (hws : ∀ w ∈ ws, G w.formula) (h : ∀ v ∈ σ.written, G (σ.content v)) :
    ∀ v ∈ (ws.foldl write σ).written, G ((ws.foldl write σ).content v) := by
  induction ws generalizing σ with
  | nil => exact h
  | cons w ws ih =>
    refine ih (σ := σ.write w) (fun w' hw' => hws w' (List.mem_cons_of_mem w hw')) fun v hv => ?_
    have hw := hws w List.mem_cons_self
    simp only [write, put]
    split
    · split
      · exact hw
      · exact hjoin _ _ hw
    · exact h v ((List.mem_cons.1 hv).resolve_left ‹_›)

theorem content_foldl_write {ws : List Write} (hws : ∀ w ∈ ws, ∀ o ∈ w.formula.origins, P o)
    (h : ∀ v, p.isStorage v → ∀ o ∈ (σ.content v).origins, P o) :
    ∀ v, p.isStorage v → ∀ o ∈ ((ws.foldl write σ).content v).origins, P o := by
  induction ws generalizing σ with
  | nil => exact h
  | cons w ws ih =>
    refine ih (fun w' hw' => hws w' (List.mem_cons_of_mem w hw')) ?_
    intro v hv o ho
    have hw := hws w List.mem_cons_self
    simp only [write, put] at ho
    split at ho
    · rename_i heq
      subst heq
      split at ho
      · exact hw o ho
      · rcases List.mem_append.1 ho with ho | ho
        · exact h w.slot hv o ho
        · exact hw o ho
    · exact h v hv o ho

theorem filter_effects_of_not_mem {d : Derived} (h : d ∉ σ.effects.map (·.1)) :
    σ.effects.filter (·.1 = d) = [] := by
  refine List.filter_eq_nil_iff.2 fun e hm heq => h ?_
  exact List.mem_map.2 ⟨e, hm, by simpa using heq⟩

theorem mem_effect_origins {d : Derived} {o : Origin} :
    o ∈ (σ.effect d).origins ↔ ∃ f, (d, f) ∈ σ.effects ∧ o ∈ f.origins := by
  simp only [effect, Formula.mem_origins_sum, List.mem_map, List.mem_filter, decide_eq_true_eq,
    Prod.exists]
  constructor
  · rintro ⟨f, ⟨d', f', ⟨he, rfl⟩, rfl⟩, ho⟩
    exact ⟨f', he, ho⟩
  · rintro ⟨f, he, ho⟩
    exact ⟨f, ⟨d, f, ⟨he, rfl⟩, rfl⟩, ho⟩

end Outline

namespace Env

variable {env : Env} {σ : Outline} {is : List ValueId} {i v : ValueId} {P : Origin → Prop}

@[simp] theorem rules_extend (σ : Outline) (i : ValueId) :
    (env.extend σ i).rules = σ.rules ++ [(i, env.rule σ i)] := by
  simp [extend, perform, Outline.foldl_addEffect, Outline.finish, Outline.read]

@[simp] theorem done_extend (σ : Outline) (i : ValueId) : (env.extend σ i).done = σ.done ++ [i] := by
  simp [Outline.done]

@[simp] theorem effects_extend (σ : Outline) (i : ValueId) :
    (env.extend σ i).effects = σ.effects ++ env.effects σ i := by
  simp [extend, perform, Outline.foldl_addEffect, Outline.finish, Outline.read]

@[simp] theorem reads_extend (σ : Outline) (i : ValueId) :
    (env.extend σ i).reads =
      σ.reads ++ ((env.rule σ i).sources ++ env.noted i).map (·, i) := by
  simp [extend, perform, Outline.foldl_addEffect, Outline.finish, Outline.read]

theorem content_extend (σ : Outline) (i : ValueId) :
    (env.extend σ i).content = ((env.writes σ i).foldl Outline.write
      (σ.read i ((env.rule σ i).sources ++ env.noted i))).content := by
  simp [extend, perform, Outline.foldl_addEffect, Outline.finish]

theorem written_extend (σ : Outline) (i : ValueId) :
    (env.extend σ i).written = ((env.writes σ i).foldl Outline.write
      (σ.read i ((env.rule σ i).sources ++ env.noted i))).written := by
  simp [extend, perform, Outline.foldl_addEffect, Outline.finish]

theorem outlineOf_append (is : List ValueId) (i : ValueId) :
    env.outlineOf (is ++ [i]) = env.extend (env.outlineOf is) i := by
  simp [outlineOf]

@[simp] theorem done_outlineOf (is : List ValueId) : (env.outlineOf is).done = is := by
  induction is using List.reverseRecOn with
  | nil => rfl
  | append_singleton is i ih => rw [outlineOf_append, done_extend, ih]

/-- The last instruction is the one at which a list is split, or comes after it. -/
theorem append_singleton_eq_split {j : ValueId} {before after : List ValueId}
    (h : is ++ [j] = before ++ i :: after) :
    (is = before ∧ j = i ∧ after = []) ∨ ∃ rest, after = rest ++ [j] ∧ is = before ++ i :: rest := by
  rcases List.eq_nil_or_concat after with rfl | ⟨rest, k, rfl⟩
  · exact Or.inl (by simpa using h)
  · have h : is ++ [j] = (before ++ i :: rest) ++ [k] := by simpa using h
    obtain ⟨his, hj⟩ := List.append_inj' h rfl
    exact Or.inr ⟨rest, by simpa using hj.symm, his⟩

/-- The formula of an instruction is that of its rule, where all instructions above are known. -/
theorem mem_rules {f : Formula} :
    (i, f) ∈ (env.outlineOf is).rules ↔
      ∃ before after, is = before ++ i :: after ∧ f = env.rule (env.outlineOf before) i := by
  induction is using List.reverseRecOn with
  | nil => simp [outlineOf]
  | append_singleton is j ih =>
    rw [outlineOf_append, rules_extend, List.mem_append, ih, List.mem_singleton, Prod.mk.injEq]
    constructor
    · rintro (⟨before, after, rfl, rfl⟩ | ⟨rfl, rfl⟩)
      · exact ⟨before, after ++ [j], by simp, rfl⟩
      · exact ⟨is, [], rfl, rfl⟩
    · rintro ⟨before, after, h, rfl⟩
      rcases append_singleton_eq_split h with ⟨rfl, rfl, -⟩ | ⟨after, -, rfl⟩
      · exact Or.inr ⟨rfl, rfl⟩
      · exact Or.inl ⟨before, after, rfl, rfl⟩

theorem mem_effects {e : Derived × Formula} : e ∈ (env.outlineOf is).effects ↔
    ∃ before i after, is = before ++ i :: after ∧ e ∈ env.effects (env.outlineOf before) i := by
  induction is using List.reverseRecOn with
  | nil => simp [outlineOf]
  | append_singleton is j ih =>
    rw [outlineOf_append, effects_extend, List.mem_append, ih]
    constructor
    · rintro (⟨before, i, after, rfl, he⟩ | he)
      · exact ⟨before, i, after ++ [j], by simp, he⟩
      · exact ⟨is, j, [], rfl, he⟩
    · rintro ⟨before, i, after, h, he⟩
      rcases append_singleton_eq_split h with ⟨rfl, rfl, -⟩ | ⟨after, -, rfl⟩
      · exact Or.inr he
      · exact Or.inl ⟨before, i, after, rfl, he⟩

theorem mem_of_mem_rules {r : ValueId × Formula} (h : r ∈ (env.outlineOf is).rules) : r.1 ∈ is := by
  have hr := List.mem_map_of_mem (f := Prod.fst) h
  rwa [← Outline.done, done_outlineOf] at hr

theorem exists_rule (h : i ∈ is) : ∃ f, (i, f) ∈ (env.outlineOf is).rules := by
  obtain ⟨before, after, h⟩ := List.append_of_mem h
  exact ⟨_, mem_rules.2 ⟨before, after, h, rfl⟩⟩

theorem isStorage_of_written (hs : env.SlotsAreStorage) :
    ∀ v ∈ (env.outlineOf is).written, env.program.isStorage v := by
  induction is using List.reverseRecOn with
  | nil => simp [outlineOf]
  | append_singleton is i ih =>
    rw [outlineOf_append, written_extend]
    exact Outline.written_foldl_write (fun w hw => isStorage_of_writes hs hw) ih

theorem content_of_not_written (h : v ∉ (env.outlineOf is).written) :
    (env.outlineOf is).content v = .ofOrigin (.entry v) := by
  induction is using List.reverseRecOn generalizing v with
  | nil => rfl
  | append_singleton is i ih =>
    rw [outlineOf_append, written_extend] at h
    rw [outlineOf_append, content_extend]
    exact Outline.content_foldl_write_of_not_mem (fun u hu => ih hu) h

/-- All origins come from operands, seen where they are used, and from the content of slots on
entry. -/
theorem originsIn_outlineOf (hs : env.SlotsAreStorage)
    (hP : ∀ before i after, is = before ++ i :: after → ∀ v ∈ env.inputs i,
      ∀ o ∈ (env.operandFormula (env.outlineOf before) v).origins, P o)
    (hE : ∀ v, env.program.isStorage v → P (.entry v)) :
    (env.outlineOf is).OriginsIn env.program P := by
  induction is using List.reverseRecOn with
  | nil =>
    refine ⟨by simp [outlineOf], ?_, by simp [outlineOf]⟩
    intro v hv o ho
    obtain rfl := List.mem_singleton.1 ho
    exact hE v hv
  | append_singleton is i ih =>
    have ih := ih fun before j after h => hP before j (after ++ [i]) (by simp [h])
    have hop := hP is i [] rfl
    rw [outlineOf_append]
    refine ⟨?_, ?_, ?_⟩
    · intro r hr o ho
      rw [rules_extend] at hr
      rcases List.mem_append.1 hr with hr | hr
      · exact ih.rules r hr o ho
      · obtain rfl := List.mem_singleton.1 hr
        rcases origins_rule hs ho with ⟨v, hv, ho⟩ | ⟨s, hstore, ho⟩
        · exact hop v hv o ho
        · exact ih.content s hstore o ho
    · rw [content_extend]
      refine Outline.content_foldl_write ?_ ih.content
      intro w hw o ho
      obtain ⟨v, hv, ho⟩ := origins_writes hw ho
      exact hop v hv o ho
    · intro e he o ho
      rw [effects_extend] at he
      rcases List.mem_append.1 he with he | he
      · exact ih.effects e he o ho
      · obtain ⟨v, hv, ho⟩ := origins_effects he ho
        exact hop v hv o ho

/-- A fact of an instruction that a formula has is that of a result above it. -/
theorem originsIn_results (hs : env.SlotsAreStorage) (is : List ValueId) :
    (env.outlineOf is).OriginsIn env.program
      fun o => ∀ k, o = .result k → k ∈ is ∧ env.program.isResult k := by
  refine originsIn_outlineOf hs ?_ (fun v _ k h => by cases h)
  intro before i after h v _ o ho k hk
  obtain ⟨rfl, -⟩ := origin_of_mem_operandFormula ho
  simp only [Outline.origin, done_outlineOf] at hk
  split at hk
  · rename_i hv
    cases hk
    exact ⟨by simp [h, hv.1], hv.2⟩
  · cases hk

theorem origins_rule_results (hs : env.SlotsAreStorage) {k : ValueId}
    (h : .result k ∈ (env.rule (env.outlineOf is) i).origins) :
    k ∈ is ∧ env.program.isResult k := by
  rcases origins_rule hs h with ⟨v, -, ho⟩ | ⟨s, hstore, ho⟩
  · obtain ⟨hk, -⟩ := origin_of_mem_operandFormula ho
    simp only [Outline.origin, done_outlineOf] at hk
    split at hk
    · rename_i hv
      cases hk
      exact hv
    · cases hk
  · exact (originsIn_results hs is).content s hstore _ ho k rfl

/-- What holds of an instruction as soon as it holds of the instructions it takes facts from holds of
all instructions. -/
theorem rules_induction (hs : env.SlotsAreStorage) {Q : ValueId → Prop}
    (h : ∀ i f, (i, f) ∈ (env.outlineOf is).rules → (∀ k, .result k ∈ f.origins → Q k) → Q i) :
    ∀ i ∈ is, Q i := by
  induction is using List.reverseRecOn with
  | nil => simp
  | append_singleton is i ih =>
    rw [outlineOf_append, rules_extend] at h
    have ih := ih fun j f hj => h j f (List.mem_append_left _ hj)
    have hi : Q i := h i _ (List.mem_append_right _ List.mem_cons_self) fun k hk =>
      ih k (origins_rule_results hs hk).1
    intro j hj
    rcases List.mem_append.1 hj with hj | hj
    · exact ih j hj
    · rwa [List.mem_singleton.1 hj]

theorem mem_reads {k : ValueId} :
    (k, i) ∈ (env.outlineOf is).reads ↔
      ∃ f, (i, f) ∈ (env.outlineOf is).rules ∧ (k ∈ f.sources ∨ k ∈ env.noted i) := by
  induction is using List.reverseRecOn with
  | nil => simp [outlineOf]
  | append_singleton is j ih =>
    rw [outlineOf_append, reads_extend, rules_extend]
    simp only [List.mem_append, ih, List.mem_map, List.mem_singleton, Prod.mk.injEq]
    constructor
    · rintro (⟨f, hf, hk⟩ | ⟨k', hk, rfl, rfl⟩)
      · exact ⟨f, Or.inl hf, hk⟩
      · exact ⟨_, Or.inr ⟨rfl, rfl⟩, hk⟩
    · rintro ⟨f, hf | ⟨rfl, rfl⟩, hk⟩
      · exact Or.inl ⟨f, hf, hk⟩
      · exact Or.inr ⟨k, hk, rfl, rfl⟩

end Env

end InputFlow
