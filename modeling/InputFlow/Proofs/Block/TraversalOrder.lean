import InputFlow.Proofs.Block.Analysis

namespace InputFlow

/-- From a state with facts of all values in `K` the step ends with facts of all values in `K'`, or it
stops for one of the reasons in `Q`. -/
def Orderly {α : Type} (Q : AnalysisError → Prop) (K : ValueId → Prop) (x : Transfer α)
    (K' : ValueId → Prop) : Prop :=
  ∀ s, (∀ v, K v → v ∈ s.values) →
    match x.run s with
    | .ok _ s' => ∀ v, K' v → v ∈ s'.values
    | .error e _ => Q e

namespace BlockState

variable {s : BlockState} {slot v : ValueId} {fact : Dep} {keys : List ValueId}

@[simp] theorem values_noteRead (s : BlockState) (user slot : ValueId) :
    (s.noteRead user slot).values = s.values := by
  rw [noteRead]
  split <;> rfl

theorem values_setInstruction (s : BlockState) (p : Program) (i : ValueId) (fact : Dep) :
    (s.setInstruction p i fact).values =
      if p.isResult i then s.values.insert i fact else s.values := by
  rw [setInstruction, Program.isResult]
  split <;> rfl

theorem mem_values_putSlot {state : SlotState} (h : v ∈ s.values) :
    v ∈ (s.putSlot slot state).values :=
  Std.ExtTreeMap.mem_insert.2 (Or.inr h)

theorem mem_values_blend (h : v ∈ s.values) : v ∈ (s.blend slot fact keys).values := by
  rw [blend]
  split <;> exact mem_values_putSlot h

theorem mem_values_blendAll {slots : List ValueId} (h : v ∈ s.values) :
    v ∈ (s.blendAll slots fact keys).values := by
  rw [blendAll]
  induction slots generalizing s with
  | nil => exact h
  | cons slot slots ih => exact ih (mem_values_blend h)

end BlockState

namespace Orderly

variable {α β : Type} {Q : AnalysisError → Prop} {K K' K'' : ValueId → Prop} {x : Transfer α}
  {f : α → Transfer β}

theorem pure (a : α) : Orderly Q K (Pure.pure a) K :=
  fun _ hs => hs

theorem get : Orderly Q K (MonadStateOf.get : Transfer BlockState) K :=
  fun _ hs => hs

theorem modify {g : BlockState → BlockState} (h : ∀ s v, v ∈ s.values → v ∈ (g s).values) :
    Orderly Q K (modify g) K :=
  fun s hs v hv => h s v (hs v hv)

theorem bind (hx : Orderly Q K x K') (hf : ∀ a, Orderly Q K' (f a) K'') :
    Orderly Q K (x >>= f) K'' := by
  intro s hs
  have hx := hx s hs
  rw [run_bind]
  cases hr : x.run s with
  | ok a s' =>
    rw [hr] at hx
    exact hf a s' hx
  | error e s' =>
    rw [hr] at hx
    exact hx

theorem foldlM {γ : Type} {g : β → γ → Transfer β} {l : List γ}
    (h : ∀ b, ∀ c ∈ l, Orderly Q K (g b c) K) (b : β) : Orderly Q K (l.foldlM g b) K := by
  induction l generalizing b with
  | nil => exact pure b
  | cons c l ih =>
    rw [List.foldlM_cons]
    exact (h b c List.mem_cons_self).bind (ih fun b c hc => h b c (.tail _ hc))

theorem forM {γ : Type} {g : γ → Transfer PUnit} {l : List γ} (h : ∀ c ∈ l, Orderly Q K (g c) K) :
    Orderly Q K (l.forM g) K := by
  induction l with
  | nil => exact pure ()
  | cons c l ih => exact (h c List.mem_cons_self).bind fun _ => ih fun c hc => h c (.tail _ hc)

end Orderly

namespace Env

variable {env : Env} {Q : AnalysisError → Prop} {K : ValueId → Prop} {user v i : ValueId}

def AtHand (env : Env) (K : ValueId → Prop) (v : ValueId) : Prop :=
  env.program.role v = .instruction → ¬ env.program.isAlloca v → K v

/-- An operand can be used: its fact is at hand, or the want of a fact is a reason to stop. -/
def Usable (env : Env) (Q : AnalysisError → Prop) (K : ValueId → Prop) (v : ValueId) : Prop :=
  env.AtHand K v ∨ ∀ u b, Q (.traversalOrder u b)

/-- A pointer can be followed: it leads somewhere, or that it does not is a reason to stop. -/
def Followable (env : Env) (Q : AnalysisError → Prop) (v : ValueId) : Prop :=
  env.program.pointer? v = none → Q (.endlessAddress v)

theorem orderly_param (v : ValueId) : Orderly Q K (env.param v) K := by
  rw [param]
  split
  · exact .pure _
  · exact .bind (.modify fun _ _ h => h) fun _ => .pure _

theorem orderly_operand (user : ValueId) (h : env.Usable Q K v) :
    Orderly Q K (env.operand user v) K := by
  rw [operand]
  split
  · exact .pure _
  · exact .pure _
  · exact orderly_param v
  next hr =>
    split
    · exact .pure _
    next ha =>
      intro s hs
      rw [run_bind, run_get]
      cases hv : s.values[v]? with
      | some fact =>
        simp only [hv]
        exact hs
      | none =>
        have hmem : v ∉ s.values := by simp [Std.ExtTreeMap.mem_iff_isSome_getElem?, hv]
        simp only [hv]
        exact (h.resolve_left fun h => hmem (hs v (h hr ha))) v s.block

theorem orderly_joinOperands (user : ValueId) (fact : Dep) {vs : List ValueId}
    (h : ∀ v ∈ vs, env.Usable Q K v) : Orderly Q K (env.joinOperands user fact vs) K :=
  .foldlM (fun _ v hv => (orderly_operand user (h v hv)).bind fun _ => .pure _) fact

theorem orderly_phi (user : ValueId) (vs : List ValueId) : Orderly Q K (env.phi user vs) K := by
  refine .foldlM (fun _ v _ => .bind ?_ fun _ => .pure _) _
  rw [incomingFact]
  split
  · exact .pure _
  · exact .pure _
  · exact orderly_param v
  · split
    · exact .pure _
    · exact .bind (.modify fun _ _ h => h) fun _ => .bind .get fun _ => .pure _

theorem orderly_pointer (h : env.Followable Q v) : Orderly Q K (env.pointer v) K := by
  rw [pointer]
  split
  · exact .pure _
  next hv => exact fun _ _ => h hv

theorem orderly_readSlot (user slot : ValueId) : Orderly Q K (readSlot user slot) K :=
  .bind .get fun _ => .bind (.modify fun s v h => by simpa using h) fun _ => .pure _

theorem orderly_aliasingSlots (v : ValueId) : Orderly Q K (env.aliasingSlots v) K :=
  .bind (.modify fun _ _ h => h) fun _ => .pure _

theorem orderly_blendAliasing (v : ValueId) (fact : Dep) (keys : List ValueId) :
    Orderly Q K (env.blendAliasing v fact keys) K :=
  (orderly_aliasingSlots v).bind fun _ => .modify fun _ _ => BlockState.mem_values_blendAll

theorem orderly_load (user : ValueId) (h : env.Usable Q K v) (hv : env.Followable Q v) :
    Orderly Q K (env.load user v) K := by
  refine (orderly_pointer hv).bind fun P => ?_
  have hoperand := orderly_operand user h
  have haliasing (root : ValueId) : Orderly Q K (do
      let fact := (Fact.on root).join (← env.operand user v)
      (← env.aliasingSlots v).foldlM (fun fact slot => return fact.join (← readSlot user slot)) fact) K :=
    hoperand.bind fun _ => (orderly_aliasingSlots v).bind fun _ =>
      .foldlM (fun _ slot _ => (orderly_readSlot user slot).bind fun _ => .pure _) _
  cases P with
  | slot slot whole =>
    refine (orderly_readSlot user slot).bind fun _ => ?_
    split
    · exact .pure _
    · exact hoperand.bind fun _ => .pure _
  | param root => exact haliasing root
  | untraced root => exact haliasing root

theorem orderly_store (user : ValueId) {value : ValueId} (hvalue : env.Usable Q K value)
    (h : env.Usable Q K v) (hv : env.Followable Q v) : Orderly Q K (env.store user value v) K := by
  refine (orderly_operand user hvalue).bind fun fact => (orderly_pointer hv).bind fun P => ?_
  have hblend : Orderly Q K (do env.blendAliasing v fact (env.keys value); return fact) K :=
    (orderly_blendAliasing v fact _).bind fun _ => .pure _
  cases P with
  | slot slot whole =>
    cases whole with
    | true => exact .bind (.modify fun _ _ => BlockState.mem_values_putSlot) fun _ => .pure _
    | false =>
      exact (orderly_operand user h).bind fun _ =>
        .bind (.modify fun _ _ => BlockState.mem_values_blend) fun _ => .pure _
  | param root => exact .bind (.modify fun _ _ h => h) fun _ => hblend
  | untraced root => exact hblend

theorem orderly_joinArgs (user : ValueId) (callee : Option FuncId) (position : Nat) (fact : Dep)
    {args : List ValueId} (h : ∀ v ∈ args, env.Usable Q K v) :
    Orderly Q K (env.joinArgs user callee position fact args) K := by
  induction args generalizing position fact with
  | nil => exact .pure _
  | cons v rest ih =>
    rw [joinArgs]
    refine (orderly_operand user (h v List.mem_cons_self)).bind fun passed => ?_
    have hrest := ih (position + 1) (fact.join passed) fun v hv => h v (.tail _ hv)
    cases callee with
    | none => exact hrest
    | some f =>
      refine .bind ?_ fun _ => hrest
      rw [passArg]
      split
      · exact .pure _
      · exact .modify fun _ _ h => h

theorem orderly_fill (input : Dep) (hv : env.Followable Q v) : Orderly Q K (env.fill input v) K := by
  refine (orderly_pointer hv).bind fun P => ?_
  have hblend : Orderly Q K (env.blendAliasing v input []) K := orderly_blendAliasing v input []
  cases P with
  | slot slot whole => exact .modify fun _ _ => BlockState.mem_values_blend
  | param root => exact .bind (.modify fun _ _ h => h) fun _ => hblend
  | untraced root => exact hblend

theorem orderly_call (user : ValueId) (callee : Option FuncId) {args : List ValueId}
    (h : ∀ v ∈ args, env.Usable Q K v)
    (hargs : callee.any env.context.isInputFunction → ∀ v ∈ args, env.Followable Q v) :
    Orderly Q K (env.call user callee args) K := by
  refine (orderly_joinArgs user callee 0 .independent h).bind fun fact => ?_
  split
  next hcallee =>
    exact (Orderly.forM fun v hv => orderly_fill _ (hargs hcallee v hv)).bind fun _ => .pure _
  · exact .pure _

theorem orderly_ret (user : ValueId) {value : Option ValueId} (h : ∀ v ∈ value, env.Usable Q K v) :
    Orderly Q K (env.ret user value) K := by
  cases value with
  | none => exact .pure _
  | some v =>
    exact (orderly_operand user (h v rfl)).bind fun _ =>
      .bind (.modify fun _ _ h => h) fun _ => .pure _

theorem orderly_instruction
    (h : ¬ env.program.isPhi i → ∀ v ∈ env.program.operands i, env.Usable Q K v)
    (hfollow : ∀ v ∈ env.addresses i, env.Followable Q v) : Orderly Q K (env.instruction i) K := by
  have huse {d : Definition ValueId BlockId (Option FuncId)} (hd : env.program.definition? i = some d)
      (hphi : ∀ incoming, d ≠ .phi incoming) : ∀ v ∈ d.operands, env.Usable Q K v := by
    refine fun v hv => h ?_ v (by simpa [Program.operands, hd] using hv)
    cases d with
    | phi incoming => exact absurd rfl (hphi incoming)
    | _ => simp [Program.isPhi, hd]
  have huseInst {code : Code ValueId BlockId (Option FuncId)}
      (hd : env.program.definition? i = some (.inst code)) : ∀ v ∈ code.operands, env.Usable Q K v :=
    huse hd (by rintro incoming ⟨⟩)
  rw [instruction]
  split
  next hd => exact orderly_phi i _
  next pointer hd =>
    exact orderly_load i (huseInst hd pointer (by simp [Code.operands]))
      (hfollow pointer (by simp [addresses, hd]))
  next value pointer hd =>
    exact orderly_store i (huseInst hd value (by simp [Code.operands]))
      (huseInst hd pointer (by simp [Code.operands])) (hfollow pointer (by simp [addresses, hd]))
  next callee args hd =>
    refine orderly_call i callee (huseInst hd) fun hcallee v hv => hfollow v ?_
    simpa only [addresses, hd, if_pos hcallee] using hv
  next value hd => exact orderly_ret i (by simpa [Code.operands] using huseInst hd)
  next condition _ _ hd => exact orderly_operand i (huseInst hd condition (by simp [Code.operands]))
  next tested _ _ _ hd => exact orderly_operand i (huseInst hd tested (by simp [Code.operands]))
  next d hphi _ _ _ _ _ _ hd => exact orderly_joinOperands i _ (huse hd hphi)
  next => exact .pure _

theorem orderly_setInstruction (i : ValueId) (fact : Dep) :
    Orderly Q K (modify (·.setInstruction env.program i fact))
      fun v => K v ∨ v = i ∧ env.program.isResult v := by
  intro s hs v hv
  change v ∈ (s.setInstruction env.program i fact).values
  rw [BlockState.values_setInstruction]
  rcases hv with hv | ⟨rfl, hv⟩
  · split
    · exact Std.ExtTreeMap.mem_insert.2 (Or.inr (hs v hv))
    · exact hs v hv
  · rw [if_pos hv]
    exact Std.ExtTreeMap.mem_insert_self

/-- Every instruction but a phi uses what the facts on entry or an instruction before have given. -/
def UsesAtHand (env : Env) (K : ValueId → Prop) (is : List ValueId) : Prop :=
  ∀ before i after, is = before ++ i :: after → ¬ env.program.isPhi i →
    ∀ v ∈ env.program.operands i, env.AtHand (fun v => K v ∨ v ∈ before ∧ env.program.isResult v) v

theorem orderly_instructions {is : List ValueId}
    (h : env.UsesAtHand K is ∨ ∀ u b, Q (.traversalOrder u b))
    (hfollow : ∀ i ∈ is, ∀ v ∈ env.addresses i, env.Followable Q v) :
    Orderly Q K (is.forM fun i => do
      let fact ← env.instruction i
      modify (·.setInstruction env.program i fact)) fun _ => False := by
  induction is generalizing K with
  | nil => exact fun _ _ _ => False.elim
  | cons i is ih =>
    refine .bind (.bind (orderly_instruction ?_ (hfollow i List.mem_cons_self)) fun fact =>
      orderly_setInstruction i fact) fun _ => ih ?_ fun j hj => hfollow j (.tail _ hj)
    · exact fun hphi v hv => h.imp_left fun h => by simpa using h [] i is rfl hphi v hv
    · refine h.imp_left fun h before j after his hphi v hv hr ha => ?_
      rcases h (i :: before) j after (by simp [his]) hphi v hv hr ha with hK | ⟨hmem, hresult⟩
      · exact .inl (.inl hK)
      · rcases List.mem_cons.1 hmem with rfl | hmem
        · exact .inl (.inr ⟨rfl, hresult⟩)
        · exact .inr ⟨hmem, hresult⟩

/-- The analysis of a block stops for a reason that one of its instructions gives. -/
theorem analyze_eq_error {E : FactMap} {b : BlockId} {e : AnalysisError} {s : BlockState}
    (h : env.UsesAtHand (· ∈ E) (env.program.instructions b) ∨ ∀ u c, Q (.traversalOrder u c))
    (hfollow : ∀ i ∈ env.program.instructions b, ∀ v ∈ env.addresses i, env.Followable Q v)
    (hrun : env.analyze.run { block := b, entry := E } = .error e s) : Q e := by
  have hstep := orderly_instructions h hfollow { block := b, entry := E } fun _ => id
  rw [analyze, run_bind, run_get] at hrun
  dsimp only at hrun
  rw [run_bind] at hrun
  split at hrun
  · cases hrun
  next hr =>
    cases hrun
    rw [hr] at hstep
    exact hstep

/-- The analysis of a block does not stop for want of a fact if all uses have theirs at hand. -/
theorem analyze_ne_traversalOrder {E : FactMap} {b c : BlockId} {s : BlockState}
    (h : env.UsesAtHand (· ∈ E) (env.program.instructions b)) :
    env.analyze.run { block := b, entry := E } ≠ .error (.traversalOrder v c) s := by
  intro hrun
  exact analyze_eq_error (Q := (· ≠ .traversalOrder v c)) (.inl h) (fun _ _ _ _ _ => nofun) hrun rfl

/-- Why the analysis of a block may stop: for want of a fact, or at an address that leads nowhere. -/
inductive MayStop (env : Env) (b : BlockId) : AnalysisError → Prop
  | traversalOrder (v : ValueId) (c : BlockId) : MayStop env b (.traversalOrder v c)
  | endlessAddress {i v : ValueId} (hi : i ∈ env.program.instructions b) (hv : v ∈ env.addresses i)
    (h : env.program.pointer? v = none) : MayStop env b (.endlessAddress v)

theorem mayStop_of_analyze {E : FactMap} {b : BlockId} {e : AnalysisError} {s : BlockState}
    (hrun : env.analyze.run { block := b, entry := E } = .error e s) : env.MayStop b e := by
  apply analyze_eq_error (.inr fun u c => .traversalOrder u c) _ hrun
  intro i hi v hv hnone
  exact .endlessAddress hi hv hnone

end Env

end InputFlow
