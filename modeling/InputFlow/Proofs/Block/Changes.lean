import InputFlow.Proofs.Block.Transfer
import Mathlib.Logic.Relation

namespace InputFlow

def Transfer.stateAfter {α : Type} (x : Transfer α) (s : BlockState) : BlockState :=
  match x.run s with
  | .ok _ t => t
  | .error _ t => t

theorem Transfer.stateAfter_bind {α β : Type} (x : Transfer α) (f : α → Transfer β) (s : BlockState) :
    Transfer.stateAfter (x >>= f) s = match x.run s with
      | .ok a t => (f a).stateAfter t
      | .error _ t => t := by
  rw [stateAfter, run_bind]
  cases x.run s <;> rfl

/-- One change to a block while the instruction `user` is analysed. -/
inductive Change (env : Env) (user : ValueId) (s : BlockState) : BlockState → Prop
  | warn (warnings : List Warning) : Change env user s (s.warn warnings)
  | read (keys : List ValueId) : Change env user s (s.record keys (.inst user))
  | overwrite {slot : ValueId} (h : env.program.isStorage slot) (fact : Dep) (keys : List ValueId) :
    Change env user s (s.overwrite slot fact keys)
  | blend {slot : ValueId} (h : env.program.isStorage slot) (fact : Dep) (keys : List ValueId) :
    Change env user s (s.blend slot fact keys)
  | writeOut (param : ValueId) (fact : Dep) (keys : List ValueId) :
    Change env user s (s.writeOut param fact keys)
  | passArg (arg : CallArg) (fact : Dep) (keys : List ValueId) :
    Change env user s (s.passArg arg fact keys)
  | passReturn (fact : Dep) (keys : List ValueId) : Change env user s (s.passReturn fact keys)

/-- A step leaves a block as such changes make it. -/
def Changes {α : Type} (env : Env) (user : ValueId) (x : Transfer α) : Prop :=
  ∀ s, Relation.ReflTransGen (Change env user) s (x.stateAfter s)

namespace Changes

variable {α β : Type} {env : Env} {user : ValueId} {x : Transfer α} {f : α → Transfer β}

theorem pure (a : α) : Changes env user (Pure.pure a : Transfer α) :=
  fun _ => .refl

theorem fail (e : AnalysisError) : Changes env user (throw e : Transfer α) :=
  fun _ => .refl

theorem modify {g : BlockState → BlockState}
    (h : ∀ s, Relation.ReflTransGen (Change env user) s (g s)) : Changes env user (modify g) :=
  h

theorem bind (hx : Changes env user x) (hf : ∀ a, Changes env user (f a)) :
    Changes env user (x >>= f) := by
  intro s
  have hfirst := hx s
  rw [Transfer.stateAfter] at hfirst
  rw [Transfer.stateAfter_bind]
  cases hrun : x.run s with
  | ok a t =>
    rw [hrun] at hfirst
    exact hfirst.trans (hf a t)
  | error e t =>
    rw [hrun] at hfirst
    exact hfirst

theorem get {f : BlockState → Transfer β} (hf : ∀ s, Changes env user (f s)) :
    Changes env user (MonadStateOf.get >>= f) :=
  fun s => hf s s

theorem foldlM {γ : Type} {g : β → γ → Transfer β} (h : ∀ b c, Changes env user (g b c))
    (l : List γ) (b : β) : Changes env user (l.foldlM g b) := by
  induction l generalizing b with
  | nil => exact pure b
  | cons c l ih =>
    rw [List.foldlM_cons]
    exact (h b c).bind ih

theorem forM {γ : Type} {g : γ → Transfer PUnit} (h : ∀ c, Changes env user (g c)) (l : List γ) :
    Changes env user (l.forM g) := by
  induction l with
  | nil => exact pure ()
  | cons c l ih => exact (h c).bind fun _ => ih

end Changes

namespace Env

variable {env : Env}

theorem changes_param (user v : ValueId) : Changes env user (env.param v) := by
  rw [param]
  split
  · exact .pure _
  · exact .bind (.modify fun s => .single (.warn _)) fun _ => .pure _

theorem changes_operand (user v : ValueId) : Changes env user (env.operand user v) := by
  rw [operand]
  split
  · exact .pure _
  · exact .pure _
  · exact changes_param user v
  · split
    · exact .pure _
    · apply Changes.get
      intro s
      split
      · exact .bind (.modify fun s => .single (.read [v])) fun _ => .pure _
      · exact .get fun _ => .fail _

theorem changes_joinOperands (user : ValueId) (fact : Dep) (vs : List ValueId) :
    Changes env user (env.joinOperands user fact vs) :=
  .foldlM (fun _ v => (changes_operand user v).bind fun _ => .pure _) vs fact

theorem changes_phi (user : ValueId) (vs : List ValueId) : Changes env user (env.phi user vs) := by
  apply Changes.foldlM
  intro _ v
  apply Changes.bind _ fun _ => .pure _
  rw [incomingFact]
  split
  · exact .pure _
  · exact .pure _
  · exact changes_param user v
  · split
    · exact .pure _
    · exact .bind (.modify fun s => .single (.read [v])) fun _ => .get fun _ => .pure _

theorem changes_pointer {α : Type} {user v : ValueId} {f : Pointer → Transfer α}
    (hf : ∀ P, env.program.pointer? v = some P → Changes env user (f P)) :
    Changes env user (env.pointer v >>= f) := by
  rw [pointer]
  cases hP : env.program.pointer? v with
  | none => exact fun _ => .refl
  | some P => exact hf P hP

theorem changes_readSlot (user slot : ValueId) : Changes env user (readSlot user slot) := by
  apply Changes.get
  intro _
  apply Changes.bind (.modify fun s => ?_) fun _ => .pure _
  rw [BlockState.noteRead]
  split
  · exact .single (.read _)
  · exact .single (.read _)

theorem changes_blendAliasing (hslots : env.SlotsAreStorage) (user v : ValueId) (fact : Dep)
    (keys : List ValueId) : Changes env user (env.blendAliasing v fact keys) := by
  intro s
  have hfold (slots : List ValueId) (hslots : ∀ slot ∈ slots, env.program.isStorage slot)
      (s : BlockState) : Relation.ReflTransGen (Change env user) s (s.blendAll slots fact keys) := by
    induction slots generalizing s with
    | nil => exact .refl
    | cons slot slots ih =>
      have hfirst : Change env user s (s.blend slot fact keys) :=
        .blend (hslots slot List.mem_cons_self) fact keys
      exact .head hfirst (ih (fun slot h => hslots slot (.tail _ h)) _)
  exact .head (.warn _) (hfold _ (fun _ => isStorage_of_mem_aliases hslots) _)

theorem changes_load (user v : ValueId) : Changes env user (env.load user v) := by
  have haliasing (root : ValueId) : Changes env user (do
      let fact := (Fact.on root).join (← env.operand user v)
      (← env.aliasingSlots v).foldlM (fun fact slot => return fact.join (← readSlot user slot)) fact) :=
    (changes_operand user v).bind fun _ => .bind (.bind (.modify fun s => .single (.warn _))
      fun _ => .pure _) fun slots =>
        .foldlM (fun _ slot => (changes_readSlot user slot).bind fun _ => .pure _) slots _
  apply changes_pointer
  intro P _
  cases P with
  | slot slot whole =>
    apply (changes_readSlot user slot).bind
    intro fact
    split
    · exact .pure _
    · exact (changes_operand user v).bind fun _ => .pure _
  | param root => exact haliasing root
  | untraced root => exact haliasing root

theorem changes_store (hslots : env.SlotsAreStorage) (user value v : ValueId) :
    Changes env user (env.store user value v) := by
  apply (changes_operand user value).bind
  intro fact
  apply changes_pointer
  intro P hP
  have hblend : Changes env user (do env.blendAliasing v fact (env.keys value); return fact) :=
    (changes_blendAliasing hslots user v fact _).bind fun _ => .pure _
  cases P with
  | slot slot whole =>
    have hslot := Program.isStorage_of_pointer? hP
    cases whole with
    | true => exact .bind (.modify fun s => .single (.overwrite hslot _ _)) fun _ => .pure _
    | false =>
      exact (changes_operand user v).bind fun _ =>
        .bind (.modify fun s => .single (.blend hslot _ _)) fun _ => .pure _
  | param root => exact .bind (.modify fun s => .single (.writeOut root _ _)) fun _ => hblend
  | untraced root => exact hblend

theorem changes_joinArgs (user : ValueId) (callee : Option FuncId) (position : Nat) (fact : Dep)
    (args : List ValueId) : Changes env user (env.joinArgs user callee position fact args) := by
  induction args generalizing position fact with
  | nil => exact .pure _
  | cons v rest ih =>
    rw [joinArgs]
    apply (changes_operand user v).bind
    intro passed
    cases callee with
    | none => exact ih _ _
    | some f =>
      apply Changes.bind _ fun _ => ih _ _
      rw [passArg]
      split
      · exact .pure _
      · exact .modify fun s => .single (.passArg _ _ _)

theorem changes_fill (hslots : env.SlotsAreStorage) (user : ValueId) (input : Dep) (v : ValueId) :
    Changes env user (env.fill input v) := by
  apply changes_pointer
  intro P hP
  have hblend := changes_blendAliasing hslots user v input []
  cases P with
  | slot slot whole =>
    exact .modify fun s => .single (.blend (Program.isStorage_of_pointer? hP) _ _)
  | param root => exact .bind (.modify fun s => .single (.writeOut root _ _)) fun _ => hblend
  | untraced root => exact hblend

theorem changes_call (hslots : env.SlotsAreStorage) (user : ValueId) (callee : Option FuncId)
    (args : List ValueId) : Changes env user (env.call user callee args) := by
  apply (changes_joinArgs user callee 0 .independent args).bind
  intro fact
  split
  · exact (Changes.forM (changes_fill hslots user _) args).bind fun _ => .pure _
  · exact .pure _

theorem changes_ret (user : ValueId) (value : Option ValueId) :
    Changes env user (env.ret user value) := by
  cases value with
  | none => exact .pure _
  | some v =>
    exact (changes_operand user v).bind fun _ =>
      .bind (.modify fun s => .single (.passReturn _ _)) fun _ => .pure _

theorem changes_instruction (hslots : env.SlotsAreStorage) (i : ValueId) :
    Changes env i (env.instruction i) := by
  rw [instruction]
  split
  · exact changes_phi i _
  · exact changes_load i _
  · exact changes_store hslots i _ _
  · exact changes_call hslots i _ _
  · exact changes_ret i _
  · exact changes_operand i _
  · exact changes_operand i _
  · exact changes_joinOperands i _ _
  · exact .pure _

/-- A stack allocation uses nothing. -/
theorem instruction_of_isAlloca {i : ValueId} (h : env.program.isAlloca i) :
    env.instruction i = pure .independent := by
  rw [Program.isAlloca] at h
  split at h
  next hd => simp [instruction, hd, Definition.operands, Code.operands, joinOperands]
  next => simp at h

end Env

end InputFlow
