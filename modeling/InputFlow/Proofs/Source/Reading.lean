import InputFlow.Proofs.Source.Mentions
import InputFlow.Source.Parse

namespace InputFlow

namespace Source

namespace Reader

variable {σ : Type} {ms : List Mention} {u : Unlinked}

theorem gives_valueName : Gives ms valueName (· ≠ "") fun name => ms ++ [.value name] :=
  (takes_marked rfl).gives

theorem gives_blockName : Gives ms blockName (· ≠ "") fun name => ms ++ [.block name] :=
  (takes_marked rfl).gives

/-- The globals among the references exist. -/
def Known (u : Unlinked) (refs : List Ref) : Prop :=
  ∀ id, .global id ∈ refs → id ∈ u.globals

theorem Known.nil : Known u [] := nofun

theorem Known.append {xs ys : List Ref} (hx : Known u xs) (hy : Known u ys) : Known u (xs ++ ys) :=
  fun id h => (List.mem_append.1 h).elim (hx id) (hy id)

/-- References as they are mentioned in a text read behind `u`. -/
def refMentions (u : Unlinked) (refs : List Ref) : List Mention :=
  refs.map (Ref.mention u.nameOf)

theorem nameOf_of_global? {name : String} {id : ValueId} (h : u.global? name = some id) :
    u.nameOf id = name := by
  have hname := List.find?_some h
  rw [beq_iff_eq] at hname
  rw [Module.nameOf, hname]
  rfl

theorem gives_operand :
    Gives ms (operand u) (fun r => Known u [r]) fun r => ms ++ refMentions u [r] := by
  refine Gives.peek fun t => ?_
  split
  next ht =>
    subst ht
    refine GivesAt.advance_word rfl fun name => ?_
    split
    next id hid =>
      refine Gives.pure (fun g hg => ?_) ?_
      · obtain rfl : g = id := by simpa using hg
        exact List.mem_of_find?_eq_some hid
      · simp [refMentions, Ref.mention, nameOf_of_global? hid]
    next => exact Gives.stop _
  next =>
    refine Gives.before ?_ t
    refine Gives.bind gives_valueName fun name _ => Gives.pure (fun id h => ?_) rfl
    simp at h

/-- A turn of a loop goes on behind a comma in the line. -/
theorem gives_commaInLine {P : σ → Prop} {w : σ → List Mention} {s : σ} (hs : P s) :
    Gives (w s) (do
      if (← peekInLine) = some (.mark ',') then
        advance
        return Turn.again s
      else return .done s) (fun t => P t.state) fun t => w t.state := by
  have hdone : Gives (w s) (pure (Turn.done s)) (fun t => P t.state) fun t => w t.state :=
    Gives.pure hs rfl
  refine Gives.peekInLine hdone fun t => ?_
  split
  next ht =>
    rw [Option.some.inj ht]
    exact GivesAt.advance rfl (Gives.pure hs rfl)
  next => exact hdone.before t

theorem gives_operandList :
    Gives ms (operandList u) (Known u) fun refs => ms ++ refMentions u refs := by
  refine Gives.loop Known.nil (List.append_nil ms) fun read hread => ?_
  refine Gives.look looks_peekInLine fun token => ?_
  have hnext : Gives (ms ++ refMentions u read) (do
      let read := read ++ [← operand u]
      if (← peekInLine) = some (.mark ',') then
        advance
        return Turn.again read
      else return .done read) (fun t => Known u t.state) fun t => ms ++ refMentions u t.state := by
    refine Gives.bind gives_operand fun r hr => ?_
    have hwritten : ms ++ refMentions u read ++ refMentions u [r] =
        ms ++ refMentions u (read ++ [r]) := by
      simp [refMentions]
    rw [hwritten]
    exact gives_commaInLine (w := fun refs => ms ++ refMentions u refs) (hread.append hr)
  split
  · exact hnext
  · exact hnext
  · exact Gives.pure hread rfl

theorem gives_operandPair : Gives ms (operandPair u) (fun r => Known u [r.1, r.2])
    fun r => ms ++ refMentions u [r.1, r.2] := by
  refine Gives.bind gives_operand fun a ha => Gives.bind (gives_expect rfl) fun _ _ => ?_
  refine Gives.bind gives_operand fun b hb => Gives.pure (ha.append hb) ?_
  simp [refMentions]

theorem gives_targetList :
    Gives ms targetList (fun _ => True) fun names => ms ++ names.map .block := by
  refine Gives.loop trivial (List.append_nil ms) fun read _ => ?_
  refine Gives.bind gives_blockName fun name _ => Gives.bind (gives_accept rfl) fun found _ => ?_
  cases found <;> exact Gives.pure trivial (by simp [Turn.state])

def codeMentions (u : Unlinked) (c : Code Ref String String) : List Mention :=
  c.callees.map .global ++ c.references (Ref.mention u.nameOf) id

theorem gives_code (op : Opcode) :
    Gives ms (code u op) (fun c => Known u c.operands) fun c => ms ++ codeMentions u c := by
  have hpair (make : Ref × Ref → Code Ref String String)
      (hmake : ∀ r, (make r).operands = [r.1, r.2] ∧ (make r).targets = [] ∧
        (make r).literals = [] ∧ (make r).callees = []) :
      Gives ms (do return make (← operandPair u)) (fun c => Known u c.operands)
        fun c => ms ++ codeMentions u c := by
    refine Gives.bind gives_operandPair fun r hr => Gives.pure ((hmake r).1 ▸ hr) ?_
    simp [codeMentions, Code.references, refMentions, hmake]
  cases op with
  | any =>
    refine Gives.bind gives_operandList fun refs h => Gives.pure h ?_
    simp [codeMentions, Code.references, refMentions, Code.callees, Code.operands, Code.targets,
      Code.literals]
  | add => exact hpair (fun r => .binary .add r.1 r.2) fun _ => ⟨rfl, rfl, rfl, rfl⟩
  | sub => exact hpair (fun r => .binary .sub r.1 r.2) fun _ => ⟨rfl, rfl, rfl, rfl⟩
  | mul => exact hpair (fun r => .binary .mul r.1 r.2) fun _ => ⟨rfl, rfl, rfl, rfl⟩
  | cmp => exact hpair (fun r => .binary .cmp r.1 r.2) fun _ => ⟨rfl, rfl, rfl, rfl⟩
  | store => exact hpair (fun r => .store r.1 r.2) fun _ => ⟨rfl, rfl, rfl, rfl⟩
  | const => exact Gives.bind gives_number fun n _ => Gives.pure Known.nil rfl
  | alloca =>
    refine Gives.bind gives_number fun size _ => Gives.bind (gives_expect rfl) fun _ _ => ?_
    refine Gives.bind gives_number fun align _ => Gives.pure Known.nil ?_
    simp [codeMentions, Code.references, Code.callees, Code.operands, Code.targets, Code.literals]
  | load => exact Gives.bind gives_operand fun r h => Gives.pure h rfl
  | gep =>
    refine Gives.bind gives_operandList fun refs h => ?_
    cases refs with
    | nil => exact Gives.stop _
    | cons base indices =>
      refine Gives.pure h ?_
      simp [codeMentions, Code.references, refMentions, Code.callees, Code.operands, Code.targets,
        Code.literals]
  | call =>
    refine Gives.peekInLine ?_ fun t => ?_
    · exact Gives.stop _
    split
    next ht =>
      rw [Option.some.inj ht]
      refine GivesAt.advance_word rfl fun callee => ?_
      have hbare : Gives (ms ++ [.global callee]) (pure (.call callee []))
          (fun c : Code Ref String String => Known u c.operands) fun c => ms ++ codeMentions u c :=
        Gives.pure Known.nil rfl
      refine Gives.peekInLine hbare fun t => ?_
      split
      next ht =>
        rw [Option.some.inj ht]
        refine GivesAt.advance rfl (Gives.bind gives_operandList fun refs h => Gives.pure h ?_)
        simp [codeMentions, Code.references, refMentions, Code.callees, Code.operands, Code.targets,
          Code.literals]
      next => exact hbare.before t
    next => exact (Gives.stop _).before t
  | terminate =>
    refine Gives.pure Known.nil ?_
    simp [codeMentions, Code.references, Code.callees, Code.operands, Code.targets, Code.literals]
  | ret =>
    refine Gives.look looks_peekInLine fun token => ?_
    cases token with
    | none =>
      refine Gives.pure Known.nil ?_
      simp [codeMentions, Code.references, Code.callees, Code.operands, Code.targets, Code.literals]
    | some _ => exact Gives.bind gives_operand fun r h => Gives.pure h rfl
  | br => exact Gives.bind gives_blockName fun name _ => Gives.pure Known.nil rfl
  | condbr =>
    refine Gives.bind gives_operand fun r h => Gives.bind (gives_expect rfl) fun _ _ => ?_
    refine Gives.bind gives_blockName fun yes _ => Gives.bind (gives_expect rfl) fun _ _ => ?_
    refine Gives.bind gives_blockName fun no _ => Gives.pure h ?_
    simp [codeMentions, Code.references, refMentions, Code.callees, Code.operands, Code.targets,
      Code.literals]
  | tbz =>
    refine Gives.bind gives_operand fun r h => Gives.bind (gives_expect rfl) fun _ _ => ?_
    refine Gives.bind gives_blockName fun zero _ => Gives.bind (gives_expect rfl) fun _ _ => ?_
    refine Gives.bind gives_blockName fun nonzero _ => Gives.bind (gives_expect rfl) fun _ _ => ?_
    refine Gives.bind gives_number fun bit _ => Gives.pure h ?_
    simp [codeMentions, Code.references, refMentions, Code.callees, Code.operands, Code.targets,
      Code.literals]
  | jump =>
    refine Gives.bind gives_targetList fun names _ => Gives.pure Known.nil ?_
    simp [codeMentions, Code.references, Code.callees, Code.operands, Code.targets, Code.literals]

theorem gives_mnemonic : Gives ms mnemonic (fun _ => True) fun _ => ms := by
  refine Gives.bind gives_word fun text _ => ?_
  split
  · exact Gives.pure trivial rfl
  · exact Gives.stop _

theorem gives_resultAndOpcode : Gives ms resultAndOpcode (fun _ => True)
    fun r => ms ++ resultMentions (r.1.getD "") := by
  refine Gives.look looks_peek fun token => ?_
  split
  · refine Gives.bind gives_valueName fun name hname => Gives.bind (gives_expect rfl) fun _ _ => ?_
    have hresult (op : Opcode) : Gives (ms ++ [.value name]) (pure (some name, op))
        (fun _ => True) fun r => ms ++ resultMentions (r.1.getD "") :=
      Gives.pure trivial (by simp [resultMentions, hname])
    refine Gives.look looks_peekInLine fun token => ?_
    split
    · exact hresult .any
    · exact hresult .any
    · exact hresult .any
    · exact Gives.bind gives_mnemonic fun op _ => hresult op
  · exact Gives.bind gives_mnemonic fun op _ => Gives.pure trivial (List.append_nil ms)

def valueMentions (u : Unlinked) (w : DraftValue) : List Mention :=
  w.mentions (Ref.mention u.nameOf) id id

theorem gives_instruction (defined : List String) :
    Gives ms (instruction u defined) (fun w => DraftValue.Known u.globals w ∧
      w.definition.isPhi = false ∧ (w.name ∈ defined → w.name = ""))
      fun w => ms ++ valueMentions u w := by
  refine Gives.bind gives_resultAndOpcode fun ⟨name?, op⟩ _ => ?_
  have hcode {name : String} (hfresh : name ∈ defined → name = "") :
      Gives (ms ++ resultMentions name) (do return ⟨name, .inst (← code u op)⟩ : Reader DraftValue)
        (fun w => DraftValue.Known u.globals w ∧ w.definition.isPhi = false ∧
          (w.name ∈ defined → w.name = "")) fun w => ms ++ valueMentions u w := by
    refine Gives.bind (gives_code op) fun c h => Gives.pure ⟨⟨by simp, by simp, h⟩, rfl, hfresh⟩ ?_
    simp [valueMentions, Value.mentions, codeMentions]
  cases name? with
  | some name =>
    dsimp only
    split
    · exact Gives.stop _
    · split
      · exact Gives.stop _
      next hfresh => exact hcode fun h => absurd h hfresh
  | none =>
    dsimp only
    split
    · exact Gives.stop _
    · exact hcode fun _ => rfl

def incomingMentions (u : Unlinked) (incoming : List (Ref × String)) : List Mention :=
  incoming.flatMap fun i => [.block i.2, i.1.mention u.nameOf]

theorem gives_incomingPair : Gives ms (incomingPair u) (fun r => Known u [r.1])
    fun r => ms ++ incomingMentions u [r] := by
  refine Gives.bind (gives_expect rfl) fun _ _ => Gives.bind gives_blockName fun block _ => ?_
  refine Gives.bind (gives_expect rfl) fun _ _ => Gives.bind gives_operand fun value h => ?_
  refine Gives.bind (gives_expect rfl) fun _ _ => Gives.pure h ?_
  simp [incomingMentions, refMentions]

theorem gives_phi : Gives ms (phi u) (fun w => DraftValue.Known u.globals w ∧ w.definition.isPhi)
    fun w => ms ++ valueMentions u w := by
  refine Gives.bind gives_valueName fun name hname => Gives.bind (gives_expect rfl) fun _ _ => ?_
  refine Gives.bind gives_word fun _ _ => ?_
  refine Gives.bind (P := fun incoming => Known u (incoming.map Prod.fst))
    (w := fun incoming => ms ++ [.value name] ++ incomingMentions u incoming) ?_ fun incoming h =>
      Gives.pure ⟨⟨by simp, by simp, h⟩, rfl⟩ ?_
  · refine Gives.loop Known.nil (List.append_nil _) fun read hread => ?_
    refine Gives.bind gives_incomingPair fun r hr => ?_
    have hread' : Known u ((read ++ [r]).map (·.1)) := by
      rw [List.map_append]
      exact hread.append hr
    have hwritten : ms ++ [.value name] ++ incomingMentions u read ++ incomingMentions u [r] =
        ms ++ [.value name] ++ incomingMentions u (read ++ [r]) := by
      simp [incomingMentions]
    rw [hwritten]
    exact gives_commaInLine (P := fun incoming => Known u (incoming.map Prod.fst))
      (w := fun incoming => ms ++ [.value name] ++ incomingMentions u incoming) hread'
  · simp [valueMentions, Value.mentions, resultMentions, hname, incomingMentions]

theorem gives_blockBody (defined : List String) (name : String) :
    Gives ms (blockBody u defined name) (DraftBlock.Readable u.globals defined)
      fun b => ms ++ b.values.flatMap (valueMentions u) := by
  refine Gives.loop (DraftBlock.Readable.empty name) (List.append_nil ms) fun b hb => ?_
  refine Gives.look looks_peek fun _ => Gives.look looks_get fun c => ?_
  dsimp only
  split
  · exact Gives.pure hb rfl
  · split
    · split
      · exact Gives.stop _
      next hlen =>
        refine Gives.bind gives_phi fun w ⟨hknown, hphi⟩ =>
          Gives.pure (hb.concat_phi hlen hknown hphi) ?_
        simp [Turn.state]
    · refine Gives.bind (gives_instruction _) fun w ⟨hknown, hphi, hfresh⟩ =>
        Gives.pure (hb.concat_instruction hknown hphi hfresh) ?_
      simp [Turn.state]

theorem gives_block (f : DraftFunction) :
    Gives ms (block u f) (DraftBlock.Readable u.globals f.valueNames)
      fun b => ms ++ b.values.flatMap (valueMentions u) := by
  refine Gives.bind gives_word fun name _ => Gives.bind (gives_expect rfl) fun _ _ => ?_
  split
  · exact Gives.stop _
  · exact gives_blockBody _ _

theorem gives_params : Gives ms params (∀ name ∈ ·, name ≠ "") fun names => ms ++ names.map .value := by
  refine Gives.loop (List.forall_mem_nil _) (List.append_nil ms) fun read hread => ?_
  refine Gives.bind (gives_accept rfl) fun closed _ => ?_
  cases closed with
  | true => exact Gives.pure hread rfl
  | false =>
    refine Gives.bind gives_valueName fun name hname => Gives.bind (gives_accept rfl) fun comma _ => ?_
    have hagain : Gives (ms ++ read.map .value ++ [.value name]) (pure (Turn.again (read ++ [name])))
        (fun t => ∀ name ∈ t.state, name ≠ "") fun t => ms ++ t.state.map .value := by
      refine Gives.pure ?_ (by simp [Turn.state])
      exact List.forall_mem_append.2 ⟨hread, by simpa using hname⟩
    cases comma with
    | true => exact hagain
    | false =>
      refine Gives.look looks_peek fun token => ?_
      split
      · exact hagain
      · exact Gives.stop_bind _

theorem mentions_params {f : DraftFunction} (hblocks : f.blocks = [])
    (hparams : ∀ name ∈ f.params, name ≠ "") : f.mentions u.nameOf = f.params.map .value := by
  have hvalues : f.values = f.params.map (⟨·, .param⟩) := by
    rw [DraftFunction.values, DraftFunction.body, hblocks, List.flatMap_nil, List.append_nil]
  rw [DraftFunction.mentions, hvalues, List.flatMap_map, List.map_eq_flatMap]
  refine List.flatMap_congr fun name hname => ?_
  rw [Value.mentions, resultMentions, if_neg (hparams name hname)]

theorem gives_blocks {f : DraftFunction} (hparams : ∀ name ∈ f.params, name ≠ "") :
    Gives (ms ++ f.params.map .value) (blocks u f) (fun f => f.Readable u.globals)
      fun f => ms ++ f.mentions u.nameOf := by
  refine Gives.loop (DraftFunction.readable_of_blocks_eq_nil rfl) ?_ fun f hf => ?_
  · exact congrArg (ms ++ ·) (mentions_params rfl hparams)
  refine Gives.bind (gives_accept rfl) fun closed _ => ?_
  cases closed with
  | true => exact Gives.pure hf rfl
  | false =>
    refine Gives.look looks_peek fun token => ?_
    split
    · exact Gives.stop _
    · refine Gives.bind (gives_block f) fun b hb => Gives.pure (hf.concat_block hb) ?_
      rw [Turn.state, DraftFunction.mentions, DraftFunction.values_concat_block, List.flatMap_append,
        ← List.append_assoc]
      rfl

theorem gives_addFunction (hu : u.Built) (f : DraftFunction) (hf : f.Readable u.globals) :
    Gives (u.mentions id ++ f.mentions u.nameOf) (match u.addFunction f with
      | .ok u => return u
      | .error error => stop error) Unlinked.Built fun u => u.mentions id := by
  cases h : u.addFunction f with
  | ok u' =>
    obtain ⟨body, hbody, rfl⟩ := Unlinked.exists_of_addFunction h
    exact Gives.pure (.function hu hf hbody) (Unlinked.mentions_withFunction hu hf hbody)
  | error => exact Gives.stop _

theorem takes_function (hu : u.Built) :
    Takes (u.mentions id) (function u) Unlinked.Built fun u => u.mentions id := by
  have hadd := gives_addFunction hu
  refine Takes.bind takes_word fun name _ => ?_
  dsimp only
  split
  · exact Gives.stop_bind _
  · refine Gives.bind (gives_expect rfl) fun _ _ => Gives.bind gives_params fun names hnames => ?_
    refine Gives.bind (gives_accept rfl) fun declared _ => ?_
    cases declared with
    | true =>
      refine Gives.bind (Gives.pure (DraftFunction.readable_of_blocks_eq_nil rfl) ?_) hadd
      rw [mentions_params rfl hnames]
    | false =>
      exact Gives.bind (gives_expect rfl) fun _ _ => Gives.bind (gives_blocks hnames) hadd

theorem takes_global (hu : u.Built) :
    Takes (u.mentions id) (global u) Unlinked.Built fun u => u.mentions id := by
  rw [global, ← bind_assoc]
  refine Takes.bind (takes_marked rfl) fun name _ => Gives.bind (gives_expect rfl) fun _ _ => ?_
  refine Gives.bind gives_word fun keyword _ => ?_
  split
  · exact Gives.stop _
  · split
    · exact Gives.stop _
    · exact Gives.pure (.global hu name) (Unlinked.mentions_addGlobal hu name)

/-- A global or a function behind those of `u`, or the end of the text. -/
theorem run_item (hu : u.Built) {c c' : Cursor} {t : Turn Unlinked} (hc : c.Proper)
    (hrun : (do
      match ← peek with
      | .finish => return .done u
      | .mark '@' => return .again (← global u)
      | _ => return .again (← function u) : Reader (Turn Unlinked)).run c = .ok (t, c')) :
    t.state.Built ∧ c.Passes (u.mentions id) c' (t.state.mentions id) ∧ t.Ended c.rest.length c' := by
  obtain ⟨token, c₁, hpeek, hrun⟩ := exists_of_run_bind hrun
  obtain ⟨hrest, htoken⟩ := run_peek hpeek
  have hlook : c.Passes (u.mentions id) c₁ (u.mentions id) := .of_rest_eq hrest
  rw [← hrest]
  split at hrun
  · obtain ⟨rfl, rfl⟩ : Turn.done u = t ∧ c₁ = c' := by simpa [pure_eq_ok] using hrun
    exact ⟨hu, hlook, htoken⟩
  · obtain ⟨hu', hpass, hended⟩ := (takes_global hu).again (hlook.proper hc) hrun
    exact ⟨hu', hlook.trans hpass, hended⟩
  · obtain ⟨hu', hpass, hended⟩ := (takes_function hu).again (hlook.proper hc) hrun
    exact ⟨hu', hlook.trans hpass, hended⟩

/-- A text is read to its end, with all that it mentions. -/
theorem run_unlinked {c c' : Cursor} (hc : c.Proper) (hrun : unlinked.run c = .ok (u, c')) :
    u.Built ∧ u.mentions id = mentions c.tokens := by
  obtain ⟨hu, hpass, hend⟩ := run_turns_to_end (P := Unlinked.Built) (w := fun u => u.mentions id)
    (fun u hu c t c' => run_item hu) .empty hc (Nat.lt_succ_self _) hrun
  have hmentions := hpass.mentions
  rw [mentions_of_finish hend, List.append_nil] at hmentions
  exact ⟨hu, hmentions.symm⟩

end Reader

theorem exists_built_of_parse {text : List Char} {p : Program} (h : parse text = .ok p) :
    ∃ u : Unlinked, u.Built ∧ u.link = .ok p ∧ u.mentions id = textMentions text := by
  rw [parse] at h
  cases hread : Reader.unlinked.run ⟨0, lexemes text⟩ with
  | error failure => simp [hread] at h
  | ok r =>
    obtain ⟨u, c⟩ := r
    cases hlink : u.link with
    | error error => simp [hread, hlink] at h
    | ok q =>
      obtain rfl : q = p := by simpa [hread, hlink] using h
      have hproper : Cursor.Proper ⟨0, lexemes text⟩ := proper_scan (m := .gap none) trivial 0 text
      obtain ⟨hu, hmentions⟩ := Reader.run_unlinked hproper hread
      exact ⟨u, hu, hlink, hmentions⟩

/-- A program refers by name and number to just what its text does, in the same order. -/
theorem spelling_of_parse {text : List Char} {p : Program} (h : parse text = .ok p) :
    p.spelling = textMentions text := by
  obtain ⟨u, -, hlink, hmentions⟩ := exists_built_of_parse h
  rw [Unlinked.spelling_link hlink, hmentions]

theorem wellFormed_of_parse {text : List Char} {p : Program} (h : parse text = .ok p) :
    Module.WellFormed p := by
  obtain ⟨u, hu, hlink, -⟩ := exists_built_of_parse h
  exact Unlinked.wellFormed_link hu.wellFormed hlink

/-- The program of a text that can be read. -/
@[irreducible] def readProgram (text : String) : Program :=
  match parse text.toList with
  | .ok p => p
  | .error _ => {}

theorem parse_eq_readProgram (text : String) (h : (parse text.toList).toOption.isSome) :
    parse text.toList = .ok (readProgram text) := by
  rw [readProgram]
  cases hparse : parse text.toList with
  | ok p => rfl
  | error failure => simp [hparse, Except.toOption] at h

end Source

theorem eq_ok_of_toOption {ε α : Type} {x : Except ε α} {a : α} (h : x.toOption = some a) :
    x = .ok a := by
  cases x with
  | error e => cases h
  | ok b => exact congrArg Except.ok (Option.some.inj h)

end InputFlow
