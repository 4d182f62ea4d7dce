import InputFlow.Proofs.Source.Sights
import InputFlow.Source.Parse

namespace InputFlow.Source

namespace Cursor

/-- The same tokens and line ends lie before the two cursors. -/
def Alike (c d : Cursor) : Prop :=
  c.rest.map Lexeme.sight = d.rest.map Lexeme.sight

/-- The cursors are alike but for a line end before the next token. -/
def NearlyAlike (c d : Cursor) : Prop :=
  opened (c.rest.map Lexeme.sight) = opened (d.rest.map Lexeme.sight)

variable {c d : Cursor}

theorem Alike.nearly (h : c.Alike d) : c.NearlyAlike d :=
  congrArg opened h

theorem Alike.sight_next (h : c.Alike d) : c.next.sight = d.next.sight := by
  rw [Alike] at h
  rw [next, next]
  cases hc : c.rest with
  | nil =>
    obtain hd : d.rest = [] := by simpa [hc] using h.symm
    rw [hd]
    rfl
  | cons l rest =>
    obtain ⟨l', rest', hd, hl, -⟩ := List.map_eq_cons_iff.1 (h.symm.trans (by rw [hc]; rfl))
    rw [hd]
    exact hl.symm

theorem NearlyAlike.token_next (h : c.NearlyAlike d) : c.next.token = d.next.token := by
  have hhead := congrArg List.head? h
  rw [next, next]
  cases hc : c.rest <;> cases hd : d.rest <;> simp_all [Lexeme.sight, opened]

theorem NearlyAlike.advance (h : c.NearlyAlike d) {i j : Nat} :
    Alike ⟨i, c.rest.tail⟩ ⟨j, d.rest.tail⟩ := by
  have htail := congrArg List.tail h
  rw [Alike]
  cases hc : c.rest <;> cases hd : d.rest <;> simp_all [opened]

theorem Alike.token_next (h : c.Alike d) : c.next.token = d.next.token :=
  h.nearly.token_next

theorem NearlyAlike.length_rest (h : c.NearlyAlike d) : c.rest.length = d.rest.length := by
  simpa [opened] using congrArg List.length h

theorem Alike.ahead (h : c.Alike d) (n : Nat) : c.ahead n = d.ahead n := by
  have htokens := congrArg (fun sights => (sights.map Prod.fst).take n) h
  simpa [Cursor.ahead, Lexeme.sight, Function.comp_def] using htokens

end Cursor

namespace Reader

variable {α β σ : Type} {P Q R : Cursor → Cursor → Prop} {x : Reader α} {f : α → Reader β}

/-- Two readings end with the same result and cursors in `Q`, or fail for the same reason. -/
def SameOutcome (Q : Cursor → Cursor → Prop) :
    Except Failure (α × Cursor) → Except Failure (α × Cursor) → Prop
  | .ok r, .ok s => r.1 = s.1 ∧ Q r.2 s.2
  | .error e, .error e' => e.error = e'.error
  | _, _ => False

/-- Reading ends in the same way from any two cursors in `P`. -/
def Agrees (P : Cursor → Cursor → Prop) (x : Reader α) (Q : Cursor → Cursor → Prop) : Prop :=
  ∀ c d, P c d → SameOutcome Q (x.run c) (x.run d)

def Blind (x : Reader α) : Prop :=
  Agrees Cursor.Alike x Cursor.Alike

theorem Agrees.pure (a : α) : Agrees P (pure a : Reader α) P :=
  fun _ _ h => ⟨rfl, h⟩

theorem Agrees.stop (error : ParseError) : Agrees P (stop error : Reader α) Q :=
  fun _ _ _ => rfl

theorem Agrees.bind (hx : Agrees P x Q) (hf : ∀ a, Agrees Q (f a) R) : Agrees P (x >>= f) R := by
  intro c d h
  have hsame := hx c d h
  rw [StateT.run_bind, StateT.run_bind]
  cases hc : x.run c with
  | error e =>
    cases hd : x.run d with
    | error e' => rwa [hc, hd] at hsame
    | ok s => simp [hc, hd, SameOutcome] at hsame
  | ok r =>
    cases hd : x.run d with
    | error e' => simp [hc, hd, SameOutcome] at hsame
    | ok s =>
      rw [hc, hd] at hsame
      obtain ⟨a, c'⟩ := r
      obtain ⟨b, d'⟩ := s
      obtain ⟨rfl, hnext⟩ : a = b ∧ Q c' d' := hsame
      exact hf a c' d' hnext

theorem Agrees.mono {P' Q' : Cursor → Cursor → Prop} (h : Agrees P x Q)
    (hP : ∀ c d, P' c d → P c d) (hQ : ∀ c d, Q c d → Q' c d) : Agrees P' x Q' := by
  intro c d hcd
  have hsame := h c d (hP c d hcd)
  cases hc : x.run c <;> cases hd : x.run d <;> rw [hc, hd] at hsame
  · exact hsame
  · exact hsame
  · exact hsame
  · exact ⟨hsame.1, hQ _ _ hsame.2⟩

/-- A reader may look at its cursor for what the two cursors have in common. -/
theorem Agrees.get {k : Cursor → Reader β} (hk : ∀ c d, P c d → k c = k d)
    (hagrees : ∀ c, Agrees P (k c) Q) : Agrees P (get >>= k) Q := by
  intro c d h
  have hsame := hagrees c c d h
  rw [StateT.run_bind, StateT.run_bind, StateT.run_get, StateT.run_get]
  change SameOutcome Q ((k c).run c) ((k d).run d)
  rwa [← hk c d h]

theorem Agrees.turns {step : σ → Reader (Turn σ)} (hstep : ∀ s, Agrees P (step s) P) (fuel : Nat)
    (s : σ) : Agrees P (turns step fuel s) P := by
  induction fuel generalizing s with
  | zero => exact .pure s
  | succ fuel ih =>
    refine (hstep s).bind ?_
    intro turn
    cases turn with
    | again s => exact ih s
    | done s => exact .pure s

/-- A loop agrees if its turns do: as many lexemes bound it on both sides. -/
theorem Agrees.loop {step : σ → Reader (Turn σ)} (hP : ∀ c d, P c d → c.NearlyAlike d)
    (hstep : ∀ s, Agrees P (step s) P) (s : σ) : Agrees P (loop step s) P := by
  apply Agrees.get
  · intro c d h
    rw [(hP c d h).length_rest]
  · intro c
    exact turns hstep _ s

namespace Blind

theorem of_agrees (h : Agrees Cursor.NearlyAlike x Cursor.Alike) : Blind x :=
  h.mono (fun _ _ hcd => hcd.nearly) fun _ _ hcd => hcd

theorem pure (a : α) : Blind (pure a : Reader α) :=
  Agrees.pure a

theorem stop (error : ParseError) : Blind (stop error : Reader α) :=
  Agrees.stop error

theorem bind (hx : Blind x) (hf : ∀ a, Blind (f a)) : Blind (x >>= f) :=
  Agrees.bind hx hf

theorem loop {step : σ → Reader (Turn σ)} (hstep : ∀ s, Blind (step s)) (s : σ) :
    Blind (loop step s) :=
  Agrees.loop (fun _ _ h => h.nearly) hstep s

end Blind

theorem agrees_peek : Agrees Cursor.NearlyAlike peek Cursor.NearlyAlike :=
  fun _ _ h => ⟨h.token_next, h⟩

theorem agrees_advance : Agrees Cursor.NearlyAlike advance Cursor.Alike :=
  fun _ _ h => ⟨rfl, h.advance⟩

theorem agrees_word : Agrees Cursor.NearlyAlike word Cursor.Alike := by
  refine agrees_peek.bind ?_
  intro token
  cases token with
  | word text => exact agrees_advance.bind fun _ => .pure text
  | numeral digits | mark c | finish => exact .stop _

theorem agrees_expect (mark : Char) : Agrees Cursor.NearlyAlike (expect mark) Cursor.Alike := by
  rw [expect, accept, bind_assoc]
  refine agrees_peek.bind ?_
  intro token
  split
  · rw [bind_assoc]
    exact agrees_advance.bind fun _ => .pure ()
  · rw [pure_bind, if_neg Bool.false_ne_true]
    exact agrees_peek.bind fun _ => .stop _

theorem blind_peek : Blind peek :=
  fun _ _ h => ⟨h.token_next, h⟩

theorem blind_advance : Blind advance :=
  .of_agrees agrees_advance

theorem blind_word : Blind word :=
  .of_agrees agrees_word

theorem blind_expect (mark : Char) : Blind (expect mark) :=
  .of_agrees (agrees_expect mark)

/-- Peeking in a line answers by what is seen of the next lexeme. -/
theorem exists_run_peekInLine (c : Cursor) : ∃ position, peekInLine.run c =
    .ok (if c.next.sight.2 then none else some c.next.sight.1, { c with position }) := by
  simp only [peekInLine, StateT.run]
  split
  next feed hfeed => exact ⟨feed, by simp [Lexeme.sight, hfeed]⟩
  next hfeed => exact ⟨c.next.start, by simp [Lexeme.sight, hfeed]⟩

theorem blind_peekInLine : Blind peekInLine := by
  intro c d h
  obtain ⟨i, hc⟩ := exists_run_peekInLine c
  obtain ⟨j, hd⟩ := exists_run_peekInLine d
  rw [hc, hd, h.sight_next]
  exact ⟨rfl, h⟩

theorem blind_accept (mark : Char) : Blind (accept mark) := by
  refine blind_peek.bind ?_
  intro token
  split
  · exact blind_advance.bind fun _ => .pure true
  · exact .pure false

theorem blind_number : Blind number := by
  refine blind_peek.bind ?_
  intro token
  cases token with
  | numeral text =>
    dsimp only
    split
    · exact .stop _
    · split
      · exact blind_advance.bind fun _ => .pure _
      · exact .stop _
  | word text | mark c | finish => exact .stop _

theorem blind_valueName : Blind valueName :=
  (blind_expect '%').bind fun _ => blind_word

theorem blind_blockName : Blind blockName :=
  (blind_expect '^').bind fun _ => blind_word

variable (u : Unlinked)

theorem blind_operand : Blind (operand u) := by
  refine blind_peek.bind ?_
  intro token
  split
  · refine blind_advance.bind fun _ => blind_word.bind ?_
    intro name
    split
    · exact .pure _
    · exact .stop _
  · exact blind_valueName.bind fun _ => .pure _

/-- Going on with a loop behind a comma in the line. -/
theorem blind_commaInLine (s : σ) : Blind (do
    if (← peekInLine) = some (.mark ',') then
      advance
      return Turn.again s
    else return .done s) := by
  refine blind_peekInLine.bind ?_
  intro token
  split
  · exact blind_advance.bind fun _ => .pure _
  · exact .pure _

theorem blind_operandList : Blind (operandList u) := by
  refine Blind.loop ?_ []
  intro read
  refine blind_peekInLine.bind ?_
  intro token
  split
  · exact (blind_operand u).bind fun _ => blind_commaInLine _
  · exact (blind_operand u).bind fun _ => blind_commaInLine _
  · exact .pure _

theorem blind_targetList : Blind targetList := by
  refine Blind.loop ?_ []
  intro read
  refine blind_blockName.bind fun _ => (blind_accept ',').bind ?_
  intro accepted
  cases accepted <;> exact .pure _

theorem blind_operandPair : Blind (operandPair u) :=
  (blind_operand u).bind fun _ => (blind_expect ',').bind fun _ => (blind_operand u).bind fun _ =>
    .pure _

theorem blind_code (op : Opcode) : Blind (code u op) := by
  cases op with
  | any => exact (blind_operandList u).bind fun _ => .pure _
  | add | sub | mul | cmp | store => exact (blind_operandPair u).bind fun _ => .pure _
  | const => exact blind_number.bind fun _ => .pure _
  | alloca =>
    exact blind_number.bind fun _ => (blind_expect ',').bind fun _ => blind_number.bind fun _ =>
      .pure _
  | load => exact (blind_operand u).bind fun _ => .pure _
  | gep =>
    refine (blind_operandList u).bind ?_
    intro refs
    cases refs with
    | nil => exact .stop _
    | cons base indices => exact .pure _
  | call =>
    refine blind_peekInLine.bind ?_
    intro token
    split
    · refine blind_advance.bind fun _ => blind_word.bind fun callee => blind_peekInLine.bind ?_
      intro token
      split
      · exact blind_advance.bind fun _ => (blind_operandList u).bind fun _ => .pure _
      · exact .pure _
    · exact .stop _
  | terminate => exact .pure _
  | ret =>
    refine blind_peekInLine.bind ?_
    intro token
    cases token with
    | none => exact .pure _
    | some token => exact (blind_operand u).bind fun _ => .pure _
  | br => exact blind_blockName.bind fun _ => .pure _
  | condbr =>
    exact (blind_operand u).bind fun _ => (blind_expect ',').bind fun _ => blind_blockName.bind fun _ =>
      (blind_expect ',').bind fun _ => blind_blockName.bind fun _ => .pure _
  | tbz =>
    exact (blind_operand u).bind fun _ => (blind_expect ',').bind fun _ => blind_blockName.bind fun _ =>
      (blind_expect ',').bind fun _ => blind_blockName.bind fun _ => (blind_expect ',').bind fun _ =>
      blind_number.bind fun _ => .pure _
  | jump => exact blind_targetList.bind fun _ => .pure _

theorem blind_mnemonic : Blind mnemonic := by
  refine blind_word.bind ?_
  intro text
  split
  · exact .pure _
  · exact .stop _

theorem blind_resultAndOpcode : Blind resultAndOpcode := by
  refine blind_peek.bind ?_
  intro token
  split
  · refine blind_valueName.bind fun name => (blind_expect '=').bind fun _ => blind_peekInLine.bind ?_
    intro token
    split
    · exact .pure _
    · exact .pure _
    · exact .pure _
    · exact blind_mnemonic.bind fun _ => .pure _
  · exact blind_mnemonic.bind fun _ => .pure _

theorem blind_instruction (defined : List String) : Blind (instruction u defined) := by
  refine blind_resultAndOpcode.bind ?_
  intro head
  obtain ⟨name?, op⟩ := head
  cases name? with
  | some name =>
    dsimp only
    split
    · exact .stop _
    · split
      · exact .stop _
      · exact (blind_code u op).bind fun _ => .pure _
  | none =>
    dsimp only
    split
    · exact .stop _
    · exact (blind_code u op).bind fun _ => .pure _

theorem blind_incomingPair : Blind (incomingPair u) :=
  (blind_expect '[').bind fun _ => blind_blockName.bind fun _ => (blind_expect ',').bind fun _ =>
    (blind_operand u).bind fun _ => (blind_expect ']').bind fun _ => .pure _

theorem blind_phi : Blind (phi u) := by
  refine blind_valueName.bind fun name => (blind_expect '=').bind fun _ => blind_word.bind fun _ => ?_
  refine Blind.bind (Blind.loop ?_ []) fun _ => .pure _
  intro read
  exact (blind_incomingPair u).bind fun _ => blind_commaInLine _

theorem blind_blockBody (defined : List String) (name : String) :
    Blind (blockBody u defined name) := by
  refine Blind.loop ?_ _
  intro b
  refine blind_peek.bind fun _ => Agrees.get ?_ ?_
  · intro c d h
    rw [h.ahead 4]
  intro c
  dsimp only
  split
  · exact .pure _
  · split
    · split
      · exact .stop _
      · exact (blind_phi u).bind fun _ => .pure _
    · exact (blind_instruction u _).bind fun _ => .pure _

theorem blind_block (f : DraftFunction) : Blind (block u f) := by
  refine blind_word.bind fun name => (blind_expect ':').bind fun _ => ?_
  split
  · exact .stop _
  · exact blind_blockBody u _ _

theorem blind_params : Blind params := by
  refine Blind.loop ?_ []
  intro read
  refine (blind_accept ')').bind ?_
  intro accepted
  cases accepted with
  | true => exact .pure _
  | false =>
    refine blind_valueName.bind fun name => (blind_accept ',').bind ?_
    intro accepted
    cases accepted with
    | true => exact .pure _
    | false =>
      refine blind_peek.bind ?_
      intro token
      dsimp only
      split
      · exact .pure _
      · exact Blind.bind (.stop _) fun _ => .pure _

theorem blind_blocks (f : DraftFunction) : Blind (blocks u f) := by
  refine Blind.loop ?_ _
  intro f
  refine (blind_accept '}').bind ?_
  intro accepted
  cases accepted with
  | true => exact .pure _
  | false =>
    refine blind_peek.bind ?_
    intro token
    split
    · exact .stop _
    · exact (blind_block u f).bind fun _ => .pure _

theorem agrees_function : Agrees Cursor.NearlyAlike (function u) Cursor.Alike := by
  refine agrees_word.bind ?_
  intro name
  dsimp only
  split
  · exact Agrees.bind (Q := fun _ _ => False) (.stop _) fun _ _ _ h => h.elim
  · refine (blind_expect '(').bind fun _ => blind_params.bind fun names => (blind_accept '!').bind ?_
    intro accepted
    cases accepted with
    | true =>
      refine Blind.bind (.pure _) ?_
      intro f
      split
      · exact .pure _
      · exact .stop _
    | false =>
      refine (blind_expect '\x7b').bind fun _ => (blind_blocks u _).bind ?_
      intro f
      split
      · exact .pure _
      · exact .stop _

theorem agrees_global : Agrees Cursor.NearlyAlike (global u) Cursor.Alike := by
  refine (agrees_expect '@').bind fun _ => blind_word.bind fun name => (blind_expect '=').bind fun _ =>
    blind_word.bind ?_
  intro keyword
  split
  · exact .stop _
  · split
    · exact .stop _
    · exact .pure _

theorem agrees_unlinked : Agrees Cursor.NearlyAlike unlinked Cursor.NearlyAlike := by
  refine Agrees.loop (fun _ _ h => h) ?_ _
  intro u
  refine agrees_peek.bind ?_
  intro token
  have hnearly {x : Reader Unlinked} (hx : Agrees Cursor.NearlyAlike x Cursor.Alike) :
      Agrees Cursor.NearlyAlike (do return Turn.again (← x)) Cursor.NearlyAlike :=
    Agrees.bind (hx.mono (fun _ _ h => h) fun _ _ h => h.nearly) fun _ => .pure _
  split
  · exact .pure _
  · exact hnearly (agrees_global u)
  · exact hnearly (agrees_function u)

end Reader

/-- Texts that look the same, but for a line end at their start, give the same program or are refused
for the same reason. -/
theorem parse_eq_of_sights {text other : List Char}
    (h : opened ((lexemes text).map Lexeme.sight) = opened ((lexemes other).map Lexeme.sight)) :
    (parse text).mapError Failure.error = (parse other).mapError Failure.error := by
  have hsame := Reader.agrees_unlinked ⟨0, lexemes text⟩ ⟨0, lexemes other⟩ h
  rw [parse, parse]
  cases hc : Reader.unlinked.run ⟨0, lexemes text⟩ with
  | error e =>
    cases hd : Reader.unlinked.run ⟨0, lexemes other⟩ with
    | error e' =>
      rw [hc, hd] at hsame
      exact congrArg Except.error hsame
    | ok s => simp [hc, hd, Reader.SameOutcome] at hsame
  | ok r =>
    cases hd : Reader.unlinked.run ⟨0, lexemes other⟩ with
    | error e' => simp [hc, hd, Reader.SameOutcome] at hsame
    | ok s =>
      rw [hc, hd] at hsame
      obtain ⟨u, c⟩ := r
      obtain ⟨u', d⟩ := s
      obtain ⟨rfl, -⟩ : u = u' ∧ c.NearlyAlike d := hsame
      rfl

end InputFlow.Source
