import InputFlow.Proofs.Source.Layout
import InputFlow.Source.Cursor

namespace InputFlow

namespace Source

/-- What a text refers to: by a name behind one of the marks `%`, `@` and `^`, or by a number. -/
inductive Mention where
  | value (name : String)
  | global (name : String)
  | block (name : String)
  | number (n : Nat)
deriving DecidableEq, Repr

def Mention.ofMark? : Char → Option (String → Mention)
  | '%' => some value
  | '@' => some global
  | '^' => some block
  | _ => none

def numeralValue (text : List Char) : Nat :=
  Reader.numberOf (Reader.numeralParts text).1 (Reader.numeralParts text).2

/-- The marked names and the numbers of a text in order. What is left out are the marks between
them, operations, and the names of functions and blocks where these begin. -/
def mentions : List Token → List Mention
  | .mark c :: .word name :: rest =>
    match Mention.ofMark? c with
    | some kind => kind name :: mentions rest
    | none => mentions rest
  | .numeral digits :: rest => .number (numeralValue digits) :: mentions rest
  | .finish :: _ => []
  | _ :: rest => mentions rest
  | [] => []

def textMentions (text : List Char) : List Mention :=
  mentions ((lexemes text).map (·.token))

section Tokens

variable {c : Char} {name : String} {rest : List Token}

theorem mentions_marked {kind : String → Mention} (h : Mention.ofMark? c = some kind) :
    mentions (.mark c :: .word name :: rest) = kind name :: mentions rest := by
  rw [mentions, h]

theorem mentions_word : mentions (.word name :: rest) = mentions rest := by
  rw [mentions]
  all_goals simp

theorem mentions_mark (h : Mention.ofMark? c = none) :
    mentions (.mark c :: rest) = mentions rest := by
  cases rest with
  | nil => rfl
  | cons t rest =>
    cases t with
    | word name => rw [mentions, h, mentions_word]
    | _ => rfl

end Tokens

namespace Mode

/-- A word in progress has a first character. -/
def Begun : Mode → Prop
  | word _ _ read => read ≠ []
  | _ => True

/-- No word among the lexemes is empty. -/
def Proper (found : List Lexeme) : Prop :=
  ∀ l ∈ found, l.token ≠ .word ""

variable {m : Mode} {position : Nat} {c : Char}

theorem proper_pending (h : m.Begun) (position : Nat) : Proper (m.pending position) := by
  cases m with
  | word feed? start read =>
    intro l hl hempty
    obtain rfl := List.mem_singleton.1 hl
    have hread : read.reverse = [] := by simpa using hempty
    exact h (List.reverse_eq_nil_iff.1 hread)
  | _ => simp [Proper, pending]

theorem proper_enter (feed? : Option Nat) (position : Nat) (c : Char) :
    Proper (enter feed? position c).1 ∧ (enter feed? position c).2.Begun := by
  simp only [enter]
  split_ifs <;> simp [Proper, Begun]

theorem proper_leave (h : m.Begun) (position : Nat) (c : Char) :
    Proper (m.leave position c).1 ∧ (m.leave position c).2.Begun := by
  obtain ⟨hmarks, hnext⟩ := proper_enter none position c
  exact ⟨List.forall_mem_append.2 ⟨proper_pending h position, hmarks⟩, hnext⟩

theorem proper_step (h : m.Begun) (position : Nat) (c : Char) :
    Proper (m.step position c).1 ∧ (m.step position c).2.Begun := by
  have hleave := proper_leave h position c
  cases m with
  | gap feed? => exact proper_enter feed? position c
  | comment feed? =>
    simp only [step]
    split <;> simp [Proper, Begun]
  | zero feed? start =>
    simp only [step]
    split
    · simp [Proper, Begun]
    · split
      · simp [Proper, Begun]
      · exact hleave
  | word feed? start read | decimal feed? start read | hexadecimal feed? start read =>
    simp only [step]
    split
    · simp [Proper, Begun]
    · exact hleave

end Mode

theorem proper_scan {m : Mode} (h : m.Begun) (position : Nat) (text : List Char) :
    Mode.Proper (scan m position text) := by
  induction text generalizing m position with
  | nil =>
    have hpending := Mode.proper_pending h position
    cases m with
    | gap feed? | comment feed? => simp [scan, Mode.close, Mode.Proper]
    | _ => exact List.forall_mem_append.2 ⟨hpending, by simp⟩
  | cons c text ih =>
    obtain ⟨hfound, hnext⟩ := Mode.proper_step h position c
    exact List.forall_mem_append.2 ⟨hfound, ih hnext _⟩

namespace Cursor

def tokens (c : Cursor) : List Token :=
  c.rest.map (·.token)

def Proper (c : Cursor) : Prop :=
  Mode.Proper c.rest

/-- Between the two cursors the text goes on from what `before` mentions to what `after` does. -/
structure Passes (c : Cursor) (before : List Mention) (c' : Cursor) (after : List Mention) : Prop where
  suffix : c'.rest <:+ c.rest
  mentions : before ++ Source.mentions c.tokens = after ++ Source.mentions c'.tokens

variable {c c' c'' : Cursor} {ms ms' ms'' : List Mention} {l : Lexeme}

theorem Passes.of_rest_eq (h : c'.rest = c.rest) : c.Passes ms c' ms := by
  refine ⟨h ▸ List.suffix_refl _, ?_⟩
  rw [tokens, tokens, h]

theorem Passes.trans (h : c.Passes ms c' ms') (h' : c'.Passes ms' c'' ms'') :
    c.Passes ms c'' ms'' :=
  ⟨h'.suffix.trans h.suffix, h.mentions.trans h'.mentions⟩

theorem Passes.proper (h : c.Passes ms c' ms') (hc : c.Proper) : c'.Proper :=
  fun l hl => hc l (h.suffix.subset hl)

/-- A lexeme that mentions nothing on its own is passed. -/
theorem Passes.of_cons (h : c.rest = l :: c'.rest)
    (hl : ∀ rest, Source.mentions (l.token :: rest) = Source.mentions rest) : c.Passes ms c' ms := by
  refine ⟨h ▸ List.suffix_cons _ _, ?_⟩
  rw [tokens, h, List.map_cons, hl]
  rfl

end Cursor

namespace Reader

variable {α β σ : Type} {x : Reader α} {f : α → Reader β} {P : α → Prop} {Q : β → Prop}
  {ms : List Mention} {w : α → List Mention} {v : β → List Mention} {t : Token} {mark : Char}

/-- If the text up to the cursor mentions `ms`, what the reader gives satisfies `P`, and the text up to
where it stops mentions `w` of it. -/
def Gives (ms : List Mention) (x : Reader α) (P : α → Prop) (w : α → List Mention) : Prop :=
  ∀ c a c', c.Proper → x.run c = .ok (a, c') → P a ∧ c.Passes ms c' (w a)

def GivesAt (t : Token) (ms : List Mention) (x : Reader α) (P : α → Prop) (w : α → List Mention) :
    Prop :=
  ∀ c a c', c.Proper → c.next.token = t → x.run c = .ok (a, c') → P a ∧ c.Passes ms c' (w a)

def Looks (x : Reader α) : Prop :=
  ∀ c a c', x.run c = .ok (a, c') → c'.rest = c.rest

/-- As `Gives`, of a reader that passes a lexeme at least. -/
def Takes (ms : List Mention) (x : Reader α) (P : α → Prop) (w : α → List Mention) : Prop :=
  ∀ c a c', c.Proper → x.run c = .ok (a, c') →
    P a ∧ c.Passes ms c' (w a) ∧ c'.rest.length < c.rest.length

theorem Takes.gives (h : Takes ms x P w) : Gives ms x P w :=
  fun c a c' hc hrun => ⟨(h c a c' hc hrun).1, (h c a c' hc hrun).2.1⟩

theorem Gives.before (h : Gives ms x P w) (t : Token) : GivesAt t ms x P w :=
  fun c a c' hc _ => h c a c' hc

theorem Gives.pure {a : α} (h : P a) (hw : w a = ms) : Gives ms (pure a : Reader α) P w := by
  intro c b c' _ hrun
  obtain ⟨rfl, rfl⟩ : a = b ∧ c = c' := by simpa [pure_eq_ok] using hrun
  exact ⟨h, hw ▸ .of_rest_eq rfl⟩

theorem Gives.stop (error : ParseError) : Gives ms (stop error : Reader α) P w :=
  fun _ _ _ _ hrun => nomatch hrun

theorem Gives.stop_bind (error : ParseError) : Gives ms (Reader.stop error >>= f) Q v :=
  fun _ _ _ _ hrun => nomatch hrun

theorem exists_of_run_bind {c c' : Cursor} {b : β} (h : (x >>= f).run c = .ok (b, c')) :
    ∃ a c₁, x.run c = .ok (a, c₁) ∧ (f a).run c₁ = .ok (b, c') := by
  rw [StateT.run_bind, bind_eq_ok] at h
  obtain ⟨⟨a, c₁⟩, ha, hb⟩ := h
  exact ⟨a, c₁, ha, hb⟩

theorem Gives.bind (hx : Gives ms x P w) (hf : ∀ a, P a → Gives (w a) (f a) Q v) :
    Gives ms (x >>= f) Q v := by
  intro c b c' hc hrun
  obtain ⟨a, c₁, ha, hb⟩ := exists_of_run_bind hrun
  obtain ⟨hP, hpass⟩ := hx c a c₁ hc ha
  obtain ⟨hQ, hpass'⟩ := hf a hP c₁ b c' (hpass.proper hc) hb
  exact ⟨hQ, hpass.trans hpass'⟩

theorem Takes.bind (hx : Takes ms x P w) (hf : ∀ a, P a → Gives (w a) (f a) Q v) :
    Takes ms (x >>= f) Q v := by
  intro c b c' hc hrun
  obtain ⟨a, c₁, ha, hb⟩ := exists_of_run_bind hrun
  obtain ⟨hP, hpass, hlt⟩ := hx c a c₁ hc ha
  obtain ⟨hQ, hpass'⟩ := hf a hP c₁ b c' (hpass.proper hc) hb
  exact ⟨hQ, hpass.trans hpass', Nat.lt_of_le_of_lt hpass'.suffix.length_le hlt⟩

theorem Looks.gives (hx : Looks x) : Gives ms x (fun _ => True) fun _ => ms :=
  fun c a c' _ hrun => ⟨trivial, .of_rest_eq (hx c a c' hrun)⟩

theorem Gives.look (hx : Looks x) (hf : ∀ a, Gives ms (f a) Q v) : Gives ms (x >>= f) Q v :=
  Gives.bind hx.gives fun a _ => hf a

theorem looks_get : Looks (get : Reader Cursor) := by
  intro c a c' h
  obtain ⟨-, rfl⟩ : c = a ∧ c = c' := by simpa [pure_eq_ok] using h
  rfl

def Turn.state : Turn σ → σ
  | again s => s
  | done s => s

/-- What every turn of a loop preserves holds at its end. -/
theorem Gives.loop {step : σ → Reader (Turn σ)} {P : σ → Prop} {w : σ → List Mention} {s : σ}
    (hs : P s) (hw : w s = ms)
    (hstep : ∀ s, P s → Gives (w s) (step s) (fun t => P t.state) fun t => w t.state) :
    Gives ms (loop step s) P w := by
  subst hw
  refine Gives.look looks_get fun c => ?_
  generalize c.rest.length + 1 = fuel
  induction fuel generalizing s with
  | zero => exact Gives.pure hs rfl
  | succ fuel ih =>
    refine Gives.bind (hstep s hs) fun t ht => ?_
    cases t with
    | again s => exact ih ht
    | done s => exact Gives.pure ht rfl

/-- A turn that goes on leaves less than `n` lexemes, and one that does not stands at the end. -/
def Turn.Ended (n : Nat) (c : Cursor) : Turn σ → Prop
  | again _ => c.rest.length < n
  | done _ => c.next.token = .finish

/-- Turns that pass lexemes are not cut short. -/
theorem run_turns_to_end {step : σ → Reader (Turn σ)} {P : σ → Prop} {w : σ → List Mention}
    (hstep : ∀ s, P s → ∀ c t c', c.Proper → (step s).run c = .ok (t, c') →
      P t.state ∧ c.Passes (w s) c' (w t.state) ∧ t.Ended c.rest.length c') {fuel : Nat} {s s' : σ}
    {c c' : Cursor} (hs : P s) (hc : c.Proper) (hfuel : c.rest.length < fuel)
    (hrun : (turns step fuel s).run c = .ok (s', c')) :
    P s' ∧ c.Passes (w s) c' (w s') ∧ c'.next.token = .finish := by
  induction fuel generalizing s c with
  | zero => exact absurd hfuel (Nat.not_lt_zero _)
  | succ fuel ih =>
    obtain ⟨t, c₁, ht, hturns⟩ := exists_of_run_bind hrun
    obtain ⟨hP, hpass, hended⟩ := hstep s hs c t c₁ hc ht
    cases t with
    | again s₁ =>
      have hlt : c₁.rest.length < fuel := Nat.lt_of_lt_of_le hended (Nat.le_of_lt_succ hfuel)
      obtain ⟨hP', hpass', hend⟩ := ih hP (hpass.proper hc) hlt hturns
      exact ⟨hP', hpass.trans hpass', hend⟩
    | done s₁ =>
      obtain ⟨rfl, rfl⟩ : s₁ = s' ∧ c₁ = c' := by simpa [pure_eq_ok] using hturns
      exact ⟨hP, hpass, hended⟩

theorem Takes.again {x : Reader σ} {P : σ → Prop} {w : σ → List Mention} (hx : Takes ms x P w)
    {c c' : Cursor} {t : Turn σ} (hc : c.Proper)
    (hrun : (do return Turn.again (← x)).run c = .ok (t, c')) :
    P t.state ∧ c.Passes ms c' (w t.state) ∧ t.Ended c.rest.length c' := by
  obtain ⟨s, c₁, hs, hrun⟩ := exists_of_run_bind hrun
  obtain ⟨rfl, rfl⟩ : Turn.again s = t ∧ c₁ = c' := by simpa [pure_eq_ok] using hrun
  exact hx c s c₁ hc hs

section Tokens

theorem run_peek {c c' : Cursor} (h : peek.run c = .ok (t, c')) :
    c'.rest = c.rest ∧ c'.next.token = t := by
  obtain ⟨rfl, rfl⟩ : c.next.token = t ∧ { c with position := c.next.start } = c' := by
    simpa [peek, StateT.run] using h
  refine ⟨rfl, ?_⟩
  simp only [Cursor.next]
  cases c.rest <;> rfl

theorem run_peekInLine {c c' : Cursor} {t? : Option Token} (h : peekInLine.run c = .ok (t?, c')) :
    c'.rest = c.rest ∧ ∀ t, t? = some t → c'.next.token = t := by
  simp only [peekInLine, StateT.run] at h
  split at h
  · obtain ⟨rfl, rfl⟩ := Prod.mk.inj (Except.ok.inj h)
    exact ⟨rfl, nofun⟩
  · obtain ⟨rfl, rfl⟩ := Prod.mk.inj (Except.ok.inj h)
    refine ⟨rfl, fun t ht => ?_⟩
    split at ht
    · cases ht
    · rw [← Option.some.inj ht]
      simp only [Cursor.next]
      cases c.rest <;> rfl

theorem run_advance {c c' : Cursor} {a : Unit} (h : advance.run c = .ok (a, c'))
    (hnext : c.next.token ≠ .finish) : c.rest = c.next :: c'.rest := by
  obtain ⟨-, rfl⟩ := Prod.mk.inj (Except.ok.inj h)
  cases hc : c.rest with
  | nil => simp [Cursor.next, hc] at hnext
  | cons l rest => simp [Cursor.next, hc]

theorem looks_peek : Looks peek :=
  fun _ _ _ h => (run_peek h).1

theorem looks_peekInLine : Looks peekInLine :=
  fun _ _ _ h => (run_peekInLine h).1

theorem mentions_of_finish {c : Cursor} (h : c.next.token = .finish) : mentions c.tokens = [] := by
  cases hrest : c.rest with
  | nil => simp [Cursor.tokens, hrest, mentions]
  | cons l rest =>
    have hl : l.token = .finish := by simpa [Cursor.next, hrest] using h
    simp [Cursor.tokens, hrest, hl, mentions]

theorem Gives.peek {f : Token → Reader β} (hf : ∀ t, GivesAt t ms (f t) Q v) :
    Gives ms (peek >>= f) Q v := by
  intro c b c' hc hrun
  obtain ⟨t, c₁, ht, hb⟩ := exists_of_run_bind hrun
  obtain ⟨hrest, htoken⟩ := run_peek ht
  have hpass : c.Passes ms c₁ ms := .of_rest_eq hrest
  obtain ⟨hQ, hpass'⟩ := hf t c₁ b c' (hpass.proper hc) htoken hb
  exact ⟨hQ, hpass.trans hpass'⟩

theorem Gives.peekInLine {f : Option Token → Reader β} (hnone : Gives ms (f none) Q v)
    (hsome : ∀ t, GivesAt t ms (f (some t)) Q v) : Gives ms (peekInLine >>= f) Q v := by
  intro c b c' hc hrun
  obtain ⟨t?, c₁, ht, hb⟩ := exists_of_run_bind hrun
  obtain ⟨hrest, htoken⟩ := run_peekInLine ht
  have hpass : c.Passes ms c₁ ms := .of_rest_eq hrest
  cases t? with
  | none =>
    obtain ⟨hQ, hpass'⟩ := hnone c₁ b c' (hpass.proper hc) hb
    exact ⟨hQ, hpass.trans hpass'⟩
  | some t =>
    obtain ⟨hQ, hpass'⟩ := hsome t c₁ b c' (hpass.proper hc) (htoken t rfl) hb
    exact ⟨hQ, hpass.trans hpass'⟩

theorem exists_of_run_word {c c' : Cursor} {name : String} (h : word.run c = .ok (name, c')) :
    ∃ l : Lexeme, c.rest = l :: c'.rest ∧ l.token = .word name := by
  obtain ⟨t, c₁, ht, h⟩ := exists_of_run_bind h
  obtain ⟨hrest, htoken⟩ := run_peek ht
  cases t with
  | word text =>
    obtain ⟨_, c₂, hadvance, h⟩ := exists_of_run_bind h
    obtain ⟨rfl, rfl⟩ : text = name ∧ c₂ = c' := by simpa [pure_eq_ok] using h
    exact ⟨c₁.next, hrest ▸ run_advance hadvance (by simp [htoken]), htoken⟩
  | _ => nomatch h

theorem run_accept {c c' : Cursor} {found : Bool} (h : (accept mark).run c = .ok (found, c')) :
    if found then ∃ l : Lexeme, c.rest = l :: c'.rest ∧ l.token = .mark mark
      else c'.rest = c.rest := by
  obtain ⟨t, c₁, ht, h⟩ := exists_of_run_bind h
  obtain ⟨hrest, htoken⟩ := run_peek ht
  split at h
  next hmark =>
    obtain ⟨_, c₂, hadvance, h⟩ := exists_of_run_bind h
    obtain ⟨rfl, rfl⟩ : true = found ∧ c₂ = c' := by simpa [pure_eq_ok] using h
    exact ⟨c₁.next, hrest ▸ run_advance hadvance (by simp [htoken, hmark]), htoken.trans hmark⟩
  next =>
    obtain ⟨rfl, rfl⟩ : false = found ∧ c₁ = c' := by simpa [pure_eq_ok] using h
    exact hrest

theorem exists_of_run_expect {c c' : Cursor} {a : Unit} (h : (expect mark).run c = .ok (a, c')) :
    ∃ l : Lexeme, c.rest = l :: c'.rest ∧ l.token = .mark mark := by
  obtain ⟨found, c₁, hfound, h⟩ := exists_of_run_bind h
  have haccept := run_accept hfound
  cases found with
  | true =>
    obtain ⟨-, rfl⟩ : () = a ∧ c₁ = c' := by simpa [pure_eq_ok] using h
    simpa using haccept
  | false =>
    obtain ⟨t, c₂, -, h⟩ := exists_of_run_bind h
    nomatch h

theorem takes_word : Takes ms word (· ≠ "") fun _ => ms := by
  intro c name c' hc hrun
  obtain ⟨l, hrest, hl⟩ := exists_of_run_word hrun
  refine ⟨?_, .of_cons hrest fun rest => ?_, by simp [hrest]⟩
  · rintro rfl
    exact hc l (hrest ▸ List.mem_cons_self) hl
  · rw [hl, mentions_word]

theorem gives_word : Gives ms word (· ≠ "") fun _ => ms :=
  takes_word.gives

theorem gives_expect (h : Mention.ofMark? mark = none) :
    Gives ms (expect mark) (fun _ => True) fun _ => ms := by
  intro c a c' _ hrun
  obtain ⟨l, hrest, hl⟩ := exists_of_run_expect hrun
  refine ⟨trivial, .of_cons hrest fun rest => ?_⟩
  rw [hl, mentions_mark h]

theorem gives_accept (h : Mention.ofMark? mark = none) :
    Gives ms (accept mark) (fun _ => True) fun _ => ms := by
  intro c found c' _ hrun
  have haccept := run_accept hrun
  refine ⟨trivial, ?_⟩
  cases found with
  | true =>
    obtain ⟨l, hrest, hl⟩ : ∃ l : Lexeme, c.rest = l :: c'.rest ∧ l.token = .mark mark := by
      simpa using haccept
    exact .of_cons hrest fun rest => by rw [hl, mentions_mark h]
  | false => exact .of_rest_eq (by simpa using haccept)

/-- A mark and the name behind it are passed. -/
theorem passes_marked (ms : List Mention) {c c₁ c' : Cursor} {l : Lexeme} {name : String}
    {kind : String → Mention} (hkind : Mention.ofMark? mark = some kind) (hrest : c.rest = l :: c₁.rest)
    (hl : l.token = .mark mark) (hc : c.Proper) (hword : word.run c₁ = .ok (name, c')) :
    name ≠ "" ∧ c.Passes ms c' (ms ++ [kind name]) ∧ c'.rest.length < c.rest.length := by
  obtain ⟨l', hrest', hl'⟩ := exists_of_run_word hword
  have hlt : c'.rest.length < c.rest.length := by
    rw [hrest, hrest', List.length_cons, List.length_cons]
    omega
  refine ⟨?_, ⟨?_, ?_⟩, hlt⟩
  · rintro rfl
    exact hc l' (by simp [hrest, hrest']) hl'
  · rw [hrest, hrest']
    exact (List.suffix_cons _ _).trans (List.suffix_cons _ _)
  · rw [Cursor.tokens, hrest, hrest', List.map_cons, List.map_cons, hl, hl', mentions_marked hkind]
    simp [Cursor.tokens]

theorem takes_marked {kind : String → Mention} (hkind : Mention.ofMark? mark = some kind) :
    Takes ms (do expect mark; word) (· ≠ "") fun name => ms ++ [kind name] := by
  intro c name c' hc hrun
  obtain ⟨_, c₁, hexpect, hword⟩ := exists_of_run_bind hrun
  obtain ⟨l, hrest, hl⟩ := exists_of_run_expect hexpect
  exact passes_marked ms hkind hrest hl hc hword

theorem GivesAt.advance {f : Unit → Reader β} (hmark : Mention.ofMark? mark = none)
    (hf : Gives ms (f ()) Q v) : GivesAt (.mark mark) ms (advance >>= f) Q v := by
  intro c b c' hc htoken hrun
  obtain ⟨_, c₁, hadvance, hb⟩ := exists_of_run_bind hrun
  have hrest := run_advance hadvance (by simp [htoken])
  have hpass : c.Passes ms c₁ ms :=
    .of_cons hrest fun rest => by rw [htoken, mentions_mark hmark]
  obtain ⟨hQ, hpass'⟩ := hf c₁ b c' (hpass.proper hc) hb
  exact ⟨hQ, hpass.trans hpass'⟩

theorem GivesAt.advance_word {f : String → Reader β} {kind : String → Mention}
    (hkind : Mention.ofMark? mark = some kind)
    (hf : ∀ name, Gives (ms ++ [kind name]) (f name) Q v) :
    GivesAt (.mark mark) ms (Reader.advance >>= fun _ => word >>= f) Q v := by
  intro c b c' hc htoken hrun
  obtain ⟨_, c₁, hadvance, hrun⟩ := exists_of_run_bind hrun
  obtain ⟨name, c₂, hword, hb⟩ := exists_of_run_bind hrun
  have hrest := run_advance hadvance (by simp [htoken])
  obtain ⟨-, hpass, -⟩ := passes_marked ms hkind hrest htoken hc hword
  obtain ⟨hQ, hpass'⟩ := hf name c₂ b c' (hpass.proper hc) hb
  exact ⟨hQ, hpass.trans hpass'⟩

theorem gives_number : Gives ms number (fun _ => True) fun n => ms ++ [.number n] := by
  refine Gives.peek fun t => ?_
  cases t with
  | numeral text =>
    intro c n c' _ htoken hrun
    refine ⟨trivial, ?_⟩
    dsimp only at hrun
    split at hrun
    · nomatch hrun
    · split at hrun
      · obtain ⟨_, c₁, hadvance, hrun⟩ := exists_of_run_bind hrun
        obtain ⟨rfl, rfl⟩ : numeralValue text = n ∧ c₁ = c' := by
          simpa [pure_eq_ok, numeralValue] using hrun
        have hrest := run_advance hadvance (by simp [htoken])
        refine ⟨hrest ▸ List.suffix_cons _ _, ?_⟩
        rw [Cursor.tokens, hrest, List.map_cons, htoken, mentions]
        simp [Cursor.tokens]
      · nomatch hrun
  | _ => exact (Gives.stop _).before _

end Tokens

end Reader

end Source

end InputFlow
