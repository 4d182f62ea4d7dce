import InputFlow.Source.Error
import InputFlow.Source.Lexeme

namespace InputFlow.Source

/-- The lexemes still to be read, and the byte position reached. -/
structure Cursor where
  position : Nat
  rest : List Lexeme

/-- Readers of a program text. A reader either goes on from a later place or stops with an error at
the place it has reached. -/
abbrev Reader := StateT Cursor (Except Failure)

namespace Cursor

/-- The next lexeme; behind the last one stands the end of the text. -/
def next (c : Cursor) : Lexeme :=
  c.rest.headD ⟨.finish, none, c.position, c.position⟩

def ahead (c : Cursor) (n : Nat) : List Token :=
  (c.rest.take n).map (·.token)

end Cursor

namespace Reader

def stop {α : Type} (error : ParseError) : Reader α :=
  fun c => .error ⟨error, some c.position⟩

/-- The next token, with the position moved up to it. -/
def peek : Reader Token :=
  fun c => .ok (c.next.token, { c with position := c.next.start })

/-- The next token if the line goes on with one, with the position moved up to it or to the end of
the line. -/
def peekInLine : Reader (Option Token) :=
  fun c => match c.next.lineFeed? with
    | some feed => .ok (none, { c with position := feed })
    | none =>
      .ok (if c.next.token = .finish then none else some c.next.token,
        { c with position := c.next.start })

def advance : Reader Unit :=
  fun c => .ok ((), ⟨c.next.stop, c.rest.tail⟩)

def accept (mark : Char) : Reader Bool := do
  if (← peek) = .mark mark then
    advance
    return true
  else return false

def expect (mark : Char) : Reader Unit := do
  unless ← accept mark do
    stop (.expectedMark mark (← peek).first?)

def word : Reader String := do
  match ← peek with
  | .word text =>
    advance
    return text
  | token => stop (.expectedWord token.first?)

def digitValue (c : Char) : Nat :=
  if c.isDigit then c.toNat - '0'.toNat
  else if 'a' ≤ c then c.toNat - 'a'.toNat + 10
  else c.toNat - 'A'.toNat + 10

def numberOf (base : Nat) (digits : List Char) : Nat :=
  digits.foldl (fun n d => base * n + digitValue d) 0

/-- The base and the digits of a numeral; `0x` marks base sixteen. -/
def numeralParts : List Char → Nat × List Char
  | '0' :: 'x' :: digits => (16, digits)
  | '0' :: 'X' :: digits => (16, digits)
  | digits => (10, digits)

/-- Passes a number of at most 32 bits. -/
def number : Reader Nat := do
  match ← peek with
  | .numeral text =>
    let (base, digits) := numeralParts text
    if digits.isEmpty then stop .expectedNumber
    else
      let n := numberOf base digits
      if n < UInt32.size then
        advance
        return n
      else stop .numberTooLarge
  | _ => stop .expectedNumber

inductive Turn (σ : Type) where
  | again (state : σ)
  | done (state : σ)

def turns {σ : Type} (step : σ → Reader (Turn σ)) : Nat → σ → Reader σ
  | 0, state => return state
  | fuel + 1, state => do
    match ← step state with
    | .again state => turns step fuel state
    | .done state => return state

/-- Goes round a loop that passes a lexeme in every turn but the last. -/
def loop {σ : Type} (step : σ → Reader (Turn σ)) (state : σ) : Reader σ := do
  turns step ((← get).rest.length + 1) state

end Reader

end InputFlow.Source
