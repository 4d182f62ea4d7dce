import InputFlow.Text.CharClass

namespace InputFlow.Source

open InputFlow.Text

inductive Token where
  | word (text : String)
  | numeral (digits : List Char)
  | mark (c : Char)
  | finish
deriving DecidableEq, Repr

def Token.first? : Token → Option Char
  | .word text => text.toList.head?
  | .numeral digits => digits.head?
  | .mark c => some c
  | .finish => none

/-- A token with its byte positions. `lineFeed?` is the position of the first line feed between the
lexeme and the one before it. -/
structure Lexeme where
  token : Token
  lineFeed? : Option Nat
  start : Nat
  stop : Nat
deriving DecidableEq, Repr

/-- What the scanner is in the middle of: a gap, a comment, or a lexeme that starts at `start` with
the characters `read`, last first. All remember the line feed of the gap before. -/
inductive Mode where
  | gap (lineFeed? : Option Nat)
  | comment (lineFeed? : Option Nat)
  | word (lineFeed? : Option Nat) (start : Nat) (read : List Char)
  | zero (lineFeed? : Option Nat) (start : Nat)
  | decimal (lineFeed? : Option Nat) (start : Nat) (read : List Char)
  | hexadecimal (lineFeed? : Option Nat) (start : Nat) (read : List Char)

def isHexDigit (c : Char) : Bool :=
  c.isDigit || ('a' ≤ c && c ≤ 'f') || ('A' ≤ c && c ≤ 'F')

namespace Mode

/-- What a character outside of any lexeme leads to, and the mark it may be. -/
def enter (lineFeed? : Option Nat) (position : Nat) (c : Char) : List Lexeme × Mode :=
  if c == ';' then ([], comment lineFeed?)
  else if isBlank c then
    ([], gap (if c == '\n' then lineFeed?.or (some position) else lineFeed?))
  else if isWordStart c then ([], word lineFeed? position [c])
  else if c == '0' then ([], zero lineFeed? position)
  else if c.isDigit then ([], decimal lineFeed? position [c])
  else ([⟨.mark c, lineFeed?, position, position + c.utf8Size⟩], gap none)

def pending (position : Nat) : Mode → List Lexeme
  | gap _ | comment _ => []
  | word lineFeed? start read => [⟨.word (String.ofList read.reverse), lineFeed?, start, position⟩]
  | zero lineFeed? start => [⟨.numeral ['0'], lineFeed?, start, position⟩]
  | decimal lineFeed? start read => [⟨.numeral read.reverse, lineFeed?, start, position⟩]
  | hexadecimal lineFeed? start read => [⟨.numeral read.reverse, lineFeed?, start, position⟩]

def leave (mode : Mode) (position : Nat) (c : Char) : List Lexeme × Mode :=
  let (marks, next) := enter none position c
  (mode.pending position ++ marks, next)

def step (position : Nat) (c : Char) : Mode → List Lexeme × Mode
  | gap lineFeed? => enter lineFeed? position c
  | comment lineFeed? =>
    if c == '\n' then ([], gap (lineFeed?.or (some position))) else ([], comment lineFeed?)
  | word lineFeed? start read =>
    if isWordPart c then ([], word lineFeed? start (c :: read))
    else leave (word lineFeed? start read) position c
  | zero lineFeed? start =>
    if c == 'x' || c == 'X' then ([], hexadecimal lineFeed? start [c, '0'])
    else if c.isDigit then ([], decimal lineFeed? start [c, '0'])
    else leave (zero lineFeed? start) position c
  | decimal lineFeed? start read =>
    if c.isDigit then ([], decimal lineFeed? start (c :: read))
    else leave (decimal lineFeed? start read) position c
  | hexadecimal lineFeed? start read =>
    if isHexDigit c then ([], hexadecimal lineFeed? start (c :: read))
    else leave (hexadecimal lineFeed? start read) position c

/-- The last lexemes of a text that ends at `position`. -/
def close (position : Nat) : Mode → List Lexeme
  | gap lineFeed? => [⟨.finish, lineFeed?, position, position⟩]
  | comment lineFeed? => [⟨.finish, lineFeed?, position, position⟩]
  | mode => mode.pending position ++ [⟨.finish, none, position, position⟩]

end Mode

/-- Scans a text that begins at `position`. -/
def scan (mode : Mode) (position : Nat) : List Char → List Lexeme
  | [] => mode.close position
  | c :: text =>
    let (found, next) := mode.step position c
    found ++ scan next (position + c.utf8Size) text

/-- The lexemes of a text, closed by `Token.finish`. Blanks and comments, which run from a semicolon
to the end of the line, separate them. -/
def lexemes (text : List Char) : List Lexeme :=
  scan (.gap none) 0 text

end InputFlow.Source
