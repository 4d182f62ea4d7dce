import InputFlow.Text.CharClass

namespace InputFlow.Text

def dropReturn (line : List Char) : List Char :=
  if line.getLast? == some '\r' then line.dropLast else line

def splitBreaks : List Char → List (List Char)
  | [] => [[]]
  | c :: cs =>
    if c == '\n' then [] :: splitBreaks cs
    else match splitBreaks cs with
      | [] => [[c]]
      | line :: lines => (c :: line) :: lines

/-- The lines of split pieces: every piece but the last was ended by a line feed, and an empty last
piece is no line. -/
def closeLines : List (List Char) → List (List Char)
  | [] => []
  | [last] => if last.isEmpty then [] else [last]
  | line :: rest => dropReturn line :: closeLines rest

/-- The lines of a text. A line feed ends a line, with a carriage return before it if there is one. -/
def lines (text : List Char) : List (List Char) :=
  closeLines (splitBreaks text)

def trimStart (text : List Char) : List Char :=
  text.dropWhile isBlank

def trim (text : List Char) : List Char :=
  (trimStart (trimStart text).reverse).reverse

/-- The words of a text; `word` holds the letters read of the current one, last first. -/
def wordsFrom (word : List Char) : List Char → List (List Char)
  | [] => if word.isEmpty then [] else [word.reverse]
  | c :: cs =>
    if isBlank c then
      if word.isEmpty then wordsFrom [] cs else word.reverse :: wordsFrom [] cs
    else wordsFrom (c :: word) cs

def words (text : List Char) : List (List Char) :=
  wordsFrom [] text

/-- What follows `lead` in a text that starts with it. -/
def after? : List Char → List Char → Option (List Char)
  | [], text => some text
  | _ :: _, [] => none
  | c :: lead, d :: text => if c == d then after? lead text else none

def occursIn (pattern : List Char) : List Char → Bool
  | [] => pattern.isEmpty
  | c :: text => (after? pattern (c :: text)).isSome || occursIn pattern text

/-- Cuts a text after exactly `n` bytes of UTF-8, if a character ends there. -/
def cutBytes : List Char → Nat → Option (List Char × List Char)
  | text, 0 => some ([], text)
  | [], _ + 1 => none
  | c :: text, n + 1 =>
    if c.utf8Size ≤ n + 1 then (cutBytes text (n + 1 - c.utf8Size)).map fun r => (c :: r.1, r.2)
    else none

/-- The bytes of a text from `first` up to `last`, if characters begin and end there. -/
def byteWindow (text : List Char) (first last : Nat) : Option (List Char) := do
  let (_, rest) ← cutBytes text first
  let (window, _) ← cutBytes rest (last - first)
  return window

def byteLength (text : List Char) : Nat :=
  text.foldl (fun n c => n + c.utf8Size) 0

end InputFlow.Text
