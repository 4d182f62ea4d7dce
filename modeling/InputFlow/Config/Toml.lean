namespace InputFlow

/-- How a table came to be: by a header of its own, by the header of a table inside it, by a dotted
key, or between braces. -/
inductive TableForm where
  | header | implied | dotted | inline
deriving DecidableEq, Repr

/-- Documents of the TOML format, as far as settings need them. Floating-point numbers, dates and
arrays of tables never occur in settings and are refused. -/
inductive Toml where
  | string (value : String)
  | integer (value : Int)
  | boolean (value : Bool)
  | array (items : List Toml)
  | table (form : TableForm) (entries : List (String × Toml))

namespace Toml

/-- The entries of a table in the order they were written. -/
abbrev Entries := List (String × Toml)

namespace Entries

def find? (entries : Entries) (key : String) : Option Toml :=
  (List.find? (fun e => e.1 == key) entries).map (·.2)

def replace (entries : Entries) (key : String) (value : Toml) : Entries :=
  entries.map fun e => if e.1 == key then (key, value) else e

/-- Gives a dotted key its value. A key is given one value only, and a dotted key goes into tables
that were made by dotted keys. -/
def assign (value : Toml) : List String → Entries → Option Entries
  | [], _ => none
  | [key], entries => if (entries.find? key).isSome then none else some (entries ++ [(key, value)])
  | key :: path, entries =>
    match entries.find? key with
    | none => (assign value path []).map fun inner => entries ++ [(key, .table .dotted inner)]
    | some (.table .dotted inner) =>
      (assign value path inner).map fun inner => entries.replace key (.table .dotted inner)
    | some _ => none

/-- Makes the table of a header. A table has one header only. -/
def addTable : List String → Entries → Option Entries
  | [], _ => none
  | [key], entries =>
    match entries.find? key with
    | none => some (entries ++ [(key, .table .header [])])
    | some (.table .implied inner) => some (entries.replace key (.table .header inner))
    | some _ => none
  | key :: path, entries =>
    match entries.find? key with
    | none => (addTable path []).map fun inner => entries ++ [(key, .table .implied inner)]
    | some (.table .inline _) => none
    | some (.table form inner) =>
      (addTable path inner).map fun inner => entries.replace key (.table form inner)
    | some _ => none

/-- Changes the table at a path. -/
def within (change : Entries → Option Entries) : List String → Entries → Option Entries
  | [], entries => change entries
  | key :: path, entries =>
    match entries.find? key with
    | some (.table form inner) =>
      (within change path inner).map fun inner => entries.replace key (.table form inner)
    | _ => none

end Entries

def isSpace (c : Char) : Bool :=
  c == ' ' || c == '\t'

def skipSpaces (text : List Char) : List Char :=
  text.dropWhile isSpace

def isCommentChar (c : Char) : Bool :=
  c == '\t' || (32 ≤ c.toNat && c.toNat != 127)

def lineBreak? : List Char → Option (List Char)
  | '\n' :: rest => some rest
  | '\r' :: '\n' :: rest => some rest
  | _ => none

def skipComment : List Char → List Char
  | '#' :: rest => rest.dropWhile isCommentChar
  | text => text

/-- What follows the end of a line, before which only spaces and a comment may stand. -/
def lineEnd? (text : List Char) : Option (List Char) :=
  match skipComment (skipSpaces text) with
  | [] => some []
  | rest => lineBreak? rest

def skipFiller : Nat → List Char → List Char
  | 0, text => text
  | fuel + 1, text =>
    match skipSpaces text with
    | '#' :: rest => skipFiller fuel (skipComment ('#' :: rest))
    | rest =>
      match lineBreak? rest with
      | some rest => skipFiller fuel rest
      | none => rest

def hexValue? (c : Char) : Option Nat :=
  if c.isDigit then some (c.toNat - '0'.toNat)
  else if 'a' ≤ c && c ≤ 'f' then some (c.toNat - 'a'.toNat + 10)
  else if 'A' ≤ c && c ≤ 'F' then some (c.toNat - 'A'.toNat + 10)
  else none

def codePoint? (digits : List Char) : Option Char := do
  let n ← digits.foldlM (fun n d => do return 16 * n + (← hexValue? d)) 0
  if n.isValidChar then some (Char.ofNat n) else none

def escape? : Char → Option Char
  | 'b' => some '\x08'
  | 't' => some '\t'
  | 'n' => some '\n'
  | 'f' => some '\x0c'
  | 'r' => some '\r'
  | '"' => some '"'
  | '\\' => some '\\'
  | _ => none

def escaped? : List Char → Option (Char × List Char)
  | 'u' :: a :: b :: c :: d :: rest => (codePoint? [a, b, c, d]).map (·, rest)
  | 'U' :: a :: b :: c :: d :: e :: f :: g :: h :: rest =>
    (codePoint? [a, b, c, d, e, f, g, h]).map (·, rest)
  | c :: rest => (escape? c).map (·, rest)
  | [] => none

def basicString : Nat → List Char → Option (List Char × List Char)
  | 0, _ => none
  | fuel + 1, text =>
    match text with
    | '"' :: rest => some ([], rest)
    | '\\' :: rest => do
      let (c, rest) ← escaped? rest
      let (more, rest) ← basicString fuel rest
      return (c :: more, rest)
    | c :: rest => do
      guard (isCommentChar c)
      let (more, rest) ← basicString fuel rest
      return (c :: more, rest)
    | [] => none

/-- What follows a backslash at the end of a line, with all spaces and line breaks. -/
def foldedLine? (fuel : Nat) (text : List Char) : Option (List Char) := do
  let rest ← lineBreak? (skipSpaces text)
  let rec skip : Nat → List Char → List Char
    | 0, text => text
    | fuel + 1, text =>
      match lineBreak? (skipSpaces text) with
      | some rest => skip fuel rest
      | none => skipSpaces text
  return skip fuel rest

/-- A string of several lines behind its opening quotes. At most two quotes may stand before the
closing ones. -/
def longString : Nat → List Char → Option (List Char × List Char)
  | 0, _ => none
  | fuel + 1, text =>
    match text with
    | '"' :: '"' :: '"' :: '"' :: '"' :: rest => some (['"', '"'], rest)
    | '"' :: '"' :: '"' :: '"' :: rest => some (['"'], rest)
    | '"' :: '"' :: '"' :: rest => some ([], rest)
    | '\\' :: rest =>
      match foldedLine? fuel rest with
      | some rest => longString fuel rest
      | none => do
        let (c, rest) ← escaped? rest
        let (more, rest) ← longString fuel rest
        return (c :: more, rest)
    | '\r' :: '\n' :: rest | '\n' :: rest => do
      let (more, rest) ← longString fuel rest
      return ('\n' :: more, rest)
    | c :: rest => do
      guard (isCommentChar c)
      let (more, rest) ← longString fuel rest
      return (c :: more, rest)
    | [] => none

def literalString : List Char → Option (List Char × List Char)
  | '\'' :: rest => some ([], rest)
  | c :: rest => do
    guard (isCommentChar c)
    let (more, rest) ← literalString rest
    return (c :: more, rest)
  | [] => none

def longLiteral : List Char → Option (List Char × List Char)
  | '\'' :: '\'' :: '\'' :: '\'' :: '\'' :: rest => some (['\'', '\''], rest)
  | '\'' :: '\'' :: '\'' :: '\'' :: rest => some (['\''], rest)
  | '\'' :: '\'' :: '\'' :: rest => some ([], rest)
  | '\r' :: '\n' :: rest => do
    let (more, rest) ← longLiteral rest
    return ('\n' :: more, rest)
  | c :: rest => do
    guard (c == '\n' || isCommentChar c)
    let (more, rest) ← longLiteral rest
    return (c :: more, rest)
  | [] => none

/-- A line break right behind the opening quotes of a string of several lines does not count. -/
def dropFirstBreak (text : List Char) : List Char :=
  (lineBreak? text).getD text

/-- The number that digits write in a base. A single underscore may stand between two digits. -/
def digits? (base : Nat) : Option Nat → List Char → Option Nat
  | n, [] => n
  | some n, '_' :: d :: rest => do
    let v ← hexValue? d
    guard (v < base)
    digits? base (some (base * n + v)) rest
  | n, d :: rest => do
    let v ← hexValue? d
    guard (v < base)
    digits? base (some (base * n.getD 0 + v)) rest

/-- A decimal number; a zero stands in front of no other digit. -/
def decimal? : List Char → Option Nat
  | ['0'] => some 0
  | '0' :: _ => none
  | digits => digits? 10 none digits

/-- An integer of 64 bits. Only decimal numbers have a sign. -/
def integer? (word : List Char) : Option Int := do
  let n : Int ← match word with
    | '0' :: 'x' :: digits => (digits? 16 none digits).map Int.ofNat
    | '0' :: 'o' :: digits => (digits? 8 none digits).map Int.ofNat
    | '0' :: 'b' :: digits => (digits? 2 none digits).map Int.ofNat
    | '+' :: digits => (decimal? digits).map Int.ofNat
    | '-' :: digits => (decimal? digits).map fun n => -Int.ofNat n
    | digits => (decimal? digits).map Int.ofNat
  guard (Int64.minValue.toInt ≤ n && n ≤ Int64.maxValue.toInt)
  return n

def isWordChar (c : Char) : Bool :=
  c.isAlphanum || c == '_' || c == '-' || c == '+' || c == '.' || c == ':'

def scalar? (text : List Char) : Option (Toml × List Char) :=
  let word := text.takeWhile isWordChar
  let rest := text.dropWhile isWordChar
  if word == ['t', 'r', 'u', 'e'] then some (.boolean true, rest)
  else if word == ['f', 'a', 'l', 's', 'e'] then some (.boolean false, rest)
  else (integer? word).map fun n => (.integer n, rest)

def isKeyChar (c : Char) : Bool :=
  c.isAlphanum || c == '_' || c == '-'

def simpleKey? (text : List Char) : Option (String × List Char) :=
  match text with
  | '"' :: rest => (basicString rest.length.succ rest).map fun r => (String.ofList r.1, r.2)
  | '\'' :: rest => (literalString rest).map fun r => (String.ofList r.1, r.2)
  | _ =>
    let word := text.takeWhile isKeyChar
    if word.isEmpty then none else some (String.ofList word, text.dropWhile isKeyChar)

/-- A dotted key, with what follows it and the spaces behind it. -/
def key? : Nat → List Char → Option (List String × List Char)
  | 0, _ => none
  | fuel + 1, text => do
    let (first, rest) ← simpleKey? text
    match skipSpaces rest with
    | '.' :: rest =>
      let (more, rest) ← key? fuel (skipSpaces rest)
      return (first :: more, rest)
    | rest => return ([first], rest)

mutual

def value? : Nat → List Char → Option (Toml × List Char)
  | 0, _ => none
  | fuel + 1, text =>
    match text with
    | '"' :: '"' :: '"' :: rest =>
      (longString fuel (dropFirstBreak rest)).map fun r => (.string (String.ofList r.1), r.2)
    | '"' :: rest => (basicString fuel rest).map fun r => (.string (String.ofList r.1), r.2)
    | '\'' :: '\'' :: '\'' :: rest =>
      (longLiteral (dropFirstBreak rest)).map fun r => (.string (String.ofList r.1), r.2)
    | '\'' :: rest => (literalString rest).map fun r => (.string (String.ofList r.1), r.2)
    | '[' :: rest => (items? fuel rest).map fun r => (.array r.1, r.2)
    | '{' :: rest =>
      match skipSpaces rest with
      | '}' :: rest => some (.table .inline [], rest)
      | rest => (entries? fuel [] rest).map fun r => (.table .inline r.1, r.2)
    | _ => scalar? text

/-- The items of an array up to its closing bracket; a comma may stand behind the last. -/
def items? : Nat → List Char → Option (List Toml × List Char)
  | 0, _ => none
  | fuel + 1, text =>
    match skipFiller fuel text with
    | ']' :: rest => some ([], rest)
    | text => do
      let (item, rest) ← value? fuel text
      match skipFiller fuel rest with
      | ',' :: rest =>
        let (more, rest) ← items? fuel rest
        return (item :: more, rest)
      | ']' :: rest => return ([item], rest)
      | _ => none

/-- The entries of an inline table up to its closing brace. -/
def entries? : Nat → Entries → List Char → Option (Entries × List Char)
  | 0, _, _ => none
  | fuel + 1, entries, text => do
    let (path, rest) ← key? fuel (skipSpaces text)
    let '=' :: rest := rest | none
    let (value, rest) ← value? fuel (skipSpaces rest)
    let entries ← entries.assign value path
    match skipSpaces rest with
    | ',' :: rest => entries? fuel entries rest
    | '}' :: rest => return (entries, rest)
    | _ => none

end

/-- The lines of a document below the header of the table at `path`. -/
def lines? : Nat → List String → Entries → List Char → Option Entries
  | 0, _, _, _ => none
  | fuel + 1, path, entries, text =>
    match skipSpaces text with
    | [] => some entries
    | '[' :: '[' :: _ => none
    | '[' :: rest => do
      let (path, rest) ← key? fuel (skipSpaces rest)
      let ']' :: rest := rest | none
      let rest ← lineEnd? rest
      lines? fuel path (← entries.addTable path) rest
    | rest =>
      match lineEnd? rest with
      | some rest => lines? fuel path entries rest
      | none => do
        let (key, rest) ← key? fuel rest
        let '=' :: rest := rest | none
        let (value, rest) ← value? fuel (skipSpaces rest)
        let rest ← lineEnd? rest
        lines? fuel path (← entries.within (Entries.assign value key) path) rest

/-- The entries of a document. A byte order mark may stand at its start. -/
def document? (text : List Char) : Option Entries :=
  let text := match text with
    | '\ufeff' :: rest => rest
    | text => text
  lines? (text.length + 1) [] [] text

end Toml

end InputFlow
