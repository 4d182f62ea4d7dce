import InputFlow.Source.Cursor
import InputFlow.Source.Draft

namespace InputFlow.Source

namespace Reader

def valueName : Reader String := do
  expect '%'
  word

def blockName : Reader String := do
  expect '^'
  word

/-- A value operand: `%local`, or `@global` of a global defined before. -/
def operand (u : Unlinked) : Reader Ref := do
  if (← peek) = .mark '@' then
    advance
    let name ← word
    match u.global? name with
    | some id => return .global id
    | none => stop (.undefinedGlobal name)
  else return .name (← valueName)

/-- Operands up to the end of the line; a comma may stand behind the last. -/
def operandList (u : Unlinked) : Reader (List Ref) :=
  loop (fun read => do
    match ← peekInLine with
    | some (.mark '%') | some (.mark '@') =>
      let read := read ++ [← operand u]
      if (← peekInLine) = some (.mark ',') then
        advance
        return .again read
      else return .done read
    | _ => return .done read) []

def targetList : Reader (List String) :=
  loop (fun read => do
    let read := read ++ [← blockName]
    if ← accept ',' then return .again read else return .done read) []

def operandPair (u : Unlinked) : Reader (Ref × Ref) := do
  let first ← operand u
  expect ','
  return (first, ← operand u)

def code (u : Unlinked) : Opcode → Reader (Code Ref String String)
  | .any => do return .any (← operandList u)
  | .add => do
    let (a, b) ← operandPair u
    return .binary .add a b
  | .sub => do
    let (a, b) ← operandPair u
    return .binary .sub a b
  | .mul => do
    let (a, b) ← operandPair u
    return .binary .mul a b
  | .cmp => do
    let (a, b) ← operandPair u
    return .binary .cmp a b
  | .const => do return .const (← number)
  | .alloca => do
    let size ← number
    expect ','
    return .alloca size (← number)
  | .load => do return .load (← operand u)
  | .store => do
    let (value, pointer) ← operandPair u
    return .store value pointer
  | .gep => do
    match ← operandList u with
    | base :: indices => return .gep base indices
    | [] => stop .noBase
  | .call => do
    if (← peekInLine) = some (.mark '@') then
      advance
      let callee ← word
      if (← peekInLine) = some (.mark ',') then
        advance
        return .call callee (← operandList u)
      else return .call callee []
    else stop .noCallee
  | .terminate => return .terminate
  | .ret => do
    match ← peekInLine with
    | none => return .ret none
    | some _ => return .ret (some (← operand u))
  | .br => do return .br (← blockName)
  | .condbr => do
    let condition ← operand u
    expect ','
    let yes ← blockName
    expect ','
    return .condbr condition yes (← blockName)
  | .tbz => do
    let tested ← operand u
    expect ','
    let zero ← blockName
    expect ','
    let nonzero ← blockName
    expect ','
    return .tbz tested zero nonzero (← number)
  | .jump => do return .jump (← targetList)

def mnemonic : Reader Opcode := do
  let text ← word
  match Opcode.ofMnemonic? text with
  | some op => return op
  | none => stop (.unknownOperation text)

/-- The result of an instruction, if it has one, and its operation. A definition that goes on with
an operand or ends its line performs `any`. -/
def resultAndOpcode : Reader (Option String × Opcode) := do
  if (← peek) = .mark '%' then
    let name ← valueName
    expect '='
    match ← peekInLine with
    | none | some (.mark '%') | some (.mark '@') => return (some name, .any)
    | some _ => return (some name, ← mnemonic)
  else return (none, ← mnemonic)

/-- An instruction; `defined` holds the names defined before it in the function. -/
def instruction (u : Unlinked) (defined : List String) : Reader DraftValue := do
  let (name?, op) ← resultAndOpcode
  match name? with
  | some name =>
    if !op.isDefinition then stop (.noResult op)
    else if name ∈ defined then stop (.duplicateValue name)
    else return ⟨name, .inst (← code u op)⟩
  | none =>
    if op.isDefinition && op != .call then stop (.needsResult op)
    else return ⟨"", .inst (← code u op)⟩

def incomingPair (u : Unlinked) : Reader (Ref × String) := do
  expect '['
  let block ← blockName
  expect ','
  let value ← operand u
  expect ']'
  return (value, block)

/-- A phi, as in `%x = phi [^b, %y], [^c, %z]`. -/
def phi (u : Unlinked) : Reader DraftValue := do
  let name ← valueName
  expect '='
  let _ ← word
  let incoming ← loop (fun read => do
    let read := read ++ [← incomingPair u]
    if (← peekInLine) = some (.mark ',') then
      advance
      return .again read
    else return .done read) []
  return ⟨name, .phi incoming⟩

/-- Whether a block ends before these tokens: at a closing brace, where the next block starts, or
with the text. -/
def endsBlock : List Token → Bool
  | .mark '}' :: _ => true
  | .word _ :: .mark ':' :: _ => true
  | .finish :: _ => true
  | [] => true
  | _ => false

def startsPhi : List Token → Bool
  | [.mark '%', .word _, .mark '=', .word operation] => operation == "phi"
  | _ => false

/-- The values of a block; `defined` holds the names defined before it in the function. -/
def blockBody (u : Unlinked) (defined : List String) (name : String) : Reader DraftBlock :=
  loop (fun (b : DraftBlock) => do
    let _ ← peek
    let ahead := (← get).ahead 4
    if endsBlock ahead then return .done b
    else if startsPhi ahead then
      if b.phiCount < b.values.length then stop .latePhi
      else return .again { b with phiCount := b.phiCount + 1, values := b.values ++ [← phi u] }
    else
      let value ← instruction u (defined ++ b.values.map (·.name))
      return .again { b with values := b.values ++ [value] }) ⟨name, 0, []⟩

def block (u : Unlinked) (f : DraftFunction) : Reader DraftBlock := do
  let name ← word
  expect ':'
  if name ∈ f.blockNames then stop (.duplicateBlock name)
  else blockBody u f.valueNames name

/-- The parameters behind an opening parenthesis; a comma may stand behind the last. -/
def params : Reader (List String) :=
  loop (fun read => do
    if ← accept ')' then return .done read
    else
      let name ← valueName
      unless ← accept ',' do
        unless (← peek) = .mark ')' do stop .openParameterList
      return .again (read ++ [name])) []

/-- The blocks behind an opening brace, read into a function without any. -/
def blocks (u : Unlinked) (f : DraftFunction) : Reader DraftFunction :=
  loop (fun (f : DraftFunction) => do
    if ← accept '}' then return .done f
    else if (← peek) = .finish then stop (.openBody f.name)
    else return .again { f with body? := some (f.blocks ++ [← block u f]) }) { f with body? := some [] }

/-- A function, added to the program read before it. It is declared by `name(%a, %b)!`, or has a
body of named blocks between braces. -/
def function (u : Unlinked) : Reader Unlinked := do
  let name ← word
  if u.hasFunction name then stop (.duplicateFunction name)
  expect '('
  let declared : DraftFunction := ⟨name, ← params, none⟩
  let f ← if ← accept '!' then pure declared else
    expect '{'
    blocks u declared
  match u.addFunction f with
  | .ok u => return u
  | .error error => stop error

/-- A global, as in `@g = global`, added to the program read before it. -/
def global (u : Unlinked) : Reader Unlinked := do
  expect '@'
  let name ← word
  expect '='
  let keyword ← word
  if keyword ≠ "global" then stop (.expectedGlobalKeyword keyword)
  else if (u.global? name).isSome then stop (.duplicateGlobal name)
  else return u.addGlobal name

def unlinked : Reader Unlinked :=
  loop (fun u => do
    match ← peek with
    | .finish => return .done u
    | .mark '@' => return .again (← global u)
    | _ => return .again (← function u)) {}

end Reader

/-- The program of a text, which is a sequence of globals and functions. A line break ends operand
lists, a `ret` without a value and a definition without an operation; everywhere else it is a blank.
-/
def parse (text : List Char) : Except Failure Program :=
  match (Reader.unlinked.run ⟨0, lexemes text⟩) with
  | .error failure => .error failure
  | .ok (u, _) =>
    match u.link with
    | .ok p => .ok p
    | .error error => .error ⟨error, none⟩

end InputFlow.Source
