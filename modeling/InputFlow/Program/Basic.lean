namespace InputFlow

/-- The operations an instruction can perform. `any` is an unspecified computation, written by
leaving the mnemonic out. -/
inductive Opcode where
  | any | add | sub | mul | cmp | const | alloca | load | store | gep | call
  | terminate | ret | br | condbr | tbz | jump
deriving DecidableEq, Repr

namespace Opcode

def mnemonic : Opcode → String
  | any => "any"
  | add => "add"
  | sub => "sub"
  | mul => "mul"
  | cmp => "cmp"
  | const => "const"
  | alloca => "alloca"
  | load => "load"
  | store => "store"
  | gep => "gep"
  | call => "call"
  | terminate => "terminate"
  | ret => "ret"
  | br => "br"
  | condbr => "condbr"
  | tbz => "tbz"
  | jump => "jump"

/-- The operation a program text names; `any` has no written name. -/
def ofMnemonic? (word : String) : Option Opcode :=
  [add, sub, mul, cmp, const, alloca, load, store, gep, call, terminate, ret, br, condbr, tbz,
    jump].find? fun op => op.mnemonic == word

def isTerminator : Opcode → Bool
  | terminate | ret | br | condbr | tbz | jump => true
  | _ => false

def isDefinition : Opcode → Bool
  | any | add | sub | mul | cmp | const | alloca | load | gep | call => true
  | _ => false

/-- The number of value operands, `none` where it is free. -/
def operandCount? : Opcode → Option Nat
  | any | gep | call | ret => none
  | add | sub | mul | cmp | store => some 2
  | load | condbr | tbz => some 1
  | _ => some 0

/-- The number of target blocks, `none` where it is free. -/
def targetCount? : Opcode → Option Nat
  | br => some 1
  | condbr | tbz => some 2
  | jump => none
  | _ => some 0

def literalCount : Opcode → Nat
  | const | tbz => 1
  | alloca => 2
  | _ => 0

end Opcode

abbrev ValueId := Nat
abbrev BlockId := Nat
abbrev FuncId := Nat

inductive Binary where
  | add | sub | mul | cmp
deriving DecidableEq, Repr

def Binary.opcode : Binary → Opcode
  | add => .add
  | sub => .sub
  | mul => .mul
  | cmp => .cmp

/-- What an instruction does, with value operands in `ρ`, target blocks in `τ` and called functions
in `κ`. -/
inductive Code (ρ τ κ : Type) where
  | any (operands : List ρ)
  | binary (op : Binary) (left right : ρ)
  | const (literal : Nat)
  | alloca (size align : Nat)
  | load (pointer : ρ)
  | store (value pointer : ρ)
  | gep (base : ρ) (indices : List ρ)
  | call (callee : κ) (args : List ρ)
  | terminate
  | ret (value : Option ρ)
  | br (target : τ)
  | condbr (condition : ρ) (yes no : τ)
  | tbz (tested : ρ) (zero nonzero : τ) (bit : Nat)
  | jump (targets : List τ)
deriving DecidableEq, Repr

namespace Code

variable {ρ τ κ ρ' τ' κ' : Type}

def opcode : Code ρ τ κ → Opcode
  | any _ => .any
  | binary op _ _ => op.opcode
  | const _ => .const
  | alloca _ _ => .alloca
  | load _ => .load
  | store _ _ => .store
  | gep _ _ => .gep
  | call _ _ => .call
  | terminate => .terminate
  | ret _ => .ret
  | br _ => .br
  | condbr _ _ _ => .condbr
  | tbz _ _ _ _ => .tbz
  | jump _ => .jump

def operands : Code ρ τ κ → List ρ
  | any xs => xs
  | binary _ a b => [a, b]
  | load p => [p]
  | store v p => [v, p]
  | gep base xs => base :: xs
  | call _ xs => xs
  | ret v => v.toList
  | condbr c _ _ => [c]
  | tbz c _ _ _ => [c]
  | _ => []

def targets : Code ρ τ κ → List τ
  | br b => [b]
  | condbr _ b c => [b, c]
  | tbz _ b c _ => [b, c]
  | jump bs => bs
  | _ => []

def literals : Code ρ τ κ → List Nat
  | const n => [n]
  | alloca size align => [size, align]
  | tbz _ _ _ bit => [bit]
  | _ => []

/-- Replaces the operands, targets and callee by what the three functions make of them. -/
def traverse {m : Type → Type} [Monad m] (onValue : ρ → m ρ') (onBlock : τ → m τ')
    (onCallee : κ → m κ') : Code ρ τ κ → m (Code ρ' τ' κ')
  | any xs => do return any (← xs.mapM onValue)
  | binary op a b => do return binary op (← onValue a) (← onValue b)
  | const n => return const n
  | alloca size align => return alloca size align
  | load p => do return load (← onValue p)
  | store v p => do return store (← onValue v) (← onValue p)
  | gep base xs => do return gep (← onValue base) (← xs.mapM onValue)
  | call f xs => do return call (← onCallee f) (← xs.mapM onValue)
  | terminate => return terminate
  | ret none => return ret none
  | ret (some v) => do return ret (some (← onValue v))
  | br b => do return br (← onBlock b)
  | condbr c b d => do return condbr (← onValue c) (← onBlock b) (← onBlock d)
  | tbz c b d bit => do return tbz (← onValue c) (← onBlock b) (← onBlock d) bit
  | jump bs => do return jump (← bs.mapM onBlock)

end Code

inductive Definition (ρ τ κ : Type) where
  | global
  | param
  | phi (incoming : List (ρ × τ))
  | inst (code : Code ρ τ κ)
deriving DecidableEq, Repr

namespace Definition

variable {ρ τ κ ρ' τ' κ' : Type}

/-- Replaces the references as `Code.traverse` does; a phi's values go before its blocks. -/
def traverse {m : Type → Type} [Monad m] (onValue : ρ → m ρ') (onBlock : τ → m τ')
    (onCallee : κ → m κ') : Definition ρ τ κ → m (Definition ρ' τ' κ')
  | global => return global
  | param => return param
  | phi incoming => do
    let values ← (incoming.map (·.1)).mapM onValue
    let blocks ← (incoming.map (·.2)).mapM onBlock
    return phi (values.zip blocks)
  | inst code => do return inst (← code.traverse onValue onBlock onCallee)

def operands : Definition ρ τ κ → List ρ
  | phi incoming => incoming.map (·.1)
  | inst code => code.operands
  | _ => []

def targets : Definition ρ τ κ → List τ
  | inst code => code.targets
  | _ => []

end Definition

/-- A named value; an instruction without a result has the empty name. -/
structure Value (ρ τ κ : Type) where
  name : String
  definition : Definition ρ τ κ
deriving DecidableEq, Repr

/-- The numbers from `start` up to, but not including, `stop`. -/
structure Span where
  start : Nat
  stop : Nat
deriving DecidableEq, Repr

namespace Span

def toList (s : Span) : List Nat :=
  List.range' s.start (s.stop - s.start)

def isEmpty (s : Span) : Bool :=
  s.stop ≤ s.start

end Span

/-- A block: its values are numbered from `first` to `stop`, and those below `phiStop` are phis. -/
structure Block where
  name : String
  first : ValueId
  phiStop : ValueId
  stop : ValueId
deriving DecidableEq, Repr

namespace Block

def phis (b : Block) : Span :=
  ⟨b.first, b.phiStop⟩

def body (b : Block) : Span :=
  ⟨b.phiStop, b.stop⟩

def values (b : Block) : Span :=
  ⟨b.first, b.stop⟩

end Block

/-- A function: a declaration has no blocks of its own. -/
structure Function where
  name : String
  isDeclaration : Bool
  blocks : Span
  params : Span
deriving DecidableEq, Repr

/-- The functions, blocks and values of a program, with called functions given in `κ`. All values
(globals, parameters, phis and instructions) share one numbering, and so do the blocks and the
functions. -/
structure Module (κ : Type) where
  functions : Array Function := #[]
  blocks : Array Block := #[]
  values : Array (Value ValueId BlockId κ) := #[]
  globals : List ValueId := []
deriving DecidableEq, Repr

/-- A program whose calls name their functions. -/
abbrev Unlinked := Module String

/-- A program whose calls know their functions; `none` is a call of an unknown function. -/
abbrev Program := Module (Option FuncId)

end InputFlow
