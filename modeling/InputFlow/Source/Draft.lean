import InputFlow.Program.Basic
import InputFlow.Source.Error

namespace InputFlow.Source

/-- A value operand as written: a local name, or a global, which is known when it is used. -/
inductive Ref where
  | name (text : String)
  | global (id : ValueId)
deriving DecidableEq, Repr

abbrev DraftValue := Value Ref String String

/-- A block as written. Its first `phiCount` values are phis. -/
structure DraftBlock where
  name : String
  phiCount : Nat
  values : List DraftValue

/-- A function as written; a declaration has no body. -/
structure DraftFunction where
  name : String
  params : List String
  body? : Option (List DraftBlock)

def lastIndex? (name : String) : List String → Option Nat
  | [] => none
  | x :: xs =>
    match lastIndex? name xs with
    | some i => some (i + 1)
    | none => if x = name then some 0 else none

namespace DraftFunction

def blocks (f : DraftFunction) : List DraftBlock :=
  f.body?.getD []

def paramValues (f : DraftFunction) : List (Value ValueId BlockId String) :=
  f.params.map fun name => ⟨name, .param⟩

/-- The names of all values in the order of their numbers. -/
def valueNames (f : DraftFunction) : List String :=
  f.params ++ f.blocks.flatMap fun b => b.values.map (·.name)

def blockNames (f : DraftFunction) : List String :=
  f.blocks.map (·.name)

/-- The value an operand means, when the function's values are numbered from `base`. A name that
several values of the function share stands for the last of them. -/
def resolveValue (f : DraftFunction) (base : Nat) : Ref → Except ParseError ValueId
  | .global id => .ok id
  | .name text =>
    match lastIndex? text f.valueNames with
    | some i => .ok (base + i)
    | none => .error (.undefinedValue text)

/-- The block a name means, when the function's blocks are numbered from `base`. -/
def resolveBlock (f : DraftFunction) (base : Nat) (name : String) : Except ParseError BlockId :=
  match lastIndex? name f.blockNames with
  | some i => .ok (base + i)
  | none => .error (.undefinedBlock name)

def resolveOperands (f : DraftFunction) (valueBase : Nat) :
    Except ParseError (List (Value ValueId String String)) :=
  (f.blocks.flatMap (·.values)).mapM fun v => do
    return ⟨v.name, ← v.definition.traverse (f.resolveValue valueBase) pure pure⟩

/-- The values of the body with all but their callees resolved. The first undefined value is
reported before any undefined block. -/
def resolve (f : DraftFunction) (valueBase blockBase : Nat) :
    Except ParseError (List (Value ValueId BlockId String)) := do
  (← f.resolveOperands valueBase).mapM fun v => do
    return ⟨v.name, ← v.definition.traverse pure (f.resolveBlock blockBase) pure⟩

end DraftFunction

/-- The blocks of a body whose values are numbered from `first`. -/
def layBlocks (first : ValueId) : List DraftBlock → List Block
  | [] => []
  | b :: rest =>
    let stop := first + b.values.length
    ⟨b.name, first, first + b.phiCount, stop⟩ :: layBlocks stop rest

end InputFlow.Source

namespace InputFlow

open Source

namespace Unlinked

def addGlobal (u : Unlinked) (name : String) : Unlinked :=
  { u with
    values := u.values.push ⟨name, .global⟩
    globals := u.globals ++ [u.values.size] }

def addFunction (u : Unlinked) (f : DraftFunction) : Except ParseError Unlinked := do
  let first := u.values.size + f.params.length
  let body ← f.resolve u.values.size u.blocks.size
  let blocks := layBlocks first f.blocks
  return { u with
    functions := u.functions.push
      { name := f.name
        isDeclaration := f.body?.isNone
        blocks := ⟨u.blocks.size, u.blocks.size + blocks.length⟩
        params := ⟨u.values.size, first⟩ }
    blocks := u.blocks ++ blocks
    values := u.values ++ f.paramValues ++ body }

def global? (u : Unlinked) (name : String) : Option ValueId :=
  u.globals.find? fun g => (u.values[g]?.map (·.name)) == some name

def hasFunction (u : Unlinked) (name : String) : Bool :=
  u.functions.any fun f => f.name == name

def resolveCallee (u : Unlinked) (name : String) : Except ParseError (Option FuncId) :=
  match u.functions.findIdx? (fun f => f.name == name) with
  | some f => .ok (some f)
  | none => .error (.undefinedFunction name)

def link (u : Unlinked) : Except ParseError Program := do
  let values ← u.values.toList.mapM fun v => do
    return ⟨v.name, ← v.definition.traverse pure pure u.resolveCallee⟩
  return { functions := u.functions, blocks := u.blocks, values := values.toArray, globals := u.globals }

end Unlinked

end InputFlow
