import InputFlow.Program.Query

namespace InputFlow

/-- A value by its number, for values that need not have a name. -/
def valueLabel (v : ValueId) : String :=
  s!"ValueRef({v})"

inductive AliasError where
  | unavailable
  | unknownValue (v : ValueId)
  | cyclicAddress (v : ValueId)
  | other (reason : String)
deriving DecidableEq, Repr

def AliasError.message : AliasError → String
  | unavailable => "alias oracle unavailable"
  | unknownValue v => s!"alias query failed: unknown value {valueLabel v}"
  | cyclicAddress v => s!"alias query failed: cyclic address chain at {valueLabel v}"
  | other reason => s!"alias query failed: {reason}"

/-- An oracle answers whether two pointers may lead to the same storage, or fails to. -/
abbrev Oracle := ValueId → ValueId → Except AliasError Bool

namespace Oracle

def identity : Oracle :=
  fun a b => .ok (a == b)

def conservative : Oracle :=
  fun _ _ => .ok true

/-- The oracle's answer, where a failed query counts as "may alias". -/
def mayAlias (oracle : Oracle) (a b : ValueId) : Bool :=
  match oracle a b with
  | .ok answer => answer
  | .error _ => true

end Oracle

/-- The storage a pointer leads to: that of a named value, or any. -/
inductive Root where
  | named (v : ValueId)
  | anywhere
deriving DecidableEq, Repr

namespace Program

variable (p : Program)

/-- Follows the bases of element addresses for at most `fuel` steps; `origin` is where it began. -/
def rootFrom (origin : ValueId) : Nat → ValueId → Except AliasError Root
  | 0, _ => .error (.cyclicAddress origin)
  | fuel + 1, v =>
    match p.definition? v with
    | none => .error (.unknownValue v)
    | some .global | some .param | some (.inst (.alloca _ _)) => .ok (.named v)
    | some (.inst (.gep base _)) => rootFrom origin fuel base
    | some _ => .ok .anywhere

/-- The root of a pointer. A chain of element addresses longer than the program is cyclic. -/
def root (v : ValueId) : Except AliasError Root :=
  p.rootFrom v (p.values.size + 1) v

/-- The oracle that goes by the text of the program: stack slots, globals and parameters are apart
from one another, and a pointer of unknown origin may lead anywhere. -/
def syntacticOracle : Oracle := fun a b =>
  if a = b then .ok true
  else do
    match ← p.root a, ← p.root b with
    | .named x, .named y => return x == y
    | _, _ => return true

end Program

end InputFlow
