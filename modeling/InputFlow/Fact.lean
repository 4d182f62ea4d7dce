import InputFlow.Program.Basic
import Std.Data.ExtTreeMap
import Std.Data.ExtTreeSet

namespace InputFlow

/-- A finite set of sources of input. -/
abbrev Sources (α : Type) [Ord α] := Std.ExtTreeSet α

/-- How a value depends on input: not known yet, not at all, or on the given sources, in ascending
order. Dependent facts are ordered by their sets of sources. One may have lost its sources. -/
inductive Fact (α : Type) [Ord α] where
  | unknown
  | independent
  | dependent (sources : Sources α)

inductive Level where
  | unknown | independent | dependent
deriving DecidableEq, Repr

namespace Level

def rank : Level → Nat
  | unknown => 0
  | independent => 1
  | dependent => 2

def name : Level → String
  | unknown => "unknown"
  | independent => "independent"
  | dependent => "dependent"

end Level

namespace Fact

variable {α : Type} [Ord α] [Std.TransOrd α]

def on (source : α) : Fact α :=
  .dependent {source}

def onAll (sources : List α) : Fact α :=
  .dependent (Std.ExtTreeSet.ofList sources)

def level : Fact α → Level
  | unknown => .unknown
  | independent => .independent
  | dependent _ => .dependent

def sources : Fact α → Sources α
  | dependent s => s
  | _ => ∅

def isUnknown (a : Fact α) : Bool :=
  a.level == .unknown

def isIndependent (a : Fact α) : Bool :=
  a.level == .independent

def isDependent (a : Fact α) : Bool :=
  a.level == .dependent

/-- The least fact above both. -/
def join : Fact α → Fact α → Fact α
  | a, unknown => a
  | dependent s, dependent t => .dependent (s ∪ t)
  | dependent s, independent => dependent s
  | independent, independent => independent
  | unknown, b => b
  | independent, b => b

/-- Whether joining `b` into `a` changes `a`. -/
def grows : Fact α → Fact α → Bool
  | _, unknown => false
  | dependent s, dependent t => (s ∪ t).size != s.size
  | dependent _, independent => false
  | independent, independent => false
  | unknown, _ => true
  | independent, _ => true

def joinAll (facts : List (Fact α)) : Fact α :=
  facts.foldl join unknown

/-- Takes what is still unknown for independent. -/
def settle : Fact α → Fact α
  | unknown => independent
  | a => a

/-- Whether `a` is at most as dependent as `b`. -/
def below : Fact α → Fact α → Bool
  | unknown, _ => true
  | independent, unknown => false
  | independent, _ => true
  | dependent s, dependent t => s.toList.all fun x => t.contains x
  | dependent _, _ => false

instance : LE (Fact α) where
  le a b := a.below b = true

instance (a b : Fact α) : Decidable (a ≤ b) :=
  inferInstanceAs (Decidable (a.below b = true))

instance [Std.LawfulEqOrd α] : DecidableEq (Fact α)
  | unknown, unknown => isTrue rfl
  | independent, independent => isTrue rfl
  | dependent s, dependent t =>
    if h : s = t then isTrue (by rw [h]) else isFalse (by simpa using h)
  | unknown, independent | unknown, dependent _ | independent, unknown | independent, dependent _
  | dependent _, unknown | dependent _, independent => isFalse (by simp)

end Fact

/-- A fact whose sources are values of a program. -/
abbrev Dep := Fact ValueId

abbrev Facts (κ : Type) [Ord κ] := Std.ExtTreeMap κ Dep

/-- Facts by value. The entry of a storage slot is the fact of its content, never of its address. -/
abbrev FactMap := Facts ValueId

namespace Facts

variable {κ : Type} [Ord κ] [Std.TransOrd κ]

def fact (m : Facts κ) (k : κ) : Dep :=
  m.getD k .unknown

def joinAt (m : Facts κ) (k : κ) (a : Dep) : Facts κ :=
  m.insert k ((m.fact k).join a)

/-- The join of two maps, key by key. -/
def join (m n : Facts κ) : Facts κ :=
  m ∪ n.map fun k a => (m.fact k).join a

def joinAll (maps : List (Facts κ)) : Facts κ :=
  maps.foldl join ∅

/-- Takes the facts of keys without an entry from another map. -/
def orElse (m other : Facts κ) : Facts κ :=
  other ∪ m

/-- Takes what is still unknown for independent. -/
def settle (m : Facts κ) : Facts κ :=
  m.map fun _ a => a.settle

end Facts

end InputFlow
