import InputFlow.Program.Basic
import Std.Data.ExtTreeMap
import Std.Data.ExtTreeSet

namespace InputFlow

@[ext]
structure CallArg where
  callee : FuncId
  position : Nat
deriving DecidableEq, Repr

namespace CallArg

def order : CallArg → CallArg → Ordering :=
  compareLex (compareOn callee) (compareOn position)

theorem eq_of_order {a b : CallArg} (h : order a b = .eq) : a = b := by
  simp only [order, compareLex, Ordering.then_eq_eq] at h
  exact CallArg.ext (Nat.compare_eq_eq.1 h.1) (Nat.compare_eq_eq.1 h.2)

instance : Ord CallArg where
  compare := order

instance : Std.TransCmp order := by
  unfold order
  infer_instance

instance : Std.TransOrd CallArg :=
  inferInstanceAs (Std.TransCmp order)

instance : Std.LawfulEqOrd CallArg where
  eq_of_compare := eq_of_order

end CallArg

/-- What can be derived from the fact of a value: the final content of a slot, the fact of an
instruction, what is written through a pointer parameter, an argument of the calls of a function, and
the returned fact. -/
inductive Derived where
  | slot (value : ValueId)
  | inst (id : ValueId)
  | outArg (param : ValueId)
  | callArg (arg : CallArg)
  | returned
deriving DecidableEq, Repr

namespace Derived

/-- The kind and the two numbers that tell a derived fact from all others. -/
def key : Derived → Nat × Nat × Nat
  | slot v => (0, v, 0)
  | inst i => (1, i, 0)
  | outArg v => (2, v, 0)
  | callArg arg => (3, arg.callee, arg.position)
  | returned => (4, 0, 0)

theorem key_injective {a b : Derived} (h : a.key = b.key) : a = b := by
  cases a <;> cases b <;> simp_all [key]
  exact CallArg.ext_iff.2 h

def order : Derived → Derived → Ordering :=
  compareLex (compareOn fun d : Derived => d.key.1)
    (compareLex (compareOn fun d : Derived => d.key.2.1) (compareOn fun d : Derived => d.key.2.2))

theorem eq_of_order {a b : Derived} (h : order a b = .eq) : a = b := by
  simp only [order, compareLex, Ordering.then_eq_eq] at h
  exact key_injective (Prod.ext (Nat.compare_eq_eq.1 h.1)
    (Prod.ext (Nat.compare_eq_eq.1 h.2.1) (Nat.compare_eq_eq.1 h.2.2)))

instance : Ord Derived where
  compare := order

instance : Std.TransCmp order := by
  unfold order
  infer_instance

instance : Std.TransOrd Derived :=
  inferInstanceAs (Std.TransCmp order)

instance : Std.LawfulEqOrd Derived where
  eq_of_compare := eq_of_order

end Derived

/-- For every source the facts derived from it; a source without any has no entry. -/
abbrev Derivations := Std.ExtTreeMap ValueId (Std.ExtTreeSet Derived)

namespace Derivations

def empty : Derivations := ∅

/-- Everything derived from a source, in ascending order. -/
def of (d : Derivations) (source : ValueId) : List Derived :=
  match d[source]? with
  | some set => set.toList
  | none => []

def record (d : Derivations) (source : ValueId) (derived : Derived) : Derivations :=
  d.alter source fun set => some ((set.getD ∅).insert derived)

def forget (d : Derivations) (source : ValueId) (derived : Derived) : Derivations :=
  d.alter source fun set =>
    let rest := (set.getD ∅).erase derived
    if rest.isEmpty then none else some rest

def drop (d : Derivations) (source : ValueId) : Derivations :=
  d.erase source

def contains (d : Derivations) (source : ValueId) : Bool :=
  Std.ExtTreeMap.contains d source

def isEmpty (d : Derivations) : Bool :=
  Std.ExtTreeMap.isEmpty d

end Derivations

end InputFlow
