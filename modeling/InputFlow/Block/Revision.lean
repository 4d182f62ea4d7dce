import InputFlow.Block.Transfer

namespace InputFlow

/-- What a revision has changed: values whose fact at the end of the block went up, the number of
times that the fact of an instruction did, and whether a fact on arguments or the return did. -/
structure Outcome where
  changedValues : Std.ExtTreeSet ValueId := ∅
  changedInstructions : Nat := 0
  changedEffects : Bool := false

namespace Outcome

def isUnchanged (o : Outcome) : Bool :=
  o.changedValues.isEmpty && o.changedInstructions == 0 && !o.changedEffects

/-- Whether the blocks that follow may have to be revised. -/
def exitChanged (o : Outcome) : Bool :=
  !o.changedValues.isEmpty

end Outcome

/-- A revision in progress: the changed facts whose consequences are still to be drawn, and the
values for which this has been done. -/
structure Revision where
  state : BlockState
  outcome : Outcome := {}
  pending : List (ValueId × Dep) := []
  passed : List ValueId := []

namespace Revision

def valueChanged (r : Revision) (v : ValueId) : Revision :=
  { r with outcome := { r.outcome with changedValues := r.outcome.changedValues.insert v } }

def effectChanged (r : Revision) (changed : Bool) : Revision :=
  { r with outcome := { r.outcome with changedEffects := r.outcome.changedEffects || changed } }

/-- Joins a fact into that of an instruction. The result of a changed instruction is pending. -/
def joinInstruction (r : Revision) (p : Program) (i : ValueId) (fact : Dep) : Revision :=
  let old := r.state.instructions.fact i
  let new := old.join fact
  let r := { r with state := { r.state with instructions := r.state.instructions.insert i new } }
  if old.grows fact then
    let r := { r with
      outcome := { r.outcome with changedInstructions := r.outcome.changedInstructions + 1 } }
    if p.isAlloca i || !p.hasResult i then r
    else
      let r := { r with state := { r.state with values := r.state.values.insert i new } }
      { r.valueChanged i with pending := r.pending ++ [(i, new)] }
  else r

def joinSlot (r : Revision) (slot : ValueId) (fact : Dep) : Revision :=
  let changed := (r.state.values.fact slot).grows fact
  let r := { r with
    state := { r.state with
      values := r.state.values.joinAt slot fact
      slots := r.state.slots.modify slot fun state => { state with fact := state.fact.join fact } } }
  if changed then r.valueChanged slot else r

def joinDerived (r : Revision) (p : Program) (fact : Dep) : Derived → Revision
  | .inst i => r.joinInstruction p i fact
  | .slot v => r.joinSlot v fact
  | .outArg v =>
    { r with state := { r.state with outArgs := r.state.outArgs.joinAt v fact } }.effectChanged
      ((r.state.outArgs.fact v).grows fact)
  | .callArg arg =>
    { r with state := { r.state with callArgs := r.state.callArgs.joinAt arg fact } }.effectChanged
      ((r.state.callArgs.fact arg).grows fact)
  | .returned =>
    let old := r.state.returned.getD .unknown
    { r with state := { r.state with returned := some (old.join fact) } }.effectChanged
      (old.grows fact)

def step (r : Revision) (p : Program) : Revision :=
  match r.pending with
  | [] => r
  | (source, fact) :: rest =>
    (r.state.derivations.of source).foldl (fun r derived => r.joinDerived p fact derived)
      { r with pending := rest, passed := r.passed ++ [source] }

def cascade (p : Program) : Nat → Revision → Revision
  | 0, r => r
  | fuel + 1, r => if r.pending.isEmpty then r else cascade p fuel (r.step p)

def derivedInstructions (d : Derivations) : Nat :=
  (Std.ExtTreeSet.ofList (d.toList.flatMap fun entry => entry.2.toList.filterMap fun
    | .inst i => some i
    | _ => none)).size

def occurringSources (fact : Dep) (instructions : FactMap) : Nat :=
  (instructions.foldl (fun sources _ a => sources ∪ a.sources) fact.sources).size

/-- How many facts can become pending when `fact` does: every instruction can change once for each
source, and once each to be independent and to be dependent. -/
def bound (r : Revision) (fact : Dep) : Nat :=
  1 + derivedInstructions r.state.derivations *
    (occurringSources fact r.state.instructions + 2)

/-- Draws all consequences of a new fact of a value. -/
def spread (r : Revision) (p : Program) (v : ValueId) (fact : Dep) : Revision :=
  cascade p (r.bound fact) { r with pending := [(v, fact)] }

def joinEntry (r : Revision) (p : Program) (v : ValueId) (fact : Dep) : Revision :=
  let old := r.state.entry.fact v
  let new := old.join fact
  let r := { r with state := { r.state with entry := r.state.entry.insert v new } }
  if old.grows fact then
    let r := if r.state.defined.contains v then r
      else
        let changed := (r.state.values.fact v).grows new
        let r := { r with state := { r.state with values := r.state.values.joinAt v new } }
        if changed then r.valueChanged v else r
    r.spread p v new
  else r

end Revision

namespace BlockState

/-- The facts on entry that a list of predecessors makes; `initial` has the facts of values that no
predecessor mentions. -/
def mergedEntry (preds : List FactMap) (initial : FactMap) : FactMap :=
  (Facts.joinAll preds).orElse initial

/-- Revises a block for the facts at the end of its predecessors. Instead of analysing the block
again, a changed fact is joined into all that was derived from it. With `release`, what was derived
from revised values is forgotten afterwards. A block whose facts are final stays as it is. -/
def revise (s : BlockState) (p : Program) (preds : List FactMap) (initial : FactMap)
    (release : Bool) : BlockState × Outcome :=
  if s.isFinal then (s.warn [.lateRevision s.block], {})
  else
    let r := (mergedEntry preds initial).toList.foldl (fun r v => r.joinEntry p v.1 v.2)
      { state := s : Revision }
    let state := if release then
        { r.state with derivations := r.passed.foldl (fun d v => d.drop v) r.state.derivations }
      else r.state
    (state, r.outcome)

/-- Makes the facts of a block final: values that the block never met take their initial facts, and
what is unknown counts as independent. -/
def conclude (s : BlockState) (initial : FactMap) : BlockState :=
  { s with
    values := (s.values.orElse initial).settle
    derivations := ∅
    isFinal := true }

end BlockState

end InputFlow
