import InputFlow.Alias
import InputFlow.Block.Derivations
import InputFlow.Fact

namespace InputFlow

inductive Warning where
  | aliasQuery (a b : ValueId) (error : AliasError)
  | lateRevision (block : BlockId)
deriving DecidableEq, Repr

def Warning.message : Warning → String
  | aliasQuery a b error =>
    s!"alias query {valueLabel a} / {valueLabel b} failed ({error.message}), assuming may-alias"
  | lateRevision block => s!"block BlockRef({block}) reflected after finalisation"

/-- The content of a slot that the block has written, and the values it was derived from. -/
structure SlotState where
  fact : Dep
  keys : List ValueId

/-- The facts of a block. `values` holds the facts at the end of what has been analysed and begins as
a copy of `entry`; `defined` holds the values and slots that the block itself has given a fact. -/
structure BlockState where
  block : BlockId
  entry : FactMap
  values : FactMap := entry
  instructions : FactMap := ∅
  outArgs : FactMap := ∅
  callArgs : Facts CallArg := ∅
  returned : Option Dep := none
  slots : Std.ExtTreeMap ValueId SlotState := ∅
  defined : Std.ExtTreeSet ValueId := ∅
  derivations : Derivations := ∅
  isFinal : Bool := false
  warnings : List Warning := []

namespace BlockState

def warn (s : BlockState) (warnings : List Warning) : BlockState :=
  { s with warnings := s.warnings ++ warnings }

def record (s : BlockState) (sources : List ValueId) (derived : Derived) : BlockState :=
  { s with derivations := sources.foldl (fun d source => d.record source derived) s.derivations }

/-- Gives an instruction its fact. The value of a stack allocation stands for the content of the
slot, which the allocation does not define. -/
def setInstruction (s : BlockState) (p : Program) (i : ValueId) (fact : Dep) : BlockState :=
  let s := if !p.isAlloca i && p.hasResult i then
      { s with values := s.values.insert i fact, defined := s.defined.insert i }
    else s
  { s with instructions := s.instructions.insert i fact }

/-- Takes the instructions whose facts are still unknown, and their results, for independent. -/
def settleInstructions (s : BlockState) (p : Program) : BlockState :=
  let results := s.instructions.toList.filterMap fun i =>
    if i.2.isUnknown && p.hasResult i.1 then some i.1 else none
  { s with
    instructions := s.instructions.settle
    values := results.foldl (fun values i => values.modify i Fact.settle) s.values }

def slotFact (s : BlockState) (slot : ValueId) : Dep :=
  match s.slots[slot]? with
  | some state => state.fact
  | none => s.values.fact slot

def noteRead (s : BlockState) (user slot : ValueId) : BlockState :=
  match s.slots[slot]? with
  | some state => s.record state.keys (.inst user)
  | none => s.record [slot] (.inst user)

def putSlot (s : BlockState) (slot : ValueId) (state : SlotState) : BlockState :=
  { s with
    slots := s.slots.insert slot state
    values := s.values.insert slot state.fact
    defined := s.defined.insert slot }

/-- Replaces the content of a slot; what it was derived from before no longer counts. -/
def overwrite (s : BlockState) (slot : ValueId) (fact : Dep) (keys : List ValueId) : BlockState :=
  let previous := match s.slots[slot]? with
    | some state => state.keys
    | none => []
  let derivations := previous.foldl (fun d key => d.forget key (.slot slot)) s.derivations
  ({ s with derivations }.record keys (.slot slot)).putSlot slot ⟨fact, keys⟩

/-- Joins a fact into the content of a slot, which keeps what it was derived from before. -/
def blend (s : BlockState) (slot : ValueId) (fact : Dep) (keys : List ValueId) : BlockState :=
  match s.slots[slot]? with
  | some state => (s.record keys (.slot slot)).putSlot slot ⟨state.fact.join fact, state.keys ++ keys⟩
  | none =>
    ((s.record [slot] (.slot slot)).record keys (.slot slot)).putSlot slot
      ⟨(s.values.fact slot).join fact, slot :: keys⟩

def blendAll (s : BlockState) (slots : List ValueId) (fact : Dep) (keys : List ValueId) : BlockState :=
  slots.foldl (fun s slot => s.blend slot fact keys) s

def writeOut (s : BlockState) (param : ValueId) (fact : Dep) (keys : List ValueId) : BlockState :=
  { s with outArgs := s.outArgs.joinAt param fact }.record keys (.outArg param)

def passArg (s : BlockState) (arg : CallArg) (fact : Dep) (keys : List ValueId) : BlockState :=
  { s with callArgs := s.callArgs.joinAt arg fact }.record keys (.callArg arg)

def passReturn (s : BlockState) (fact : Dep) (keys : List ValueId) : BlockState :=
  { s with returned := some ((s.returned.getD .unknown).join fact) }.record keys .returned

end BlockState

end InputFlow
