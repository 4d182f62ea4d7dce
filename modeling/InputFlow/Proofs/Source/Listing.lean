import InputFlow.Program.Listing
import InputFlow.Proofs.Source.Numbering

namespace InputFlow

/-- How a listing shows what an instruction mentions. -/
def Source.Mention.line : Source.Mention → String
  | .value name => s!"Op {name}"
  | .global name => s!"Op @{name}"
  | .block name => s!"Op ^{name}"
  | .number n => s!"Op ${n}"

/-- An instruction has as many operands, targets and literals as the table of operations says. -/
theorem Code.arity {ρ τ κ : Type} (c : Code ρ τ κ) :
    (∀ n ∈ c.opcode.operandCount?, c.operands.length = n) ∧
      (∀ n ∈ c.opcode.targetCount?, c.targets.length = n) ∧
      c.literals.length = c.opcode.literalCount := by
  cases c with
  | binary op => cases op <;> simp [opcode, Binary.opcode, Opcode.operandCount?, Opcode.targetCount?,
      Opcode.literalCount, operands, targets, literals]
  | ret value => simp [opcode, Opcode.operandCount?, Opcode.targetCount?, Opcode.literalCount, targets,
      literals]
  | _ => simp [opcode, Opcode.operandCount?, Opcode.targetCount?, Opcode.literalCount, operands,
      targets, literals]

theorem Code.eq_jump_of_targetCount {ρ τ κ : Type} {c : Code ρ τ κ} (h : c.opcode.targetCount? = none) :
    ∃ targets, c = .jump targets := by
  cases c with
  | jump targets => exact ⟨targets, rfl⟩
  | binary op => cases op <;> cases h
  | _ => cases h

namespace Program

variable (p : Program)

/-- An instruction with its value operands, its targets and its literals, each in written order. -/
def ownLines (name : String) (code : Code ValueId BlockId (Option FuncId)) : List String :=
  p.heading name code ++ code.operands.map (fun u => s!"Op {p.operandText u}") ++
    code.targets.map (fun c => s!"Op ^{p.blockName c}") ++ code.literals.map fun n => s!"Op ${n}"

def row (b : BlockId) : List Nat :=
  (p.blockValues b).flatMap p.slots ++ p.successors b

def rowStart (b : BlockId) : Nat :=
  ((List.range b).flatMap p.row).length

/-- The numbers of the row that stand behind those of a value. -/
def rowBehind (b : BlockId) (v : ValueId) : List Nat :=
  ((p.blockValues b).filter (v < ·)).flatMap p.slots ++ p.successors b

/-- The numbers read for a jump beyond its own targets. -/
def surplus (b : BlockId) (v : ValueId) (code : Code ValueId BlockId (Option FuncId)) : List Nat :=
  match code with
  | .jump targets => (p.rowBehind b v).take ((p.successors b).length - targets.length)
  | _ => []

def ownPhiLines (name : String) (incoming : List (ValueId × BlockId)) : List String :=
  s!"PHI {name}" :: incoming.filterMap fun i =>
    p.blocks[i.2]?.map fun block => s!"{p.operandText i.1} from {block.name}"

def shownLines (b : BlockId) (v : ValueId) : List String :=
  match p.values[v]? with
  | some ⟨name, .phi incoming⟩ => p.ownPhiLines name incoming
  | some ⟨name, .inst code⟩ => p.ownLines name code ++ p.targetLines (p.surplus b v code)
  | _ => []

def blockHeading (b : BlockId) : List String :=
  s!"Block {p.blockName b}" ::
    (p.successors b).filterMap fun s => p.blocks[s]?.map fun block => s!"Succ {block.name}"

def functionHeading (F : Function) : List String :=
  (if F.isDeclaration then s!"Extern function {F.name}" else s!"Function {F.name}") ::
    F.params.toList.map fun v => s!"Argument {p.valueName v}"

/-- A listing that shows every value of every block in the given way. -/
def layOut (shown : BlockId → ValueId → List String) : String :=
  let lines := "Printing IR" :: p.globals.map (fun g => s!"Global {p.valueName g}") ++
    p.functions.toList.flatMap fun F => p.functionHeading F ++ F.blocks.toList.flatMap fun b =>
      p.blockHeading b ++ (p.blockValues b).flatMap (shown b)
  "".intercalate (lines.map (· ++ "\n"))

variable {p} {b : BlockId} {v : ValueId} {before behind : List ValueId} {targets : List BlockId}
  {code : Code ValueId BlockId (Option FuncId)}

theorem operandTable_eq : p.operandTable = (List.range p.blocks.size).flatMap p.row := rfl

/-- A block is placed behind the rows of the blocks before it. -/
theorem getElem?_placeBlocks {bs : List BlockId} {k : Nat} (start : Nat)
    (hb : bs[k]? = some b) : ∃ s, (p.placeBlocks start bs)[k]? = some s ∧
      s.values = p.placeValues (start + ((bs.take k).flatMap p.row).length) (p.blockValues b) := by
  induction bs generalizing start k with
  | nil => simp at hb
  | cons c bs ih =>
    cases k with
    | zero =>
      obtain rfl := Option.some.inj hb
      exact ⟨_, rfl, rfl⟩
    | succ k =>
      obtain ⟨s, hs, hvalues⟩ := ih
        (start + ((p.blockValues c).flatMap p.slots).length + (p.successors c).length) hb
      refine ⟨s, hs, ?_⟩
      rw [hvalues, List.take_succ_cons, List.flatMap_cons, row]
      simp only [List.length_append]
      congr 1
      omega

theorem pairwise_blockValues (p : Program) (b : BlockId) : (p.blockValues b).Pairwise (· < ·) := by
  rw [blockValues]
  split
  · exact List.pairwise_lt_range'
  · exact .nil

theorem rowBehind_eq (h : p.blockValues b = before ++ v :: behind) :
    p.rowBehind b v = behind.flatMap p.slots ++ p.successors b := by
  have hsorted := pairwise_blockValues p b
  rw [h, List.pairwise_append, List.pairwise_cons] at hsorted
  have hbefore : before.filter (v < ·) = [] := by
    rw [List.filter_eq_nil_iff]
    intro u hu
    have hlt : u < v := hsorted.2.2 u hu v List.mem_cons_self
    simpa using Nat.le_of_lt hlt
  have hbehind : behind.filter (v < ·) = behind := by
    rw [List.filter_eq_self]
    intro u hu
    simpa using hsorted.2.1.1 u hu
  rw [rowBehind, h, List.filter_append, hbefore, List.filter_cons, hbehind]
  simp

/-- The table from the place of a value on: its numbers, then the rest of its block's row. -/
theorem exists_drop_operandTable (hb : b < p.blocks.size)
    (h : p.blockValues b = before ++ v :: behind) :
    ∃ rest, p.operandTable.drop (p.rowStart b + (before.flatMap p.slots).length) =
      p.slots v ++ (p.rowBehind b v ++ rest) := by
  have hlt : b < (List.range p.blocks.size).length := by simpa using hb
  have hblocks : List.range p.blocks.size =
      List.range b ++ b :: (List.range p.blocks.size).drop (b + 1) := by
    conv_lhs => rw [← List.take_append_drop b (List.range p.blocks.size),
      List.drop_eq_getElem_cons hlt, List.take_range, Nat.min_eq_left (Nat.le_of_lt hb),
      List.getElem_range]
  refine ⟨((List.range p.blocks.size).drop (b + 1)).flatMap p.row, ?_⟩
  have htable : p.operandTable = ((List.range b).flatMap p.row ++ before.flatMap p.slots) ++
      (p.slots v ++ (p.rowBehind b v ++ ((List.range p.blocks.size).drop (b + 1)).flatMap p.row)) := by
    have hrow : p.row b = before.flatMap p.slots ++ (p.slots v ++ p.rowBehind b v) := by
      rw [row, rowBehind_eq h, h]
      simp
    rw [operandTable_eq, hblocks, List.flatMap_append, List.flatMap_cons, hrow, ← hblocks]
    simp only [List.append_assoc]
  rw [htable, rowStart, ← List.length_append, List.drop_left]

theorem targets_of_jump (h : p.definition? v = some (.inst (.jump targets))) :
    p.targets v = targets := by
  rw [Program.targets, h]
  rfl

theorem length_successors (h : p.blockValues b = before ++ v :: behind) :
    (p.successors b).length =
      (p.targets v).length + ((before ++ behind).flatMap p.targets).length := by
  rw [successors, h]
  simp only [List.flatMap_append, List.flatMap_cons, List.length_append]
  omega

theorem readTable_append {start : Nat} {xs ys : List Nat} (h : p.operandTable.drop start = xs ++ ys)
    (count : Nat) :
    p.readTable start xs.length = xs ∧ p.readTable (start + xs.length) count = ys.take count := by
  rw [readTable, readTable, ← List.drop_drop, h, List.take_left, List.drop_left]
  exact ⟨rfl, rfl⟩

theorem exists_drop_code (hb : b < p.blocks.size) (h : p.blockValues b = before ++ v :: behind)
    (hv : p.definition? v = some (.inst code)) :
    ∃ rest, p.operandTable.drop (p.rowStart b + (before.flatMap p.slots).length) =
      code.operands ++ (code.targets ++ (code.literals ++ (p.rowBehind b v ++ rest))) := by
  obtain ⟨rest, hdrop⟩ := exists_drop_operandTable hb h
  have hslots : p.slots v = code.operands ++ code.targets ++ code.literals := by
    rw [slots, hv]
    rfl
  refine ⟨rest, ?_⟩
  rw [hdrop, hslots, List.append_assoc, List.append_assoc]

/-- What is read for the targets of code at its place: its own, and for a jump the surplus. -/
theorem readTable_targets (hb : b < p.blocks.size) (h : p.blockValues b = before ++ v :: behind)
    (hv : p.definition? v = some (.inst code)) :
    p.readTable (p.rowStart b + (before.flatMap p.slots).length + code.operands.length)
        (code.opcode.targetCount?.getD (p.successors b).length) =
      code.targets ++ p.surplus b v code := by
  obtain ⟨rest, hdrop⟩ := exists_drop_code hb h hv
  rw [(readTable_append hdrop _).2]
  cases hcount : code.opcode.targetCount? with
  | some n =>
    have hsurplus : p.surplus b v code = [] := by
      cases code with
      | jump => cases hcount
      | _ => rfl
    rw [hsurplus, List.append_nil, Option.getD_some, ← code.arity.2.1 n hcount, List.take_left]
  | none =>
    obtain ⟨targets, rfl⟩ := Code.eq_jump_of_targetCount hcount
    have hle : (p.successors b).length ≤ (p.rowBehind b v).length := by
      simp [rowBehind]
    have htargets : targets.length ≤ (p.successors b).length := by
      rw [length_successors h, targets_of_jump hv]
      omega
    change (targets ++ (p.rowBehind b v ++ rest)).take (p.successors b).length = _
    rw [List.take_append, List.take_of_length_le htargets, List.take_append_of_le_length (by omega)]
    rfl

/-- The literals of code are read behind its targets, and a jump has none. -/
theorem readTable_literals (hb : b < p.blocks.size) (h : p.blockValues b = before ++ v :: behind)
    (hv : p.definition? v = some (.inst code)) :
    p.readTable (p.rowStart b + (before.flatMap p.slots).length + code.operands.length +
      code.opcode.targetCount?.getD (p.successors b).length) code.opcode.literalCount =
        code.literals := by
  rw [← code.arity.2.2]
  cases hcount : code.opcode.targetCount? with
  | some n =>
    obtain ⟨rest, hdrop⟩ := exists_drop_code hb h hv
    rw [← List.append_assoc] at hdrop
    rw [Option.getD_some, ← code.arity.2.1 n hcount, Nat.add_assoc, ← List.length_append,
      (readTable_append hdrop _).2, List.take_left]
  | none =>
    obtain ⟨targets, rfl⟩ := Code.eq_jump_of_targetCount hcount
    exact List.take_zero

theorem targetLines_eq_map (h : ∀ c ∈ targets, c < p.blocks.size) :
    p.targetLines targets = targets.map fun c => s!"Op ^{p.blockName c}" := by
  induction targets with
  | nil => rfl
  | cons c targets ih =>
    rw [List.forall_mem_cons] at h
    obtain ⟨block, hblock⟩ : ∃ block, p.blocks[c]? = some block :=
      ⟨_, Array.getElem?_eq_getElem h.1⟩
    rw [List.map_cons, ← ih h.2, targetLines, List.filterMap_cons, blockName, hblock]
    rfl

/-- The lines of code at its place: its own, and for a jump the surplus. -/
theorem codeLines_place (hb : b < p.blocks.size)
    (hsuccessors : ∀ c ∈ p.successors b, c < p.blocks.size)
    (h : p.blockValues b = before ++ v :: behind) (name : String)
    (hv : p.definition? v = some (.inst code)) :
    p.codeLines (p.rowStart b + (before.flatMap p.slots).length) (p.successors b).length name code =
      p.ownLines name code ++ p.targetLines (p.surplus b v code) := by
  have hmem : v ∈ p.blockValues b := by simp [h]
  have htargets : ∀ c ∈ code.targets, c < p.blocks.size := by
    intro c hc
    apply hsuccessors
    apply mem_successors_of_mem_targets hmem
    rwa [Program.targets, hv]
  obtain ⟨rest, hdrop⟩ := exists_drop_code hb h hv
  simp only [codeLines]
  rw [(readTable_append hdrop 0).1, readTable_targets hb h hv, readTable_literals hb h hv, ownLines,
    ← targetLines_eq_map htargets]
  cases code with
  | jump targets => simp [targetLines, Code.literals]
  | _ => simp [surplus, targetLines]

theorem phiLines_place (hb : b < p.blocks.size) (h : p.blockValues b = before ++ v :: behind)
    (name : String) {incoming : List (ValueId × BlockId)} (hv : p.definition? v = some (.phi incoming)) :
    p.phiLines (p.rowStart b + (before.flatMap p.slots).length) incoming.length name =
      p.ownPhiLines name incoming := by
  obtain ⟨rest, hdrop⟩ := exists_drop_operandTable hb h
  have hslots : p.slots v = incoming.map (·.1) ++ incoming.map (·.2) := by
    rw [slots, hv]
    rfl
  rw [hslots, List.append_assoc] at hdrop
  obtain ⟨hvalues, hblocks⟩ := readTable_append hdrop incoming.length
  rw [List.length_map] at hvalues hblocks
  have htake : (incoming.map (·.2) ++ (p.rowBehind b v ++ rest)).take incoming.length =
      incoming.map (·.2) :=
    List.take_left' (List.length_map _)
  rw [phiLines, hvalues, hblocks, htake, ownPhiLines, ← List.unzip_fst, ← List.unzip_snd,
    List.zip_unzip]

theorem valueLines_place (hb : b < p.blocks.size)
    (hsuccessors : ∀ c ∈ p.successors b, c < p.blocks.size)
    (h : p.blockValues b = before ++ v :: behind) (stop : Nat) :
    p.valueLines (p.successors b).length
      (v, ⟨p.rowStart b + (before.flatMap p.slots).length, stop⟩) = p.shownLines b v := by
  rw [valueLines, shownLines]
  cases hv : p.values[v]? with
  | none => rfl
  | some value =>
    obtain ⟨name, definition⟩ := value
    cases definition with
    | phi incoming => exact phiLines_place hb h name (by simp [definition?, hv])
    | inst code => exact codeLines_place hb hsuccessors h name (by simp [definition?, hv])
    | _ => rfl

/-- The values of a block, from some value on, are shown one after the other. -/
theorem flatMap_valueLines (hb : b < p.blocks.size)
    (hsuccessors : ∀ c ∈ p.successors b, c < p.blocks.size)
    (h : p.blockValues b = before ++ behind) :
    (p.placeValues (p.rowStart b + (before.flatMap p.slots).length) behind).flatMap
      (p.valueLines (p.successors b).length) = behind.flatMap (p.shownLines b) := by
  induction behind generalizing before with
  | nil => rfl
  | cons v behind ih =>
    have hnext : p.rowStart b + (before.flatMap p.slots).length + (p.slots v).length =
        p.rowStart b + ((before ++ [v]).flatMap p.slots).length := by
      simp [Nat.add_assoc]
    rw [placeValues, List.flatMap_cons, List.flatMap_cons, valueLines_place hb hsuccessors h, hnext,
      ih (by simp [h])]

theorem readTable_of_selects {s : Span} {part : List Nat} (h : s.Selects p.operandTable part) :
    s.stop - s.start = part.length ∧ p.readTable s.start (s.stop - s.start) = part := by
  obtain ⟨front, back, htable, hstart, hstop⟩ := h
  have hcount : s.stop - s.start = part.length := by omega
  rw [readTable, hcount, htable, hstart, List.append_assoc, List.drop_left, List.take_left]
  exact ⟨rfl, rfl⟩

theorem blockLines_place (hb : b < p.blocks.size)
    (hsuccessors : ∀ c ∈ p.successors b, c < p.blocks.size) {s : BlockSlots}
    (hs : s.values = p.placeValues (p.rowStart b) (p.blockValues b))
    (hplaced : p.PlacedIn p.operandTable b s) :
    p.blockLines b s = p.blockHeading b ++ (p.blockValues b).flatMap (p.shownLines b) := by
  have hvalues := flatMap_valueLines hb hsuccessors (List.nil_append (p.blockValues b)).symm
  obtain ⟨hcount, hread⟩ := readTable_of_selects hplaced.successors
  simp only [blockLines]
  rw [← hvalues, hread, hcount, hs]
  rfl

theorem getElem?_placement (hb : b < p.blocks.size) : ∃ s, p.placement[b]? = some s ∧
    s.values = p.placeValues (p.rowStart b) (p.blockValues b) ∧ p.PlacedIn p.operandTable b s := by
  obtain ⟨s, hs, hvalues⟩ := getElem?_placeBlocks (p := p) 0 (List.getElem?_range hb)
  obtain ⟨s', hs', hplaced⟩ := placedIn_placeBlocks (p := p) [] (List.getElem?_range hb)
  obtain rfl := Option.some.inj (hs.symm.trans hs')
  refine ⟨s, hs, ?_, hplaced⟩
  rw [hvalues, List.take_range, Nat.min_eq_left (Nat.le_of_lt hb), Nat.zero_add, rowStart]

/-- Blocks that follow one another, each with its place. -/
theorem flatMap_blockLines (hsuccessors : ∀ b < p.blocks.size, ∀ c ∈ p.successors b,
      c < p.blocks.size) (start count : Nat) (h : ∀ b ∈ List.range' start count, b < p.blocks.size) :
    ((List.range' start count).zip (p.placement.drop start)).flatMap
        (fun b => p.blockLines b.1 b.2) =
      (List.range' start count).flatMap fun b =>
        p.blockHeading b ++ (p.blockValues b).flatMap (p.shownLines b) := by
  induction count generalizing start with
  | zero => rfl
  | succ count ih =>
    rw [List.range'_succ, List.forall_mem_cons] at h
    obtain ⟨s, hs, hvalues, hplaced⟩ := getElem?_placement h.1
    obtain ⟨hlt, hget⟩ := List.getElem?_eq_some_iff.1 hs
    rw [List.range'_succ, List.drop_eq_getElem_cons hlt, hget, List.zip_cons_cons,
      List.flatMap_cons, List.flatMap_cons, ih (start + 1) h.2,
      blockLines_place h.1 (hsuccessors start h.1) hvalues hplaced]

theorem label_eq_blockName (b : BlockId) : Module.label p b = p.blockName b := by
  rw [Module.label, blockName]
  cases p.blocks[b]? <;> rfl

theorem line_mention (hv : v < p.values.size) :
    (Module.mention p v).line = s!"Op {p.operandText v}" := by
  have hx := Array.getElem?_eq_getElem hv
  rw [operandText]
  generalize p.values[v] = x at hx
  obtain ⟨name, d⟩ := x
  rw [hx]
  by_cases hd : d = .global
  · subst hd
    rw [Module.mention_of_global hx]
    change "Op @" ++ name = "Op " ++ ("@" ++ name)
    rw [← String.append_assoc]
    rfl
  · rw [Module.mention_of_ne_global hx hd]
    cases d with
    | global => exact absurd rfl hd
    | _ => rfl

/-- The lines of an instruction show what its text mentions. -/
theorem ownLines_eq_map_line (hw : p.WellFormed) (hp : p.Partitioned) (name : String)
    (hv : p.definition? v = some (.inst code)) : p.ownLines name code =
      p.heading name code ++ (code.references (Module.mention p) (Module.label p)).map
        Source.Mention.line := by
  have hoperands : (code.operands.map (Module.mention p)).map Source.Mention.line =
      code.operands.map fun u => s!"Op {p.operandText u}" := by
    rw [List.map_map]
    refine List.map_congr_left fun u hu => line_mention (lt_of_mem_operands hw hp (v := v) ?_)
    rwa [operands, hv]
  have htargets : (code.targets.map fun c => Source.Mention.block (Module.label p c)).map
      Source.Mention.line = code.targets.map fun c => s!"Op ^{p.blockName c}" := by
    rw [List.map_map]
    refine List.map_congr_left fun c _ => ?_
    rw [Function.comp_apply, label_eq_blockName]
    rfl
  rw [ownLines, Code.references, List.map_append, List.map_append, hoperands, htargets, List.map_map,
    List.append_assoc, List.append_assoc, List.append_assoc]
  rfl

/-- The listing goes through functions, blocks and values in order and shows every value once. -/
theorem listing_eq_layOut (hw : p.WellFormed) (hp : p.Partitioned) :
    p.listing = p.layOut p.shownLines := by
  have hsuccessors : ∀ b < p.blocks.size, ∀ c ∈ p.successors b, c < p.blocks.size := by
    intro b hb c hc
    obtain ⟨f, hf⟩ := exists_mem_functionBlocks hp hb
    exact lt_of_mem_functionBlocks hw (hw.mem_functionBlocks_of_mem_successors hf hc)
  have hfunctions : p.functions.toList.flatMap p.functionLines =
      p.functions.toList.flatMap fun F => p.functionHeading F ++ F.blocks.toList.flatMap fun b =>
        p.blockHeading b ++ (p.blockValues b).flatMap (p.shownLines b) := by
    apply List.flatMap_congr
    intro F hF
    have hblocks : ∀ b ∈ F.blocks.toList, b < p.blocks.size := by
      intro b hb
      exact Nat.lt_of_lt_of_le (Span.mem_toList.1 hb).2 (hw.blocks F (Array.mem_def.2 hF))
    have hplaced : (F.blocks.toList.zip (p.placement.drop F.blocks.start)).flatMap
          (fun b => p.blockLines b.1 b.2) =
        F.blocks.toList.flatMap fun b =>
          p.blockHeading b ++ (p.blockValues b).flatMap (p.shownLines b) :=
      flatMap_blockLines hsuccessors F.blocks.start _ hblocks
    rw [functionLines, hplaced]
    rfl
  rw [listing, layOut, hfunctions]

theorem targetLines_eq_nil_iff {numbers : List Nat} :
    p.targetLines numbers = [] ↔ ∀ c ∈ numbers, p.blocks.size ≤ c := by
  simp [targetLines]

/-- A jump is given surplus numbers just when another value of its block has targets. -/
theorem surplus_eq_nil_iff (hv : v ∈ p.blockValues b) (hd : p.definition? v = some (.inst code)) :
    p.surplus b v code = [] ↔
      (code.opcode = .jump → ∀ w ∈ p.blockValues b, w ≠ v → p.targets w = []) := by
  cases code with
  | jump targets =>
    obtain ⟨before, behind, hsplit⟩ := List.append_of_mem hv
    have hlength := length_successors hsplit
    have hsurplus : (p.surplus b v (.jump targets)).length =
        ((before ++ behind).flatMap p.targets).length := by
      rw [targets_of_jump hd] at hlength
      rw [surplus, List.length_take, rowBehind, List.length_append]
      omega
    have hothers (w : ValueId) : w ∈ before ++ behind ↔ w ∈ p.blockValues b ∧ w ≠ v := by
      have hnodup : (p.blockValues b).Nodup := (pairwise_blockValues p b).imp Nat.ne_of_lt
      have hperm : (p.blockValues b).Perm (v :: (before ++ behind)) := hsplit ▸ List.perm_middle
      have hfresh : v ∉ before ++ behind := (List.nodup_cons.1 (hperm.nodup_iff.1 hnodup)).1
      rw [hperm.mem_iff, List.mem_cons]
      constructor
      · intro hw
        exact ⟨.inr hw, ne_of_mem_of_not_mem hw hfresh⟩
      · intro ⟨hw, hne⟩
        exact hw.resolve_left hne
    rw [← List.length_eq_zero_iff, hsurplus, List.length_eq_zero_iff, List.flatMap_eq_nil_iff]
    simp [hothers, Code.opcode]
  | binary op => cases op <;> simp [surplus, Code.opcode, Binary.opcode]
  | _ => simp [surplus, Code.opcode]

end Program

namespace Source

variable {text : List Char} {p : Program}

/-- The listing of a program that was read shows every instruction once, with its own operands,
targets and literals by the names and numbers that its text mentions, and a jump also with the
blocks among its surplus numbers; it has such numbers just when another instruction of its block has
targets. -/
theorem listing_shows_operands (h : parse text = .ok p) :
    p.spelling = textMentions text ∧ p.listing = p.layOut p.shownLines ∧
      ∀ v name code, p.values[v]? = some ⟨name, .inst code⟩ →
        p.ownLines name code = p.heading name code ++
          (code.references (Module.mention p) (Module.label p)).map Mention.line ∧
        (∃ f, ∃ b ∈ p.functionBlocks f, v ∈ p.blockValues b) ∧
        ∀ b, v ∈ p.blockValues b →
          (p.shownLines b v = p.ownLines name code ↔ ∀ c ∈ p.surplus b v code, p.blocks.size ≤ c) ∧
          (p.surplus b v code = [] ↔
            (code.opcode = .jump → ∀ w ∈ p.blockValues b, w ≠ v → p.targets w = [])) := by
  have hw := wellFormed_of_parse h
  have hp := partitioned_of_parse h
  refine ⟨spelling_of_parse h, Program.listing_eq_layOut hw hp, ?_⟩
  intro v name code hvalue
  have hd : p.definition? v = some (.inst code) := by simp [Program.definition?, hvalue]
  refine ⟨Program.ownLines_eq_map_line hw hp name hd,
    Program.exists_mem_blockValues hp hd (by simp) (by simp), ?_⟩
  intro b hv
  have hshown : p.shownLines b v = p.ownLines name code ++ p.targetLines (p.surplus b v code) := by
    rw [Program.shownLines, hvalue]
  refine ⟨?_, Program.surplus_eq_nil_iff hv hd⟩
  rw [hshown, List.append_right_eq_self, Program.targetLines_eq_nil_iff]

/-- A jump that is the only branch of its block. -/
def loneJumpText : String :=
  "f(%x) \x7b
entry:
  %s = alloca 8, 8
  %y = gep %s, %x
  jump ^a, ^b
a:
  tbz %y, ^b, ^c, 3
b:
  condbr %x, ^a, ^c
  br ^a
c:
  ret %y
\x7d
"

theorem loneJumpText_shows_operands :
    parse loneJumpText.toList = .ok (readProgram loneJumpText) ∧
      (readProgram loneJumpText).spelling = textMentions loneJumpText.toList ∧
      (readProgram loneJumpText).listing =
        (readProgram loneJumpText).layOut (readProgram loneJumpText).shownLines ∧
      (readProgram loneJumpText).shownLines 0 3 =
        (readProgram loneJumpText).ownLines "" (.jump [1, 2]) := by
  have hparse := parse_eq_readProgram loneJumpText (by decide +kernel)
  have hjump : (readProgram loneJumpText).values[3]? = some ⟨"", .inst (.jump [1, 2])⟩ ∧
      3 ∈ (readProgram loneJumpText).blockValues 0 ∧
      ∀ w ∈ (readProgram loneJumpText).blockValues 0, w ≠ 3 →
        (readProgram loneJumpText).targets w = [] := by
    decide +kernel
  obtain ⟨hvalue, hmem, hothers⟩ := hjump
  obtain ⟨hspelling, hlisting, hshown⟩ := listing_shows_operands hparse
  obtain ⟨hown, hsurplus⟩ := (hshown 3 "" _ hvalue).2.2 0 hmem
  refine ⟨hparse, hspelling, hlisting, hown.2 ?_⟩
  rw [hsurplus.2 fun _ => hothers]
  exact fun c hc => absurd hc List.not_mem_nil

def twoJumpsText : String :=
  "f() \x7b
entry:
  jump ^a
  jump ^b
a:
  ret
b:
  ret
\x7d
"

/-- Each of the jumps has one target and is listed with two. -/
theorem shared_jump_shows_surplus :
    parse twoJumpsText.toList = .ok (readProgram twoJumpsText) ∧
      (readProgram twoJumpsText).values[0]? = some ⟨"", .inst (.jump [1])⟩ ∧
      (readProgram twoJumpsText).ownLines "" (.jump [1]) = ["Value (jump)", "Op ^a"] ∧
      (readProgram twoJumpsText).shownLines 0 0 = ["Value (jump)", "Op ^a", "Op ^b"] ∧
      (readProgram twoJumpsText).listing =
        "Printing IR\nFunction f\nBlock entry\nSucc a\nSucc b\nValue (jump)\nOp ^a\nOp ^b\n" ++
        "Value (jump)\nOp ^b\nOp ^a\nBlock a\nValue (ret)\nBlock b\nValue (ret)\n" := by
  refine ⟨parse_eq_readProgram twoJumpsText (by decide +kernel), ?_⟩
  decide +kernel

end Source

end InputFlow
