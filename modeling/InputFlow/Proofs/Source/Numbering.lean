import InputFlow.Program.Listing
import InputFlow.Proofs.Source.Partition

namespace InputFlow

/-- The span lies within the row and holds the part there. -/
def Span.Selects {α : Type} (s : Span) (row part : List α) : Prop :=
  ∃ front back, row = front ++ part ++ back ∧ s.start = front.length ∧
    s.stop = front.length + part.length

namespace Program

variable {p : Program}

section Table

theorem selects_placeValues {vs : List ValueId} (front back : List Nat) :
    ∀ x ∈ p.placeValues front.length vs,
      x.2.Selects (front ++ vs.flatMap p.slots ++ back) (p.slots x.1) := by
  induction vs generalizing front with
  | nil => simp [placeValues]
  | cons v vs ih =>
    intro x hx
    rcases List.mem_cons.1 hx with rfl | hx
    · exact ⟨front, vs.flatMap p.slots ++ back, by simp, rfl, rfl⟩
    · have := ih (front ++ p.slots v) x (by rwa [List.length_append])
      simpa using this

theorem map_fst_placeValues {start : Nat} {vs : List ValueId} :
    (p.placeValues start vs).map (·.1) = vs := by
  induction vs generalizing start with
  | nil => rfl
  | cons v vs ih => simp [placeValues, ih]

/-- The slots of a block stand in the row where they are placed. -/
structure PlacedIn (p : Program) (row : List Nat) (b : BlockId) (s : BlockSlots) : Prop where
  values_eq : s.values.map (·.1) = p.blockValues b
  values : ∀ x ∈ s.values, x.2.Selects row (p.slots x.1)
  successors : s.successors.Selects row (p.successors b)

theorem placedIn_placeBlocks {bs : List BlockId} (front : List Nat) {k : Nat} {b : BlockId}
    (hb : bs[k]? = some b) : ∃ s, (p.placeBlocks front.length bs)[k]? = some s ∧
      p.PlacedIn (front ++ bs.flatMap fun b => (p.blockValues b).flatMap p.slots ++ p.successors b)
        b s := by
  induction bs generalizing front k with
  | nil => simp at hb
  | cons c bs ih =>
    cases k with
    | zero =>
      obtain rfl := Option.some.inj hb
      refine ⟨_, rfl, map_fst_placeValues, fun x hx => ?_, ?_⟩
      · simpa using selects_placeValues front _ x hx
      · refine ⟨front ++ (p.blockValues c).flatMap p.slots,
          bs.flatMap fun b => (p.blockValues b).flatMap p.slots ++ p.successors b, ?_, ?_, ?_⟩
        · simp
        · simp
        · simp [Nat.add_assoc]
    | succ k =>
      obtain ⟨s, hs, hplaced⟩ :=
        ih (front ++ (p.blockValues c).flatMap p.slots ++ p.successors c) hb
      refine ⟨s, ?_, by simpa using hplaced⟩
      rw [List.length_append, List.length_append] at hs
      exact hs

theorem operands_isPrefix_slots (v : ValueId) : p.operands v <+: p.slots v := by
  rw [operands, slots]
  cases p.definition? v with
  | none => exact List.nil_prefix
  | some d =>
    cases d with
    | phi incoming => exact List.prefix_append _ _
    | inst code => exact (List.prefix_append _ _).trans (List.prefix_append _ _)
    | _ => exact List.nil_prefix

end Table

theorem isTerminator_of_targets {v : ValueId} (h : p.targets v ≠ []) : (p.kind v).isTerminator := by
  rw [targets] at h
  rw [kind]
  cases hd : p.definition? v with
  | none => simp [hd] at h
  | some d =>
    cases d with
    | inst code => cases code <;> first | rfl | simp [hd, Definition.targets, Code.targets] at h
    | _ => simp [hd, Definition.targets] at h

theorem successors_eq_terminators (b : BlockId) : p.successors b =
    ((p.blockValues b).filter fun v => (p.kind v).isTerminator).flatMap p.targets := by
  rw [successors]
  induction p.blockValues b with
  | nil => rfl
  | cons v vs ih =>
    by_cases hv : (p.kind v).isTerminator
    · simp [hv, ih]
    · have : p.targets v = [] := by_contra fun h => hv (isTerminator_of_targets h)
      simp [hv, ih, this]

theorem mem_successors_of_mem_targets {b c : BlockId} {v : ValueId} (hv : v ∈ p.blockValues b)
    (hc : c ∈ p.targets v) : c ∈ p.successors b :=
  List.mem_flatMap.2 ⟨v, hv, hc⟩

theorem definition_of_mem_incoming {v : ValueId} {x : ValueId × BlockId} (hx : x ∈ p.incoming v) :
    ∃ incoming, p.definition? v = some (.phi incoming) ∧ x ∈ incoming := by
  rw [incoming] at hx
  split at hx
  next incoming hd => exact ⟨incoming, hd, hx⟩
  next => cases hx

theorem fst_mem_operands {v : ValueId} {x : ValueId × BlockId} (hx : x ∈ p.incoming v) :
    x.1 ∈ p.operands v := by
  obtain ⟨incoming, hd, hx⟩ := definition_of_mem_incoming hx
  rw [operands, hd]
  exact List.mem_map_of_mem hx

/-- What the questions about a program answer with. -/
inductive Handle where
  | function (f : FuncId)
  | block (b : BlockId)
  | value (v : ValueId)

def Handle.InBounds (p : Program) : Handle → Prop
  | function f => f < p.functions.size
  | block b => b < p.blocks.size
  | value v => v < p.values.size

/-- What one who only knows the program can get to, asking about what was answered before. -/
inductive Yields (p : Program) : Handle → Prop
  | function {f : FuncId} : f ∈ p.functionIds → Yields p (.function f)
  | global {v : ValueId} : v ∈ p.globals → Yields p (.value v)
  | param {f : FuncId} {v : ValueId} : Yields p (.function f) → v ∈ p.params f → Yields p (.value v)
  | block {f : FuncId} {b : BlockId} : Yields p (.function f) → b ∈ p.functionBlocks f →
    Yields p (.block b)
  | entry {f : FuncId} {b : BlockId} : Yields p (.function f) → p.entryBlock? f = some b →
    Yields p (.block b)
  | instruction {b : BlockId} {v : ValueId} : Yields p (.block b) → v ∈ p.blockValues b →
    Yields p (.value v)
  | successor {b c : BlockId} : Yields p (.block b) → c ∈ p.successors b → Yields p (.block c)
  | operand {v u : ValueId} : Yields p (.value v) → u ∈ p.operands v → Yields p (.value u)
  | incomingValue {v : ValueId} {x : ValueId × BlockId} : Yields p (.value v) → x ∈ p.incoming v →
    Yields p (.value x.1)
  | incomingBlock {v : ValueId} {x : ValueId × BlockId} : Yields p (.value v) → x ∈ p.incoming v →
    Yields p (.block x.2)
  | callee {v : ValueId} {f : FuncId} : Yields p (.value v) → p.callee? v = some f →
    Yields p (.function f)

/-- The numbers of functions, blocks and values, and the table of operands, fit together. -/
structure Numbered (p : Program) : Prop where
  functions : Span.Chain 0 p.blocks.size (p.functions.toList.map (·.blocks))
  home : ∀ v < p.values.size, ∃! home, p.LivesIn v home
  lt_of_livesIn : ∀ v home, p.LivesIn v home → v < p.values.size
  global_iff : ∀ v, v ∈ p.globals ↔ p.definition? v = some .global
  param_iff : ∀ v, (∃ f, v ∈ p.params f) ↔ p.definition? v = some .param
  phis : ∀ B ∈ p.blocks, B.first ≤ B.phiStop ∧ B.phiStop ≤ B.stop ∧
    ∀ v, v ∈ B.phis.toList ↔ v ∈ B.values.toList ∧ p.isPhi v
  slots : ∀ b < p.blocks.size, ∃ s, p.placement[b]? = some s ∧ p.PlacedIn p.operandTable b s
  operands_first : ∀ v, p.operands v <+: p.slots v
  operands : ∀ f, ∀ b ∈ p.functionBlocks f, ∀ v ∈ p.blockValues b, ∀ u ∈ p.operands v,
    u ∈ p.globals ∨ u ∈ p.functionValues f
  incoming : ∀ f, ∀ b ∈ p.functionBlocks f, ∀ v ∈ p.blockValues b, ∀ x ∈ p.incoming v,
    x.2 ∈ p.functionBlocks f
  targets : ∀ f, ∀ b ∈ p.functionBlocks f, ∀ v ∈ p.blockValues b, ∀ c ∈ p.targets v,
    c ∈ p.functionBlocks f
  successors : ∀ f, ∀ b ∈ p.functionBlocks f, ∀ c ∈ p.successors b, c ∈ p.functionBlocks f
  successors_eq : ∀ b, p.successors b =
    ((p.blockValues b).filter fun v => (p.kind v).isTerminator).flatMap p.targets
  callees : ∀ v callee args, p.definition? v = some (.inst (.call callee args)) →
    ∃ f, callee = some f ∧ f < p.functions.size
  bounded : ∀ h, p.Yields h → h.InBounds p

end Program

namespace Source

variable {text : List Char} {p : Program}

theorem phis_of_parse (h : parse text = .ok p) {B : Block} (hB : B ∈ p.blocks) :
    B.first ≤ B.phiStop ∧ B.phiStop ≤ B.stop ∧
      ∀ v, v ∈ B.phis.toList ↔ v ∈ B.values.toList ∧ p.isPhi v := by
  obtain ⟨b, hb⟩ := Array.mem_iff_getElem?.1 hB
  obtain ⟨f, hf⟩ := Program.exists_mem_functionBlocks (partitioned_of_parse h)
    (Array.getElem?_eq_some_iff.1 hb).1
  obtain ⟨F, hF, hbF⟩ := Program.mem_functionBlocks.1 hf
  obtain ⟨f, _, hread, hr⟩ := exists_renders_of_parse h (Array.mem_of_getElem? hF)
  obtain ⟨hfirst, hstop, hphi⟩ := hr.isPhi_iff hread hbF hb
  have hdefinition {v : ValueId} (hv : v ∈ B.values.toList) : ∃ d, p.definition? v = some d :=
    Program.exists_definition (Program.lt_of_livesIn (wellFormed_of_parse h) (.block b)
      (Program.mem_blockValues.2 ⟨B, hb, hv⟩))
  refine ⟨hfirst, hstop, fun v => ?_⟩
  rw [Block.phis, Span.mem_toList]
  constructor
  · rintro ⟨hv, hlt⟩
    have hmem : v ∈ B.values.toList := Block.mem_values.2 ⟨hv, Nat.lt_of_lt_of_le hlt hstop⟩
    obtain ⟨d, hd⟩ := hdefinition hmem
    exact ⟨hmem, by rw [Program.isPhi_eq hd]; exact (hphi v hmem d hd).2 hlt⟩
  · rintro ⟨hmem, hv⟩
    obtain ⟨d, hd⟩ := hdefinition hmem
    rw [Program.isPhi_eq hd] at hv
    exact ⟨(Block.mem_values.1 hmem).1, (hphi v hmem d hd).1 hv⟩

theorem mem_functionBlocks_of_mem_incoming (h : parse text = .ok p) {f : FuncId} {b : BlockId}
    {v : ValueId} {x : ValueId × BlockId} (hb : b ∈ p.functionBlocks f) (hv : v ∈ p.blockValues b)
    (hx : x ∈ p.incoming v) : x.2 ∈ p.functionBlocks f := by
  obtain ⟨F, hF, hbF⟩ := Program.mem_functionBlocks.1 hb
  obtain ⟨B, hB, hvB⟩ := Program.mem_blockValues.1 hv
  obtain ⟨g, _, -, hr⟩ := exists_renders_of_parse h (Array.mem_of_getElem? hF)
  obtain ⟨incoming, hd, hx⟩ := Program.definition_of_mem_incoming hx
  exact Program.mem_functionBlocks.2 ⟨F, hF, hr.mem_blocks_of_phi hbF hB hvB hd hx⟩

theorem exists_callee_of_parse (h : parse text = .ok p) {v : ValueId} {callee : Option FuncId}
    {args : List ValueId} (hd : p.definition? v = some (.inst (.call callee args))) :
    ∃ f, callee = some f ∧ f < p.functions.size := by
  obtain ⟨u, -, hlink, -⟩ := exists_built_of_parse h
  exact Unlinked.exists_callee_of_link hlink hd

/-- Questions that start from the program itself never leave it. -/
theorem inBounds_of_yields (h : parse text = .ok p) {handle : Program.Handle}
    (hy : p.Yields handle) : handle.InBounds p := by
  have hw := wellFormed_of_parse h
  have hp := partitioned_of_parse h
  induction hy with
  | function hf => exact List.mem_range.1 hf
  | global hv => exact Program.lt_of_livesIn hw .globals hv
  | @param f v _ hv _ => exact Program.lt_of_livesIn hw (.params f) hv
  | block _ hb _ => exact Program.lt_of_mem_functionBlocks hw hb
  | entry _ hb _ =>
    rw [Program.entryBlock?] at hb
    split at hb
    · cases hb
    · exact Program.lt_of_mem_functionBlocks hw (List.mem_of_head? hb)
  | @instruction b v _ hv _ => exact Program.lt_of_livesIn hw (.block b) hv
  | successor _ hc ih =>
    obtain ⟨f, hf⟩ := Program.exists_mem_functionBlocks hp ih
    exact Program.lt_of_mem_functionBlocks hw (hw.mem_functionBlocks_of_mem_successors hf hc)
  | operand _ hu _ => exact Program.lt_of_mem_operands hw hp hu
  | incomingValue _ hx _ => exact Program.lt_of_mem_operands hw hp (Program.fst_mem_operands hx)
  | incomingBlock _ hx _ =>
    obtain ⟨incoming, hd, -⟩ := Program.definition_of_mem_incoming hx
    obtain ⟨f, b, hb, hv⟩ := Program.exists_mem_blockValues hp hd (by simp) (by simp)
    exact Program.lt_of_mem_functionBlocks hw (mem_functionBlocks_of_mem_incoming h hb hv hx)
  | @callee v f _ hf _ =>
    rw [Program.callee?] at hf
    split at hf
    next hd =>
      obtain ⟨g, rfl, hg⟩ := exists_callee_of_parse h hd
      obtain rfl := Option.some.inj hf
      exact hg
    next => cases hf

/-- A program that was read is numbered consistently: phis stand first in their blocks, references
stay within a function, and the operand table holds them where they are placed. -/
theorem numbered_of_parse (h : parse text = .ok p) : p.Numbered where
  functions := (partitioned_of_parse h).chain
  home _ := Program.existsUnique_home (wellFormed_of_parse h) (partitioned_of_parse h)
  lt_of_livesIn _ := Program.lt_of_livesIn (wellFormed_of_parse h)
  global_iff := (wellFormed_of_parse h).globals
  param_iff _ := ⟨fun ⟨_, hv⟩ => Program.definition_of_mem_params (wellFormed_of_parse h) hv,
    Program.exists_mem_params (partitioned_of_parse h)⟩
  phis _ := phis_of_parse h
  slots _ hb := Program.placedIn_placeBlocks [] (List.getElem?_range hb)
  operands_first := Program.operands_isPrefix_slots
  operands _ _ hb _ hv _ := Program.mem_functionValues_of_mem_operands (wellFormed_of_parse h) hb hv
  incoming _ _ hb _ hv _ := mem_functionBlocks_of_mem_incoming h hb hv
  targets _ _ hb _ hv _ hc := (wellFormed_of_parse h).mem_functionBlocks_of_mem_successors hb
    (Program.mem_successors_of_mem_targets hv hc)
  successors _ _ hb _ := (wellFormed_of_parse h).mem_functionBlocks_of_mem_successors hb
  successors_eq := Program.successors_eq_terminators
  callees _ _ _ := exists_callee_of_parse h
  bounded _ := inBounds_of_yields h

/-- A global, a declaration, and a loop with a phi that a later value feeds. -/
def loopText : String :=
  "@g = global
leaf(%a)!
main(%x, %y) \x7b
entry:
  %c = const 0
  condbr %x, ^loop, ^done
loop:
  %i = phi [^entry, %c], [^loop, %n]
  %n = add %i, %y
  %r = call @leaf, %n
  store %r, @g
  condbr %r, ^loop, ^done
done:
  ret %x
\x7d
"

theorem loopText_numbered :
    parse loopText.toList = .ok (readProgram loopText) ∧ (readProgram loopText).Numbered := by
  have hparse := parse_eq_readProgram loopText (by decide +kernel)
  exact ⟨hparse, numbered_of_parse hparse⟩

end Source

end InputFlow
