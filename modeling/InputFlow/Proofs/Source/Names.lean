import InputFlow.Proofs.Source.Partition
import Mathlib.Data.List.Forall2

namespace InputFlow

namespace Module.Renders

variable {p : Program} {onCallee : String → Except Source.ParseError (Option FuncId)} {F : Function}
  {d : Source.DraftFunction} {f : FuncId}

theorem functionValues_eq (h : Module.Renders p onCallee F d) (hF : p.functions[f]? = some F) :
    p.functionValues f = List.range' F.params.start d.values.length := by
  have hparams : p.params f = List.range' F.params.start d.params.length := by
    simp [Program.params, hF, Span.toList, h.params]
  have hblocks : F.blocks.toList.map (p.blocks[·]?) =
      (Source.layBlocks F.params.stop d.blocks).map some := by
    refine List.ext_getElem? fun k => ?_
    by_cases hk : k < d.blocks.length
    · have hlt : k < (Source.layBlocks F.params.stop d.blocks).length := by simpa using hk
      have hB := List.getElem?_eq_getElem hlt
      rw [List.getElem?_map, List.getElem?_map, hB, Span.toList, h.blocks, Nat.add_sub_cancel_left,
        List.getElem?_range' hk, Nat.one_mul, Option.map_some, h.block k _ hB, Option.map_some]
    · simp [Span.toList, h.blocks, Nat.not_lt.1 hk]
  have hbody : (p.functionBlocks f).flatMap p.blockValues =
      List.range' F.params.stop d.body.length := by
    have hvalues (b : BlockId) : p.blockValues b = p.blocks[b]?.elim [] (·.values.toList) := by
      cases hb : p.blocks[b]? <;> simp [Program.blockValues, hb]
    calc (p.functionBlocks f).flatMap p.blockValues
      _ = (F.blocks.toList.map (p.blocks[·]?)).flatMap (·.elim [] (·.values.toList)) := by
        rw [Program.functionBlocks, hF, List.flatMap_map, ← funext hvalues]
      _ = (Source.layBlocks F.params.stop d.blocks).flatMap (·.values.toList) := by
        rw [hblocks, List.flatMap_map]
        rfl
      _ = _ := Source.flatMap_values_layBlocks
  rw [Program.functionValues, hparams, hbody, h.params, List.range'_append_1,
    Source.DraftFunction.length_values]

/-- The value `k` places behind the first of the function is named and defined as written. -/
theorem value_at (h : Module.Renders p onCallee F d) {k : Nat} (hk : k < d.values.length) :
    p.valueName (F.params.start + k) = d.values[k].name ∧
      (d.values[k].definition = .param → p.role (F.params.start + k) = .argument) ∧
      p.isPhi (F.params.start + k) = d.values[k].definition.isPhi := by
  obtain ⟨e, he, htraverse⟩ := h.value k _ (List.getElem?_eq_getElem hk)
  have hd : p.definition? (F.params.start + k) = some e := by simp [Program.definition?, he]
  refine ⟨by simp [Program.valueName, he], fun hparam => Program.role_of_param ?_, ?_⟩
  · rw [hd, (Definition.map_of_traverse_eq_ok htraverse).2.2.2.1 hparam]
  · rw [Program.isPhi_eq hd, Definition.isPhi_of_traverse htraverse]

theorem getElem?_valueNames (h : Module.Renders p onCallee F d) {k : Nat} (hk : k < d.values.length) :
    d.valueNames[k]? = some (p.valueName (F.params.start + k)) := by
  rw [(h.value_at hk).1, ← Source.DraftFunction.map_name_values, List.getElem?_map,
    List.getElem?_eq_getElem hk, Option.map_some]

end Module.Renders

namespace Program

/-- A value that may take a name which stands before it in its function. -/
def MayRepeat (p : Program) (v : ValueId) : Prop :=
  p.valueName v = "" ∨ p.role v = .argument ∨ p.isPhi v

/-- Where a local name of the text has gone: to a value that takes it, or to an operand `u` of `v`. -/
inductive LocalPlace where
  | definition (v : ValueId)
  | operand (v u : ValueId)
deriving DecidableEq, Repr

/-- The local places of a value in written order: its own name, then its operands but the globals. -/
def placesAt (p : Program) (v : ValueId) : List LocalPlace :=
  (if v ∈ p.globals ∨ p.valueName v = "" then [] else [.definition v]) ++
    ((p.operands v).filter (· ∉ p.globals)).map (.operand v)

def localPlaces (p : Program) : List LocalPlace :=
  (List.range p.values.size).flatMap p.placesAt

def InBody (p : Program) (f : FuncId) (v : ValueId) : Prop :=
  ∃ b ∈ p.functionBlocks f, v ∈ p.blockValues b

/-- The value `u` is what `%n` means in the function. A lookup gives the first value of a name, so it
gives `u` just when the name is taken once. -/
structure Resolves (p : Program) (f : FuncId) (n : String) (u : ValueId) : Prop where
  mem : u ∈ p.functionValues f
  name : p.valueName u = n
  last : ∀ w ∈ p.functionValues f, p.valueName w = n → w ≤ u
  agree : p.valueNamed? f n = some u ↔ ∀ w ∈ p.functionValues f, p.valueName w = n → w = u

/-- What a name in the text makes of its place. -/
def StandsFor (p : Program) (n : String) : LocalPlace → Prop
  | .definition v => p.valueName v = n
  | .operand v u => (∃ f, p.InBody f v) ∧ ∀ f, p.InBody f v → p.Resolves f n u

/-- How the local names of a text are taken and what they mean. -/
structure NamesResolved (p : Program) (names : List String) : Prop where
  repeats : ∀ f, (p.functionValues f).Pairwise fun v w =>
    p.valueName v = p.valueName w → p.MayRepeat w
  written : List.Forall₂ p.StandsFor names p.localPlaces

variable {p : Program} {f : FuncId}

theorem valueNamed?_eq_some (hsorted : (p.functionValues f).Pairwise (· < ·)) {name : String}
    {u : ValueId} : p.valueNamed? f name = some u ↔ u ∈ p.functionValues f ∧ p.valueName u = name ∧
      ∀ w ∈ p.functionValues f, p.valueName w = name → u ≤ w := by
  rw [valueNamed?, ← functionValues, List.find?_eq_some_iff_append]
  constructor
  · rintro ⟨hu, xs, ys, heq, hxs⟩
    rw [heq] at hsorted ⊢
    refine ⟨by simp, by simpa using hu, fun w hw hname => ?_⟩
    rcases List.mem_append.1 hw with hw | hw
    · simpa [hname] using hxs w hw
    · rcases List.mem_cons.1 hw with rfl | hw
      · exact Nat.le_refl _
      · exact Nat.le_of_lt ((List.pairwise_cons.1 (List.pairwise_append.1 hsorted).2.1).1 w hw)
  · rintro ⟨hmem, hu, hfirst⟩
    obtain ⟨xs, ys, heq⟩ := List.append_of_mem hmem
    refine ⟨by simpa using hu, xs, ys, heq, fun w hw => ?_⟩
    rw [heq] at hsorted hfirst
    have hlt : w < u := (List.pairwise_append.1 hsorted).2.2 w hw u List.mem_cons_self
    have hne : p.valueName w ≠ name := fun hname =>
      absurd (hfirst w (List.mem_append_left _ hw) hname) (Nat.not_le.2 hlt)
    simpa using hne

def nameAt (p : Program) : LocalPlace → String
  | .definition v => p.valueName v
  | .operand _ u => p.valueName u

end Program

namespace Source

def Mention.localName? : Mention → Option String
  | .value name => some name
  | _ => none

/-- The names that stand behind a `%` in a text, in order. -/
def localNames (text : List Char) : List String :=
  (textMentions text).filterMap Mention.localName?

theorem filterMap_resultMentions (name : String) :
    (resultMentions name).filterMap Mention.localName? = if name = "" then [] else [name] := by
  rw [resultMentions]
  split <;> rfl

end Source

namespace Program

variable {p : Program} {v : ValueId}

theorem localName?_mention (hw : p.WellFormed) (u : ValueId) :
    (Module.mention p u).localName? = if u ∈ p.globals then none else some (p.valueName u) := by
  by_cases hu : u ∈ p.globals
  · rw [if_pos hu, Module.Extends.refl.mention_global hw hu]
    rfl
  · rw [if_neg hu, valueName]
    cases hx : p.values[u]? with
    | none => simp [Module.mention, hx, Source.Mention.localName?]
    | some x =>
      have hne : x.definition ≠ .global := by simpa [hw.globals u, Module.Holds, hx] using hu
      rw [Module.mention_of_ne_global hx hne]
      rfl

theorem filterMap_mentions (hw : p.WellFormed) (us : List ValueId) :
    (us.map (Module.mention p)).filterMap Source.Mention.localName? =
      (us.filter (· ∉ p.globals)).map p.valueName := by
  rw [List.filterMap_map, ← List.filterMap_eq_map, List.filterMap_filter]
  refine List.filterMap_congr fun u _ => ?_
  rw [Function.comp_apply, localName?_mention hw]
  by_cases hu : u ∈ p.globals <;> simp [hu]

/-- The local names among what a value mentions are those of its places. -/
theorem filterMap_spelled (hw : p.WellFormed) (callee : Option FuncId → String)
    {x : Value ValueId BlockId (Option FuncId)} (hx : p.values[v]? = some x) :
    (Module.spelled p callee x).filterMap Source.Mention.localName? = (p.placesAt v).map p.nameAt := by
  obtain ⟨name, d⟩ := x
  have hname : p.valueName v = name := by simp [valueName, hx]
  have hglobal : v ∈ p.globals ↔ d = .global := by simp [hw.globals v, Module.Holds, hx]
  have hplaces : (p.placesAt v).map p.nameAt = (if v ∈ p.globals ∨ name = "" then [] else [name]) ++
      (d.operands.filter (· ∉ p.globals)).map p.valueName := by
    have hoperands : p.operands v = d.operands := by simp [operands, definition?, hx]
    rw [placesAt, hname, hoperands, List.map_append, List.map_map, apply_ite (List.map _),
      List.map_nil, List.map_singleton, nameAt, hname]
    rfl
  rw [hplaces, ← filterMap_mentions hw]
  cases d with
  | global =>
    simp [Module.spelled, Value.mentions, Source.Mention.localName?, Definition.operands, hglobal]
  | param =>
    simp [Module.spelled, Value.mentions, Source.filterMap_resultMentions, Definition.operands, hglobal]
  | phi incoming =>
    have hpairs : (incoming.flatMap fun i =>
        [.block (Module.label p i.2), Module.mention p i.1]).filterMap Source.Mention.localName? =
          ((incoming.map Prod.fst).map (Module.mention p)).filterMap Source.Mention.localName? := by
      rw [List.filterMap_flatMap, List.filterMap_map, List.filterMap_map,
        List.filterMap_eq_flatMap_toList]
      refine List.flatMap_congr fun i _ => ?_
      rw [Function.comp_apply, Function.comp_apply]
      cases Module.mention p i.1 <;> rfl
    rw [Module.spelled, Value.mentions, List.filterMap_append, hpairs, Source.filterMap_resultMentions]
    simp [hglobal, Definition.operands]
  | inst code =>
    simp [Module.spelled, Value.mentions, Source.filterMap_resultMentions, Definition.operands,
      Code.references, Source.Mention.localName?, Function.comp_def, hglobal]

theorem filterMap_spelling (hw : p.WellFormed) :
    p.spelling.filterMap Source.Mention.localName? = p.localPlaces.map p.nameAt := by
  rw [spelling, Module.mentions, localPlaces, List.filterMap_flatMap, List.map_flatMap,
    List.flatMap_def, List.flatMap_def]
  congr 1
  refine List.ext_getElem (by simp) fun v hv _ => ?_
  rw [List.length_map, Array.length_toList] at hv
  rw [List.getElem_map, List.getElem_map, List.getElem_range, Array.getElem_toList]
  exact filterMap_spelled hw _ (Array.getElem?_eq_getElem hv)

end Program

namespace Source

variable {text : List Char} {p : Program} {f : FuncId}

theorem sorted_functionValues (h : parse text = .ok p) : (p.functionValues f).Pairwise (· < ·) := by
  cases hF : p.functions[f]? with
  | none => simp [Program.functionValues, Program.params, Program.functionBlocks, hF]
  | some F =>
    obtain ⟨d, _, -, hr⟩ := exists_renders_of_parse h (Array.mem_of_getElem? hF)
    rw [hr.functionValues_eq hF]
    exact List.pairwise_lt_range'

theorem repeats_of_parse (h : parse text = .ok p) : (p.functionValues f).Pairwise fun v w =>
    p.valueName v = p.valueName w → p.MayRepeat w := by
  cases hF : p.functions[f]? with
  | none => simp [Program.functionValues, Program.params, Program.functionBlocks, hF]
  | some F =>
    obtain ⟨d, _, hread, hr⟩ := exists_renders_of_parse h (Array.mem_of_getElem? hF)
    rw [hr.functionValues_eq hF, List.pairwise_iff_getElem]
    intro i j hi hj hij hname
    simp only [List.length_range'] at hi hj
    simp only [List.getElem_range', Nat.one_mul] at hname ⊢
    obtain ⟨hni, -, -⟩ := hr.value_at hi
    obtain ⟨hnj, hparam, hphi⟩ := hr.value_at hj
    rw [hni, hnj] at hname
    rw [Program.MayRepeat, hnj, hphi]
    exact (List.pairwise_iff_getElem.1 hread.apart i j hi hj hij hname).imp_right (Or.imp_left hparam)

/-- An operand is a global or the last value of its function with its name. -/
theorem last_of_mem_operands (h : parse text = .ok p) {b : BlockId} {u v : ValueId}
    (hb : b ∈ p.functionBlocks f) (hv : v ∈ p.blockValues b) (hu : u ∈ p.operands v) :
    u ∈ p.globals ∨ u ∈ p.functionValues f ∧
      ∀ w ∈ p.functionValues f, p.valueName w = p.valueName u → w ≤ u := by
  obtain ⟨F, hF, hbF⟩ := Program.mem_functionBlocks.1 hb
  obtain ⟨B, hB, hvB⟩ := Program.mem_blockValues.1 hv
  obtain ⟨d, _, hread, hr⟩ := exists_renders_of_parse h (Array.mem_of_getElem? hF)
  obtain ⟨c, hc, -, -, hvalues⟩ := hr.exists_block hbF hB
  obtain ⟨w, e, hw, he, htraverse⟩ := hvalues v hvB
  have hu : u ∈ e.operands := by simpa [Program.operands, Program.definition?, he] using hu
  obtain ⟨r, hmem, hres⟩ := exists_mem_of_map_eq (Definition.map_of_traverse_eq_ok htraverse).1 hu
  cases r with
  | global id =>
    obtain rfl : id = u := by simpa [DraftFunction.resolveValue] using hres
    have hbody : w ∈ d.body := List.mem_flatMap.2 ⟨c, hc, List.mem_of_getElem? hw⟩
    exact .inl ((hread.known w hbody).2.2 id hmem)
  | name n =>
    right
    rw [DraftFunction.resolveValue] at hres
    cases hlast : lastIndex? n d.valueNames with
    | none => simp [hlast] at hres
    | some i =>
      obtain rfl : F.params.start + i = u := by simpa [hlast] using hres
      obtain ⟨hi, hlast⟩ := lastIndex?_eq_some hlast
      rw [hr.functionValues_eq hF]
      have hlt : i < d.values.length := by
        have := (List.getElem?_eq_some_iff.1 hi).1
        rwa [← DraftFunction.map_name_values, List.length_map] at this
      have hname : p.valueName (F.params.start + i) = n :=
        Option.some.inj ((hr.getElem?_valueNames hlt).symm.trans hi)
      refine ⟨List.mem_range'_1.2 ⟨Nat.le_add_right _ _, Nat.add_lt_add_left hlt _⟩, ?_⟩
      intro w hw hwn
      obtain ⟨j, hj, rfl⟩ := List.mem_range'.1 hw
      rw [Nat.one_mul] at hwn ⊢
      refine Nat.add_le_add_left (hlast j ?_) _
      rw [hr.getElem?_valueNames hj, hwn, hname]

theorem resolves_of_mem_operands (h : parse text = .ok p) {u v : ValueId} (hv : p.InBody f v)
    (hu : u ∈ p.operands v) (hglobal : u ∉ p.globals) : p.Resolves f (p.valueName u) u := by
  obtain ⟨b, hb, hv⟩ := hv
  obtain ⟨hmem, hlast⟩ := (last_of_mem_operands h hb hv hu).resolve_left hglobal
  refine ⟨hmem, rfl, hlast, ?_⟩
  rw [Program.valueNamed?_eq_some (sorted_functionValues h)]
  constructor
  · rintro ⟨-, -, hfirst⟩ w hw hname
    exact Nat.le_antisymm (hlast w hw hname) (hfirst w hw hname)
  · intro honce
    exact ⟨hmem, rfl, fun w hw hname => Nat.le_of_eq (honce w hw hname).symm⟩

theorem standsFor_nameAt (h : parse text = .ok p) {place : Program.LocalPlace}
    (hplace : place ∈ p.localPlaces) : p.StandsFor (p.nameAt place) place := by
  obtain ⟨v, -, hplace⟩ := List.mem_flatMap.1 hplace
  rcases List.mem_append.1 hplace with hdefinition | hoperand
  · obtain rfl : place = .definition v := by
      by_contra hne
      split_ifs at hdefinition <;> simp [hne] at hdefinition
    rfl
  · obtain ⟨u, hu, rfl⟩ := List.mem_map.1 hoperand
    obtain ⟨hu, hglobal⟩ : u ∈ p.operands v ∧ u ∉ p.globals := by simpa using hu
    refine ⟨?_, fun f hv => resolves_of_mem_operands h hv hu hglobal⟩
    cases hd : p.definition? v with
    | none => simp [Program.operands, hd] at hu
    | some d =>
      rw [Program.operands, hd] at hu
      refine Program.exists_mem_blockValues (partitioned_of_parse h) hd ?_ ?_
      · rintro rfl
        cases hu
      · rintro rfl
        cases hu

/-- The names behind the `%` of a text go to the values and operands of the program in written
order: an operand written `%n` is the last value named `n` of its function. It is what looking `n`
up gives just when the name is taken once, and only a parameter or a phi can take a name again. -/
theorem names_resolved_of_parse (h : parse text = .ok p) : p.NamesResolved (localNames text) where
  repeats _ := repeats_of_parse h
  written := by
    rw [localNames, ← spelling_of_parse h, Program.filterMap_spelling (wellFormed_of_parse h),
      List.forall₂_map_left_iff, List.forall₂_same]
    exact fun place hplace => standsFor_nameAt h hplace

/-- Two parameters of one name, and a value that only the body names. -/
def repeatedText : String :=
  "f(%x, %x) \x7b
entry:
  %y = add %x, %x
  ret %y
\x7d
"

def repeatedProgram : Program :=
  readProgram repeatedText

theorem parse_repeatedText : parse repeatedText.toList = .ok repeatedProgram :=
  parse_eq_readProgram repeatedText (by decide +kernel)

theorem repeatedProgram_names_resolved : parse repeatedText.toList = .ok repeatedProgram ∧
    localNames repeatedText.toList = ["x", "x", "y", "x", "x", "y"] ∧
    repeatedProgram.localPlaces = [.definition 0, .definition 1, .definition 2, .operand 2 1,
      .operand 2 1, .operand 3 2] ∧
    repeatedProgram.NamesResolved (localNames repeatedText.toList) :=
  ⟨parse_repeatedText, by decide +kernel, by decide +kernel, names_resolved_of_parse parse_repeatedText⟩

/-- The operand `%x` is the second parameter, and looking `x` up gives the first. -/
theorem parameter_is_named_twice : parse repeatedText.toList = .ok repeatedProgram ∧
    repeatedProgram.params 0 = [0, 1] ∧ repeatedProgram.valueName 0 = "x" ∧
    repeatedProgram.valueName 1 = "x" ∧ repeatedProgram.operands 2 = [1, 1] ∧
    repeatedProgram.valueNamed? 0 "x" = some 0 := by
  refine ⟨parse_repeatedText, ?_⟩
  decide +kernel

end Source

end InputFlow
