import InputFlow.Proofs.Scope
import InputFlow.Proofs.Source.Rendering

namespace InputFlow

namespace Span

/-- The spans follow one another without a gap. -/
def Chain (start stop : Nat) : List Span → Prop
  | [] => start = stop
  | s :: rest => s.start = start ∧ s.start ≤ s.stop ∧ Chain s.stop stop rest

theorem Chain.concat {start stop : Nat} {spans : List Span} (h : Chain start stop spans) {n : Nat} :
    Chain start (stop + n) (spans ++ [⟨stop, stop + n⟩]) := by
  induction spans generalizing start with
  | nil => exact ⟨h.symm, Nat.le_add_right _ _, rfl⟩
  | cons s spans ih => exact ⟨h.1, h.2.1, ih h.2.2⟩

theorem Chain.exists_mem {start stop n : Nat} {spans : List Span} (h : Chain start stop spans)
    (hstart : start ≤ n) (hstop : n < stop) : ∃ s ∈ spans, n ∈ s.toList := by
  induction spans generalizing start with
  | nil => exact absurd hstop (Nat.not_lt.2 (h ▸ hstart))
  | cons s spans ih =>
    by_cases hn : n < s.stop
    · exact ⟨s, List.mem_cons_self, Span.mem_toList.2 ⟨h.1 ▸ hstart, hn⟩⟩
    · obtain ⟨t, ht, hnt⟩ := ih h.2.2 (Nat.not_lt.1 hn)
      exact ⟨t, List.mem_cons_of_mem _ ht, hnt⟩

end Span

namespace Module

variable {κ : Type}

/-- Functions share out the blocks and the parameters, and blocks share out all other values but the
globals. -/
structure Partitioned (m : Module κ) : Prop where
  chain : Span.Chain 0 m.blocks.size (m.functions.toList.map (·.blocks))
  params_stop : ∀ F ∈ m.functions, F.params.stop ≤ m.values.size
  params_ordered : m.functions.toList.Pairwise fun F G => F.params.stop ≤ G.params.start
  param_home : ∀ v, m.Holds v .param → ∃ F ∈ m.functions, v ∈ F.params.toList
  body_home : ∀ v d, m.Holds v d → d ≠ .global → d ≠ .param → ∃ B ∈ m.blocks, v ∈ B.values.toList
  body_holds : ∀ B ∈ m.blocks, ∀ v ∈ B.values.toList, ∀ d, m.Holds v d → d ≠ .global ∧ d ≠ .param

theorem partitioned_empty : ({} : Module κ).Partitioned where
  chain := rfl
  params_stop := by simp
  params_ordered := by simp
  param_home := by simp [Holds]
  body_home := by simp [Holds]
  body_holds := by simp

end Module

namespace Unlinked

variable {u : Unlinked}

theorem partitioned_addGlobal (hu : u.WellFormed) (h : u.Partitioned) (name : String) :
    (u.addGlobal name).Partitioned := by
  have hcases {v : ValueId} {d : Definition ValueId BlockId String}
      (hd : (u.addGlobal name).Holds v d) : u.Holds v d ∨ d = .global := by
    rcases Nat.lt_succ_iff_lt_or_eq.1 (by simpa [addGlobal] using hd.lt) with hv | rfl
    · exact .inl ((holds_addGlobal_of_lt hv).1 hd)
    · exact .inr (by simpa [Module.Holds, addGlobal] using hd.symm)
  refine ⟨h.chain, fun F hF => ?_, h.params_ordered, fun v hv => ?_, fun v d hd hg hp => ?_,
    fun B hB v hv d hd => ?_⟩
  · have := h.params_stop F hF
    simp only [addGlobal, Array.size_push]
    lia
  · exact (hcases hv).elim (h.param_home v) fun hd => by simp at hd
  · exact (hcases hd).elim (fun hd => h.body_home v d hd hg hp) fun hd => absurd hd hg
  · have hlt := Nat.lt_of_lt_of_le (Block.mem_values.1 hv).2 (hu.stops B hB)
    exact h.body_holds B hB v hv d ((holds_addGlobal_of_lt hlt).1 hd)

theorem partitioned_withFunction (hu : u.WellFormed) (h : u.Partitioned) {f : Source.DraftFunction}
    {body : List (Value ValueId BlockId String)} (hf : f.Readable u.globals)
    (hbody : f.resolve u.values.size u.blocks.size = .ok body) :
    (u.withFunction f body).Partitioned := by
  have hlen := Source.DraftFunction.length_of_resolve hbody
  have hscoped {x} := Source.DraftFunction.scoped_of_resolve hbody hf.known (x := x)
  have hsize := size_values_withFunction (u := u) hlen
  have hblocks {B : Block} (hB : B ∈ u.blocks ∨
      B ∈ Source.layBlocks (u.values.size + f.params.length) f.blocks) :
      B ∈ (u.withFunction f body).blocks := by
    rwa [← Array.mem_toList_iff, toList_blocks_withFunction, List.mem_append, Array.mem_toList_iff]
  refine ⟨?_, ?_, ?_, fun v hv => ?_, fun v d hd hg hp => ?_, fun B hB v hv d hd => ?_⟩
  · rw [size_blocks_withFunction]
    simpa [withFunction] using h.chain.concat (n := f.blocks.length)
  · intro F hF
    rw [hsize]
    rcases Array.mem_push.1 hF with hF | rfl
    · have := h.params_stop F hF
      lia
    · exact Nat.le_add_right _ _
  · simp only [withFunction, Array.toList_push]
    refine List.pairwise_append.2 ⟨h.params_ordered, by simp, fun F hF G hG => ?_⟩
    obtain rfl := List.mem_singleton.1 hG
    exact h.params_stop F (Array.mem_toList_iff.1 hF)
  · by_cases hlt : v < u.values.size
    · obtain ⟨F, hF, hvF⟩ := h.param_home v ((holds_withFunction_of_lt hlt).1 hv)
      exact ⟨F, Array.mem_push.2 (.inl hF), hvF⟩
    · refine ⟨_, Array.mem_push.2 (.inr rfl), Span.mem_toList.2 ⟨Nat.not_lt.1 hlt, ?_⟩⟩
      by_contra hge
      obtain ⟨x, hx, hxd⟩ := mem_of_holds_withFunction (Nat.not_lt.1 hge) hv
      exact (hscoped hx).2.1 hxd
  · by_cases hlt : v < u.values.size
    · obtain ⟨B, hB, hvB⟩ := h.body_home v d ((holds_withFunction_of_lt hlt).1 hd) hg hp
      exact ⟨B, hblocks (.inl hB), hvB⟩
    · have hfirst : u.values.size + f.params.length ≤ v := by
        by_contra hge
        have hparam : (u.withFunction f body).Holds v .param :=
          holds_withFunction_param (Nat.not_lt.1 hlt) (Nat.not_le.1 hge)
        exact hp (Option.some.inj (hd.symm.trans hparam))
      obtain ⟨B, hB, hvB⟩ := Source.exists_mem_layBlocks hfirst (hsize ▸ hd.lt)
      exact ⟨B, hblocks (.inr hB), hvB⟩
  · rw [← Array.mem_toList_iff, toList_blocks_withFunction, List.mem_append,
      Array.mem_toList_iff] at hB
    rcases hB with hB | hB
    · have hlt := Nat.lt_of_lt_of_le (Block.mem_values.1 hv).2 (hu.stops B hB)
      exact h.body_holds B hB v hv d ((holds_withFunction_of_lt hlt).1 hd)
    · have hfirst := Nat.le_trans (Source.bounds_of_mem_layBlocks hB).1 (Block.mem_values.1 hv).1
      obtain ⟨x, hx, rfl⟩ := mem_of_holds_withFunction hfirst hd
      exact ⟨(hscoped hx).1, (hscoped hx).2.1⟩

theorem Built.partitioned (hu : u.Built) : u.Partitioned := by
  induction hu with
  | empty => exact Module.partitioned_empty
  | global hu name ih => exact partitioned_addGlobal hu.wellFormed ih name
  | function hu hf hbody ih => exact partitioned_withFunction hu.wellFormed ih hf hbody

theorem partitioned_link {p : Program} (h : u.Partitioned) (hp : u.link = .ok p) :
    Module.Partitioned p := by
  obtain ⟨hfunctions, hblocks, -, hsize⟩ := link_eq_ok hp
  refine ⟨?_, ?_, ?_, fun v hv => ?_, fun v d hd hg hparam => ?_, fun B hB v hv d hd => ?_⟩
  · rw [hfunctions, hblocks]
    exact h.chain
  · rw [hfunctions, hsize]
    exact h.params_stop
  · rw [hfunctions]
    exact h.params_ordered
  · obtain ⟨c, hc, hcd⟩ := holds_of_link hp hv
    rw [(eq_of_traverse_callee hcd).2.2.2.2 rfl] at hc
    rw [hfunctions]
    exact h.param_home v hc
  · obtain ⟨c, hc, hcd⟩ := holds_of_link hp hd
    obtain ⟨-, -, hcg, hcp⟩ := eq_of_traverse_callee hcd
    rw [hblocks]
    exact h.body_home v c hc (mt hcg.1 hg) (mt hcp.1 hparam)
  · obtain ⟨c, hc, hcd⟩ := holds_of_link hp hd
    obtain ⟨-, -, hcg, hcp⟩ := eq_of_traverse_callee hcd
    obtain ⟨hg, hparam⟩ := h.body_holds B (hblocks ▸ hB) v hv c hc
    exact ⟨mt hcg.2 hg, mt hcp.2 hparam⟩

/-- A called function is one of the program. -/
theorem exists_callee_of_link {p : Program} (hp : u.link = .ok p) {v : ValueId}
    {callee : Option FuncId} {args : List ValueId}
    (hd : Module.Holds p v (.inst (.call callee args))) :
    ∃ f, callee = some f ∧ f < p.functions.size := by
  obtain ⟨c, -, hcd⟩ := holds_of_link hp hd
  obtain ⟨name, hname⟩ := Definition.callee_of_traverse hcd
  rw [resolveCallee] at hname
  cases hfind : u.functions.findIdx? (fun f => f.name == name) with
  | none => simp [hfind] at hname
  | some f =>
    obtain rfl : some f = callee := by simpa [hfind] using hname
    rw [(link_eq_ok hp).1]
    exact ⟨f, rfl, (Array.findIdx?_eq_some_iff_getElem.1 hfind).1⟩

end Unlinked

namespace Program

variable {p : Program}

theorem isPhi_eq {v : ValueId} {d : Definition ValueId BlockId (Option FuncId)}
    (h : p.definition? v = some d) : p.isPhi v = d.isPhi := by
  cases d <;> simp [isPhi, h, Definition.isPhi]

inductive Home where
  | globals
  | params (f : FuncId)
  | block (b : BlockId)

def LivesIn (p : Program) (v : ValueId) : Home → Prop
  | .globals => v ∈ p.globals
  | .params f => v ∈ p.params f
  | .block b => v ∈ p.blockValues b

def functionValues (p : Program) (f : FuncId) : List ValueId :=
  p.params f ++ (p.functionBlocks f).flatMap p.blockValues

variable {v : ValueId} {b : BlockId} {d : Definition ValueId BlockId (Option FuncId)}

theorem lt_of_livesIn (hw : p.WellFormed) (home : Home) (h : p.LivesIn v home) :
    v < p.values.size := by
  cases home with
  | globals => exact ((hw.globals v).1 h).lt
  | params f =>
    obtain ⟨F, hF, hv⟩ := mem_params.1 h
    exact (hw.params F (Array.mem_of_getElem? hF) v hv).lt
  | block b =>
    obtain ⟨B, hB, hv⟩ := mem_blockValues.1 h
    exact Nat.lt_of_lt_of_le (Block.mem_values.1 hv).2 (hw.stops B (Array.mem_of_getElem? hB))

theorem exists_definition (hv : v < p.values.size) : ∃ d, p.definition? v = some d :=
  ⟨_, by rw [definition?, Array.getElem?_eq_getElem hv]; rfl⟩

theorem definition_of_mem_params (hw : p.WellFormed) {f : FuncId} (hv : v ∈ p.params f) :
    p.definition? v = some .param := by
  obtain ⟨F, hF, hv⟩ := mem_params.1 hv
  exact hw.params F (Array.mem_of_getElem? hF) v hv

theorem exists_mem_params (hp : p.Partitioned) (hd : p.definition? v = some .param) :
    ∃ f, v ∈ p.params f := by
  obtain ⟨F, hF, hv⟩ := hp.param_home v hd
  obtain ⟨f, hf⟩ := Array.mem_iff_getElem?.1 hF
  exact ⟨f, mem_params.2 ⟨F, hf, hv⟩⟩

theorem exists_mem_functionBlocks (hp : p.Partitioned) (hb : b < p.blocks.size) :
    ∃ f, b ∈ p.functionBlocks f := by
  obtain ⟨s, hs, hbs⟩ := hp.chain.exists_mem (Nat.zero_le b) hb
  obtain ⟨F, hF, rfl⟩ := List.mem_map.1 hs
  obtain ⟨f, hf⟩ := List.mem_iff_getElem?.1 hF
  exact ⟨f, mem_functionBlocks.2 ⟨F, by simpa using hf, hbs⟩⟩

theorem ne_of_mem_blockValues (hp : p.Partitioned) (hv : v ∈ p.blockValues b)
    (hd : p.definition? v = some d) : d ≠ .global ∧ d ≠ .param := by
  obtain ⟨B, hB, hv⟩ := mem_blockValues.1 hv
  exact hp.body_holds B (Array.mem_of_getElem? hB) v hv d hd

theorem exists_mem_blockValues (hp : p.Partitioned) (hd : p.definition? v = some d)
    (hglobal : d ≠ .global) (hparam : d ≠ .param) :
    ∃ f, ∃ b ∈ p.functionBlocks f, v ∈ p.blockValues b := by
  obtain ⟨B, hB, hv⟩ := hp.body_home v d hd hglobal hparam
  obtain ⟨b, hb⟩ := Array.mem_iff_getElem?.1 hB
  obtain ⟨f, hf⟩ := exists_mem_functionBlocks hp (Array.getElem?_eq_some_iff.1 hb).1
  exact ⟨f, b, hf, mem_blockValues.2 ⟨B, hb, hv⟩⟩

theorem eq_of_mem_params (hp : p.Partitioned) {f g : FuncId} (hf : v ∈ p.params f)
    (hg : v ∈ p.params g) : f = g := by
  -- The parameters of the function with the lower number end before those of the other begin.
  have hlt {f g : FuncId} (hf : v ∈ p.params f) (hg : v ∈ p.params g) : ¬ f < g := by
    intro hlt
    obtain ⟨F, hF, hvF⟩ := mem_params.1 hf
    obtain ⟨G, hG, hvG⟩ := mem_params.1 hg
    rw [← Array.getElem?_toList] at hF hG
    obtain ⟨hf, rfl⟩ := List.getElem?_eq_some_iff.1 hF
    obtain ⟨hg, rfl⟩ := List.getElem?_eq_some_iff.1 hG
    have hord := List.pairwise_iff_getElem.1 hp.params_ordered f g hf hg hlt
    rw [Span.mem_toList] at hvF hvG
    lia
  exact Nat.le_antisymm (Nat.not_lt.1 (hlt hg hf)) (Nat.not_lt.1 (hlt hf hg))

theorem existsUnique_home (hw : p.WellFormed) (hp : p.Partitioned) (hv : v < p.values.size) :
    ∃! home, p.LivesIn v home := by
  obtain ⟨d, hd⟩ := exists_definition hv
  have hglobals (h : v ∈ p.globals) : d = .global :=
    Option.some.inj (hd.symm.trans ((hw.globals v).1 h))
  have hparams {f : FuncId} (h : v ∈ p.params f) : d = .param :=
    Option.some.inj (hd.symm.trans (definition_of_mem_params hw h))
  have hblock {b : BlockId} (h : v ∈ p.blockValues b) := ne_of_mem_blockValues hp h hd
  by_cases hglobal : d = .global
  · subst hglobal
    refine ⟨.globals, (hw.globals v).2 hd, fun home h => ?_⟩
    cases home with
    | globals => rfl
    | params f => cases hparams h
    | block b => exact absurd rfl (hblock h).1
  · by_cases hparam : d = .param
    · subst hparam
      obtain ⟨f, hf⟩ := exists_mem_params hp hd
      refine ⟨.params f, hf, fun home h => ?_⟩
      cases home with
      | globals => cases hglobals h
      | params g => rw [eq_of_mem_params hp h hf]
      | block b => exact absurd rfl (hblock h).2
    · obtain ⟨f, b, -, hb⟩ := exists_mem_blockValues hp hd hglobal hparam
      refine ⟨.block b, hb, fun home h => ?_⟩
      cases home with
      | globals => exact absurd (hglobals h) hglobal
      | params f => exact absurd (hparams h) hparam
      | block c => rw [hw.eq_of_mem_blockValues h hb]

theorem mem_functionValues {f : FuncId} : v ∈ p.functionValues f ↔
    v ∈ p.params f ∨ ∃ b ∈ p.functionBlocks f, v ∈ p.blockValues b := by
  simp [functionValues]

theorem mem_functionValues_of_mem_operands (hw : p.WellFormed) {f : FuncId} {u : ValueId}
    (hb : b ∈ p.functionBlocks f) (hv : v ∈ p.blockValues b) (hu : u ∈ p.operands v) :
    u ∈ p.globals ∨ u ∈ p.functionValues f :=
  (hw.scope_of_mem_operands hb hv hu).imp_right mem_functionValues.2

theorem lt_of_mem_functionBlocks (hw : p.WellFormed) {f : FuncId} (hb : b ∈ p.functionBlocks f) :
    b < p.blocks.size := by
  obtain ⟨F, hF, hb⟩ := mem_functionBlocks.1 hb
  exact Nat.lt_of_lt_of_le (Span.mem_toList.1 hb).2 (hw.blocks F (Array.mem_of_getElem? hF))

theorem lt_of_mem_operands (hw : p.WellFormed) (hp : p.Partitioned) {u : ValueId}
    (hu : u ∈ p.operands v) : u < p.values.size := by
  have hmem := hu
  rw [operands] at hu
  cases hd : p.definition? v with
  | none => simp [hd] at hu
  | some d =>
    rw [hd] at hu
    obtain ⟨f, b, hb, hv⟩ := exists_mem_blockValues hp hd (by rintro rfl; cases hu)
      (by rintro rfl; cases hu)
    rcases hw.scope_of_mem_operands hb hv hmem with h | h | ⟨c, -, h⟩
    · exact lt_of_livesIn hw .globals h
    · exact lt_of_livesIn hw (.params f) h
    · exact lt_of_livesIn hw (.block c) h

end Program

namespace Source

variable {text : List Char} {p : Program}

theorem partitioned_of_parse (h : parse text = .ok p) : Module.Partitioned p := by
  obtain ⟨u, hu, hlink, -⟩ := exists_built_of_parse h
  exact Unlinked.partitioned_link hu.partitioned hlink

/-- Every function of a program that was read stands for a readable one. -/
theorem exists_renders_of_parse (h : parse text = .ok p) {F : Function} (hF : F ∈ p.functions) :
    ∃ f onCallee, DraftFunction.Readable f p.globals ∧ Module.Renders p onCallee F f := by
  obtain ⟨u, hu, hlink, -⟩ := exists_built_of_parse h
  obtain ⟨hfunctions, -, hglobals, -⟩ := Unlinked.link_eq_ok hlink
  obtain ⟨f, hf, hr⟩ := hu.exists_renders (hfunctions ▸ hF)
  exact ⟨f, u.resolveCallee, hglobals ▸ hf, Unlinked.renders_link hlink hr⟩

end Source

end InputFlow
