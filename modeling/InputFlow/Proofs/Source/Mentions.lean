import InputFlow.Program.Query
import InputFlow.Proofs.Source.Rendering
import InputFlow.Proofs.Source.Tokens

namespace InputFlow

namespace Source

/-- An instruction without a result has the empty name, and mentions none. -/
def resultMentions (name : String) : List Mention :=
  if name = "" then [] else [.value name]

/-- A local name, or a global under the name it has. -/
def Ref.mention (name : ValueId → String) : Ref → Mention
  | .name text => .value text
  | .global id => .global (name id)

end Source

open Source (Mention)

section Spelling

variable {ε α β ρ τ κ ρ' τ' κ' : Type}

def Code.callees : Code ρ τ κ → List κ
  | .call f _ => [f]
  | _ => []

/-- What stands behind the operation, and for a call behind the function, in written order. -/
def Code.references (value : ρ → Mention) (block : τ → String) (c : Code ρ τ κ) : List Mention :=
  c.operands.map value ++ c.targets.map (fun b => .block (block b)) ++ c.literals.map .number

/-- What the text of a value mentions, given the names of what it refers to. -/
def Value.mentions (value : ρ → Mention) (block : τ → String) (callee : κ → String) :
    Value ρ τ κ → List Mention
  | ⟨name, .global⟩ => [.global name]
  | ⟨name, .param⟩ => Source.resultMentions name
  | ⟨name, .phi incoming⟩ =>
    Source.resultMentions name ++ incoming.flatMap fun i => [.block (block i.2), value i.1]
  | ⟨name, .inst code⟩ =>
    Source.resultMentions name ++ code.callees.map (fun f => .global (callee f)) ++
      code.references value block

variable {onValue : ρ → Except ε ρ'} {onBlock : τ → Except ε τ'} {onCallee : κ → Except ε κ'}

theorem map_eq_of_map_eq_ok {f : α → Except ε β} {xs : List α} {ys : List β} {γ : Type} {g : α → γ}
    {h : β → γ} (hmap : xs.map f = ys.map .ok) (hg : ∀ x ∈ xs, ∀ y, f x = .ok y → h y = g x) :
    ys.map h = xs.map g := by
  induction xs generalizing ys with
  | nil =>
    obtain rfl : ys = [] := by simpa using hmap.symm
    rfl
  | cons x xs ih =>
    cases ys with
    | nil => simp at hmap
    | cons y ys =>
      obtain ⟨hx, hxs⟩ := List.cons.inj hmap
      rw [List.forall_mem_cons] at hg
      rw [List.map_cons, List.map_cons, hg.1 y hx, ih hxs hg.2]

theorem Code.rest_of_traverse_eq_ok {c : Code ρ τ κ} {d : Code ρ' τ' κ'}
    (h : c.traverse onValue onBlock onCallee = .ok d) :
    d.literals = c.literals ∧ c.callees.map onCallee = d.callees.map .ok := by
  cases c with
  | ret value =>
    cases value <;> simp only [traverse, bind_eq_ok, pure_eq_ok] at h
    · subst h
      exact ⟨rfl, rfl⟩
    · obtain ⟨y, -, rfl⟩ := h
      exact ⟨rfl, rfl⟩
  | call f xs =>
    simp only [traverse, bind_eq_ok, pure_eq_ok] at h
    obtain ⟨g, hg, ys, -, rfl⟩ := h
    exact ⟨rfl, by simp [callees, hg]⟩
  | _ =>
    simp only [traverse, bind_eq_ok, pure_eq_ok] at h
    grind [literals, callees]

variable {value : ρ → Mention} {block : τ → String} {callee : κ → String}
  {value' : ρ' → Mention} {block' : τ' → String} {callee' : κ' → String}

/-- Replacing references by what they mean changes no mention, if what they mean has their names. -/
theorem Value.mentions_of_traverse {c : Definition ρ τ κ} {d : Definition ρ' τ' κ'}
    (h : c.traverse onValue onBlock onCallee = .ok d) (name : String)
    (hvalue : ∀ r ∈ c.operands, ∀ v, onValue r = .ok v → value' v = value r)
    (hblock : ∀ n b, onBlock n = .ok b → block' b = block n)
    (hcallee : ∀ n f, onCallee n = .ok f → callee' f = callee n) :
    Value.mentions value' block' callee' ⟨name, d⟩ = Value.mentions value block callee ⟨name, c⟩ := by
  cases c with
  | global | param =>
    simp only [Definition.traverse, pure_eq_ok] at h
    subst h
    rfl
  | phi incoming =>
    simp only [Definition.traverse, bind_eq_ok, pure_eq_ok] at h
    obtain ⟨xs, hxs, bs, hbs, rfl⟩ := h
    have hx := map_eq_of_map_eq_ok (map_of_mapM_eq_ok hxs) hvalue
    have hb := map_eq_of_map_eq_ok (map_of_mapM_eq_ok hbs) fun n _ => hblock n
    simp only [Value.mentions]
    congr 1
    clear hxs hbs hvalue
    induction incoming generalizing xs bs with
    | nil =>
      obtain rfl : xs = [] := by simpa using hx
      rfl
    | cons i incoming ih =>
      cases xs with
      | nil => simp at hx
      | cons x xs =>
        cases bs with
        | nil => simp at hb
        | cons b bs =>
          simp only [List.map_cons, List.cons.injEq] at hx hb
          rw [List.zip_cons_cons, List.flatMap_cons, List.flatMap_cons, hx.1, hb.1, ih _ _ hx.2 hb.2]
  | inst code =>
    simp only [Definition.traverse, bind_eq_ok, pure_eq_ok] at h
    obtain ⟨e, he, rfl⟩ := h
    obtain ⟨hoperands, htargets⟩ := Code.map_of_traverse_eq_ok he
    obtain ⟨hliterals, hcallees⟩ := Code.rest_of_traverse_eq_ok he
    have ho := map_eq_of_map_eq_ok hoperands hvalue
    have ht := map_eq_of_map_eq_ok (g := fun n => Mention.block (block n))
      (h := fun b => Mention.block (block' b)) htargets fun n _ b hb => congrArg _ (hblock n b hb)
    have hc := map_eq_of_map_eq_ok (g := fun n => Mention.global (callee n))
      (h := fun f => Mention.global (callee' f)) hcallees fun n _ f hf => congrArg _ (hcallee n f hf)
    simp only [Value.mentions, Code.references, ho, ht, hc, hliterals]

end Spelling

namespace Source.DraftFunction

def mentions (f : DraftFunction) (name : ValueId → String) : List Mention :=
  f.values.flatMap (Value.mentions (Ref.mention name) id id)

end Source.DraftFunction

namespace Module

variable {κ : Type} (m : Module κ)

def nameOf (v : ValueId) : String :=
  (m.values[v]?.map (·.name)).getD ""

def label (b : BlockId) : String :=
  (m.blocks[b]?.map (·.name)).getD ""

def mention (v : ValueId) : Mention :=
  match m.values[v]? with
  | some ⟨name, .global⟩ => .global name
  | some value => .value value.name
  | none => .value ""

def spelled (callee : κ → String) (x : Value ValueId BlockId κ) : List Mention :=
  x.mentions m.mention m.label callee

def mentions (callee : κ → String) : List Mention :=
  m.values.toList.flatMap (m.spelled callee)

variable {m} {n : Module κ} {onCallee : String → Except Source.ParseError κ} {F : Function}
  {f : Source.DraftFunction} {globals : List ValueId} {v : ValueId} {b : BlockId} {name : String}

theorem mention_of_global (h : m.values[v]? = some ⟨name, .global⟩) : m.mention v = .global name := by
  rw [mention, h]

theorem mention_of_ne_global {d : Definition ValueId BlockId κ} (h : m.values[v]? = some ⟨name, d⟩)
    (hd : d ≠ .global) : m.mention v = .value name := by
  rw [mention, h]
  cases d with
  | global => exact absurd rfl hd
  | _ => rfl

/-- A global is mentioned under its name wherever it stands. -/
theorem Extends.mention_global (h : n.Extends m) (hw : m.WellFormed) (hv : v ∈ m.globals) :
    n.mention v = .global (m.nameOf v) := by
  obtain ⟨x, hx, hd⟩ := Option.map_eq_some_iff.1 ((hw.globals v).1 hv)
  obtain ⟨name, d⟩ := x
  obtain rfl : d = .global := hd
  rw [mention_of_global (h.values v _ hx), nameOf, hx]
  rfl

namespace Renders

/-- The value that a local name stands for is mentioned by that name. -/
theorem mention_of_resolveValue (h : m.Renders onCallee F f) (hf : f.Readable globals)
    (hv : f.resolveValue F.params.start (.name name) = .ok v) : m.mention v = .value name := by
  rw [Source.DraftFunction.resolveValue] at hv
  cases hlast : Source.lastIndex? name f.valueNames with
  | none => simp [hlast] at hv
  | some i =>
    obtain rfl : F.params.start + i = v := by simpa [hlast] using hv
    have hname := (Source.lastIndex?_eq_some hlast).1
    rw [← Source.DraftFunction.map_name_values, List.getElem?_map, Option.map_eq_some_iff] at hname
    obtain ⟨w, hw, rfl⟩ := hname
    obtain ⟨d, hd, htraverse⟩ := h.value i w hw
    have hglobal : w.definition ≠ .global := by
      rcases List.mem_append.1 (List.mem_of_getElem? hw) with hparam | hbody
      · obtain ⟨_, -, rfl⟩ := List.mem_map.1 hparam
        simp
      · exact (hf.known w hbody).1
    refine mention_of_ne_global hd ?_
    rwa [Ne, ← (Definition.map_of_traverse_eq_ok htraverse).2.2.1]

theorem label_of_resolveBlock (h : m.Renders onCallee F f)
    (hb : f.resolveBlock F.blocks.start name = .ok b) : m.label b = name := by
  rw [Source.DraftFunction.resolveBlock] at hb
  cases hlast : Source.lastIndex? name f.blockNames with
  | none => simp [hlast] at hb
  | some i =>
    obtain rfl : F.blocks.start + i = b := by simpa [hlast] using hb
    have hname := (Source.lastIndex?_eq_some hlast).1
    have hlay := congrArg (·[i]?) (Source.map_name_layBlocks F.params.stop f.blocks)
    simp only [List.getElem?_map] at hlay
    rw [Source.DraftFunction.blockNames, List.getElem?_map] at hname
    rw [hname, Option.map_eq_some_iff] at hlay
    obtain ⟨B, hB, rfl⟩ := hlay
    rw [label, h.block i B hB]
    rfl

/-- A value of a function mentions in the module what is written for it. -/
theorem spelled_value (h : m.Renders onCallee F f) (hf : f.Readable globals)
    {names : ValueId → String} (hglobals : ∀ id ∈ globals, m.mention id = .global (names id))
    {callee : κ → String} (hcallee : ∀ n k, onCallee n = .ok k → callee k = n) {k : Nat}
    {w : Source.DraftValue} (hw : f.values[k]? = some w) :
    ∃ x, m.values[F.params.start + k]? = some x ∧
      m.spelled callee x = w.mentions (Source.Ref.mention names) id id := by
  obtain ⟨d, hd, htraverse⟩ := h.value k w hw
  refine ⟨_, hd, Value.mentions_of_traverse htraverse w.name ?_ ?_ hcallee⟩
  · intro r hr v hv
    cases r with
    | name text => exact h.mention_of_resolveValue hf hv
    | global id =>
      obtain rfl : id = v := by simpa [Source.DraftFunction.resolveValue] using hv
      apply hglobals
      rcases List.mem_append.1 (List.mem_of_getElem? hw) with hparam | hbody
      · obtain ⟨_, -, rfl⟩ := List.mem_map.1 hparam
        cases hr
      · exact (hf.known w hbody).2.2 id hr
  · intro n b hb
    exact h.label_of_resolveBlock hb

end Renders

end Module

/-- All that a program refers to, by name and in the order of its values. -/
def Program.spelling (p : Program) : List Mention :=
  Module.mentions p fun f => f.elim "" p.functionName

namespace Unlinked

variable {u : Unlinked} {f : Source.DraftFunction} {body : List (Value ValueId BlockId String)}

theorem toList_values_addGlobal (name : String) :
    (u.addGlobal name).values.toList = u.values.toList ++ [⟨name, .global⟩] := by
  simp [addGlobal]

/-- The values that a function adds mention what is written in it, whatever is added behind them. -/
theorem spelled_withFunction (hu : u.WellFormed) (hf : f.Readable u.globals)
    (hbody : f.resolve u.values.size u.blocks.size = .ok body) {m : Unlinked}
    (hm : m.Extends (u.withFunction f body)) :
    (f.paramValues ++ body).flatMap (m.spelled id) = f.mentions u.nameOf := by
  obtain ⟨F, hstart, hr⟩ : ∃ F : Function, F.params.start = u.values.size ∧
      (u.withFunction f body).Renders pure F f :=
    ⟨⟨"", false, ⟨u.blocks.size, u.blocks.size + f.blocks.length⟩,
      ⟨u.values.size, u.values.size + f.params.length⟩⟩, rfl, renders_withFunction rfl rfl rfl hbody⟩
  have hglobals : ∀ id ∈ u.globals, m.mention id = .global (u.nameOf id) := fun id hid =>
    (hm.trans extends_withFunction).mention_global hu hid
  have hcallee (n k : String) (h : pure n = (.ok k : Except Source.ParseError String)) : id k = n :=
    (pure_eq_ok.1 h).symm
  have hlength : (f.paramValues ++ body).length = f.values.length := by
    simp [Source.DraftFunction.paramValues, Source.DraftFunction.length_of_resolve hbody]
  have hmap : (f.paramValues ++ body).map (m.spelled id) =
      f.values.map (Value.mentions (Source.Ref.mention u.nameOf) id id) := by
    refine List.ext_getElem (by simpa using hlength) fun k hk hk' => ?_
    rw [List.length_map] at hk hk'
    obtain ⟨x, hx, hspelled⟩ := (hr.mono hm).spelled_value hf hglobals
      hcallee (List.getElem?_eq_getElem hk')
    have hstored : (u.withFunction f body).values[F.params.start + k]? =
        some (f.paramValues ++ body)[k] := by
      rw [hstart, ← Array.getElem?_toList, toList_values_withFunction,
        List.getElem?_append_right (by simp)]
      simp [List.getElem?_eq_getElem hk]
    have hsame := Option.some.inj (hx.symm.trans (hm.values _ _ hstored))
    rw [List.getElem_map, List.getElem_map, ← hspelled, hsame]
  rw [List.flatMap_def, hmap, ← List.flatMap_def]
  rfl

/-- What the values of a program mention stays the same, whatever is added behind them. -/
theorem Built.flatMap_spelled (hu : u.Built) {m : Unlinked} (hm : m.Extends u) :
    u.values.toList.flatMap (m.spelled id) = u.mentions id := by
  induction hu generalizing m with
  | empty => rfl
  | @global u hu name ih =>
    have hsplit {m : Unlinked} (hm : m.Extends (u.addGlobal name)) :
        (u.addGlobal name).values.toList.flatMap (m.spelled id) = u.mentions id ++ [.global name] := by
      rw [toList_values_addGlobal, List.flatMap_append, ih (hm.trans (extends_addGlobal name))]
      rfl
    exact (hsplit hm).trans (hsplit .refl).symm
  | @function u hu f hf body hbody ih =>
    have hsplit {m : Unlinked} (hm : m.Extends (u.withFunction f body)) :
        (u.withFunction f body).values.toList.flatMap (m.spelled id) =
          u.mentions id ++ f.mentions u.nameOf := by
      rw [toList_values_withFunction, List.flatMap_append, ih (hm.trans extends_withFunction),
        spelled_withFunction hu.wellFormed hf hbody hm]
    exact (hsplit hm).trans (hsplit .refl).symm

theorem mentions_addGlobal (hu : u.Built) (name : String) :
    (u.addGlobal name).mentions id = u.mentions id ++ [.global name] := by
  rw [Module.mentions, toList_values_addGlobal, List.flatMap_append,
    hu.flatMap_spelled (extends_addGlobal name)]
  rfl

theorem mentions_withFunction (hu : u.Built) (hf : f.Readable u.globals)
    (hbody : f.resolve u.values.size u.blocks.size = .ok body) :
    (u.withFunction f body).mentions id = u.mentions id ++ f.mentions u.nameOf := by
  rw [Module.mentions, toList_values_withFunction, List.flatMap_append,
    hu.flatMap_spelled extends_withFunction, spelled_withFunction hu.wellFormed hf hbody .refl]

section Link

variable {p : Program} {v : ValueId}

theorem mention_link (hp : u.link = .ok p) (v : ValueId) : Module.mention p v = u.mention v := by
  cases hy : u.values[v]? with
  | none =>
    have hsize : p.values[v]? = none := by
      rw [Array.getElem?_eq_none_iff] at hy ⊢
      rwa [(link_eq_ok hp).2.2.2]
    rw [Module.mention, Module.mention, hy, hsize]
  | some y =>
    obtain ⟨d, hd, htraverse⟩ := getElem?_values_link hp hy
    obtain ⟨name, c⟩ := y
    have hglobal := (eq_of_traverse_callee htraverse).2.2.1
    by_cases hc : c = .global
    · subst hc
      rw [Module.mention_of_global hy, Module.mention_of_global (hglobal.1 rfl ▸ hd)]
    · rw [Module.mention_of_ne_global hy hc, Module.mention_of_ne_global hd (mt hglobal.2 hc)]

/-- Finding the called functions changes no mention. -/
theorem spelling_link (hp : u.link = .ok p) : p.spelling = u.mentions id := by
  obtain ⟨hfunctions, hblocks, -, hsize⟩ := link_eq_ok hp
  have hcallee (n : String) (k : Option FuncId) (hk : u.resolveCallee n = .ok k) :
      k.elim "" p.functionName = n := by
    rw [resolveCallee] at hk
    cases hfind : u.functions.findIdx? (fun f => f.name == n) with
    | none => simp [hfind] at hk
    | some f =>
      obtain rfl : some f = k := by simpa [hfind] using hk
      obtain ⟨hlt, hname, -⟩ := Array.findIdx?_eq_some_iff_getElem.1 hfind
      rw [Option.elim_some, Program.functionName, hfunctions, Array.getElem?_eq_getElem hlt]
      exact beq_iff_eq.1 hname
  have hlabel (b : BlockId) : Module.label p b = u.label b := by
    rw [Module.label, Module.label, hblocks]
  have hmap : p.values.toList.map (Module.spelled p fun f => f.elim "" p.functionName) =
      u.values.toList.map (u.spelled id) := by
    refine List.ext_getElem (by simpa using hsize) fun v hv hv' => ?_
    rw [List.length_map, Array.length_toList] at hv hv'
    obtain ⟨d, hd, htraverse⟩ := getElem?_values_link hp (Array.getElem?_eq_getElem hv')
    rw [Array.getElem?_eq_getElem hv] at hd
    rw [List.getElem_map, List.getElem_map, Array.getElem_toList, Array.getElem_toList,
      Option.some.inj hd]
    refine Value.mentions_of_traverse htraverse _ ?_ ?_ hcallee
    · intro r _ v hv
      rw [mention_link hp, pure_eq_ok.1 hv]
    · intro n b hb
      rw [hlabel, pure_eq_ok.1 hb]
  rw [Program.spelling, Module.mentions, List.flatMap_def, hmap, ← List.flatMap_def]
  rfl

end Link

end Unlinked

end InputFlow
