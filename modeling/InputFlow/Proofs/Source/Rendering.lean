import InputFlow.Proofs.Source.Drafts

namespace InputFlow

section Traverse

variable {ε α β γ ρ τ κ ρ' τ' κ' ρ'' τ'' κ'' : Type} {onValue : ρ → Except ε ρ'}
  {onBlock : τ → Except ε τ'} {onCallee : κ → Except ε κ'} {onValue' : ρ' → Except ε ρ''}
  {onBlock' : τ' → Except ε τ''} {onCallee' : κ' → Except ε κ''}

theorem getElem?_of_mapM_eq_ok {f : α → Except ε β} {xs : List α} {ys : List β} {x : α} {k : Nat}
    (h : xs.mapM f = .ok ys) (hx : xs[k]? = some x) : ∃ y, ys[k]? = some y ∧ f x = .ok y := by
  have hk := congrArg (·[k]?) (map_of_mapM_eq_ok h)
  simp only [List.getElem?_map, hx, Option.map_some] at hk
  obtain ⟨y, hy, hxy⟩ := Option.map_eq_some_iff.1 hk.symm
  exact ⟨y, hy, hxy.symm⟩

theorem mapM_trans {f : α → Except ε β} {g : β → Except ε γ} {xs : List α} {ys : List β} {zs : List γ}
    (h : xs.mapM f = .ok ys) (h' : ys.mapM g = .ok zs) : xs.mapM (fun x => f x >>= g) = .ok zs := by
  induction xs generalizing ys zs with
  | nil =>
    obtain rfl : [] = ys := by simpa [pure_eq_ok] using h
    simpa using h'
  | cons x xs ih =>
    simp only [List.mapM_cons, bind_eq_ok, pure_eq_ok] at h
    obtain ⟨y, hy, ys, hys, rfl⟩ := h
    simp only [List.mapM_cons, bind_eq_ok, pure_eq_ok] at h' ⊢
    obtain ⟨z, hz, zs, hzs, rfl⟩ := h'
    exact ⟨z, ⟨y, hy, hz⟩, zs, ih hys hzs, rfl⟩

/-- Replacing references in two passes replaces them by what both passes make of them. -/
theorem Code.traverse_trans {c : Code ρ τ κ} {d : Code ρ' τ' κ'} {e : Code ρ'' τ'' κ''}
    (h : c.traverse onValue onBlock onCallee = .ok d)
    (h' : d.traverse onValue' onBlock' onCallee' = .ok e) :
    c.traverse (fun x => onValue x >>= onValue') (fun x => onBlock x >>= onBlock')
      (fun x => onCallee x >>= onCallee') = .ok e := by
  cases c with
  | ret value =>
    cases value <;> simp only [traverse, bind_eq_ok, pure_eq_ok] at h
    · subst h
      exact h'
    · obtain ⟨y, hy, rfl⟩ := h
      simp only [traverse, bind_eq_ok, pure_eq_ok] at h' ⊢
      obtain ⟨z, hz, rfl⟩ := h'
      exact ⟨z, ⟨y, hy, hz⟩, rfl⟩
  | any xs | jump xs =>
    simp only [traverse, bind_eq_ok, pure_eq_ok] at h
    obtain ⟨ys, hys, rfl⟩ := h
    simp only [traverse, bind_eq_ok, pure_eq_ok] at h' ⊢
    obtain ⟨zs, hzs, rfl⟩ := h'
    exact ⟨zs, mapM_trans hys hzs, rfl⟩
  | gep x xs | call x xs =>
    simp only [traverse, bind_eq_ok, pure_eq_ok] at h
    obtain ⟨y, hy, ys, hys, rfl⟩ := h
    simp only [traverse, bind_eq_ok, pure_eq_ok] at h' ⊢
    obtain ⟨z, hz, zs, hzs, rfl⟩ := h'
    exact ⟨z, ⟨y, hy, hz⟩, zs, mapM_trans hys hzs, rfl⟩
  | _ =>
    simp only [traverse, bind_eq_ok, pure_eq_ok] at h
    grind [traverse, bind_eq_ok, pure_eq_ok]

theorem Definition.traverse_trans {c : Definition ρ τ κ} {d : Definition ρ' τ' κ'}
    {e : Definition ρ'' τ'' κ''} (h : c.traverse onValue onBlock onCallee = .ok d)
    (h' : d.traverse onValue' onBlock' onCallee' = .ok e) :
    c.traverse (fun x => onValue x >>= onValue') (fun x => onBlock x >>= onBlock')
      (fun x => onCallee x >>= onCallee') = .ok e := by
  cases c with
  | global | param =>
    simp only [traverse, pure_eq_ok] at h
    subst h
    exact h'
  | phi incoming =>
    simp only [traverse, bind_eq_ok, pure_eq_ok] at h
    obtain ⟨xs, hxs, bs, hbs, rfl⟩ := h
    have hlen : xs.length = bs.length := by
      have hx := congrArg List.length (map_of_mapM_eq_ok hxs)
      have hb := congrArg List.length (map_of_mapM_eq_ok hbs)
      simp only [List.length_map] at hx hb
      lia
    simp only [traverse, List.map_fst_zip (Nat.le_of_eq hlen),
      List.map_snd_zip (Nat.le_of_eq hlen.symm), bind_eq_ok,
      pure_eq_ok] at h' ⊢
    obtain ⟨ys, hys, cs, hcs, rfl⟩ := h'
    exact ⟨ys, mapM_trans hxs hys, cs, mapM_trans hbs hcs, rfl⟩
  | inst code =>
    simp only [traverse, bind_eq_ok, pure_eq_ok] at h
    obtain ⟨d, hd, rfl⟩ := h
    simp only [traverse, bind_eq_ok, pure_eq_ok] at h' ⊢
    obtain ⟨e, he, rfl⟩ := h'
    exact ⟨e, Code.traverse_trans hd he, rfl⟩

theorem Definition.isPhi_of_traverse {c : Definition ρ τ κ} {d : Definition ρ' τ' κ'}
    (h : c.traverse onValue onBlock onCallee = .ok d) : d.isPhi = c.isPhi := by
  cases c <;> simp only [traverse, bind_eq_ok, pure_eq_ok] at h
  case phi => obtain ⟨_, _, _, _, rfl⟩ := h; rfl
  case inst => obtain ⟨_, _, rfl⟩ := h; rfl
  all_goals subst h; rfl

/-- The blocks of a phi are what its written blocks mean. -/
theorem Definition.mem_of_traverse_phi {c : Definition ρ τ κ} {incoming : List (ρ' × τ')}
    (h : c.traverse onValue onBlock onCallee = .ok (.phi incoming)) {x : ρ' × τ'}
    (hx : x ∈ incoming) : ∃ b, onBlock b = .ok x.2 := by
  cases c <;> simp only [traverse, bind_eq_ok, pure_eq_ok] at h
  case phi =>
    obtain ⟨xs, -, bs, hbs, heq⟩ := h
    obtain rfl := Definition.phi.inj heq
    obtain ⟨b, -, hb⟩ := exists_mem_of_map_eq (map_of_mapM_eq_ok hbs) (List.of_mem_zip hx).2
    exact ⟨b, hb⟩
  all_goals grind

/-- The function of a call is what its written name means. -/
theorem Definition.callee_of_traverse {c : Definition ρ τ κ} {callee : κ'} {args : List ρ'}
    (h : c.traverse onValue onBlock onCallee = .ok (.inst (.call callee args))) :
    ∃ name, onCallee name = .ok callee := by
  cases c with
  | inst code =>
    cases code <;>
      simp only [traverse, Code.traverse, bind_eq_ok, pure_eq_ok, Definition.inst.injEq] at h
    case call => grind
    case ret value => cases value <;> grind [Code.traverse, bind_eq_ok, pure_eq_ok]
    all_goals grind
  | _ => grind [traverse, bind_eq_ok, pure_eq_ok]

end Traverse

namespace Source

variable {first : ValueId} {blocks : List DraftBlock}

/-- The numbers of a block's values follow those of the blocks before it. -/
theorem getElem?_layBlocks {k : Nat} {B : Block} (h : (layBlocks first blocks)[k]? = some B) :
    ∃ b ∈ blocks, first ≤ B.first ∧ B.phiStop = B.first + b.phiCount ∧
      B.stop = B.first + b.values.length ∧ ∀ j x, b.values[j]? = some x →
        (blocks.flatMap (·.values))[B.first - first + j]? = some x := by
  induction blocks generalizing first k with
  | nil => simp [layBlocks] at h
  | cons b blocks ih =>
    cases k with
    | zero =>
      obtain rfl := Option.some.inj h
      refine ⟨b, List.mem_cons_self, Nat.le_refl _, rfl, rfl, fun j x hx => ?_⟩
      have hj := (List.getElem?_eq_some_iff.1 hx).1
      simpa [List.getElem?_append_left hj] using hx
    | succ k =>
      obtain ⟨c, hc, hfirst, hphi, hstop, hvalues⟩ := ih h
      refine ⟨c, List.mem_cons_of_mem _ hc, by lia, hphi, hstop, fun j x hx => ?_⟩
      rw [List.flatMap_cons, List.getElem?_append_right (by lia), ← hvalues j x hx]
      congr 1
      lia

theorem flatMap_values_layBlocks : (layBlocks first blocks).flatMap (·.values.toList) =
    List.range' first (blocks.flatMap (·.values)).length := by
  induction blocks generalizing first with
  | nil => rfl
  | cons b blocks ih =>
    rw [layBlocks, List.flatMap_cons, ih, List.flatMap_cons, List.length_append, Block.values,
      Span.toList, Nat.add_sub_cancel_left, List.range'_append_1]

namespace DraftFunction

variable {f : DraftFunction} {valueBase blockBase : Nat}

@[simp] theorem length_values : f.values.length = f.params.length + f.body.length := by
  simp [values]

theorem getElem?_of_resolve {body : List (Value ValueId BlockId String)}
    (h : f.resolve valueBase blockBase = .ok body) {k : Nat} {w : DraftValue}
    (hw : f.body[k]? = some w) : ∃ d, body[k]? = some ⟨w.name, d⟩ ∧
      w.definition.traverse (f.resolveValue valueBase) (f.resolveBlock blockBase) pure = .ok d := by
  simp only [resolve, resolveOperands, bind_eq_ok] at h
  obtain ⟨vs, hvs, h⟩ := h
  obtain ⟨y, hy, hwy⟩ := getElem?_of_mapM_eq_ok hvs hw
  obtain ⟨x, hx, hyx⟩ := getElem?_of_mapM_eq_ok h hy
  simp only [bind_eq_ok, pure_eq_ok] at hwy hyx
  obtain ⟨e, he, rfl⟩ := hwy
  obtain ⟨d, hd, rfl⟩ := hyx
  exact ⟨d, hx, by simpa using Definition.traverse_trans he hd⟩

end DraftFunction

end Source

namespace Module

variable {κ : Type}

/-- All values and blocks of `m` stand in `n` under the same numbers. -/
structure Extends (n m : Module κ) : Prop where
  values : ∀ (v : ValueId) x, m.values[v]? = some x → n.values[v]? = some x
  blocks : ∀ (b : BlockId) B, m.blocks[b]? = some B → n.blocks[b]? = some B

variable {l m n : Module κ}

theorem Extends.refl : m.Extends m :=
  ⟨fun _ _ h => h, fun _ _ h => h⟩

theorem Extends.trans (h : l.Extends n) (h' : n.Extends m) : l.Extends m :=
  ⟨fun v x hx => h.values v x (h'.values v x hx), fun b B hB => h.blocks b B (h'.blocks b B hB)⟩

/-- The function of the module stands for the written one, with callees as `onCallee` finds them:
its parameters and the values of its body take consecutive numbers, and each holds what was written
with the references replaced by what they mean. -/
structure Renders (m : Module κ) (onCallee : String → Except Source.ParseError κ) (F : Function)
    (f : Source.DraftFunction) : Prop where
  params : F.params.stop = F.params.start + f.params.length
  blocks : F.blocks.stop = F.blocks.start + f.blocks.length
  block : ∀ k B, (Source.layBlocks F.params.stop f.blocks)[k]? = some B →
    m.blocks[F.blocks.start + k]? = some B
  value : ∀ k w, f.values[k]? = some w → ∃ d, m.values[F.params.start + k]? = some ⟨w.name, d⟩ ∧
    w.definition.traverse (f.resolveValue F.params.start) (f.resolveBlock F.blocks.start) onCallee =
      .ok d

namespace Renders

variable {onCallee : String → Except Source.ParseError κ} {F : Function}
  {f : Source.DraftFunction} {b : BlockId} {B : Block} {v : ValueId}

theorem mono (h : m.Renders onCallee F f) (hn : n.Extends m) : n.Renders onCallee F f where
  params := h.params
  blocks := h.blocks
  block k B hB := hn.blocks _ _ (h.block k B hB)
  value k w hw :=
    let ⟨d, hd, hw⟩ := h.value k w hw
    ⟨d, hn.values _ _ hd, hw⟩

theorem exists_layBlocks (h : m.Renders onCallee F f) (hb : b ∈ F.blocks.toList) :
    ∃ B, m.blocks[b]? = some B ∧
      (Source.layBlocks F.params.stop f.blocks)[b - F.blocks.start]? = some B := by
  have hbounds := Span.mem_toList.1 hb
  have hlt : b - F.blocks.start < (Source.layBlocks F.params.stop f.blocks).length := by
    have := h.blocks
    rw [Source.length_layBlocks]
    lia
  have hB := List.getElem?_eq_getElem hlt
  have hb := h.block _ _ hB
  rw [Nat.add_sub_cancel' hbounds.1] at hb
  exact ⟨_, hb, hB⟩

/-- A value of a block holds what is written at its place in the block. -/
theorem exists_block (h : m.Renders onCallee F f) (hb : b ∈ F.blocks.toList)
    (hB : m.blocks[b]? = some B) : ∃ c ∈ f.blocks, B.phiStop = B.first + c.phiCount ∧
      B.stop = B.first + c.values.length ∧ ∀ v ∈ B.values.toList, ∃ w d,
        c.values[v - B.first]? = some w ∧ m.values[v]? = some ⟨w.name, d⟩ ∧
        w.definition.traverse (f.resolveValue F.params.start) (f.resolveBlock F.blocks.start)
          onCallee = .ok d := by
  obtain ⟨B', hB', hlay⟩ := h.exists_layBlocks hb
  obtain rfl := Option.some.inj (hB.symm.trans hB')
  obtain ⟨c, hc, hfirst, hphi, hstop, hbody⟩ := Source.getElem?_layBlocks hlay
  refine ⟨c, hc, hphi, hstop, fun v hv => ?_⟩
  rw [Block.mem_values] at hv
  have hlt : v - B.first < c.values.length := by lia
  have hw := List.getElem?_eq_getElem hlt
  have hparams := h.params
  -- The place in the body, moved behind the parameters, is the place among all values.
  have hvalue : f.values[v - F.params.start]? = some c.values[v - B.first] := by
    rw [Source.DraftFunction.values, List.getElem?_append_right (by rw [List.length_map]; lia),
      ← hbody _ _ hw, Source.DraftFunction.body, List.length_map]
    congr 1
    lia
  obtain ⟨d, hd, htraverse⟩ := h.value _ _ hvalue
  rw [Nat.add_sub_cancel' (by lia)] at hd
  exact ⟨_, d, hw, hd, htraverse⟩

theorem mem_blocks_of_phi (h : m.Renders onCallee F f) (hb : b ∈ F.blocks.toList)
    (hB : m.blocks[b]? = some B) (hv : v ∈ B.values.toList) {incoming : List (ValueId × BlockId)}
    (hphi : m.Holds v (.phi incoming)) {x : ValueId × BlockId} (hx : x ∈ incoming) :
    x.2 ∈ F.blocks.toList := by
  obtain ⟨c, -, -, -, hvalues⟩ := h.exists_block hb hB
  obtain ⟨w, d, -, hd, htraverse⟩ := hvalues v hv
  obtain rfl : d = .phi incoming := by simpa [Holds, hd] using hphi
  obtain ⟨name, hname⟩ := Definition.mem_of_traverse_phi htraverse hx
  rw [Span.mem_toList, h.blocks]
  exact Source.DraftFunction.bounds_of_resolveBlock hname

theorem isPhi_iff (h : m.Renders onCallee F f) {globals : List ValueId} (hf : f.Readable globals)
    (hb : b ∈ F.blocks.toList) (hB : m.blocks[b]? = some B) :
    B.first ≤ B.phiStop ∧ B.phiStop ≤ B.stop ∧
      ∀ v ∈ B.values.toList, ∀ d, m.Holds v d → (d.isPhi ↔ v < B.phiStop) := by
  obtain ⟨c, hc, hphi, hstop, hvalues⟩ := h.exists_block hb hB
  obtain ⟨_, hread⟩ := hf.blocks c hc
  have hle := hread.phiCount_le
  refine ⟨by lia, by lia, fun v hv d hd => ?_⟩
  obtain ⟨w, e, hw, he, htraverse⟩ := hvalues v hv
  obtain rfl : e = d := by simpa [Holds, he] using hd
  rw [Definition.isPhi_of_traverse htraverse, hread.isPhi_iff _ w hw]
  rw [Block.mem_values] at hv
  lia

end Renders

end Module

namespace Unlinked

variable {u : Unlinked} {F : Function} {f : Source.DraftFunction}
  {body : List (Value ValueId BlockId String)}

theorem renders_withFunction (hF : F.params.start = u.values.size)
    (hparams : F.params.stop = u.values.size + f.params.length)
    (hblocks : F.blocks = ⟨u.blocks.size, u.blocks.size + f.blocks.length⟩)
    (hbody : f.resolve u.values.size u.blocks.size = .ok body) :
    (u.withFunction f body).Renders pure F f := by
  refine ⟨by rw [hparams, hF], by rw [hblocks], fun k B hB => ?_, fun k w hw => ?_⟩
  · rw [hparams] at hB
    rw [hblocks, ← Array.getElem?_toList, toList_blocks_withFunction,
      List.getElem?_append_right (by simp)]
    simpa using hB
  · rw [hF, hblocks, ← Array.getElem?_toList, toList_values_withFunction,
      List.getElem?_append_right (by simp), Array.length_toList, Nat.add_sub_cancel_left]
    rw [Source.DraftFunction.values] at hw
    by_cases hk : k < f.params.length
    · rw [List.getElem?_append_left (by simpa using hk), List.getElem?_map,
        Option.map_eq_some_iff] at hw
      obtain ⟨name, hname, rfl⟩ := hw
      refine ⟨.param, ?_, rfl⟩
      rw [List.getElem?_append_left (by simpa [Source.DraftFunction.paramValues] using hk),
        Source.DraftFunction.paramValues, List.getElem?_map, hname, Option.map_some]
    · rw [List.getElem?_append_right (by simpa using hk), List.length_map] at hw
      obtain ⟨d, hd, htraverse⟩ := Source.DraftFunction.getElem?_of_resolve hbody hw
      refine ⟨d, ?_, htraverse⟩
      rw [List.getElem?_append_right (by simpa [Source.DraftFunction.paramValues] using hk),
        Source.DraftFunction.paramValues, List.length_map, hd]

theorem extends_addGlobal (name : String) : (u.addGlobal name).Extends u := by
  refine ⟨fun v x hx => ?_, fun _ _ h => h⟩
  have hlt := (Array.getElem?_eq_some_iff.1 hx).1
  rwa [addGlobal, Array.getElem?_push_lt hlt, ← Array.getElem?_eq_getElem hlt]

theorem extends_withFunction : (u.withFunction f body).Extends u := by
  refine ⟨fun v x hx => ?_, fun b B hB => ?_⟩
  · have hlt := (Array.getElem?_eq_some_iff.1 hx).1
    rwa [← Array.getElem?_toList, toList_values_withFunction, List.getElem?_append_left hlt,
      Array.getElem?_toList]
  · have hlt := (Array.getElem?_eq_some_iff.1 hB).1
    rwa [← Array.getElem?_toList, toList_blocks_withFunction, List.getElem?_append_left hlt,
      Array.getElem?_toList]

/-- Every function that was read stands in the program as it was written. -/
theorem Built.exists_renders (hu : u.Built) (hF : F ∈ u.functions) :
    ∃ f, f.Readable u.globals ∧ u.Renders pure F f := by
  induction hu with
  | empty => simp at hF
  | global hu name ih =>
    obtain ⟨f, hf, hr⟩ := ih hF
    exact ⟨f, hf.mono (List.subset_append_left _ _), hr.mono (extends_addGlobal name)⟩
  | @function u hu g hg body hbody ih =>
    rcases Array.mem_push.1 hF with hF | rfl
    · obtain ⟨f, hf, hr⟩ := ih hF
      exact ⟨f, hf, hr.mono extends_withFunction⟩
    · exact ⟨g, hg, renders_withFunction rfl rfl rfl hbody⟩

/-- A value of the linked program is the one read, with its callee found. -/
theorem getElem?_values_link {p : Program} {v : ValueId} (hp : u.link = .ok p)
    {y : Value ValueId BlockId String}
    (hy : u.values[v]? = some y) : ∃ d, p.values[v]? = some ⟨y.name, d⟩ ∧
      y.definition.traverse pure pure u.resolveCallee = .ok d := by
  simp only [link, bind_eq_ok, pure_eq_ok] at hp
  obtain ⟨values, hvalues, rfl⟩ := hp
  rw [← Array.getElem?_toList] at hy
  obtain ⟨x, hx, hyx⟩ := getElem?_of_mapM_eq_ok hvalues hy
  simp only [bind_eq_ok, pure_eq_ok] at hyx
  obtain ⟨d, hd, rfl⟩ := hyx
  exact ⟨d, by simpa using hx, hd⟩

theorem renders_link {p : Program} (hp : u.link = .ok p) (h : u.Renders pure F f) :
    Module.Renders p u.resolveCallee F f := by
  refine ⟨h.params, h.blocks, (link_eq_ok hp).2.1 ▸ h.block, fun k w hw => ?_⟩
  obtain ⟨c, hc, htraverse⟩ := h.value k w hw
  obtain ⟨d, hd, hcallee⟩ := getElem?_values_link hp hc
  exact ⟨d, hd, by simpa using Definition.traverse_trans htraverse hcallee⟩

end Unlinked

end InputFlow
