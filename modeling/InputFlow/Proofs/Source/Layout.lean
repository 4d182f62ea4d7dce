import InputFlow.Source.Draft
import Mathlib.Data.List.Basic

namespace InputFlow

section Traverse

variable {ε α β ρ τ κ ρ' τ' κ' : Type} {onValue : ρ → Except ε ρ'} {onBlock : τ → Except ε τ'}
  {onCallee : κ → Except ε κ'}

theorem bind_eq_ok {x : Except ε α} {f : α → Except ε β} {b : β} :
    (x >>= f) = .ok b ↔ ∃ a, x = .ok a ∧ f a = .ok b := by
  cases x <;> simp [bind, Except.bind]

theorem pure_eq_ok {a b : α} : (pure a : Except ε α) = .ok b ↔ a = b := by
  simp [pure, Except.pure]

theorem map_of_mapM_eq_ok {f : α → Except ε β} {xs : List α} {ys : List β}
    (h : xs.mapM f = .ok ys) : xs.map f = ys.map .ok := by
  induction xs generalizing ys with
  | nil => simp_all [pure_eq_ok]
  | cons x xs ih =>
    simp only [List.mapM_cons, bind_eq_ok, pure_eq_ok] at h
    obtain ⟨y, hy, zs, hzs, rfl⟩ := h
    simp [hy, ih hzs]

theorem exists_mem_of_map_eq {f : α → Except ε β} {xs : List α} {ys : List β}
    (h : xs.map f = ys.map .ok) {y : β} (hy : y ∈ ys) : ∃ x ∈ xs, f x = .ok y := by
  have hm : Except.ok y ∈ xs.map f := h ▸ List.mem_map_of_mem hy
  simpa using hm

theorem Code.map_of_traverse_eq_ok {c : Code ρ τ κ} {d : Code ρ' τ' κ'}
    (h : c.traverse onValue onBlock onCallee = .ok d) :
    c.operands.map onValue = d.operands.map .ok ∧ c.targets.map onBlock = d.targets.map .ok := by
  cases c with
  | ret value =>
    cases value <;> simp only [traverse, bind_eq_ok, pure_eq_ok] at h
    · subst h
      exact ⟨rfl, rfl⟩
    · obtain ⟨y, hy, rfl⟩ := h
      exact ⟨by simp [operands, hy], rfl⟩
  | any xs =>
    simp only [traverse, bind_eq_ok, pure_eq_ok] at h
    obtain ⟨ys, hys, rfl⟩ := h
    exact ⟨map_of_mapM_eq_ok hys, rfl⟩
  | jump bs =>
    simp only [traverse, bind_eq_ok, pure_eq_ok] at h
    obtain ⟨ys, hys, rfl⟩ := h
    exact ⟨rfl, map_of_mapM_eq_ok hys⟩
  | gep base xs =>
    simp only [traverse, bind_eq_ok, pure_eq_ok] at h
    obtain ⟨y, hy, ys, hys, rfl⟩ := h
    exact ⟨by simp [operands, hy, map_of_mapM_eq_ok hys], rfl⟩
  | call f xs =>
    simp only [traverse, bind_eq_ok, pure_eq_ok] at h
    obtain ⟨_, _, ys, hys, rfl⟩ := h
    exact ⟨map_of_mapM_eq_ok hys, rfl⟩
  | _ =>
    simp only [traverse, bind_eq_ok, pure_eq_ok] at h
    grind [operands, targets]

/-- Replacing references keeps their places, and globals and parameters apart from the rest. -/
theorem Definition.map_of_traverse_eq_ok {c : Definition ρ τ κ} {d : Definition ρ' τ' κ'}
    (h : c.traverse onValue onBlock onCallee = .ok d) :
    c.operands.map onValue = d.operands.map .ok ∧ c.targets.map onBlock = d.targets.map .ok ∧
      (c = .global ↔ d = .global) ∧ (c = .param ↔ d = .param) := by
  cases c with
  | global | param =>
    simp only [traverse, pure_eq_ok] at h
    subst h
    simp [operands, targets]
  | phi incoming =>
    simp only [traverse, bind_eq_ok, pure_eq_ok] at h
    obtain ⟨xs, hxs, bs, hbs, rfl⟩ := h
    have hx := map_of_mapM_eq_ok hxs
    have hlen : xs.length ≤ bs.length := by
      have h₁ := congrArg List.length hx
      have h₂ := congrArg List.length (map_of_mapM_eq_ok hbs)
      simp only [List.length_map] at h₁ h₂
      omega
    simp [operands, targets, List.map_fst_zip hlen, ← hx]
  | inst code =>
    simp only [traverse, bind_eq_ok, pure_eq_ok] at h
    obtain ⟨e, he, rfl⟩ := h
    obtain ⟨ho, ht⟩ := Code.map_of_traverse_eq_ok he
    exact ⟨ho, ht, by simp, by simp⟩

end Traverse

@[simp] theorem Span.mem_toList {s : Span} {n : Nat} : n ∈ s.toList ↔ s.start ≤ n ∧ n < s.stop := by
  rw [toList, List.mem_range'_1]
  omega

@[simp] theorem Block.mem_values {B : Block} {v : ValueId} :
    v ∈ B.values.toList ↔ B.first ≤ v ∧ v < B.stop :=
  Span.mem_toList

namespace Source

variable {first : ValueId} {blocks : List DraftBlock}

@[simp] theorem length_layBlocks : (layBlocks first blocks).length = blocks.length := by
  induction blocks generalizing first with
  | nil => rfl
  | cons b blocks ih => simp [layBlocks, ih]

theorem map_name_layBlocks (first : ValueId) (blocks : List DraftBlock) :
    (layBlocks first blocks).map (·.name) = blocks.map (·.name) := by
  induction blocks generalizing first with
  | nil => rfl
  | cons b blocks ih => simp [layBlocks, ih]

theorem bounds_of_mem_layBlocks {B : Block} (h : B ∈ layBlocks first blocks) :
    first ≤ B.first ∧ B.stop ≤ first + (blocks.flatMap (·.values)).length := by
  induction blocks generalizing first with
  | nil => simp [layBlocks] at h
  | cons b blocks ih =>
    simp only [layBlocks, List.mem_cons] at h
    simp only [List.flatMap_cons, List.length_append]
    rcases h with rfl | h
    · exact ⟨Nat.le_refl _, by simp only; lia⟩
    · have := ih h
      lia

theorem pairwise_layBlocks : (layBlocks first blocks).Pairwise fun B C => B.stop ≤ C.first := by
  induction blocks generalizing first with
  | nil => exact List.Pairwise.nil
  | cons b blocks ih => exact List.pairwise_cons.2 ⟨fun C hC => (bounds_of_mem_layBlocks hC).1, ih⟩

/-- The blocks leave no value of the body out. -/
theorem exists_mem_layBlocks {v : ValueId} (hfirst : first ≤ v)
    (hv : v < first + (blocks.flatMap (·.values)).length) :
    ∃ B ∈ layBlocks first blocks, v ∈ B.values.toList := by
  induction blocks generalizing first with
  | nil => simp at hv; lia
  | cons b blocks ih =>
    simp only [List.flatMap_cons, List.length_append] at hv
    by_cases hb : v < first + b.values.length
    · exact ⟨_, List.mem_cons_self, Block.mem_values.2 ⟨hfirst, hb⟩⟩
    · obtain ⟨B, hB, hvB⟩ := ih (Nat.not_lt.1 hb) (by lia)
      exact ⟨B, List.mem_cons_of_mem _ hB, hvB⟩

theorem lastIndex?_ne_none {name : String} {names : List String} (h : name ∈ names) :
    lastIndex? name names ≠ none := by
  induction names with
  | nil => cases h
  | cons x xs ih =>
    rw [lastIndex?]
    cases hx : lastIndex? name xs with
    | some i => simp
    | none =>
      rcases List.mem_cons.1 h with rfl | h
      · simp
      · exact absurd hx (ih h)

theorem lastIndex?_eq_some {name : String} {names : List String} {i : Nat}
    (h : lastIndex? name names = some i) :
    names[i]? = some name ∧ ∀ j, names[j]? = some name → j ≤ i := by
  induction names generalizing i with
  | nil => cases h
  | cons x xs ih =>
    rw [lastIndex?] at h
    cases hx : lastIndex? name xs with
    | some k =>
      obtain rfl : k + 1 = i := by simpa [hx] using h
      obtain ⟨hk, hlast⟩ := ih hx
      refine ⟨by simpa using hk, fun j hj => ?_⟩
      cases j with
      | zero => exact Nat.zero_le _
      | succ j => exact Nat.succ_le_succ (hlast j (by simpa using hj))
    | none =>
      obtain ⟨rfl, rfl⟩ : x = name ∧ 0 = i := by simpa [hx] using h
      refine ⟨rfl, fun j hj => ?_⟩
      cases j with
      | zero => exact Nat.le_refl _
      | succ j =>
        -- Were the name in the tail, the tail would have a last place for it.
        have hmem := List.mem_of_getElem? (List.getElem?_cons_succ ▸ hj)
        exact absurd hx (lastIndex?_ne_none hmem)

theorem lastIndex?_lt {name : String} {names : List String} {i : Nat}
    (h : lastIndex? name names = some i) : i < names.length :=
  (List.getElem?_eq_some_iff.1 (lastIndex?_eq_some h).1).1

/-- What reading makes sure of: a value of a body is a phi or an instruction, and the globals it
refers to exist. -/
def DraftValue.Known (globals : List ValueId) (w : DraftValue) : Prop :=
  w.definition ≠ .global ∧ w.definition ≠ .param ∧
    ∀ id, Ref.global id ∈ w.definition.operands → id ∈ globals

namespace DraftFunction

variable {f : DraftFunction} {valueBase blockBase : Nat} {globals : List ValueId}

def body (f : DraftFunction) : List DraftValue :=
  f.blocks.flatMap (·.values)

theorem length_valueNames : f.valueNames.length = f.params.length + f.body.length := by
  simp [valueNames, body, List.length_flatMap]

theorem bounds_of_resolveBlock {name : String} {b : BlockId}
    (h : f.resolveBlock blockBase name = .ok b) :
    blockBase ≤ b ∧ b < blockBase + f.blocks.length := by
  rw [resolveBlock] at h
  cases hi : lastIndex? name f.blockNames with
  | none => simp [hi] at h
  | some i =>
    have hlt := lastIndex?_lt hi
    simp only [blockNames, List.length_map] at hlt
    simp only [hi, Except.ok.injEq] at h
    lia

theorem bounds_of_resolveValue {r : Ref} {v : ValueId} (h : f.resolveValue valueBase r = .ok v) :
    r = .global v ∨ valueBase ≤ v ∧ v < valueBase + f.params.length + f.body.length := by
  cases r with
  | global id => exact .inl (by simpa [resolveValue] using h)
  | name text =>
    rw [resolveValue] at h
    cases hi : lastIndex? text f.valueNames with
    | none => simp [hi] at h
    | some i =>
      have hlt := lastIndex?_lt hi
      rw [length_valueNames] at hlt
      simp only [hi, Except.ok.injEq] at h
      exact .inr (by lia)

theorem length_of_resolve {body : List (Value ValueId BlockId String)}
    (h : f.resolve valueBase blockBase = .ok body) : body.length = f.body.length := by
  simp only [resolve, resolveOperands, bind_eq_ok] at h
  obtain ⟨vs, hvs, h⟩ := h
  have h₁ := congrArg List.length (map_of_mapM_eq_ok hvs)
  have h₂ := congrArg List.length (map_of_mapM_eq_ok h)
  simp only [List.length_map] at h₁ h₂
  rw [DraftFunction.body, h₁, h₂]

/-- A resolved value refers to existing globals, to values of the function and to its blocks. -/
theorem scoped_of_resolve {body : List (Value ValueId BlockId String)}
    (h : f.resolve valueBase blockBase = .ok body) (hf : ∀ w ∈ f.body, w.Known globals)
    {x : Value ValueId BlockId String} (hx : x ∈ body) :
    x.definition ≠ .global ∧ x.definition ≠ .param ∧
      (∀ b ∈ x.definition.targets, blockBase ≤ b ∧ b < blockBase + f.blocks.length) ∧
      ∀ v ∈ x.definition.operands, v ∈ globals ∨
        valueBase ≤ v ∧ v < valueBase + f.params.length + f.body.length := by
  simp only [resolve, resolveOperands, bind_eq_ok] at h
  obtain ⟨vs, hvs, h⟩ := h
  obtain ⟨y, hy, hxy⟩ := exists_mem_of_map_eq (map_of_mapM_eq_ok h) hx
  obtain ⟨w, hw, hyw⟩ := exists_mem_of_map_eq (map_of_mapM_eq_ok hvs) hy
  simp only [bind_eq_ok, pure_eq_ok] at hxy hyw
  obtain ⟨d, hd, rfl⟩ := hxy
  obtain ⟨e, he, rfl⟩ := hyw
  obtain ⟨hdo, hdt, hdg, hdp⟩ := Definition.map_of_traverse_eq_ok hd
  obtain ⟨heo, -, heg, hep⟩ := Definition.map_of_traverse_eq_ok he
  obtain ⟨hg, hp, hknown⟩ := hf w hw
  refine ⟨by rwa [Ne, ← hdg, ← heg], by rwa [Ne, ← hdp, ← hep], fun b hb => ?_, fun v hv => ?_⟩
  · obtain ⟨name, -, hname⟩ := exists_mem_of_map_eq hdt hb
    exact bounds_of_resolveBlock hname
  · obtain ⟨v', hv', heq⟩ := exists_mem_of_map_eq hdo hv
    obtain rfl := pure_eq_ok.1 heq
    obtain ⟨r, hr, hrv⟩ := exists_mem_of_map_eq heo hv'
    refine (bounds_of_resolveValue hrv).imp_left ?_
    rintro rfl
    exact hknown _ hr

end DraftFunction

end Source

namespace Module

variable {κ : Type}

def Holds (m : Module κ) (v : ValueId) (d : Definition ValueId BlockId κ) : Prop :=
  m.values[v]?.map (·.definition) = some d

/-- The value stands in a block of the function. -/
def Within (m : Module κ) (F : Function) (v : ValueId) : Prop :=
  ∃ b ∈ F.blocks.toList, ∃ B, m.blocks[b]? = some B ∧ v ∈ B.values.toList

/-- The numbering of a program keeps its blocks and functions apart. -/
structure WellFormed (m : Module κ) : Prop where
  globals : ∀ v, v ∈ m.globals ↔ m.Holds v .global
  params : ∀ F ∈ m.functions, ∀ v ∈ F.params.toList, m.Holds v .param
  stops : ∀ B ∈ m.blocks, B.stop ≤ m.values.size
  ordered : m.blocks.toList.Pairwise fun B C => B.stop ≤ C.first
  blocks : ∀ F ∈ m.functions, F.blocks.stop ≤ m.blocks.size
  targets : ∀ F ∈ m.functions, ∀ v d, m.Within F v → m.Holds v d →
    ∀ b ∈ d.targets, b ∈ F.blocks.toList
  operands : ∀ F ∈ m.functions, ∀ v d, m.Within F v → m.Holds v d →
    ∀ u ∈ d.operands, u ∈ m.globals ∨ u ∈ F.params.toList ∨ m.Within F u

variable {m : Module κ} {v : ValueId} {d : Definition ValueId BlockId κ} {F : Function}

theorem Holds.lt (h : m.Holds v d) : v < m.values.size := by
  obtain ⟨x, hx, -⟩ := Option.map_eq_some_iff.1 h
  exact (Array.getElem?_eq_some_iff.1 hx).1

theorem WellFormed.within_lt (h : m.WellFormed) (hv : m.Within F v) : v < m.values.size := by
  obtain ⟨b, -, B, hB, hvB⟩ := hv
  exact Nat.lt_of_lt_of_le (Block.mem_values.1 hvB).2 (h.stops B (Array.mem_of_getElem? hB))

theorem wellFormed_empty : ({} : Module κ).WellFormed where
  globals v := by simp [Holds]
  params := by simp
  stops := by simp
  ordered := by simp
  blocks := by simp
  targets := by simp
  operands := by simp

end Module

namespace Unlinked

variable {u : Unlinked}

theorem holds_addGlobal_of_lt {name : String} {v : ValueId} {d : Definition ValueId BlockId String}
    (hv : v < u.values.size) : (u.addGlobal name).Holds v d ↔ u.Holds v d := by
  simp [Module.Holds, addGlobal, Array.getElem?_push, Nat.ne_of_lt hv]

theorem wellFormed_addGlobal (h : u.WellFormed) (name : String) : (u.addGlobal name).WellFormed := by
  refine ⟨fun v => ?_, fun F hF v hv => ?_, fun B hB => ?_, h.ordered, h.blocks,
    fun F hF v d hv hd => ?_, fun F hF v d hv hd x hx => ?_⟩
  · rw [show (u.addGlobal name).globals = u.globals ++ [u.values.size] from rfl, List.mem_append,
      List.mem_singleton, h.globals]
    rcases Nat.lt_trichotomy v u.values.size with hv | rfl | hv
    · have hne : v ≠ u.values.size := Nat.ne_of_lt hv
      simp [holds_addGlobal_of_lt hv, hne]
    · simp [Module.Holds, addGlobal]
    · simp [Module.Holds, addGlobal, Array.getElem?_push, Nat.ne_of_gt hv, Nat.le_of_lt hv]
  · have hp := h.params F hF v hv
    exact (holds_addGlobal_of_lt hp.lt).2 hp
  · have := h.stops B hB
    simp only [addGlobal, Array.size_push]
    lia
  · exact h.targets F hF v d hv ((holds_addGlobal_of_lt (h.within_lt hv)).1 hd)
  · exact (h.operands F hF v d hv ((holds_addGlobal_of_lt (h.within_lt hv)).1 hd) x hx).imp_left
      (List.mem_append_left _)

/-- The program with a function behind all others, given its resolved values. -/
def withFunction (u : Unlinked) (f : Source.DraftFunction)
    (body : List (Value ValueId BlockId String)) : Unlinked :=
  let first := u.values.size + f.params.length
  { u with
    functions := u.functions.push
      { name := f.name
        isDeclaration := f.body?.isNone
        blocks := ⟨u.blocks.size, u.blocks.size + f.blocks.length⟩
        params := ⟨u.values.size, first⟩ }
    blocks := u.blocks ++ Source.layBlocks first f.blocks
    values := u.values ++ f.paramValues ++ body }

section WithFunction

variable {f : Source.DraftFunction} {body : List (Value ValueId BlockId String)} {v : ValueId}
  {d : Definition ValueId BlockId String} {F : Function}

theorem toList_values_withFunction :
    (u.withFunction f body).values.toList = u.values.toList ++ (f.paramValues ++ body) := by
  simp [withFunction]

theorem toList_blocks_withFunction : (u.withFunction f body).blocks.toList =
    u.blocks.toList ++ Source.layBlocks (u.values.size + f.params.length) f.blocks := by
  simp [withFunction]

theorem size_values_withFunction (hlen : body.length = f.body.length) :
    (u.withFunction f body).values.size = u.values.size + f.params.length + f.body.length := by
  rw [← Array.length_toList, toList_values_withFunction]
  simp [Source.DraftFunction.paramValues, hlen, Nat.add_assoc]

@[simp] theorem size_blocks_withFunction :
    (u.withFunction f body).blocks.size = u.blocks.size + f.blocks.length := by
  rw [← Array.length_toList, toList_blocks_withFunction]
  simp

theorem holds_withFunction_of_lt (hv : v < u.values.size) :
    (u.withFunction f body).Holds v d ↔ u.Holds v d := by
  rw [Module.Holds, Module.Holds, ← Array.getElem?_toList, toList_values_withFunction,
    List.getElem?_append_left hv, Array.getElem?_toList]

theorem holds_withFunction_param (hv : u.values.size ≤ v)
    (hlt : v < u.values.size + f.params.length) : (u.withFunction f body).Holds v .param := by
  have hparam : v - u.values.size < f.paramValues.length := by
    simp only [Source.DraftFunction.paramValues, List.length_map]
    lia
  rw [Module.Holds, ← Array.getElem?_toList, toList_values_withFunction,
    List.getElem?_append_right (by simpa using hv), Array.length_toList, List.getElem?_append_left hparam]
  simp [Source.DraftFunction.paramValues] at hparam ⊢
  simp [hparam]

theorem mem_of_holds_withFunction (hv : u.values.size + f.params.length ≤ v)
    (h : (u.withFunction f body).Holds v d) : ∃ x ∈ body, x.definition = d := by
  rw [Module.Holds, ← Array.getElem?_toList, toList_values_withFunction, ← List.append_assoc,
    List.getElem?_append_right (by simpa [Source.DraftFunction.paramValues] using hv),
    Option.map_eq_some_iff] at h
  obtain ⟨x, hx, hd⟩ := h
  exact ⟨x, List.mem_of_getElem? hx, hd⟩

theorem within_withFunction_of_stop_le (hF : F.blocks.stop ≤ u.blocks.size) :
    (u.withFunction f body).Within F v ↔ u.Within F v := by
  refine exists_congr fun b => and_congr_right fun hb => exists_congr fun B => ?_
  have hlt : b < u.blocks.toList.length := Nat.lt_of_lt_of_le (Span.mem_toList.1 hb).2 hF
  rw [← Array.getElem?_toList, toList_blocks_withFunction, List.getElem?_append_left hlt,
    Array.getElem?_toList]

theorem within_withFunction (hF : F.blocks = ⟨u.blocks.size, u.blocks.size + f.blocks.length⟩) :
    (u.withFunction f body).Within F v ↔
      u.values.size + f.params.length ≤ v ∧
        v < u.values.size + f.params.length + f.body.length := by
  constructor
  · rintro ⟨b, hb, B, hB, hv⟩
    rw [hF, Span.mem_toList] at hb
    rw [← Array.getElem?_toList, toList_blocks_withFunction, List.getElem?_append_right hb.1] at hB
    have hbounds := Source.bounds_of_mem_layBlocks (List.mem_of_getElem? hB)
    rw [Block.mem_values] at hv
    exact ⟨Nat.le_trans hbounds.1 hv.1, Nat.lt_of_lt_of_le hv.2 hbounds.2⟩
  · rintro ⟨hfirst, hlt⟩
    obtain ⟨B, hB, hv⟩ := Source.exists_mem_layBlocks hfirst hlt
    obtain ⟨j, hj⟩ := List.mem_iff_getElem?.1 hB
    have hlen := (List.getElem?_eq_some_iff.1 hj).1
    rw [Source.length_layBlocks] at hlen
    refine ⟨u.blocks.size + j, ?_, B, ?_, hv⟩
    · rw [hF, Span.mem_toList]
      lia
    · rw [← Array.getElem?_toList, toList_blocks_withFunction, List.getElem?_append_right (by simp)]
      simpa using hj

theorem exists_of_addFunction {u' : Unlinked} (h : u.addFunction f = .ok u') :
    ∃ body, f.resolve u.values.size u.blocks.size = .ok body ∧ u.withFunction f body = u' := by
  simpa only [addFunction, withFunction, bind_eq_ok, pure_eq_ok, Source.length_layBlocks] using h

theorem wellFormed_withFunction (h : u.WellFormed)
    (hf : ∀ w ∈ f.body, Source.DraftValue.Known u.globals w)
    (hbody : f.resolve u.values.size u.blocks.size = .ok body) :
    (u.withFunction f body).WellFormed := by
  have hlen := Source.DraftFunction.length_of_resolve hbody
  have hscoped {x} := Source.DraftFunction.scoped_of_resolve hbody hf (x := x)
  refine ⟨fun v => ?_, ?_, ?_, ?_, ?_, ?_, ?_⟩
  · -- Neither a parameter nor a value of the body is a global.
    rw [show (u.withFunction f body).globals = u.globals from rfl, h.globals]
    by_cases hv : v < u.values.size
    · exact (holds_withFunction_of_lt hv).symm
    · refine iff_of_false (fun hg => hv hg.lt) fun hg => ?_
      by_cases hp : v < u.values.size + f.params.length
      · have := (holds_withFunction_param (Nat.not_lt.1 hv) hp).symm.trans hg
        simp at this
      · obtain ⟨x, hx, hd⟩ := mem_of_holds_withFunction (Nat.not_lt.1 hp) hg
        exact (hscoped hx).1 hd
  · intro F hF v hv
    rcases Array.mem_push.1 hF with hF | rfl
    · have hp := h.params F hF v hv
      exact (holds_withFunction_of_lt hp.lt).2 hp
    · rw [Span.mem_toList] at hv
      exact holds_withFunction_param hv.1 hv.2
  · intro B hB
    rw [size_values_withFunction hlen]
    rw [← Array.mem_toList_iff, toList_blocks_withFunction, List.mem_append,
      Array.mem_toList_iff] at hB
    rcases hB with hB | hB
    · have := h.stops B hB
      lia
    · exact (Source.bounds_of_mem_layBlocks hB).2
  · rw [toList_blocks_withFunction, List.pairwise_append]
    refine ⟨h.ordered, Source.pairwise_layBlocks, fun B hB C hC => ?_⟩
    have hstop := h.stops B (Array.mem_toList_iff.1 hB)
    have hfirst := (Source.bounds_of_mem_layBlocks hC).1
    lia
  · intro F hF
    rw [size_blocks_withFunction]
    rcases Array.mem_push.1 hF with hF | rfl
    · exact Nat.le_add_right_of_le (h.blocks F hF)
    · exact Nat.le_refl _
  · intro F hF v d hv hd b hb
    rcases Array.mem_push.1 hF with hF | rfl
    · have hv := (within_withFunction_of_stop_le (h.blocks F hF)).1 hv
      exact h.targets F hF v d hv ((holds_withFunction_of_lt (h.within_lt hv)).1 hd) b hb
    · obtain ⟨x, hx, rfl⟩ := mem_of_holds_withFunction ((within_withFunction rfl).1 hv).1 hd
      exact Span.mem_toList.2 ((hscoped hx).2.2.1 b hb)
  · intro F hF v d hv hd x hx
    rcases Array.mem_push.1 hF with hF | rfl
    · have hstop := h.blocks F hF
      have hv := (within_withFunction_of_stop_le hstop).1 hv
      exact (h.operands F hF v d hv ((holds_withFunction_of_lt (h.within_lt hv)).1 hd) x hx).imp_right
        (Or.imp_right (within_withFunction_of_stop_le hstop).2)
    · obtain ⟨y, hy, rfl⟩ := mem_of_holds_withFunction ((within_withFunction rfl).1 hv).1 hd
      refine ((hscoped hy).2.2.2 x hx).imp_right fun ⟨hle, hlt⟩ => ?_
      by_cases hp : x < u.values.size + f.params.length
      · exact .inl (Span.mem_toList.2 ⟨hle, hp⟩)
      · exact .inr ((within_withFunction rfl).2 ⟨Nat.not_lt.1 hp, hlt⟩)

end WithFunction

section Link

variable {p : Program} {v : ValueId} {c : Definition ValueId BlockId String}
  {d : Definition ValueId BlockId (Option FuncId)}

/-- Finding a callee changes nothing else. -/
theorem eq_of_traverse_callee (h : c.traverse pure pure u.resolveCallee = .ok d) :
    c.operands = d.operands ∧ c.targets = d.targets ∧ (c = .global ↔ d = .global) ∧
      (c = .param ↔ d = .param) := by
  have hinj : Function.Injective (Except.ok : Nat → Except Source.ParseError Nat) :=
    fun _ _ => Except.ok.inj
  obtain ⟨ho, ht, hshape⟩ := Definition.map_of_traverse_eq_ok h
  exact ⟨List.map_injective_iff.2 hinj ho, List.map_injective_iff.2 hinj ht, hshape⟩

theorem holds_of_link (hp : u.link = .ok p) (hd : Module.Holds p v d) :
    ∃ c, u.Holds v c ∧ c.traverse pure pure u.resolveCallee = .ok d := by
  simp only [link, bind_eq_ok, pure_eq_ok] at hp
  obtain ⟨values, hvalues, rfl⟩ := hp
  obtain ⟨x, hx, rfl⟩ := Option.map_eq_some_iff.1 hd
  have hv := congrArg (·[v]?) (map_of_mapM_eq_ok hvalues)
  simp only [List.getElem?_map, Array.getElem?_toList] at hv
  simp only [List.getElem?_toArray] at hx
  rw [hx, Option.map_some, Option.map_eq_some_iff] at hv
  obtain ⟨y, hy, hxy⟩ := hv
  simp only [bind_eq_ok, pure_eq_ok] at hxy
  obtain ⟨e, he, rfl⟩ := hxy
  exact ⟨y.definition, by simp [Module.Holds, hy], he⟩

theorem link_eq_ok (hp : u.link = .ok p) : p.functions = u.functions ∧ p.blocks = u.blocks ∧
    p.globals = u.globals ∧ p.values.size = u.values.size := by
  simp only [link, bind_eq_ok, pure_eq_ok] at hp
  obtain ⟨values, hvalues, rfl⟩ := hp
  exact ⟨rfl, rfl, rfl, by simpa using (congrArg List.length (map_of_mapM_eq_ok hvalues)).symm⟩

theorem exists_holds_link (hp : u.link = .ok p) (hc : u.Holds v c) :
    ∃ d, Module.Holds p v d ∧ c.traverse pure pure u.resolveCallee = .ok d := by
  have hlt : v < p.values.size := (link_eq_ok hp).2.2.2 ▸ hc.lt
  obtain ⟨d, hd⟩ : ∃ d, Module.Holds p v d := ⟨_, by rw [Module.Holds, Array.getElem?_eq_getElem hlt]; rfl⟩
  obtain ⟨c', hc', hd'⟩ := holds_of_link hp hd
  obtain rfl := Option.some.inj (hc.symm.trans hc')
  exact ⟨d, hd, hd'⟩

theorem wellFormed_link (h : u.WellFormed) (hp : u.link = .ok p) : Module.WellFormed p := by
  obtain ⟨hfunctions, hblocks, hglobals, hsize⟩ := link_eq_ok hp
  have hwithin {F : Function} {v : ValueId} : Module.Within p F v ↔ u.Within F v := by
    rw [Module.Within, Module.Within, hblocks]
  refine ⟨fun v => ?_, fun F hF v hv => ?_, ?_, ?_, ?_, fun F hF v d hv hd => ?_,
    fun F hF v d hv hd => ?_⟩
  · rw [hglobals, h.globals]
    constructor
    · intro hc
      obtain ⟨d, hd, hcd⟩ := exists_holds_link hp hc
      rwa [(eq_of_traverse_callee hcd).2.2.1.1 rfl] at hd
    · intro hd
      obtain ⟨c, hc, hcd⟩ := holds_of_link hp hd
      rwa [(eq_of_traverse_callee hcd).2.2.1.2 rfl] at hc
  · obtain ⟨d, hd, hcd⟩ := exists_holds_link hp (h.params F (hfunctions ▸ hF) v hv)
    rwa [(eq_of_traverse_callee hcd).2.2.2.1 rfl] at hd
  · rw [hblocks, hsize]
    exact h.stops
  · rw [hblocks]
    exact h.ordered
  · rw [hfunctions, hblocks]
    exact h.blocks
  · obtain ⟨c, hc, hcd⟩ := holds_of_link hp hd
    rw [← (eq_of_traverse_callee hcd).2.1]
    exact h.targets F (hfunctions ▸ hF) v c (hwithin.1 hv) hc
  · obtain ⟨c, hc, hcd⟩ := holds_of_link hp hd
    rw [← (eq_of_traverse_callee hcd).1, hglobals]
    exact fun x hx => (h.operands F (hfunctions ▸ hF) v c (hwithin.1 hv) hc x hx).imp_right
      (Or.imp_right hwithin.2)

end Link

end Unlinked

end InputFlow
