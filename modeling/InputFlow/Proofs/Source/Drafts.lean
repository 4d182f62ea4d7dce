import InputFlow.Proofs.Source.Layout

namespace InputFlow

namespace Definition

variable {ρ τ κ : Type}

def isPhi : Definition ρ τ κ → Bool
  | phi _ => true
  | _ => false

end Definition

namespace Source

namespace DraftValue

/-- A value that may take a name which stands before it: parameters and phis are not checked, and an
instruction without a result has no name. -/
def MayRepeat (w : DraftValue) : Prop :=
  w.name = "" ∨ w.definition = .param ∨ w.definition.isPhi

/-- Two values in written order, with names that differ where reading checks them. -/
def Apart (x y : DraftValue) : Prop :=
  x.name = y.name → y.MayRepeat

end DraftValue

/-- A block as reading gives it behind the names in `defined`, in a program with these globals. -/
structure DraftBlock.Readable (globals : List ValueId) (defined : List String) (b : DraftBlock) :
    Prop where
  known : ∀ w ∈ b.values, w.Known globals
  phiCount_le : b.phiCount ≤ b.values.length
  isPhi_iff : ∀ k w, b.values[k]? = some w → (w.definition.isPhi ↔ k < b.phiCount)
  fresh : ∀ w ∈ b.values, w.name ∈ defined → w.MayRepeat
  apart : b.values.Pairwise DraftValue.Apart

namespace DraftBlock.Readable

variable {globals : List ValueId} {defined : List String} {b : DraftBlock} {w : DraftValue}

theorem empty (name : String) : Readable globals defined ⟨name, 0, []⟩ :=
  ⟨by simp, Nat.le_refl _, by simp, by simp, .nil⟩

private theorem fresh_concat (hb : b.Readable globals defined)
    (hw : w.name ∈ defined ++ b.values.map (·.name) → w.MayRepeat) :
    (∀ x ∈ b.values ++ [w], x.name ∈ defined → x.MayRepeat) ∧
      (b.values ++ [w]).Pairwise DraftValue.Apart := by
  refine ⟨List.forall_mem_append.2 ⟨hb.fresh, ?_⟩, List.pairwise_append.2 ⟨hb.apart, by simp, ?_⟩⟩
  · simpa using fun h => hw (List.mem_append_left _ h)
  · intro x hx y hy hname
    obtain rfl := List.mem_singleton.1 hy
    exact hw (List.mem_append_right _ (hname ▸ List.mem_map_of_mem hx))

private theorem known_concat (hb : b.Readable globals defined) (hw : w.Known globals) :
    ∀ x ∈ b.values ++ [w], x.Known globals :=
  List.forall_mem_append.2 ⟨hb.known, by simpa using hw⟩

theorem concat_phi (hb : b.Readable globals defined) (hlen : ¬ b.phiCount < b.values.length)
    (hknown : w.Known globals) (hw : w.definition.isPhi) :
    Readable globals defined { b with phiCount := b.phiCount + 1, values := b.values ++ [w] } := by
  obtain ⟨hfresh, hapart⟩ := hb.fresh_concat (w := w) fun _ => .inr (.inr hw)
  have heq : b.phiCount = b.values.length := Nat.le_antisymm hb.phiCount_le (Nat.not_lt.1 hlen)
  refine ⟨hb.known_concat hknown, by simp [heq], fun k x hx => ?_, hfresh, hapart⟩
  rcases Nat.lt_trichotomy k b.values.length with hk | rfl | hk
  · have := hb.isPhi_iff k x (by rwa [List.getElem?_append_left hk] at hx)
    simp only [this]
    lia
  · obtain rfl : w = x := by simpa using hx
    simp [hw, heq]
  · simp [List.getElem?_append_right (Nat.le_of_lt hk), Nat.sub_ne_zero_of_lt hk] at hx

theorem concat_instruction (hb : b.Readable globals defined) (hknown : w.Known globals)
    (hphi : w.definition.isPhi = false)
    (hw : w.name ∈ defined ++ b.values.map (·.name) → w.name = "") :
    Readable globals defined { b with values := b.values ++ [w] } := by
  obtain ⟨hfresh, hapart⟩ := hb.fresh_concat fun h => .inl (hw h)
  have hle := hb.phiCount_le
  refine ⟨hb.known_concat hknown, by simp only [List.length_append]; lia, fun k x hx => ?_, hfresh,
    hapart⟩
  by_cases hk : k < b.values.length
  · exact hb.isPhi_iff k x (by rwa [List.getElem?_append_left hk] at hx)
  · have hx := List.mem_of_getElem? (List.getElem?_append_right (Nat.not_lt.1 hk) ▸ hx)
    obtain rfl := List.mem_singleton.1 hx
    simp only [hphi, Bool.false_eq_true, false_iff]
    lia

end DraftBlock.Readable

namespace DraftFunction

variable {f : DraftFunction} {globals : List ValueId}

def values (f : DraftFunction) : List DraftValue :=
  f.params.map (⟨·, .param⟩) ++ f.body

@[simp] theorem map_name_values : f.values.map (·.name) = f.valueNames := by
  simp [values, valueNames, body, List.map_flatMap, Function.comp_def]

/-- A function as reading gives it in a program with these globals. -/
structure Readable (f : DraftFunction) (globals : List ValueId) : Prop where
  blocks : ∀ b ∈ f.blocks, ∃ defined, b.Readable globals defined
  apart : f.values.Pairwise DraftValue.Apart

theorem Readable.known (h : f.Readable globals) : ∀ w ∈ f.body, w.Known globals := by
  intro w hw
  obtain ⟨b, hb, hw⟩ := List.mem_flatMap.1 hw
  obtain ⟨_, hb⟩ := h.blocks b hb
  exact hb.known w hw

theorem Readable.mono {globals' : List ValueId} (h : f.Readable globals) (hsub : globals ⊆ globals') :
    f.Readable globals' := by
  refine ⟨fun b hb => ?_, h.apart⟩
  obtain ⟨defined, hb⟩ := h.blocks b hb
  refine ⟨defined, { hb with known := fun w hw => ?_ }⟩
  obtain ⟨hg, hp, hknown⟩ := hb.known w hw
  exact ⟨hg, hp, fun id hid => hsub (hknown id hid)⟩

theorem readable_of_blocks_eq_nil (h : f.blocks = []) : f.Readable globals := by
  refine ⟨by simp [h], ?_⟩
  rw [values, body, h, List.flatMap_nil, List.append_nil]
  exact List.pairwise_map.2 (List.pairwise_of_forall fun _ _ _ => .inr (.inl rfl))

theorem values_concat_block (f : DraftFunction) (b : DraftBlock) :
    values { f with body? := some (f.blocks ++ [b]) } = f.values ++ b.values := by
  simp [values, body, blocks]

theorem Readable.concat_block (hf : f.Readable globals) {b : DraftBlock}
    (hb : b.Readable globals f.valueNames) :
    Readable { f with body? := some (f.blocks ++ [b]) } globals := by
  refine ⟨List.forall_mem_append.2 ⟨hf.blocks, by simpa using ⟨_, hb⟩⟩, ?_⟩
  rw [values_concat_block]
  refine List.pairwise_append.2 ⟨hf.apart, hb.apart, fun x hx y hy hname => hb.fresh y hy ?_⟩
  rw [← hname, ← map_name_values]
  exact List.mem_map_of_mem hx

end DraftFunction

end Source

namespace Unlinked

/-- A program as reading gives it: globals and functions, added one after another. -/
inductive Built : Unlinked → Prop
  | empty : Built {}
  | global {u : Unlinked} (hu : Built u) (name : String) : Built (u.addGlobal name)
  | function {u : Unlinked} (hu : Built u) {f : Source.DraftFunction} (hf : f.Readable u.globals)
    {body : List (Value ValueId BlockId String)}
    (hbody : f.resolve u.values.size u.blocks.size = .ok body) : Built (u.withFunction f body)

theorem Built.wellFormed {u : Unlinked} (hu : u.Built) : u.WellFormed := by
  induction hu with
  | empty => exact Module.wellFormed_empty
  | global hu name ih => exact wellFormed_addGlobal ih name
  | function hu hf hbody ih => exact wellFormed_withFunction ih hf.known hbody

end Unlinked

end InputFlow
