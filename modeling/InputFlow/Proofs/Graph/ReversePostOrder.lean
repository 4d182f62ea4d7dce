import InputFlow.Proofs.Graph.Components
import Mathlib.Data.List.Nodup

namespace InputFlow

open InputFlow.Graph

namespace Flow

variable {flow : Flow} {b c : BlockId} {bs : List BlockId}

def Before (flow : Flow) (b c : BlockId) : Prop :=
  ∃ i j, flow.index? b = some i ∧ flow.index? c = some j ∧ i < j

theorem index?_eq_some (h : flow.order.Nodup) {i : Nat} :
    flow.index? b = some i ↔ flow.order[i]? = some b := by
  rw [index?, List.findIdx?_eq_some_iff_getElem, List.getElem?_eq_some_iff]
  constructor
  · rintro ⟨hi, hb, -⟩
    exact ⟨hi, beq_iff_eq.1 hb⟩
  · rintro ⟨hi, rfl⟩
    refine ⟨hi, by simp, fun j hj hsame => ?_⟩
    exact Nat.ne_of_lt hj (h.getElem_inj_iff.1 (beq_iff_eq.1 hsame))

/-- Blocks that are taken from the order as they stand there ascend. -/
theorem pairwise_before (h : flow.order.Nodup) (hbs : bs.Sublist flow.order) :
    bs.Pairwise flow.Before := by
  refine List.Pairwise.sublist hbs (List.pairwise_iff_getElem.2 fun i j hi hj hij => ?_)
  exact ⟨i, j, (index?_eq_some h).2 (List.getElem?_eq_getElem hi),
    (index?_eq_some h).2 (List.getElem?_eq_getElem hj), hij⟩

theorem before_of_split (h : flow.order.Nodup) {l r : List BlockId}
    (horder : flow.order = l ++ b :: r) (hc : c ∈ r) : flow.Before b c := by
  have hascend : (l ++ b :: r).Pairwise flow.Before := horder ▸ pairwise_before h (.refl _)
  exact (List.pairwise_cons.1 (List.pairwise_append.1 hascend).2.1).1 c hc

end Flow

namespace Program

variable {p : Program} {f : FuncId} {entry : BlockId}

/-- The order of a flow is a reverse post-order of the blocks that control comes to from the entry. -/
structure IsReversePostOrder (p : Program) (entry : BlockId) (flow : Flow) : Prop where
  head : flow.order.head? = some entry
  nodup : flow.order.Nodup
  reachable : ∀ b, b ∈ flow.order ↔ Reaches p.successors entry b
  index : ∀ b i, flow.index? b = some i ↔ flow.order[i]? = some b
  forward : ∀ u v, Reaches p.successors entry u → v ∈ p.successors u →
    flow.Before u v ∨ Reaches p.successors v u
  parent : ∀ v, Reaches p.successors entry v → v ≠ entry →
    ∃ u, Reaches p.successors entry u ∧ v ∈ p.successors u ∧ flow.Before u v
  preds : ∀ u v, u ∈ flow.preds v ↔ Reaches p.successors entry u ∧ v ∈ p.successors u
  preds_ascend : ∀ v, (flow.preds v).Nodup ∧ (flow.preds v).Pairwise flow.Before

theorem mem_succs {u v : BlockId} : v ∈ (p.flow f).succs u ↔ v ∈ p.successors u :=
  List.mem_eraseDups

/-- An edge goes forward, or control comes back. -/
theorem before_or_reaches (h : (p.flow f).StartsAt entry) {u v : BlockId} (hu : u ∈ (p.flow f).order)
    (hv : v ∈ p.successors u) : (p.flow f).Before u v ∨ Reaches p.successors v u := by
  obtain ⟨l, r, horder⟩ := List.append_of_mem hu
  rcases h.late l u r horder u List.mem_cons_self v (mem_succs.2 hv) with hlater | hback
  · rcases List.mem_cons.1 hlater with rfl | hlater
    · exact .inr .refl
    · exact .inl (Flow.before_of_split h.nodup horder hlater)
  · exact .inr (reaches_succs.1 hback)

theorem exists_parent (h : (p.flow f).StartsAt entry) {v : BlockId} (hv : v ∈ (p.flow f).order)
    (hne : v ≠ entry) : ∃ u ∈ (p.flow f).order, v ∈ p.successors u ∧ (p.flow f).Before u v := by
  obtain ⟨l, r, horder⟩ := List.append_of_mem hv
  obtain ⟨u, hu, hedge⟩ := (h.parent l v r horder).resolve_left hne
  obtain ⟨l₁, l₂, rfl⟩ := List.append_of_mem hu
  refine ⟨u, by simp [horder], mem_succs.1 hedge, ?_⟩
  exact Flow.before_of_split h.nodup (r := l₂ ++ v :: r) (by simpa using horder) (by simp)

/-- The order of a control flow starts at the entry and has what can be reached from there. An edge
that does not go forward in it closes a cycle, and every block but the entry has a predecessor
before it. -/
theorem flow_is_reverse_post_order (hentry : p.entryBlock? f = some entry)
    (htargets : p.TargetsExist entry) : p.IsReversePostOrder entry (p.flow f) := by
  have h := startsAt_flow hentry htargets
  have hmem (b : BlockId) : b ∈ (p.flow f).order ↔ Reaches p.successors entry b :=
    (h.mem b).trans reaches_succs
  obtain ⟨rest, hrest⟩ := h.head
  have hpreds (v : BlockId) : ((p.flow f).preds v).Sublist (p.flow f).order := List.filter_sublist
  refine
    { head := by rw [hrest, List.head?_cons], nodup := h.nodup, reachable := hmem,
      index := fun b i => Flow.index?_eq_some h.nodup, forward := fun u v hu hv => ?_,
      parent := fun v hv hne => ?_, preds := fun u v => ?_,
      preds_ascend := fun v => ⟨h.nodup.sublist (hpreds v), Flow.pairwise_before h.nodup (hpreds v)⟩ }
  · exact before_or_reaches h ((hmem u).2 hu) hv
  · obtain ⟨u, hu, hedge, hbefore⟩ := exists_parent h ((hmem v).2 hv) hne
    exact ⟨u, (hmem u).1 hu, hedge, hbefore⟩
  · rw [Flow.mem_preds, hmem, mem_succs]

/-- Two blocks that go round without a common way in, a block that is its own successor, an edge that
stands twice, and a block that control never comes to. -/
def tangleText : String :=
  "main(%x) \x7b
entry:
  condbr %x, ^left, ^right
left:
  condbr %x, ^right, ^right
right:
  condbr %x, ^left, ^spin
spin:
  condbr %x, ^spin, ^done
done:
  ret
dead:
  br ^done
\x7d
"

def tangleProgram : Program :=
  Source.readProgram tangleText

theorem parse_tangleText : Source.parse tangleText.toList = .ok tangleProgram :=
  Source.parse_eq_readProgram tangleText (by decide +kernel)

theorem tangle_flow : tangleProgram.entryBlock? 0 = some 0 ∧
    (tangleProgram.flow 0).order = [0, 1, 2, 3, 4] ∧ (tangleProgram.flow 0).preds 2 = [0, 1] := by
  decide +kernel

theorem tangle_targetsExist : tangleProgram.TargetsExist 0 :=
  (Source.wellFormed_of_parse parse_tangleText).targetsExist tangle_flow.1

theorem tangle_is_reverse_post_order :
    (tangleProgram.flow 0).order = [0, 1, 2, 3, 4] ∧ (tangleProgram.flow 0).preds 2 = [0, 1] ∧
      tangleProgram.IsReversePostOrder 0 (tangleProgram.flow 0) :=
  ⟨tangle_flow.2.1, tangle_flow.2.2, flow_is_reverse_post_order tangle_flow.1 tangle_targetsExist⟩

end Program

end InputFlow
