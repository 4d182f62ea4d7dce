import InputFlow.Proofs.Graph.CutSearch
import InputFlow.Proofs.Graph.ReversePostOrder
import Mathlib.Combinatorics.SimpleGraph.Connectivity.Connected

namespace InputFlow

open InputFlow.Graph

namespace Flow

variable {flow : Flow} {entry b c : BlockId}

def adjacent (flow : Flow) (b : BlockId) : List BlockId :=
  flow.adjacency.getD b []

theorem mem_neighbours :
    c ∈ flow.neighbours b ↔ c ∈ flow.order ∧ c ≠ b ∧ (c ∈ flow.succs b ∨ b ∈ flow.succs c) := by
  simp [neighbours]

theorem adjacent_of_mem (h : flow.order.Nodup) (hb : b ∈ flow.order) :
    flow.adjacent b = flow.neighbours b := by
  refine Std.ExtTreeMap.getD_ofList_of_mem (k := b) Std.ReflCmp.compare_self ?_
    (List.mem_map_of_mem hb)
  refine List.pairwise_map.2 (h.imp fun hne heq => ?_)
  exact hne (Std.LawfulEqCmp.eq_of_compare heq)

theorem adjacent_of_notMem (hb : b ∉ flow.order) : flow.adjacent b = [] :=
  Std.ExtTreeMap.getD_ofList_of_contains_eq_false (by simpa using hb)

theorem mem_adjacent (h : flow.order.Nodup) : c ∈ flow.adjacent b ↔
    b ∈ flow.order ∧ c ∈ flow.order ∧ c ≠ b ∧ (c ∈ flow.succs b ∨ b ∈ flow.succs c) := by
  by_cases hb : b ∈ flow.order
  · rw [adjacent_of_mem h hb, mem_neighbours]
    simp [hb]
  · rw [adjacent_of_notMem hb]
    simp [hb]

theorem undirected_adjacent (h : flow.order.Nodup) : Undirected flow.adjacent := by
  intro b c hc
  rw [mem_adjacent h] at hc ⊢
  exact ⟨hc.2.1, hc.1, hc.2.2.1.symm, hc.2.2.2.symm⟩

theorem StartsAt.reaches_adjacent (h : flow.StartsAt entry) :
    Reaches flow.adjacent entry b ↔ b ∈ flow.order := by
  constructor
  · intro hb
    rcases Relation.ReflTransGen.cases_tail hb with rfl | ⟨c, -, hb⟩
    · exact (h.mem _).2 .refl
    · exact ((mem_adjacent h.nodup).1 hb).2.1
  · intro hb
    have hreach := (h.mem b).1 hb
    clear hb
    induction hreach with
    | refl => exact .refl
    | @tail u z hu hz ih =>
      by_cases hne : z = u
      · exact hne ▸ ih
      · exact ih.tail ((mem_adjacent h.nodup).2
          ⟨(h.mem u).2 hu, (h.mem z).2 (hu.tail hz), hne, .inl hz⟩)

theorem StartsAt.mem_cutVertices (h : flow.StartsAt entry) :
    b ∈ Graph.cutVertices flow.adjacent flow.order.length entry ↔
      b ∈ flow.order ∧ Separates flow.adjacent entry b := by
  rw [Graph.mem_cutVertices (undirected_adjacent h.nodup) (U := flow.order)
    (fun u _ z hz => ((mem_adjacent h.nodup).1 hz).2.1) ((h.mem entry).2 .refl) (Nat.le_refl _),
    h.reaches_adjacent]

end Flow

namespace Program

variable {p : Program} {f : FuncId} {entry b : BlockId}

/-- The undirected graph of the blocks that control comes to from the entry, without one of them. -/
def flowGraphWithout (p : Program) (entry b : BlockId) :
    SimpleGraph {c | Reaches p.successors entry c ∧ c ≠ b} :=
  (SimpleGraph.fromRel fun u v => v ∈ p.successors u).induce _

theorem flowGraphWithout_adj {u v : {c | Reaches p.successors entry c ∧ c ≠ b}} :
    (p.flowGraphWithout entry b).Adj u v ↔
      u.1 ≠ v.1 ∧ (v.1 ∈ p.successors u ∨ u.1 ∈ p.successors v) :=
  Iff.rfl

theorem mem_adjacent (h : (p.flow f).StartsAt entry) {u v : BlockId} :
    v ∈ (p.flow f).adjacent u ↔ Reaches p.successors entry u ∧ Reaches p.successors entry v ∧
      v ≠ u ∧ (v ∈ p.successors u ∨ u ∈ p.successors v) := by
  rw [Flow.mem_adjacent h.nodup, h.mem, h.mem, reaches_succs, reaches_succs, mem_succs, mem_succs]

theorem reachable_flowGraphWithout (h : (p.flow f).StartsAt entry)
    {u v : {c | Reaches p.successors entry c ∧ c ≠ b}} :
    (p.flowGraphWithout entry b).Reachable u v ↔
      ReachesIn (p.flow f).adjacent (· ≠ b) u.1 v.1 := by
  rw [SimpleGraph.reachable_iff_reflTransGen]
  constructor
  · refine Relation.ReflTransGen.lift Subtype.val (fun x y hxy => ?_) u v
    obtain ⟨hne, hedge⟩ := flowGraphWithout_adj.1 hxy
    exact ⟨(mem_adjacent h).2 ⟨x.2.1, y.2.1, hne.symm, hedge⟩, x.2.2, y.2.2⟩
  · obtain ⟨v, hv⟩ := v
    intro (huv : ReachesIn _ _ u.1 v)
    induction huv with
    | refl => exact .refl
    | @tail x y _ hxy ih =>
      obtain ⟨hx, hy, hne, hedge⟩ := (mem_adjacent h).1 hxy.1
      exact (ih ⟨hx, hxy.2.1⟩).tail (flowGraphWithout_adj.2 ⟨hne.symm, hedge⟩)

theorem separates_adjacent (h : (p.flow f).StartsAt entry) :
    Separates (p.flow f).adjacent entry b ↔ ¬ (p.flowGraphWithout entry b).Preconnected := by
  have hmem (c : BlockId) : Reaches (p.flow f).adjacent entry c ↔ Reaches p.successors entry c :=
    h.reaches_adjacent.trans ((h.mem c).trans reaches_succs)
  simp only [Separates, hmem, SimpleGraph.Preconnected, not_forall, reachable_flowGraphWithout h]
  constructor
  · rintro ⟨x, y, hx, hy, hxb, hyb, hxy⟩
    exact ⟨⟨x, hx, hxb⟩, ⟨y, hy, hyb⟩, hxy⟩
  · rintro ⟨⟨x, hx, hxb⟩, ⟨y, hy, hyb⟩, hxy⟩
    exact ⟨x, y, hx, hy, hxb, hyb, hxy⟩

theorem returns_iff : p.returns b ↔ ∃ i ∈ p.instructions b, p.kind i = .ret := by
  simp [returns]

theorem cutVertices_eq (h : (p.flow f).StartsAt entry) :
    p.cutVertices (p.flow f) = (p.flow f).order.filter fun b => b == entry || p.returns b ||
      (Graph.cutVertices (p.flow f).adjacent (p.flow f).order.length entry).contains b := by
  obtain ⟨rest, hrest⟩ := h.head
  rw [cutVertices]
  split
  next hnil => simp [hrest] at hnil
  next first _ hcons =>
    obtain rfl : entry = first := by simp_all
    rfl

/-- The cut vertices, each once and in the order of the flow: the entry, the blocks that return, and those
without which the other blocks are no longer all joined. -/
theorem cutVertices_are_exact (hentry : p.entryBlock? f = some entry)
    (htargets : p.TargetsExist entry) :
    (p.cutVertices (p.flow f)).Nodup ∧ (p.cutVertices (p.flow f)).Pairwise (p.flow f).Before ∧
      ∀ b, b ∈ p.cutVertices (p.flow f) ↔ Reaches p.successors entry b ∧
        (b = entry ∨ (∃ i ∈ p.instructions b, p.kind i = .ret) ∨
          ¬ (p.flowGraphWithout entry b).Preconnected) := by
  have h := startsAt_flow hentry htargets
  have hsub : (p.cutVertices (p.flow f)).Sublist (p.flow f).order :=
    cutVertices_eq h ▸ List.filter_sublist
  refine ⟨h.nodup.sublist hsub, Flow.pairwise_before h.nodup hsub, fun b => ?_⟩
  have hreach : b ∈ (p.flow f).order ↔ Reaches p.successors entry b :=
    (h.mem b).trans reaches_succs
  rw [cutVertices_eq h, List.mem_filter, ← hreach, ← returns_iff, ← separates_adjacent h]
  refine and_congr_right fun hb => ?_
  simp [h.mem_cutVertices, hb, or_assoc]

theorem tangle_cutVertices_are_exact :
    tangleProgram.cutVertices (tangleProgram.flow 0) = [0, 2, 3, 4] ∧
      ¬ (tangleProgram.flowGraphWithout 0 2).Preconnected ∧
      (tangleProgram.flowGraphWithout 0 1).Preconnected := by
  obtain ⟨hcuts, hreturn, hleft⟩ : tangleProgram.cutVertices (tangleProgram.flow 0) = [0, 2, 3, 4] ∧
      (¬ ∃ i ∈ tangleProgram.instructions 2, tangleProgram.kind i = .ret) ∧
      1 ∈ tangleProgram.successors 0 := by
    decide +kernel
  have hmem := (cutVertices_are_exact tangle_flow.1 tangle_targetsExist).2.2
  refine ⟨hcuts, ?_, ?_⟩
  · have hright := (hmem 2).1 (by simp [hcuts])
    exact (hright.2.resolve_left (by decide)).resolve_left hreturn
  · by_contra hapart
    have hcut := (hmem 1).2 ⟨.single hleft, .inr (.inr hapart)⟩
    simp [hcuts] at hcut

end Program

end InputFlow
