import InputFlow.Proofs.Graph.ReversePostOrder

namespace InputFlow

open InputFlow.Graph

namespace Flow.StartsAt

variable {flow : Flow} {entry b : BlockId} {i j : Nat} {C D : Component}

theorem ready_at (h : flow.StartsAt entry) (hC : flow.components[i]? = some C) :
    flow.components = flow.components.take i ++ C :: flow.components.drop (i + 1) ∧
      Ready flow entry ((flow.components.take i).flatMap (·.blocks)) C := by
  obtain ⟨hi, rfl⟩ := List.getElem?_eq_some_iff.1 hC
  have hsplit : flow.components =
      flow.components.take i ++ flow.components[i] :: flow.components.drop (i + 1) := by
    rw [← List.drop_eq_getElem_cons hi, List.take_append_drop]
  exact ⟨hsplit, h.ready hsplit⟩

/-- A block is in one component only. -/
theorem place_unique (h : flow.StartsAt entry) (hC : flow.components[i]? = some C)
    (hD : flow.components[j]? = some D) (hbC : b ∈ C.blocks) (hbD : b ∈ D.blocks) : i = j := by
  have hle {i j : Nat} {C D : Component} (hC : flow.components[i]? = some C)
      (hD : flow.components[j]? = some D) (hbC : b ∈ C.blocks) (hbD : b ∈ D.blocks) : j ≤ i := by
    by_contra hlt
    have hmem : C ∈ flow.components.take j :=
      List.mem_of_getElem? ((List.getElem?_take_of_lt (Nat.not_le.1 hlt)).trans hC)
    exact (h.ready_at hD).2.fresh b hbD (List.mem_flatMap.2 ⟨C, hmem, hbC⟩)
  exact Nat.le_antisymm (hle hD hC hbD hbC) (hle hC hD hbC hbD)

theorem nodup_components (h : flow.StartsAt entry) : (flow.components.flatMap (·.blocks)).Nodup := by
  rw [List.nodup_flatMap]
  constructor
  · intro C hC
    obtain ⟨i, hi⟩ := List.mem_iff_getElem?.1 hC
    exact (h.ready_at hi).2.nodup
  · refine List.pairwise_iff_getElem.2 fun i j hi hj hij b hbC hbD => ?_
    exact Nat.ne_of_lt hij (h.place_unique (List.getElem?_eq_getElem hi) (List.getElem?_eq_getElem hj)
      hbC hbD)

/-- An edge that leaves a component leads to a later one. -/
theorem place_lt_of_edge (h : flow.StartsAt entry) (hC : flow.components[i]? = some C)
    (hD : flow.components[j]? = some D) (hij : i ≠ j) {u v : BlockId} (hu : u ∈ C.blocks)
    (hv : v ∈ D.blocks) (hedge : v ∈ flow.succs u) : i < j := by
  have hpred : u ∈ flow.preds v :=
    mem_preds.2 ⟨h.mem_order_of_mem_blocks (List.mem_of_getElem? hC) hu, hedge⟩
  rcases h.preds_passed (h.ready_at hD).1 hv hpred with ⟨E, hE, huE⟩ | huD
  · obtain ⟨k, hk⟩ := List.mem_iff_getElem?.1 hE
    rw [List.getElem?_take, Option.ite_none_right_eq_some] at hk
    exact h.place_unique hC hk.2 hu huE ▸ hk.1
  · exact absurd (h.place_unique hC hD hu huD) hij

theorem mem_self (h : flow.StartsAt entry) (hb : b ∈ flow.order) :
    b ∈ (flow.componentOf flow.closures b).blocks :=
  (h.mem_componentOf hb).2 ⟨.refl, .refl⟩

theorem ascends (h : flow.StartsAt entry) (hC : C ∈ flow.components) :
    C.blocks.Pairwise flow.Before := by
  obtain ⟨y, hy, rfl⟩ := h.exists_componentOf hC
  obtain ⟨P, hP, -⟩ := h.blocks_componentOf hy
  rw [hP]
  exact pairwise_before h.nodup List.filter_sublist

/-- A component counts as cyclic just if one of its blocks comes back to itself. -/
theorem isCyclic_iff (h : flow.StartsAt entry) (hC : C ∈ flow.components) :
    C.isCyclic ↔ ∃ b ∈ C.blocks, Relation.TransGen (fun a c => c ∈ flow.succs a) b b := by
  obtain ⟨y, hy, rfl⟩ := h.exists_componentOf hC
  constructor
  · exact fun hcyclic => ⟨y, h.mem_self hy, h.cycle_of_isCyclic hy hcyclic (h.mem_self hy)⟩
  · rintro ⟨b, hb, hcycle⟩
    by_contra hcyclic
    obtain ⟨hsingle, hself⟩ := h.single_of_not_isCyclic hy (Bool.eq_false_iff.2 hcyclic)
    obtain rfl : b = y := List.mem_singleton.1 (hsingle ▸ hb)
    -- the first step of the cycle stays in the component, which has no other block
    obtain ⟨z, hz, hback⟩ := Relation.TransGen.head'_iff.1 hcycle
    have hmem : z ∈ (flow.componentOf flow.closures b).blocks :=
      (h.mem_componentOf hy).2 ⟨.single hz, hback⟩
    obtain rfl : z = b := List.mem_singleton.1 (hsingle ▸ hmem)
    exact hself (mem_preds.2 ⟨hy, hz⟩)

end Flow.StartsAt

namespace Program

variable {p : Program} {f : FuncId} {entry : BlockId}

/-- The components are the strongly connected components of the blocks that control comes to from the
entry, in topological order. -/
structure IsCondensation (p : Program) (entry : BlockId) (flow : Flow) : Prop where
  nodup : (flow.components.flatMap (·.blocks)).Nodup
  cover : ∀ b, (∃ C ∈ flow.components, b ∈ C.blocks) ↔ Reaches p.successors entry b
  nonempty : ∀ C ∈ flow.components, C.blocks ≠ []
  connected : ∀ b c, Reaches p.successors entry b → Reaches p.successors entry c →
    ((∃ C ∈ flow.components, b ∈ C.blocks ∧ c ∈ C.blocks) ↔
      Reaches p.successors b c ∧ Reaches p.successors c b)
  topological : ∀ (i j : Nat) (C D : Component), flow.components[i]? = some C →
    flow.components[j]? = some D → i ≠ j →
    ∀ u ∈ C.blocks, ∀ v ∈ D.blocks, v ∈ p.successors u → i < j
  ascending : ∀ C ∈ flow.components, C.blocks.Pairwise flow.Before
  cyclic : ∀ C ∈ flow.components,
    C.isCyclic ↔ ∃ b ∈ C.blocks, Relation.TransGen (fun u v => v ∈ p.successors u) b b

/-- The components of a control flow are its strongly connected components, and they stand in a
topological order. -/
theorem flow_is_condensed (hentry : p.entryBlock? f = some entry) (htargets : p.TargetsExist entry) :
    p.IsCondensation entry (p.flow f) := by
  have h := startsAt_flow hentry htargets
  have hmem (b : BlockId) : b ∈ (p.flow f).order ↔ Reaches p.successors entry b :=
    (h.mem b).trans reaches_succs
  have hcover (b : BlockId) :
      (∃ C ∈ (p.flow f).components, b ∈ C.blocks) ↔ Reaches p.successors entry b := by
    rw [← hmem, ← h.mem_components, List.mem_flatMap]
  refine
    { nodup := h.nodup_components, cover := hcover, nonempty := fun C hC => ?_,
      connected := fun b c hb _ => ?_, topological := fun i j C D hC hD hij u hu v hv hedge => ?_,
      ascending := fun C => h.ascends, cyclic := fun C hC => ?_ }
  · obtain ⟨y, hy, rfl⟩ := h.exists_componentOf hC
    exact List.ne_nil_of_mem (h.mem_self hy)
  · rw [← reaches_succs (f := f), ← reaches_succs (f := f)]
    constructor
    · rintro ⟨C, hC, hbC, hcC⟩
      obtain ⟨y, hy, rfl⟩ := h.exists_componentOf hC
      rw [h.mem_componentOf hy] at hbC hcC
      exact hbC.symm.trans hcC
    · intro hconnected
      obtain ⟨C, hC, hbC⟩ := (hcover b).2 hb
      exact ⟨C, hC, hbC, h.mem_of_connected hC hbC hconnected⟩
  · exact h.place_lt_of_edge hC hD hij hu hv (mem_succs.2 hedge)
  · have hsame : (fun u v => v ∈ (p.flow f).succs u) = fun u v => v ∈ p.successors u :=
      funext fun _ => funext fun _ => propext mem_succs
    rw [h.isCyclic_iff hC, hsame]

theorem tangle_is_condensed :
    (tangleProgram.flow 0).components =
        [⟨[0], false⟩, ⟨[1, 2], true⟩, ⟨[3], true⟩, ⟨[4], false⟩] ∧
      tangleProgram.IsCondensation 0 (tangleProgram.flow 0) :=
  ⟨by decide +kernel, flow_is_condensed tangle_flow.1 tangle_targetsExist⟩

end Program

end InputFlow
