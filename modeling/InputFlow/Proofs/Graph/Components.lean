import InputFlow.Graph.Flow
import InputFlow.Proofs.Graph.Search
import InputFlow.Proofs.Scope

namespace InputFlow

namespace Graph

theorem Reaches.congr {next next' : Nat → List Nat} (h : ∀ a b, b ∈ next a ↔ b ∈ next' a) {a b : Nat} :
    Reaches next a b ↔ Reaches next' a b := by
  have heq : (fun a b => b ∈ next a) = fun a b => b ∈ next' a :=
    funext fun a => funext fun b => propext (h a b)
  rw [Reaches, heq]

theorem IsSearchOrder.congr {next next' : Nat → List Nat} {root : Nat} {order : List Nat}
    (horder : IsSearchOrder next root order) (h : ∀ a b, b ∈ next a ↔ b ∈ next' a) :
    IsSearchOrder next' root order where
  head := horder.head
  nodup := horder.nodup
  mem n := (horder.mem n).trans (Reaches.congr h)
  parent l n r hsplit := by
    simpa only [h] using horder.parent l n r hsplit
  late l y r hsplit u hu z hz := by
    simpa only [Reaches.congr h] using horder.late l y r hsplit u hu z ((h u z).2 hz)

end Graph

namespace Flow

open InputFlow.Graph

variable {flow : Flow} {entry b c u : BlockId}

/-- The flow starts at the block and has all that can be reached from there. -/
def StartsAt (flow : Flow) (entry : BlockId) : Prop :=
  IsSearchOrder flow.succs entry flow.order

/-- Two blocks lie on a common cycle, or are the same. -/
def Connected (flow : Flow) (b c : BlockId) : Prop :=
  Reaches flow.succs b c ∧ Reaches flow.succs c b

theorem Connected.symm (h : flow.Connected b c) : flow.Connected c b :=
  ⟨h.2, h.1⟩

theorem Connected.trans (h : flow.Connected b c) (h' : flow.Connected c u) : flow.Connected b u :=
  ⟨h.1.trans h'.1, h'.2.trans h.2⟩

theorem mem_preds : u ∈ flow.preds b ↔ u ∈ flow.order ∧ b ∈ flow.succs u := by
  simp [preds]

namespace StartsAt

theorem mem_order_of_reaches (h : flow.StartsAt entry) (hb : b ∈ flow.order)
    (hc : Reaches flow.succs b c) : c ∈ flow.order :=
  (h.mem c).2 (((h.mem b).1 hb).trans hc)

theorem mem_reachable (h : flow.StartsAt entry) (hb : b ∈ flow.order) :
    c ∈ reachable flow.succs flow.order.length b ↔ Reaches flow.succs b c :=
  Graph.mem_reachable (fun _ hu _ hz => h.mem_order_of_reaches hu (.single hz)) hb (Nat.le_refl _)

theorem lastFirst (h : flow.StartsAt entry) :
    IsSearchOrder flow.succs entry flow.lastFirstOrder := by
  obtain ⟨rest, hrest⟩ := h.head
  have hlast : flow.lastFirstOrder =
      reversePostOrder (fun b => (flow.succs b).reverse) flow.order.length entry := by
    simp [lastFirstOrder, hrest]
  rw [hlast]
  refine IsSearchOrder.congr (isSearchOrder_reversePostOrder (U := flow.order) ?_ ?_ (Nat.le_refl _))
    fun a b => List.mem_reverse
  · exact fun u hu z hz => h.mem_order_of_reaches hu (.single (List.mem_reverse.1 hz))
  · simp [hrest]

/-- The component of a block has the blocks connected with it, in the order of the flow. -/
theorem blocks_componentOf (h : flow.StartsAt entry) (hb : b ∈ flow.order) :
    ∃ P : BlockId → Bool, (flow.componentOf flow.closures b).blocks = flow.order.filter P ∧
      ∀ c, c ∈ (flow.componentOf flow.closures b).blocks ↔ flow.Connected b c := by
  have hblocks : (flow.componentOf flow.closures b).blocks = flow.order.filter fun c =>
      (reachable flow.succs flow.order.length b).contains c &&
        (reachable flow.succs flow.order.length c).contains b := by
    rw [componentOf, closures, List.filter_map, List.map_map]
    exact List.map_id _
  refine ⟨_, hblocks, fun c => ?_⟩
  rw [hblocks, List.mem_filter, Bool.and_eq_true, List.contains_iff_mem, List.contains_iff_mem,
    h.mem_reachable hb, Connected]
  constructor
  · rintro ⟨hc, hbc, hcb⟩
    exact ⟨hbc, (h.mem_reachable hc).1 hcb⟩
  · rintro ⟨hbc, hcb⟩
    have hc := h.mem_order_of_reaches hb hbc
    exact ⟨hc, hbc, (h.mem_reachable hc).2 hcb⟩

theorem mem_componentOf (h : flow.StartsAt entry) (hb : b ∈ flow.order) :
    c ∈ (flow.componentOf flow.closures b).blocks ↔ flow.Connected b c := by
  obtain ⟨-, -, hmem⟩ := h.blocks_componentOf hb
  exact hmem c

end StartsAt

/-- The components found when the search order has been followed up to some point. Each is that of a
block `y` which none before it has, while those before it have all the blocks before `y`. -/
structure Found (flow : Flow) (passed : List BlockId) (found : List Component) : Prop where
  cover : ∀ b ∈ passed, ∃ C ∈ found, b ∈ C.blocks
  split : ∀ l C r, found = l ++ C :: r → ∃ L y R, passed = L ++ y :: R ∧
    C = flow.componentOf flow.closures y ∧ (∀ x ∈ L, ∃ D ∈ l, x ∈ D.blocks) ∧
    (∀ D ∈ l, y ∉ D.blocks) ∧ (L = [] → l = [])

theorem Found.snoc (h : flow.StartsAt entry) {passed : List BlockId} {found : List Component}
    (hfound : Found flow passed found) (hb : b ∈ flow.order) :
    Found flow (passed ++ [b]) (if found.any (·.blocks.contains b) then found
      else found ++ [flow.componentOf flow.closures b]) := by
  split
  next hany =>
    have hb : ∃ C ∈ found, b ∈ C.blocks := by simpa using hany
    refine ⟨List.forall_mem_append.2 ⟨hfound.cover, by simpa using hb⟩, fun l C r hsplit => ?_⟩
    obtain ⟨L, y, R, rfl, hrest⟩ := hfound.split l C r hsplit
    exact ⟨L, y, R ++ [b], by simp, hrest⟩
  next hany =>
    have hb' : ∀ C ∈ found, b ∉ C.blocks := by simpa using hany
    have hself : b ∈ (flow.componentOf flow.closures b).blocks :=
      (h.mem_componentOf hb).2 ⟨.refl, .refl⟩
    refine ⟨fun x hx => ?_, fun l C r hsplit => ?_⟩
    · rcases List.mem_append.1 hx with hx | hx
      · obtain ⟨C, hC, hxC⟩ := hfound.cover x hx
        exact ⟨C, List.mem_append_left _ hC, hxC⟩
      · obtain rfl := List.mem_singleton.1 hx
        exact ⟨_, by simp, hself⟩
    · rcases split_append hsplit with ⟨l', rfl, hl⟩ | ⟨r', hl, rfl⟩
      · obtain ⟨rfl, rfl, rfl⟩ : l' = [] ∧ C = flow.componentOf flow.closures b ∧ r = [] := by
          cases l' <;> simp_all
        refine ⟨passed, b, [], rfl, rfl, by simpa using hfound.cover, by simpa using hb', ?_⟩
        rintro rfl
        cases found with
        | nil => rfl
        | cons C found =>
          obtain ⟨L, y, R, hempty, -⟩ := hfound.split [] C found rfl
          simp at hempty
      · obtain ⟨L, y, R, rfl, hrest⟩ := hfound.split l C r' hl
        exact ⟨L, y, R ++ [b], by simp, hrest⟩

theorem StartsAt.found (h : flow.StartsAt entry) :
    Found flow flow.lastFirstOrder flow.components := by
  have hfold (bs passed : List BlockId) (found : List Component) (hbs : ∀ b ∈ bs, b ∈ flow.order)
      (hfound : Found flow passed found) : Found flow (passed ++ bs)
        (bs.foldl (fun found b => if found.any (·.blocks.contains b) then found
          else found ++ [flow.componentOf flow.closures b]) found) := by
    induction bs generalizing passed found with
    | nil => simpa using hfound
    | cons b bs ih =>
      have hsnoc := hfound.snoc h (hbs b List.mem_cons_self)
      simpa using ih (passed ++ [b]) _ (fun c hc => hbs c (List.mem_cons_of_mem _ hc)) hsnoc
  have hmem (b : BlockId) (hb : b ∈ flow.lastFirstOrder) : b ∈ flow.order :=
    (h.mem b).2 ((h.lastFirst.mem b).1 hb)
  exact hfold flow.lastFirstOrder [] [] hmem ⟨by simp, by simp⟩

/-- All is ready for a component when the blocks `passed` have been passed: control comes to its blocks
only from them and from the component, and to each of its blocks from an earlier one, unless the
component is the first and the block is the entry. -/
structure Ready (flow : Flow) (entry : BlockId) (passed : List BlockId) (C : Component) : Prop where
  nodup : C.blocks.Nodup
  reachable : ∀ b ∈ C.blocks, b ∈ flow.order
  fresh : ∀ b ∈ C.blocks, b ∉ passed
  preds : ∀ b ∈ C.blocks, ∀ u ∈ flow.preds b, u ∈ passed ∨ u ∈ C.blocks
  start : ∀ l b r, C.blocks = l ++ b :: r →
    (b = entry ∧ passed = [] ∧ l = []) ∨ ∃ u ∈ flow.preds b, u ∈ passed ∨ u ∈ l
  single : C.isCyclic = false → ∃ b, C.blocks = [b] ∧ b ∉ flow.preds b
  cycle : C.isCyclic → ∀ b ∈ C.blocks, Relation.TransGen (fun a c => c ∈ flow.succs a) b b

namespace StartsAt

theorem cycle_of_isCyclic (h : flow.StartsAt entry) (hc : c ∈ flow.order)
    (hcyclic : (flow.componentOf flow.closures c).isCyclic)
    (hb : b ∈ (flow.componentOf flow.closures c).blocks) :
    Relation.TransGen (fun a c => c ∈ flow.succs a) b b := by
  have hcb := (h.mem_componentOf hc).1 hb
  have hcases : 1 < (flow.componentOf flow.closures c).blocks.length ∨ c ∈ flow.succs c := by
    simpa [componentOf] using hcyclic
  rcases hcases with hmany | hself
  · obtain ⟨P, hP, -⟩ := h.blocks_componentOf hc
    have hnodup : (flow.componentOf flow.closures c).blocks.Nodup := hP ▸ h.nodup.filter P
    obtain ⟨u, hu, hne⟩ : ∃ u ∈ (flow.componentOf flow.closures c).blocks, b ≠ u := by
      by_contra hall
      push Not at hall
      have hsame := List.eq_replicate_of_mem fun u hu => (hall u hu).symm
      rw [hsame, List.nodup_replicate] at hnodup
      exact absurd hmany (Nat.not_lt.2 hnodup)
    have hbu := hcb.symm.trans ((h.mem_componentOf hc).1 hu)
    have hlead := (Relation.reflTransGen_iff_eq_or_transGen.1 hbu.1).resolve_left (Ne.symm hne)
    exact hlead.trans_left hbu.2
  · exact (Relation.TransGen.trans_right hcb.2 (.single hself)).trans_left hcb.1

theorem single_of_not_isCyclic (h : flow.StartsAt entry) (hb : b ∈ flow.order)
    (hcyclic : (flow.componentOf flow.closures b).isCyclic = false) :
    (flow.componentOf flow.closures b).blocks = [b] ∧ b ∉ flow.preds b := by
  have hself := (h.mem_componentOf hb).2 ⟨.refl, .refl⟩
  have hne : ¬ (1 < (flow.componentOf flow.closures b).blocks.length ∨ b ∈ flow.succs b) := by
    simpa [componentOf] using hcyclic
  rw [not_or] at hne
  refine ⟨?_, fun hmem => hne.2 (mem_preds.1 hmem).2⟩
  cases hblocks : (flow.componentOf flow.closures b).blocks with
  | nil => simp [hblocks] at hself
  | cons c rest =>
    rw [hblocks] at hself hne
    cases rest with
    | nil => rw [List.mem_singleton.1 hself]
    | cons _ _ => simp at hne

theorem exists_componentOf (h : flow.StartsAt entry) {C : Component} (hC : C ∈ flow.components) :
    ∃ y ∈ flow.order, C = flow.componentOf flow.closures y := by
  obtain ⟨l, r, hsplit⟩ := List.append_of_mem hC
  obtain ⟨L, y, R, hpassed, hy, -⟩ := h.found.split l C r hsplit
  exact ⟨y, (h.mem y).2 ((h.lastFirst.mem y).1 (by simp [hpassed])), hy⟩

theorem mem_of_connected (h : flow.StartsAt entry) {C : Component} (hC : C ∈ flow.components)
    (hb : b ∈ C.blocks) (hc : flow.Connected b c) : c ∈ C.blocks := by
  obtain ⟨y, hy, rfl⟩ := h.exists_componentOf hC
  rw [h.mem_componentOf hy] at hb ⊢
  exact hb.trans hc

theorem mem_order_of_mem_blocks (h : flow.StartsAt entry) {C : Component} (hC : C ∈ flow.components)
    (hb : b ∈ C.blocks) : b ∈ flow.order := by
  obtain ⟨y, hy, rfl⟩ := h.exists_componentOf hC
  exact h.mem_order_of_reaches hy ((h.mem_componentOf hy).1 hb).1

theorem mem_components (h : flow.StartsAt entry) :
    b ∈ flow.components.flatMap (·.blocks) ↔ b ∈ flow.order := by
  rw [List.mem_flatMap]
  constructor
  · rintro ⟨C, hC, hb⟩
    exact h.mem_order_of_mem_blocks hC hb
  · exact fun hb => h.found.cover b ((h.lastFirst.mem b).2 ((h.mem b).1 hb))

/-- Of the components that one leads to, none is found before it. -/
theorem preds_passed (h : flow.StartsAt entry) {l r : List Component} {C : Component}
    (hsplit : flow.components = l ++ C :: r) (hb : b ∈ C.blocks) (hu : u ∈ flow.preds b) :
    (∃ D ∈ l, u ∈ D.blocks) ∨ u ∈ C.blocks := by
  classical
  obtain ⟨L, y, R, hpassed, hC, hL, -⟩ := h.found.split l C r hsplit
  have hy : y ∈ flow.order := (h.mem y).2 ((h.lastFirst.mem y).1 (by simp [hpassed]))
  rw [mem_preds] at hu
  rw [hC, h.mem_componentOf hy] at hb
  refine or_iff_not_imp_right.2 fun hnot => ?_
  rw [hC, h.mem_componentOf hy] at hnot
  -- The first block of the search order that is connected with `u` reaches `y`, so it comes first.
  obtain ⟨w, hw⟩ : ∃ w, flow.lastFirstOrder.find? (fun w => flow.Connected w u) = some w := by
    rw [← Option.isSome_iff_exists, List.find?_isSome]
    exact ⟨u, (h.lastFirst.mem u).2 ((h.mem u).1 hu.1), by simpa using ⟨.refl, .refl⟩⟩
  obtain ⟨hwu, L', R', horder, hfirst⟩ := List.find?_eq_some_iff_append.1 hw
  simp only [decide_eq_true_eq, Bool.not_eq_true', decide_eq_false_iff_not] at hwu hfirst
  have hwy : y ∈ w :: R' := by
    refine h.lastFirst.mem_of_reaches horder (fun x hx hxw => hfirst x hx (Connected.trans hxw hwu)) ?_
    exact (hwu.1.tail hu.2).trans hb.2
  have hne : y ≠ w := fun hyw => hnot (hyw ▸ hwu)
  have hwL : w ∈ L := by
    rcases split_append (hpassed.symm.trans horder) with ⟨l', rfl, hl'⟩ | ⟨r', rfl, -⟩
    · rcases List.cons_eq_append_iff.1 hl' with ⟨rfl, hcons⟩ | ⟨l'', rfl, -⟩
      · exact absurd (List.cons.inj hcons).1.symm hne
      · have hnodup := horder ▸ h.lastFirst.nodup
        have hyR : y ∈ R' := (List.mem_cons.1 hwy).resolve_left hne
        exact absurd rfl ((List.nodup_append.1 hnodup).2.2 y (by simp) y (by simp [hyR]))
    · simp
  obtain ⟨D, hD, hwD⟩ := hL w hwL
  exact ⟨D, hD, h.mem_of_connected (hsplit ▸ List.mem_append_left _ hD) hwD hwu⟩

theorem ready (h : flow.StartsAt entry) {l r : List Component} {C : Component}
    (hsplit : flow.components = l ++ C :: r) :
    Ready flow entry (l.flatMap (·.blocks)) C := by
  have hC : C ∈ flow.components := by simp [hsplit]
  obtain ⟨L, y, R, hpassed, hy, hL, hnew, hempty⟩ := h.found.split l C r hsplit
  have hyorder : y ∈ flow.order := (h.mem y).2 ((h.lastFirst.mem y).1 (by simp [hpassed]))
  obtain ⟨P, hP, -⟩ := h.blocks_componentOf hyorder
  rw [← hy] at hP
  have hnodup : C.blocks.Nodup := hP ▸ h.nodup.filter P
  have hfresh : ∀ b ∈ C.blocks, b ∉ l.flatMap (·.blocks) := by
    intro b hb hmem
    obtain ⟨D, hD, hbD⟩ := List.mem_flatMap.1 hmem
    rw [hy, h.mem_componentOf hyorder] at hb
    exact hnew D hD (h.mem_of_connected (hsplit ▸ List.mem_append_left _ hD) hbD hb.symm)
  have hpreds : ∀ b ∈ C.blocks, ∀ u ∈ flow.preds b, u ∈ l.flatMap (·.blocks) ∨ u ∈ C.blocks :=
    fun b hb u hu => by simpa using h.preds_passed hsplit hb hu
  refine ⟨hnodup, fun b => h.mem_order_of_mem_blocks hC, hfresh, hpreds, fun l₀ b r₀ hblocks => ?_,
    fun hcyclic => ⟨y, hy ▸ h.single_of_not_isCyclic hyorder (hy ▸ hcyclic)⟩,
    fun hcyclic b hb => h.cycle_of_isCyclic hyorder (hy ▸ hcyclic) (hy ▸ hb)⟩
  have hb : b ∈ C.blocks := by simp [hblocks]
  obtain ⟨O₁, O₂, horder⟩ := List.append_of_mem (h.mem_order_of_mem_blocks hC hb)
  -- What stands before `b` in the component is what stands before it in the order.
  have hPb : P b = true := by
    rw [hP, List.mem_filter] at hb
    exact hb.2
  have hfilter : O₁.filter P ++ b :: O₂.filter P = l₀ ++ b :: r₀ := by
    rw [← hblocks, hP, horder, List.filter_append, List.filter_cons_of_pos hPb]
  have hb₁ : b ∉ O₁ ∧ b ∉ O₂ := by
    have hn := List.nodup_append.1 (horder ▸ h.nodup)
    exact ⟨fun hb => hn.2.2 b hb b List.mem_cons_self rfl, (List.nodup_cons.1 hn.2.1).1⟩
  have hsame : O₁.filter P = l₀ :=
    ((List.append_cons_inj_of_notMem (fun hb => hb₁.1 (List.mem_filter.1 hb).1)
      fun hb => hb₁.2 (List.mem_filter.1 hb).1).1 hfilter).1
  rcases h.parent O₁ b O₂ horder with rfl | ⟨u, hu, hbu⟩
  · left
    have hO₁ : O₁ = [] := by
      obtain ⟨rest, hrest⟩ := h.head
      rcases List.append_eq_cons_iff.1 (horder.symm.trans hrest) with ⟨rfl, -⟩ | ⟨as, rfl, -⟩
      · rfl
      · exact absurd List.mem_cons_self hb₁.1
    have hL₀ : L = [] := by
      obtain ⟨rest, hrest⟩ := h.lastFirst.head
      rcases List.append_eq_cons_iff.1 (hpassed.symm.trans hrest) with ⟨rfl, -⟩ | ⟨as, rfl, -⟩
      · rfl
      · exact absurd (List.mem_flatMap.2 (hL b List.mem_cons_self)) (hfresh b hb)
    exact ⟨rfl, by simp [hempty hL₀], by simp [← hsame, hO₁]⟩
  · right
    have hmem : u ∈ flow.preds b := mem_preds.2 ⟨by simp [horder, hu], hbu⟩
    refine ⟨u, hmem, (hpreds b hb u hmem).imp_right fun huC => ?_⟩
    rw [hP, List.mem_filter] at huC
    rw [← hsame, List.mem_filter]
    exact ⟨hu, huC.2⟩

end StartsAt

end Flow

namespace Program

open InputFlow.Graph

variable {p : Program} {f : FuncId} {entry b : BlockId}

def TargetsExist (p : Program) (entry : BlockId) : Prop :=
  ∀ b, Reaches p.successors entry b → b < p.blocks.size

theorem entry_mem_functionBlocks (hentry : p.entryBlock? f = some entry) :
    entry ∈ p.functionBlocks f := by
  rw [entryBlock?] at hentry
  split at hentry
  · simp at hentry
  · exact List.mem_of_head? hentry

theorem reaches_succs {a : BlockId} :
    Reaches (p.flow f).succs a b ↔ Reaches p.successors a b :=
  Reaches.congr fun _ _ => List.mem_eraseDups

theorem startsAt_flow (hentry : p.entryBlock? f = some entry) (htargets : p.TargetsExist entry) :
    (p.flow f).StartsAt entry := by
  classical
  have horder : (p.flow f).order = reversePostOrder p.successors p.blocks.size entry := by
    simp [flow, hentry]
  have hsearch : IsSearchOrder p.successors entry
      (reversePostOrder p.successors p.blocks.size entry) := by
    apply isSearchOrder_reversePostOrder
      (U := (List.range p.blocks.size).filter (Reaches p.successors entry))
    · intro u hu z hz
      simp only [List.mem_filter, List.mem_range, decide_eq_true_eq] at hu ⊢
      exact ⟨htargets z (hu.2.tail hz), hu.2.tail hz⟩
    · simpa using ⟨htargets entry .refl, .refl⟩
    · simpa using List.length_filter_le _ (List.range p.blocks.size)
  rw [Flow.StartsAt, horder]
  exact hsearch.congr fun a b => List.mem_eraseDups.symm

end Program

namespace Module.WellFormed

open InputFlow.Graph

variable {p : Program} {f : FuncId} {entry b : BlockId}

theorem mem_functionBlocks_of_reaches (h : p.WellFormed) (hentry : p.entryBlock? f = some entry)
    (hb : Reaches p.successors entry b) : b ∈ p.functionBlocks f := by
  induction hb with
  | refl => exact Program.entry_mem_functionBlocks hentry
  | tail _ hz ih => exact h.mem_functionBlocks_of_mem_successors ih hz

theorem targetsExist (h : p.WellFormed) (hentry : p.entryBlock? f = some entry) :
    p.TargetsExist entry := by
  intro b hb
  obtain ⟨F, hF, hb⟩ := Program.mem_functionBlocks.1 (h.mem_functionBlocks_of_reaches hentry hb)
  have hstop := h.blocks F (Array.mem_of_getElem? hF)
  rw [Span.toList, List.mem_range'_1] at hb
  lia

theorem startsAt (h : p.WellFormed) (hentry : p.entryBlock? f = some entry) :
    (p.flow f).StartsAt entry :=
  Program.startsAt_flow hentry (h.targetsExist hentry)

theorem mem_order (h : p.WellFormed) (hentry : p.entryBlock? f = some entry) :
    b ∈ (p.flow f).order ↔ Reaches p.successors entry b :=
  ((h.startsAt hentry).mem b).trans Program.reaches_succs

end Module.WellFormed

end InputFlow
