import InputFlow.Graph.Cut
import InputFlow.Proofs.Graph.Separation
import Mathlib.Order.MinMax

namespace InputFlow.Graph

variable {next : Nat → List Nat} {s t u : CutSearch} {path new new' done zs U : List Nat}
  {branches : List (List Nat)} {root node parent z k met fuel : Nat} {scan : Scan}

namespace CutSearch

def numberOf (s : CutSearch) (n : Nat) : Nat :=
  s.number.getD n 0

def Climbs (s : CutSearch) (path : List Nat) (k : Nat) (zs : List Nat) : Prop :=
  ∃ z ∈ zs, z ∈ path ∧ s.numberOf z < k

theorem mem_of_number (h : s.number[z]? = some met) : z ∈ s.number := by
  rw [Std.ExtTreeMap.mem_iff_isSome_getElem?, h]
  rfl

theorem notMem_of_number (h : s.number[z]? = none) : z ∉ s.number := by
  simp [Std.ExtTreeMap.mem_iff_isSome_getElem?, h]

theorem numberOf_eq (h : s.number[z]? = some met) : s.numberOf z = met := by
  rw [numberOf, Std.ExtTreeMap.getD_eq_getD_getElem?, h]
  rfl

theorem numberOf_enter_self : (s.enter node).numberOf node = s.number.size := by
  simp [numberOf, enter]

theorem mem_enter {n : Nat} : n ∈ (s.enter node).number ↔ n = node ∨ n ∈ s.number := by
  simp [enter, eq_comm (a := n)]

/-- `t` is `s` after the nodes `new` have been met. They come after all the others. -/
structure Grown (s t : CutSearch) (new : List Nat) : Prop where
  mem : ∀ n, n ∈ t.number ↔ n ∈ new ∨ n ∈ s.number
  fresh : ∀ n ∈ new, n ∉ s.number
  kept : ∀ n ∈ s.number, t.numberOf n = s.numberOf n
  late : ∀ n ∈ new, s.number.size ≤ t.numberOf n
  bounded : ∀ n ∈ new, t.numberOf n < t.number.size
  size : s.number.size ≤ t.number.size

theorem Grown.refl (s : CutSearch) : Grown s s [] where
  mem := by simp
  fresh := by simp
  kept _ _ := rfl
  late := by simp
  bounded := by simp
  size := Nat.le_refl _

theorem Grown.trans (h : Grown s t new) (h' : Grown t u new') : Grown s u (new' ++ new) where
  mem n := by rw [h'.mem, h.mem, List.mem_append, or_assoc]
  fresh n hn hs := by
    rcases List.mem_append.1 hn with hn | hn
    · exact h'.fresh n hn ((h.mem n).2 (.inr hs))
    · exact h.fresh n hn hs
  kept n hn := (h'.kept n ((h.mem n).2 (.inr hn))).trans (h.kept n hn)
  late n hn := by
    rcases List.mem_append.1 hn with hn | hn
    · exact Nat.le_trans h.size (h'.late n hn)
    · rw [h'.kept n ((h.mem n).2 (.inl hn))]
      exact h.late n hn
  bounded n hn := by
    rcases List.mem_append.1 hn with hn | hn
    · exact h'.bounded n hn
    · rw [h'.kept n ((h.mem n).2 (.inl hn))]
      exact Nat.lt_of_lt_of_le (h.bounded n hn) h'.size
  size := Nat.le_trans h.size h'.size

theorem size_enter (hnode : node ∉ s.number) : (s.enter node).number.size = s.number.size + 1 := by
  simp [enter, Std.ExtTreeMap.size_insert, hnode]

theorem numberOf_enter_of_mem (hnode : node ∉ s.number) {n : Nat} (hn : n ∈ s.number) :
    (s.enter node).numberOf n = s.numberOf n := by
  have hne : node ≠ n := fun heq => hnode (heq ▸ hn)
  simp [numberOf, enter, Std.ExtTreeMap.getD_insert, hne]

theorem grown_enter (hnode : node ∉ s.number) : Grown s (s.enter node) [node] where
  mem n := by rw [mem_enter, List.mem_singleton]
  fresh n hn := List.mem_singleton.1 hn ▸ hnode
  kept n hn := numberOf_enter_of_mem hnode hn
  late n hn := by rw [List.mem_singleton.1 hn, numberOf_enter_self]
  bounded n hn := by
    rw [List.mem_singleton.1 hn, numberOf_enter_self, size_enter hnode]
    exact Nat.lt_succ_self _
  size := by
    rw [size_enter hnode]
    exact Nat.le_succ _

theorem Grown.leave {parent : Option Nat} (h : Grown s scan.search new) :
    Grown s (scan.leave parent node) new := by
  rw [Scan.leave]
  generalize (if parent.isSome then 0 else 1) = spared
  split
  · exact ⟨h.mem, h.fresh, h.kept, h.late, h.bounded, h.size⟩
  · exact h

theorem mem_cuts_leave {parent : Option Nat} {n : Nat} : n ∈ (scan.leave parent node).cuts ↔
    n ∈ scan.search.cuts ∨ n = node ∧ (if parent.isSome then 0 else 1) < scan.severed := by
  rw [Scan.leave]
  generalize (if parent.isSome then 0 else 1) = spared
  split
  next hcut => simp [hcut, or_comm, eq_comm (a := n)]
  next hcut => simp [hcut]

/-- The search has left all the nodes it has met but those on the path, and nothing is left before its
neighbours are met. -/
structure Searching (next : Nat → List Nat) (path : List Nat) (s : CutSearch) : Prop where
  bounded : ∀ n ∈ s.number, s.numberOf n < s.number.size
  met : ∀ n ∈ path, n ∈ s.number
  finished : ∀ n ∈ s.number, n ∉ path → ∀ z ∈ next n, z ∈ s.number

theorem Searching.grow (h : Searching next path s) (hg : Grown s t new)
    (hclosed : ∀ n ∈ new, ∀ z ∈ next n, z ∈ new ∨ z ∈ path) : Searching next path t where
  bounded n hn := by
    rcases (hg.mem n).1 hn with hn | hn
    · exact hg.bounded n hn
    · rw [hg.kept n hn]
      exact Nat.lt_of_lt_of_le (h.bounded n hn) hg.size
  met n hn := (hg.mem n).2 (.inr (h.met n hn))
  finished n hn hpath z hz := by
    rw [hg.mem]
    rcases (hg.mem n).1 hn with hn | hn
    · exact (hclosed n hn z hz).imp_right (h.met z)
    · exact .inr (h.finished n hn hpath z hz)

theorem Searching.enter (h : Searching next path s) (hnode : node ∉ s.number) :
    Searching next (node :: path) (s.enter node) where
  bounded n hn := by
    rw [size_enter hnode]
    rcases mem_enter.1 hn with rfl | hn
    · rw [numberOf_enter_self]
      exact Nat.lt_succ_self _
    · rw [numberOf_enter_of_mem hnode hn]
      exact Nat.lt_succ_of_lt (h.bounded n hn)
  met n hn := mem_enter.2 ((List.mem_cons.1 hn).imp_right (h.met n))
  finished n hn hpath z hz := by
    rw [List.mem_cons, not_or] at hpath
    have hn : n ∈ s.number := (mem_enter.1 hn).resolve_left hpath.1
    exact mem_enter.2 (.inr (h.finished n hn hpath.2 z hz))

structure Enters (next : Nat → List Nat) (root : Nat) (path : List Nat) (node : Nat) (s : CutSearch) :
    Prop where
  trail : Trail next root (node :: path)
  searching : Searching next path s
  fresh : node ∉ s.number

/-- What a search from a node returns, for the nodes `new` that it meets. -/
structure IsBranch (next : Nat → List Nat) (root : Nat) (path : List Nat) (node : Nat) (s : CutSearch)
    (new : List Nat) (r : CutSearch × Nat) : Prop where
  grown : Grown s r.1 new
  start : node ∈ new
  inside : ∀ n ∈ new, ReachesIn next (· ∈ new) node n
  closed : ∀ n ∈ new, ∀ z ∈ next n, z ∈ new ∨ z ∈ path
  low : ∀ parent, path.head? = some parent → ∀ k ≤ s.numberOf parent,
    (r.2 < k ↔ ∃ n ∈ new, s.Climbs path k (next n))
  cuts : ∀ n, n ∈ r.1.cuts ↔ n ∈ s.cuts ∨ n ∈ new ∧ Separates next root n

/-- A node of which the neighbours `done` have been gone through, since the search came to it in `s`. -/
structure Scanned (next : Nat → List Nat) (root : Nat) (path : List Nat) (node : Nat) (s : CutSearch)
    (done : List Nat) (branches : List (List Nat)) (scan : Scan) : Prop where
  grown : Grown (s.enter node) scan.search branches.flatten
  below : Branches next path node done branches
  severed : scan.severed = branches.countP (IsSevered next path)
  low : ∀ parent, path.head? = some parent → ∀ k ≤ s.numberOf parent,
    (scan.low < k ↔ s.Climbs path k done ∨ ∃ B ∈ branches, ∃ n ∈ B, s.Climbs path k (next n))
  cuts : ∀ n, n ∈ scan.search.cuts ↔
    n ∈ s.cuts ∨ n ∈ branches.flatten ∧ Separates next root n

theorem Enters.le_size (he : Enters next root path node s) (hparent : path.head? = some parent)
    (hk : k ≤ s.numberOf parent) : k ≤ s.number.size := by
  have hmet : parent ∈ s.number := he.searching.met parent (List.mem_of_head? hparent)
  exact Nat.le_trans hk (Nat.le_of_lt (he.searching.bounded parent hmet))

theorem Enters.room_lt (he : Enters next root path node s) (hnode : node ∈ U) :
    room U (· ∈ (s.enter node).number) < room U (· ∈ s.number) :=
  Graph.room_lt (fun _ hn => mem_enter.2 (.inr hn)) hnode he.fresh (mem_enter.2 (.inl rfl))

/-- Before its neighbours a node has no branch. -/
theorem Enters.scanned (he : Enters next root path node s) :
    Scanned next root path node s [] [] { search := s.enter node, low := s.number.size } where
  grown := Grown.refl _
  below := by constructor <;> simp
  severed := rfl
  low parent hparent k hk := by
    have hsize : k ≤ s.number.size := he.le_size hparent hk
    simpa [Climbs] using hsize
  cuts n := by simp [CutSearch.enter]

namespace Scanned

theorem searching (h : Scanned next root path node s done branches scan)
    (he : Enters next root path node s) : Searching next (node :: path) scan.search := by
  refine (he.searching.enter he.fresh).grow h.grown fun n hn z hz => ?_
  obtain ⟨B, hB, hn⟩ := List.mem_flatten.1 hn
  exact (h.below.closed B hB n hn z hz).imp_left fun hz => List.mem_flatten.2 ⟨B, hB, hz⟩

theorem numberOf_node (h : Scanned next root path node s done branches scan) :
    scan.search.numberOf node = s.number.size :=
  (h.grown.kept node (mem_enter.2 (.inl rfl))).trans numberOf_enter_self

/-- The numbers on the path are as they were, and that of the node is too high to count. -/
theorem numberOf_lt_iff_of_mem (h : Scanned next root path node s done branches scan)
    (he : Enters next root path node s) (hk : k ≤ s.number.size) (hz : z ∈ node :: path) :
    scan.search.numberOf z < k ↔ z ∈ path ∧ s.numberOf z < k := by
  rcases List.mem_cons.1 hz with rfl | hz
  · rw [h.numberOf_node]
    simpa [he.trail.notMem] using hk
  · have hkept : scan.search.numberOf z = s.numberOf z :=
      ((grown_enter he.fresh).trans h.grown).kept z (he.searching.met z hz)
    rw [hkept]
    exact (and_iff_right hz).symm

theorem climbs_cons_iff (h : Scanned next root path node s done branches scan)
    (he : Enters next root path node s) (hk : k ≤ s.number.size) :
    scan.search.Climbs (node :: path) k zs ↔ s.Climbs path k zs := by
  refine exists_congr fun z => and_congr_right fun _ => ?_
  constructor
  · rintro ⟨hz, hlt⟩
    exact (h.numberOf_lt_iff_of_mem he hk hz).1 hlt
  · rintro ⟨hz, hlt⟩
    have hz' : z ∈ node :: path := List.mem_cons_of_mem node hz
    exact ⟨hz', (h.numberOf_lt_iff_of_mem he hk hz').2 ⟨hz, hlt⟩⟩

/-- A neighbour that has been met is above the node or in a branch below it: elsewhere the node would
have been met from it. -/
theorem mem_path_or_branch (h : Scanned next root path node s done branches scan)
    (he : Enters next root path node s) (hnext : Undirected next) (hz : z ∈ next node)
    (hmet : z ∈ scan.search.number) : z ∈ node :: path ∨ ∃ B ∈ branches, z ∈ B := by
  rcases (h.grown.mem z).1 hmet with hz' | hz'
  · exact .inr (List.mem_flatten.1 hz')
  · refine .inl (List.mem_cons.2 ((mem_enter.1 hz').imp_right fun hs => ?_))
    by_contra hpath
    exact he.fresh (he.searching.finished z hs hpath node (hnext node z hz))

theorem numberOf_lt_iff (h : Scanned next root path node s done branches scan)
    (he : Enters next root path node s) (hnext : Undirected next) (hz : z ∈ next node)
    (hmet : z ∈ scan.search.number) (hk : k ≤ s.number.size) :
    scan.search.numberOf z < k ↔ z ∈ path ∧ s.numberOf z < k := by
  rcases h.mem_path_or_branch he hnext hz hmet with hz | ⟨B, hB, hzB⟩
  · exact h.numberOf_lt_iff_of_mem he hk hz
  · -- a node of a branch is neither on the path nor has it a low number
    have hlate := h.grown.late z (List.mem_flatten.2 ⟨B, hB, hzB⟩)
    rw [size_enter he.fresh] at hlate
    have hpath : z ∉ path := fun hpath => h.below.apart B hB z hzB (List.mem_cons_of_mem _ hpath)
    simp only [hpath, false_and, iff_false]
    lia

theorem climbs_concat :
    s.Climbs path k (done ++ [z]) ↔ s.Climbs path k done ∨ z ∈ path ∧ s.numberOf z < k := by
  simp only [Climbs, List.mem_append, List.mem_singleton, or_and_right, exists_or, exists_eq_left]

/-- A neighbour that has been met. -/
theorem step_met (h : Scanned next root path node s done branches scan)
    (he : Enters next root path node s) (hnext : Undirected next) (hz : z ∈ next node)
    (hmet : scan.search.number[z]? = some met) :
    Scanned next root path node s (done ++ [z]) branches
      (if path.head? = some z then scan else { scan with low := min scan.low met }) := by
  have hmem : z ∈ scan.search.number := mem_of_number hmet
  have hbelow : Branches next path node (done ++ [z]) branches :=
    { h.below with
      all := by
        intro y hy
        rcases List.mem_append.1 hy with hy | hy
        · exact h.below.all y hy
        · exact List.mem_singleton.1 hy ▸ h.mem_path_or_branch he hnext hz hmem }
  split
  next hparent =>
    refine { h with below := hbelow, low := fun parent hhead k hk => ?_ }
    -- The edge to the parent itself does not count for a bound that is not above the parent's number.
    obtain rfl : z = parent := Option.some.inj (hparent.symm.trans hhead)
    rw [h.low z hhead k hk, climbs_concat]
    simp [Nat.not_lt.2 hk]
  next =>
    refine { h with below := hbelow, low := fun parent hhead k hk => ?_ }
    have hsize : k ≤ s.number.size := he.le_size hhead hk
    rw [climbs_concat, min_lt_iff, h.low parent hhead k hk, ← numberOf_eq hmet,
      h.numberOf_lt_iff he hnext hz hmem hsize, or_right_comm]

/-- A neighbour from which the search goes on with a new branch. -/
theorem step_branch (h : Scanned next root path node s done branches scan)
    (he : Enters next root path node s) (hz : z ∈ next node) {r : CutSearch × Nat}
    (hr : IsBranch next root (node :: path) z scan.search new r) :
    Scanned next root path node s (done ++ [z]) (new :: branches)
      { search := r.1, low := min scan.low r.2,
        severed := if s.number.size ≤ r.2 then scan.severed + 1 else scan.severed } where
  grown := h.grown.trans hr.grown
  below :=
    { start := List.forall_mem_cons.2 ⟨⟨z, hr.start, hz, hr.inside⟩, h.below.start⟩
      closed := List.forall_mem_cons.2 ⟨hr.closed, h.below.closed⟩
      apart := List.forall_mem_cons.2
        ⟨fun n hn hpath => hr.grown.fresh n hn ((h.searching he).met n hpath), h.below.apart⟩
      disjoint := List.pairwise_cons.2
        ⟨fun B hB n hn hnB => hr.grown.fresh n hn
          ((h.grown.mem n).2 (.inl (List.mem_flatten.2 ⟨B, hB, hnB⟩))), h.below.disjoint⟩
      all := by
        intro y hy
        rcases List.mem_append.1 hy with hy | hy
        · refine (h.below.all y hy).imp_right ?_
          rintro ⟨B, hB, hyB⟩
          exact ⟨B, List.mem_cons_of_mem _ hB, hyB⟩
        · exact .inr ⟨new, List.mem_cons_self, List.mem_singleton.1 hy ▸ hr.start⟩ }
  severed := by
    have hlow : r.2 < s.number.size ↔ ∃ n ∈ new, s.Climbs path s.number.size (next n) := by
      rw [hr.low node rfl _ (Nat.le_of_eq h.numberOf_node.symm)]
      simp only [h.climbs_cons_iff he (Nat.le_refl _)]
    have hsevered : s.number.size ≤ r.2 ↔ IsSevered next path new := by
      rw [← Nat.not_lt, hlow]
      simp only [Climbs, IsSevered, not_exists, not_and]
      exact forall₄_congr fun n _ y _ =>
        ⟨fun hn hy => hn hy (he.searching.bounded y (he.searching.met y hy)),
          fun hn hy => absurd hy hn⟩
    simp only [hsevered, List.countP_cons, decide_eq_true_eq, h.severed]
    split <;> rfl
  low parent hhead k hk := by
    have hsize : k ≤ s.number.size := he.le_size hhead hk
    have hlow : r.2 < k ↔ ∃ n ∈ new, s.Climbs path k (next n) := by
      rw [hr.low node rfl k (h.numberOf_node.symm ▸ hsize)]
      simp only [h.climbs_cons_iff he hsize]
    have hpath : z ∉ path := fun hz =>
      hr.grown.fresh z hr.start ((h.searching he).met z (List.mem_cons_of_mem _ hz))
    rw [min_lt_iff, h.low parent hhead k hk, hlow, climbs_concat, List.exists_mem_cons_iff]
    simp only [hpath, false_and, or_false]
    exact or_right_comm.trans or_assoc
  cuts n := by
    rw [hr.cuts, h.cuts, List.flatten_cons, List.mem_append, or_and_right, or_assoc, or_comm (b := _ ∧ _)]

/-- One step through the neighbours of a node. -/
theorem step (h : Scanned next root path node s done branches scan)
    (he : Enters next root path node s) (hnext : Undirected next) (hz : z ∈ next node)
    {explore : Nat → CutSearch → CutSearch × Nat}
    (hexplore : Enters next root (node :: path) z scan.search →
      ∃ new, IsBranch next root (node :: path) z scan.search new (explore z scan.search)) :
    ∃ branches', Scanned next root path node s (done ++ [z]) branches'
      (scan.step explore path.head? s.number.size z) := by
  rw [Scan.step]
  split
  next met hmet => exact ⟨branches, h.step_met he hnext hz hmet⟩
  next hmet =>
    have hfresh : z ∉ scan.search.number := notMem_of_number hmet
    have hsearching := h.searching he
    obtain ⟨new, hnew⟩ := hexplore
      ⟨he.trail.step hz fun hpath => hfresh (hsearching.met z hpath), hsearching, hfresh⟩
    exact ⟨new :: branches, h.step_branch he hz hnew⟩

/-- All steps through the neighbours of a node. -/
theorem foldl (he : Enters next root path node s) (hnext : Undirected next)
    {explore : Nat → CutSearch → CutSearch × Nat}
    (hexplore : ∀ z ∈ next node, ∀ t new, Grown (s.enter node) t new →
      Enters next root (node :: path) z t →
      ∃ new, IsBranch next root (node :: path) z t new (explore z t)) (hzs : ∀ z ∈ zs, z ∈ next node)
    (h : Scanned next root path node s done branches scan) :
    ∃ branches', Scanned next root path node s (done ++ zs) branches'
      (zs.foldl (Scan.step explore path.head? s.number.size) scan) := by
  induction zs generalizing done branches scan with
  | nil => exact ⟨branches, by simpa using h⟩
  | cons z zs ih =>
    have hz : z ∈ next node := hzs z List.mem_cons_self
    obtain ⟨branches', h'⟩ :=
      h.step he hnext hz (hexplore z hz scan.search branches.flatten h.grown)
    rw [List.foldl_cons, List.append_cons]
    exact ih (fun y hy => hzs y (List.mem_cons_of_mem z hy)) h'

/-- Leaving a node closes the branch that it starts. -/
theorem leave (h : Scanned next root path node s (next node) branches scan)
    (he : Enters next root path node s) (hnext : Undirected next) :
    IsBranch next root path node s (branches.flatten ++ [node])
      (scan.leave path.head? node, scan.low) where
  grown := ((grown_enter he.fresh).trans h.grown).leave
  start := by simp
  inside n hn := by
    rcases List.mem_append.1 hn with hn | hn
    · obtain ⟨B, hB, hn⟩ := List.mem_flatten.1 hn
      obtain ⟨c, hc, hedge, hreach⟩ := h.below.start B hB
      have hsub : ∀ m ∈ B, m ∈ branches.flatten ++ [node] := fun m hm =>
        List.mem_append_left _ (List.mem_flatten.2 ⟨B, hB, hm⟩)
      exact ((hreach n hn).mono hsub).head ⟨hedge, by simp, hsub c hc⟩
    · rw [List.mem_singleton.1 hn]
  closed n hn z hz := by
    rw [List.mem_append, List.mem_singleton, or_assoc, ← List.mem_cons, List.mem_flatten]
    rcases List.mem_append.1 hn with hn | hn
    · obtain ⟨B, hB, hn⟩ := List.mem_flatten.1 hn
      exact (h.below.closed B hB n hn z hz).imp_left fun hz => ⟨B, hB, hz⟩
    · exact (h.below.all z (List.mem_singleton.1 hn ▸ hz)).symm
  low parent hhead k hk := by
    rw [h.low parent hhead k hk]
    simp only [List.mem_append, List.mem_flatten, List.mem_singleton]
    grind
  cuts n := by
    rw [mem_cuts_leave, h.severed, ← h.below.separates_iff hnext he.trail, h.cuts, or_assoc,
      List.mem_append, or_and_right, List.mem_singleton]
    exact or_congr_right (or_congr_right (and_congr_right fun hn => hn ▸ Iff.rfl))

end Scanned

/-- The search from a node with fuel for all that it can meet goes through one branch. Going through
a neighbour of a node keeps what `Scanned` says, and what `IsBranch` says of a whole branch follows
from it by induction on the depth. -/
theorem isBranch_explore (hnext : Undirected next) (hU : ∀ u ∈ U, ∀ z ∈ next u, z ∈ U)
    (hnode : node ∈ U) (he : Enters next root path node s) (hroom : room U (· ∈ s.number) ≤ fuel) :
    ∃ new, IsBranch next root path node s new (explore next fuel path.head? node s) := by
  induction fuel generalizing path node s with
  | zero =>
    have := he.room_lt hnode
    lia
  | succ fuel ih =>
    have hlt := he.room_lt hnode
    have hexplore : ∀ z ∈ next node, ∀ t new, Grown (s.enter node) t new →
        Enters next root (node :: path) z t →
        ∃ new, IsBranch next root (node :: path) z t new (explore next fuel (some node) z t) := by
      intro z hz t new hgrown ht
      have hle : room U (· ∈ t.number) ≤ room U (· ∈ (s.enter node).number) :=
        room_mono fun n hn => (hgrown.mem n).2 (.inr hn)
      exact ih (hU node hnode z hz) ht (by lia)
    obtain ⟨branches, h⟩ := Scanned.foldl he hnext hexplore (fun _ hz => hz) he.scanned
    exact ⟨branches.flatten ++ [node], h.leave he hnext⟩

theorem IsBranch.mem_iff {r : CutSearch × Nat} (h : IsBranch next root [] root s new r) {n : Nat} :
    n ∈ new ↔ Reaches next root n := by
  constructor
  · exact fun hn => (h.inside n hn).reaches
  · intro hn
    induction hn with
    | refl => exact h.start
    | tail _ hz ih => exact (h.closed _ ih _ hz).resolve_right List.not_mem_nil

theorem enters_root : Enters next root [] root {} where
  trail := .root
  searching := ⟨by simp, by simp, by simp⟩
  fresh := Std.ExtTreeMap.not_mem_empty

end CutSearch

/-- The search finds just the nodes that separate others. -/
theorem mem_cutVertices (hnext : Undirected next) (hU : ∀ u ∈ U, ∀ z ∈ next u, z ∈ U)
    (hroot : root ∈ U) {size : Nat} (hsize : U.length ≤ size) {n : Nat} :
    n ∈ cutVertices next size root ↔ Reaches next root n ∧ Separates next root n := by
  obtain ⟨new, h⟩ := CutSearch.isBranch_explore hnext hU hroot CutSearch.enters_root
    (Nat.le_trans room_le_length hsize)
  rw [← h.mem_iff, cutVertices]
  simpa using h.cuts n

end InputFlow.Graph
