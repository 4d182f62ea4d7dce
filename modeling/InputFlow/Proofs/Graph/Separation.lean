import InputFlow.Proofs.Graph.Search

namespace InputFlow.Graph

variable {next : Nat → List Nat} {P Q : Nat → Prop} {root node a b c : Nat} {path done B : List Nat}
  {branches : List (List Nat)}

/-- There is a path between two nodes all of whose nodes are of the given kind. It may be empty. -/
abbrev ReachesIn (next : Nat → List Nat) (P : Nat → Prop) : Nat → Nat → Prop :=
  Relation.ReflTransGen fun a b => b ∈ next a ∧ P a ∧ P b

/-- Without the node, what can be reached from the root falls apart. -/
def Separates (next : Nat → List Nat) (root node : Nat) : Prop :=
  ∃ a b, Reaches next root a ∧ Reaches next root b ∧ a ≠ node ∧ b ≠ node ∧
    ¬ ReachesIn next (· ≠ node) a b

def Undirected (next : Nat → List Nat) : Prop :=
  ∀ a b, b ∈ next a → a ∈ next b

theorem ReachesIn.mono (h : ReachesIn next P a b) (hPQ : ∀ n, P n → Q n) : ReachesIn next Q a b :=
  Relation.ReflTransGen.mono (fun _ _ hstep => ⟨hstep.1, hPQ _ hstep.2.1, hPQ _ hstep.2.2⟩) a b h

theorem ReachesIn.reaches (h : ReachesIn next P a b) : Reaches next a b :=
  Relation.ReflTransGen.mono (fun _ _ hstep => hstep.1) a b h

theorem Undirected.reachesIn_symm (hnext : Undirected next) (h : ReachesIn next P a b) :
    ReachesIn next P b a :=
  have : Std.Symm fun a b => b ∈ next a ∧ P a ∧ P b :=
    ⟨fun _ _ hstep => ⟨hnext _ _ hstep.1, hstep.2.2, hstep.2.1⟩⟩
  symm h

/-- A path never leaves what has no edge out to a node of the kind. -/
theorem ReachesIn.stays (h : ReachesIn next P a b) (ha : Q a)
    (hQ : ∀ n, Q n → ∀ z ∈ next n, P z → Q z) : Q b := by
  induction h with
  | refl => exact ha
  | tail _ hstep ih => exact hQ _ ih _ hstep.1 hstep.2.2

/-- The nodes from one up to the root, each with the next one as the neighbour that it was met from. -/
inductive Trail (next : Nat → List Nat) (root : Nat) : List Nat → Prop
  | root : Trail next root [root]
  | step {node parent : Nat} {path : List Nat} (h : Trail next root (parent :: path))
    (hedge : node ∈ next parent) (hnew : node ∉ parent :: path) :
    Trail next root (node :: parent :: path)

namespace Trail

theorem root_mem (h : Trail next root path) : root ∈ path := by
  induction h with
  | root => exact List.mem_singleton_self root
  | step _ _ _ ih => exact List.mem_cons_of_mem _ ih

theorem reachesIn (h : Trail next root path) (hP : ∀ n ∈ path, P n) (ha : a ∈ path) :
    ReachesIn next P root a := by
  induction h generalizing a with
  | root =>
    rw [List.mem_singleton.1 ha]
  | @step node parent path _ hedge _ ih =>
    have hrest : ∀ n ∈ parent :: path, P n := fun n hn => hP n (List.mem_cons_of_mem _ hn)
    rcases List.mem_cons.1 ha with rfl | ha
    · exact (ih hrest List.mem_cons_self).tail
        ⟨hedge, hrest parent List.mem_cons_self, hP a List.mem_cons_self⟩
    · exact ih hrest ha

theorem reaches (h : Trail next root path) (ha : a ∈ path) : Reaches next root a :=
  (h.reachesIn (P := fun _ => True) (fun _ _ => trivial) ha).reaches

theorem notMem (h : Trail next root (node :: path)) : node ∉ path := by
  cases h with
  | root => exact List.not_mem_nil
  | step _ _ hnew => exact hnew

/-- The nodes above one are reached from the root without it. -/
theorem above (h : Trail next root (node :: path)) (ha : a ∈ path) :
    ReachesIn next (· ≠ node) root a := by
  cases h with
  | root => exact absurd ha List.not_mem_nil
  | step h _ hnew => exact h.reachesIn (fun n hn hnode => hnew (hnode ▸ hn)) ha

theorem root_mem_path (h : Trail next root (node :: path)) (hpath : path ≠ []) : root ∈ path := by
  cases h with
  | root => exact absurd rfl hpath
  | step h _ _ => exact h.root_mem

theorem eq_root (h : Trail next root [node]) : node = root := by
  cases h
  rfl

end Trail

/-- The branches that a search finds below a node from the neighbours `done`, where `path` has the nodes
above the node. Each branch is met from a neighbour and has edges to itself, the node and the path. -/
structure Branches (next : Nat → List Nat) (path : List Nat) (node : Nat) (done : List Nat)
    (branches : List (List Nat)) : Prop where
  start : ∀ B ∈ branches, ∃ c ∈ B, c ∈ next node ∧ ∀ n ∈ B, ReachesIn next (· ∈ B) c n
  closed : ∀ B ∈ branches, ∀ n ∈ B, ∀ z ∈ next n, z ∈ B ∨ z ∈ node :: path
  apart : ∀ B ∈ branches, ∀ n ∈ B, n ∉ node :: path
  disjoint : branches.Pairwise List.Disjoint
  all : ∀ z ∈ done, z ∈ node :: path ∨ ∃ B ∈ branches, z ∈ B

def IsSevered (next : Nat → List Nat) (path B : List Nat) : Prop :=
  ∀ n ∈ B, ∀ z ∈ next n, z ∉ path

instance (next : Nat → List Nat) (path B : List Nat) : Decidable (IsSevered next path B) :=
  inferInstanceAs (Decidable (∀ n ∈ B, ∀ z ∈ next n, z ∉ path))

namespace Branches

theorem ne_node (h : Branches next path node done branches) (hB : B ∈ branches) :
    ∀ n ∈ B, n ≠ node := by
  rintro n hn rfl
  exact h.apart B hB n hn List.mem_cons_self

/-- Without the node there is no way out of a severed branch. -/
theorem mem_of_reachesIn (h : Branches next path node done branches) (hB : B ∈ branches)
    (hsevered : IsSevered next path B) (ha : a ∈ B) (hab : ReachesIn next (· ≠ node) a b) : b ∈ B := by
  refine hab.stays (Q := (· ∈ B)) ha fun n hn z hz hne => ?_
  rcases h.closed B hB n hn z hz with hzB | hz'
  · exact hzB
  · exact absurd ((List.mem_cons.1 hz').resolve_left hne) (hsevered n hn z hz)

/-- Without the node, the nodes of a branch reach each other. -/
theorem reachesIn (h : Branches next path node done branches) (hnext : Undirected next)
    (hB : B ∈ branches) (ha : a ∈ B) (hb : b ∈ B) : ReachesIn next (· ≠ node) a b := by
  obtain ⟨c, -, -, hreach⟩ := h.start B hB
  exact ReachesIn.mono ((hnext.reachesIn_symm (hreach a ha)).trans (hreach b hb)) (h.ne_node hB)

/-- A node below the root is separated from it by its branches, if one of them is severed. -/
theorem separates_of_isSevered (h : Branches next path node done branches)
    (htrail : Trail next root (node :: path)) (hpath : path ≠ []) (hB : B ∈ branches)
    (hsevered : IsSevered next path B) : Separates next root node := by
  obtain ⟨c, hc, hedge, -⟩ := h.start B hB
  have hroot : root ∈ path := htrail.root_mem_path hpath
  refine ⟨c, root, (htrail.reaches List.mem_cons_self).tail hedge, .refl, h.ne_node hB c hc,
    fun heq => htrail.notMem (heq ▸ hroot), fun hreach => ?_⟩
  exact h.apart B hB root (h.mem_of_reachesIn hB hsevered hc hreach) (List.mem_cons_of_mem _ hroot)

/-- If no branch is severed, all but the node is reached without it. -/
theorem reachesIn_of_not_isSevered (h : Branches next path node (next node) branches) (hnext : Undirected next)
    (htrail : Trail next root (node :: path))
    (hbranches : ∀ B ∈ branches, ¬ IsSevered next path B) (ha : Reaches next root a) :
    a = node ∨ ReachesIn next (· ≠ node) root a := by
  have hbranch {B : List Nat} (hB : B ∈ branches) {z : Nat} (hz : z ∈ B) :
      ReachesIn next (· ≠ node) root z := by
    have hedge := hbranches B hB
    simp only [IsSevered, not_forall, not_not] at hedge
    obtain ⟨n, hn, w, hw, hpath⟩ := hedge
    have hstep : ReachesIn next (· ≠ node) w n :=
      .single ⟨hnext n w hw, fun heq => htrail.notMem (heq ▸ hpath), h.ne_node hB n hn⟩
    exact ((htrail.above hpath).trans hstep).trans (h.reachesIn hnext hB hn hz)
  induction ha with
  | refl => exact .inr .refl
  | @tail x z _ hz ih =>
    refine or_iff_not_imp_left.2 fun hne => ?_
    by_cases hx : x = node
    · subst hx
      rcases h.all z hz with hz | ⟨B, hB, hz⟩
      · exact htrail.above ((List.mem_cons.1 hz).resolve_left hne)
      · exact hbranch hB hz
    · exact (ih.resolve_left hx).tail ⟨hz, hx, hne⟩

theorem separates_iff_exists (h : Branches next path node (next node) branches) (hnext : Undirected next)
    (htrail : Trail next root (node :: path)) (hpath : path ≠ []) :
    Separates next root node ↔ ∃ B ∈ branches, IsSevered next path B := by
  constructor
  · rintro ⟨a, b, ha, hb, hane, hbne, hab⟩
    by_contra hnone
    push Not at hnone
    have hreach {z : Nat} (hz : Reaches next root z) (hne : z ≠ node) :
        ReachesIn next (· ≠ node) root z :=
      (h.reachesIn_of_not_isSevered hnext htrail hnone hz).resolve_left hne
    exact hab ((hnext.reachesIn_symm (hreach ha hane)).trans (hreach hb hbne))
  · rintro ⟨B, hB, hsevered⟩
    exact h.separates_of_isSevered htrail hpath hB hsevered

/-- All that the root reaches is in its branches. -/
theorem mem_branch (h : Branches next [] root (next root) branches) (ha : Reaches next root a) :
    a = root ∨ ∃ B ∈ branches, a ∈ B := by
  induction ha with
  | refl => exact .inl rfl
  | tail _ hz ih =>
    rcases ih with rfl | ⟨B, hB, hx⟩
    · simpa using h.all _ hz
    · rcases h.closed B hB _ hx _ hz with hzB | hzroot
      · exact .inr ⟨B, hB, hzB⟩
      · exact .inl (List.mem_singleton.1 hzroot)

/-- The root separates two branches from each other. -/
theorem separates_root_iff (h : Branches next [] root (next root) branches) (hnext : Undirected next) :
    Separates next root root ↔ 1 < branches.length := by
  constructor
  · rintro ⟨a, b, ha, hb, hane, hbne, hab⟩
    obtain ⟨A, hA, haA⟩ := (h.mem_branch ha).resolve_left hane
    obtain ⟨B, hB, hbB⟩ := (h.mem_branch hb).resolve_left hbne
    by_contra hone
    have hsame : A = B := by
      match branches, hone, hA, hB with
      | [C], _, hA, hB => rw [List.mem_singleton.1 hA, List.mem_singleton.1 hB]
      | _ :: _ :: _, hone, _, _ => simp at hone
    exact hab (h.reachesIn hnext hA haA (hsame ▸ hbB))
  · intro hmany
    match branches, h, hmany with
    | A :: B :: rest, h, _ =>
      obtain ⟨a, ha, haedge, -⟩ := h.start A List.mem_cons_self
      obtain ⟨b, hb, hbedge, -⟩ := h.start B (by simp)
      have hdisjoint : List.Disjoint A B := (List.pairwise_cons.1 h.disjoint).1 B List.mem_cons_self
      refine ⟨a, b, .single haedge, .single hbedge, h.ne_node List.mem_cons_self a ha,
        h.ne_node (by simp) b hb, fun hab => ?_⟩
      have hsevered : IsSevered next [] A := fun _ _ _ _ => List.not_mem_nil
      exact hdisjoint (h.mem_of_reachesIn List.mem_cons_self hsevered ha hab) hb

/-- A node is a cut vertex just if one branch below it is severed, and for the root two. -/
theorem separates_iff (h : Branches next path node (next node) branches) (hnext : Undirected next)
    (htrail : Trail next root (node :: path)) : Separates next root node ↔
      (if path.head?.isSome then 0 else 1) < branches.countP (IsSevered next path) := by
  cases path with
  | nil =>
    obtain rfl := htrail.eq_root
    have hall : branches.countP (IsSevered next []) = branches.length :=
      List.countP_eq_length.2 fun B _ => by simp [IsSevered]
    rw [h.separates_root_iff hnext, hall]
    rfl
  | cons parent path =>
    rw [h.separates_iff_exists hnext htrail (by simp)]
    simp [List.countP_pos_iff]

end Branches

end InputFlow.Graph
