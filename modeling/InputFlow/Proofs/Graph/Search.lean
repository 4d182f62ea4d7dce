import InputFlow.Graph.Flow
import Mathlib.Data.List.Basic
import Mathlib.Logic.Relation

namespace InputFlow.Graph

variable {next : Nat → List Nat} {s t : Search} {roots new U : List Nat} {node : Nat}

abbrev Reaches (next : Nat → List Nat) : Nat → Nat → Prop :=
  Relation.ReflTransGen fun a b => b ∈ next a

theorem split_append {α : Type} {a b l r : List α} {x : α} (h : a ++ b = l ++ x :: r) :
    (∃ l', l = a ++ l' ∧ b = l' ++ x :: r) ∨ ∃ r', a = l ++ x :: r' ∧ r = r' ++ b := by
  rcases List.append_eq_append_iff.1 h with ⟨l', hl, hb⟩ | ⟨c, ha, hc⟩
  · exact Or.inl ⟨l', hl, hb⟩
  · rcases List.cons_eq_append_iff.1 hc with ⟨rfl, hb⟩ | ⟨r', rfl, hr⟩
    · exact Or.inl ⟨[], by simpa using ha.symm, hb⟩
    · exact Or.inr ⟨r', ha, hr⟩

/-- `new` lists the nodes that a search from `roots` meets when it goes on from `s`, the last one it
leaves first. A node stands behind a predecessor, and an edge from one of the nodes that are left
before `y` leads back to a node on the way to `y`, or does not get past `y`. -/
structure Explores (next : Nat → List Nat) (roots : List Nat) (s : Search) (new : List Nat) :
    Prop where
  nodup : new.Nodup
  fresh : ∀ n ∈ new, n ∉ s.seen
  closed : ∀ u ∈ new, ∀ z ∈ next u, z ∈ new ∨ z ∈ s.seen
  met : ∀ r ∈ roots, r ∈ new ∨ r ∈ s.seen
  parent : ∀ l n r, new = l ++ n :: r → n ∈ roots ∨ ∃ u ∈ l, n ∈ next u
  late : ∀ l y r, new = l ++ y :: r → ∀ u ∈ y :: r, ∀ z ∈ next u,
    z ∈ y :: r ∨ z ∈ s.seen ∨ Reaches next z y

namespace Explores

theorem nil (h : ∀ r ∈ roots, r ∈ s.seen) : Explores next roots s [] where
  nodup := List.nodup_nil
  fresh := by simp
  closed := by simp
  met r hr := Or.inr (h r hr)
  parent := by simp
  late := by simp

/-- Everything met is reached from a root. -/
theorem reaches (h : Explores next roots s new) : ∀ n ∈ new, ∃ r ∈ roots, Reaches next r n := by
  -- The predecessor stands before the node, so this goes by the number of nodes before it.
  suffices ∀ len l n r, l.length = len → new = l ++ n :: r → ∃ r ∈ roots, Reaches next r n by
    intro n hn
    obtain ⟨l, r, hnew⟩ := List.append_of_mem hn
    exact this _ l n r rfl hnew
  intro len
  induction len using Nat.strongRecOn with
  | _ len ih =>
    intro l n r hlen hnew
    rcases h.parent l n r hnew with hn | ⟨u, hu, hn⟩
    · exact ⟨n, hn, .refl⟩
    · obtain ⟨l₁, l₂, rfl⟩ := List.append_of_mem hu
      obtain ⟨root, hroot, hreach⟩ := ih l₁.length (by simp at hlen; lia) l₁ u (l₂ ++ n :: r) rfl
        (by simpa using hnew)
      exact ⟨root, hroot, hreach.tail hn⟩

/-- Going on with further roots. -/
theorem append {roots' new' : List Nat} (h : Explores next roots s new)
    (h' : Explores next roots' t new') (ht : ∀ n, n ∈ t.seen ↔ n ∈ new ∨ n ∈ s.seen) :
    Explores next (roots ++ roots') s (new' ++ new) where
  nodup := List.nodup_append.2 ⟨h'.nodup, h.nodup, fun a ha b hb hab =>
    h'.fresh a ha ((ht a).2 (Or.inl (hab ▸ hb)))⟩
  fresh n hn := by
    rcases List.mem_append.1 hn with hn | hn
    · exact fun hs => h'.fresh n hn ((ht n).2 (Or.inr hs))
    · exact h.fresh n hn
  closed u hu z hz := by
    rw [List.mem_append, or_assoc, ← ht]
    rcases List.mem_append.1 hu with hu | hu
    · exact h'.closed u hu z hz
    · exact Or.inr ((ht z).2 (h.closed u hu z hz))
  met r hr := by
    rw [List.mem_append, or_assoc, ← ht]
    rcases List.mem_append.1 hr with hr | hr
    · exact Or.inr ((ht r).2 (h.met r hr))
    · exact h'.met r hr
  parent l n r hnew := by
    rcases split_append hnew with ⟨l', rfl, hl⟩ | ⟨r', hl, rfl⟩
    · rcases h.parent l' n r hl with hn | ⟨u, hu, hn⟩
      · exact Or.inl (List.mem_append_left _ hn)
      · exact Or.inr ⟨u, List.mem_append_right _ hu, hn⟩
    · exact (h'.parent l n r' hl).imp_left (List.mem_append_right _)
  late l y r hnew u hu z hz := by
    rcases split_append hnew with ⟨l', rfl, hl⟩ | ⟨r', hl, rfl⟩
    · exact h.late l' y r hl u hu z hz
    · rw [← List.cons_append, List.mem_append] at hu ⊢
      rw [or_assoc]
      rcases hu with hu | hu
      · refine (h'.late l y r' hl u hu z hz).imp_right ?_
        rintro (hz | hz)
        · exact ((ht z).1 hz).imp_right Or.inl
        · exact Or.inr (Or.inr hz)
      · exact Or.inr ((h.closed u hu z hz).imp_right Or.inl)

theorem closed_cons (h : Explores next (next node) { s with seen := node :: s.seen } new) :
    ∀ u ∈ node :: new, ∀ z ∈ next u, z ∈ node :: new ∨ z ∈ s.seen := by
  intro u hu z hz
  have hmet : z ∈ new ∨ z ∈ node :: s.seen := by
    rcases List.mem_cons.1 hu with rfl | hu
    · exact h.met z hz
    · exact h.closed u hu z hz
  rcases hmet with hz | hz
  · exact Or.inl (List.mem_cons_of_mem _ hz)
  · rw [List.mem_cons] at hz ⊢
    exact hz.imp_left Or.inl

/-- A node is left after all that is met from it. -/
theorem cons (hnode : node ∉ s.seen)
    (h : Explores next (next node) { s with seen := node :: s.seen } new) :
    Explores next [node] s (node :: new) where
  nodup := List.nodup_cons.2 ⟨fun hn => h.fresh node hn List.mem_cons_self, h.nodup⟩
  fresh n hn := by
    rcases List.mem_cons.1 hn with rfl | hn
    · exact hnode
    · exact fun hs => h.fresh n hn (List.mem_cons_of_mem _ hs)
  closed := closed_cons h
  met r hr := Or.inl (List.mem_singleton.1 hr ▸ List.mem_cons_self)
  parent l n r hnew := by
    rcases List.cons_eq_append_iff.1 hnew with ⟨rfl, hl⟩ | ⟨l', rfl, hl⟩
    · exact Or.inl (by simp_all)
    · rcases h.parent l' n r hl with hn | ⟨u, hu, hn⟩
      · exact Or.inr ⟨node, List.mem_cons_self, hn⟩
      · exact Or.inr ⟨u, List.mem_cons_of_mem _ hu, hn⟩
  late l y r hnew u hu z hz := by
    rcases List.cons_eq_append_iff.1 hnew with ⟨rfl, hl⟩ | ⟨l', rfl, hl⟩
    · rw [hl] at hu ⊢
      exact (closed_cons h u hu z hz).imp_right Or.inl
    · rcases h.late l' y r hl u hu z hz with hz | hz | hz
      · exact Or.inl hz
      · rcases List.mem_cons.1 hz with rfl | hz
        · obtain ⟨root, hroot, hreach⟩ := h.reaches y (by simp [hl])
          exact Or.inr (Or.inr (hreach.head hroot))
        · exact Or.inr (Or.inl hz)
      · exact Or.inr (Or.inr hz)

end Explores

/-- The search has gone on from `s` to `t` through the roots. -/
def Visits (next : Nat → List Nat) (roots : List Nat) (s t : Search) : Prop :=
  ∃ new, Explores next roots s new ∧ t.left = new ++ s.left ∧
    ∀ n, n ∈ t.seen ↔ n ∈ new ∨ n ∈ s.seen

def room (U : List Nat) (met : Nat → Prop) [DecidablePred met] : Nat :=
  (U.filter fun n => ¬ met n).length

section Room

variable {met met' : Nat → Prop} [DecidablePred met] [DecidablePred met']

theorem room_le_length : room U met ≤ U.length :=
  List.length_filter_le _ _

theorem room_mono (h : ∀ n, met n → met' n) : room U met' ≤ room U met := by
  refine (List.monotone_filter_right U fun n hn => ?_).length_le
  simp only [decide_eq_true_eq] at hn ⊢
  exact fun hmet => hn (h n hmet)

theorem room_lt (h : ∀ n, met n → met' n) (hU : node ∈ U) (hnode : ¬ met node)
    (hnode' : met' node) : room U met' < room U met := by
  have hfilter : (U.filter fun n => ¬ met' n) =
      (U.filter fun n => ¬ met n).filter fun n => ¬ met' n := by
    rw [List.filter_filter]
    exact List.filter_congr fun n _ => by simpa using fun hn hmet => hn (h n hmet)
  rw [room, hfilter, room, List.length_filter_lt_length_iff_exists]
  exact ⟨node, List.mem_filter.2 ⟨hU, by simpa using hnode⟩, by simpa using hnode'⟩

end Room

theorem room_seen_lt (hU : node ∈ U) (hnode : node ∉ s.seen) :
    room U (· ∈ node :: s.seen) < room U (· ∈ s.seen) :=
  room_lt (fun _ => List.mem_cons_of_mem node) hU hnode List.mem_cons_self

theorem visits_foldl {f : Nat → Search → Search} {ns : List Nat} {fuel : Nat}
    (hf : ∀ n ∈ ns, ∀ s : Search, room U (· ∈ s.seen) ≤ fuel → Visits next [n] s (f n s)) :
    ∀ s : Search, room U (· ∈ s.seen) ≤ fuel → Visits next ns s (ns.foldl (fun s n => f n s) s) := by
  induction ns with
  | nil => exact fun s _ => ⟨[], Explores.nil (by simp), rfl, by simp⟩
  | cons n ns ih =>
    intro s hs
    obtain ⟨new, hnew, hleft, hseen⟩ := hf n List.mem_cons_self s hs
    have hroom : room U (· ∈ (f n s).seen) ≤ fuel :=
      Nat.le_trans (room_mono fun m hm => (hseen m).2 (Or.inr hm)) hs
    obtain ⟨new', hnew', hleft', hseen'⟩ :=
      ih (fun m hm => hf m (List.mem_cons_of_mem _ hm)) (f n s) hroom
    refine ⟨new' ++ new, hnew.append hnew' hseen, ?_, fun m => ?_⟩
    · rw [List.foldl_cons, hleft', hleft, List.append_assoc]
    · rw [List.foldl_cons, hseen', hseen, List.mem_append, or_assoc]

/-- A search with fuel for all the nodes it can meet is complete. -/
theorem visits_visit (hU : ∀ u ∈ U, ∀ z ∈ next u, z ∈ U) {fuel : Nat} (hnode : node ∈ U)
    (hroom : room U (· ∈ s.seen) ≤ fuel) : Visits next [node] s (visit next fuel node s) := by
  induction fuel generalizing node s with
  | zero =>
    have hseen : node ∈ s.seen := by
      by_contra hn
      have := room_seen_lt hnode hn
      lia
    exact ⟨[], Explores.nil (by simpa using hseen), rfl, by simp [visit]⟩
  | succ fuel ih =>
    rw [visit]
    split
    next hseen => exact ⟨[], Explores.nil (by simpa using hseen), rfl, by simp⟩
    next hseen =>
      have hlt := room_seen_lt hnode hseen
      obtain ⟨new, hnew, hleft, hmem⟩ := visits_foldl (f := visit next fuel)
        (fun n (hn : n ∈ next node) s hs => ih (hU node hnode n hn) hs)
        { s with seen := node :: s.seen } (by lia)
      refine ⟨node :: new, hnew.cons hseen, ?_, fun n => ?_⟩
      · simp [hleft]
      · rw [hmem]
        simp [or_left_comm, or_assoc]

/-- The nodes that a root reaches, in reverse post-order. -/
structure IsSearchOrder (next : Nat → List Nat) (root : Nat) (order : List Nat) : Prop where
  head : ∃ rest, order = root :: rest
  nodup : order.Nodup
  mem : ∀ n, n ∈ order ↔ Reaches next root n
  parent : ∀ l n r, order = l ++ n :: r → n = root ∨ ∃ u ∈ l, n ∈ next u
  late : ∀ l y r, order = l ++ y :: r → ∀ u ∈ y :: r, ∀ z ∈ next u, z ∈ y :: r ∨ Reaches next z y

section Root

variable {root : Nat} {order : List Nat} {size : Nat}

theorem visits_root (hU : ∀ u ∈ U, ∀ z ∈ next u, z ∈ U) (hroot : root ∈ U) (hsize : U.length ≤ size) :
    Visits next [root] {} (visit next size root {}) :=
  visits_visit hU hroot (Nat.le_trans room_le_length hsize)

theorem Explores.mem_iff (h : Explores next [root] {} order) (n : Nat) :
    n ∈ order ↔ Reaches next root n := by
  constructor
  · intro hn
    simpa using h.reaches n hn
  · intro hn
    induction hn with
    | refl => simpa using h.met root (by simp)
    | tail _ hz ih => simpa using h.closed _ ih _ hz

theorem isSearchOrder_reversePostOrder (hU : ∀ u ∈ U, ∀ z ∈ next u, z ∈ U) (hroot : root ∈ U)
    (hsize : U.length ≤ size) : IsSearchOrder next root (reversePostOrder next size root) := by
  obtain ⟨new, hnew, hleft, -⟩ := visits_root hU hroot hsize
  rw [reversePostOrder, hleft, List.append_nil]
  refine ⟨?_, hnew.nodup, hnew.mem_iff, ?_, ?_⟩
  · cases new with
    | nil => simpa using hnew.met root (by simp)
    | cons n rest =>
      have hn : n = root := by simpa using hnew.parent [] n rest rfl
      exact ⟨rest, by rw [hn]⟩
  · intro l n r h
    simpa using hnew.parent l n r h
  · intro l y r h u hu z hz
    simpa using hnew.late l y r h u hu z hz

theorem mem_reachable (hU : ∀ u ∈ U, ∀ z ∈ next u, z ∈ U) (hroot : root ∈ U)
    (hsize : U.length ≤ size) {n : Nat} : n ∈ reachable next size root ↔ Reaches next root n := by
  obtain ⟨new, hnew, -, hseen⟩ := visits_root hU hroot hsize
  rw [reachable, hseen, ← hnew.mem_iff]
  simp

/-- From the first node of a component, the search order leads to nothing before it. -/
theorem IsSearchOrder.mem_of_reaches (h : IsSearchOrder next root order) {l r : List Nat} {y n : Nat}
    (horder : order = l ++ y :: r) (hfirst : ∀ x ∈ l, ¬ (Reaches next x y ∧ Reaches next y x))
    (hn : Reaches next y n) : n ∈ y :: r := by
  induction hn with
  | refl => exact List.mem_cons_self
  | @tail u z hu hz ih =>
    rcases h.late l y r horder u ih z hz with hzy | hzy
    · exact hzy
    · have hyz : Reaches next y z := hu.tail hz
      have hmem : z ∈ order :=
        (h.mem z).2 (((h.mem y).1 (by simp [horder])).trans hyz)
      rw [horder, List.mem_append] at hmem
      exact hmem.resolve_left fun hl => hfirst z hl ⟨hzy, hyz⟩

end Root

end InputFlow.Graph
