import InputFlow.Proofs.Block.Steps
import Mathlib.Algebra.GroupWithZero.Nat
import Mathlib.Algebra.Order.BigOperators.Group.List
import Mathlib.Algebra.Order.Group.Nat
import Mathlib.Data.Set.Card

namespace InputFlow

namespace Revision

def Among (P : ValueId → Prop) (a : Dep) : Prop :=
  ∀ x ∈ a.sources, P x

theorem Among.sup {P : ValueId → Prop} {a b : Dep} (ha : Among P a) (hb : Among P b) :
    Among P (a ⊔ b) := by
  intro x hx
  cases a with
  | unknown => exact hb x (by rwa [Fact.unknown_sup] at hx)
  | independent =>
    cases b with
    | dependent t => exact hb x hx
    | _ => simp [Fact.sources, ← Fact.join_eq_sup, Fact.join] at hx
  | dependent s =>
    cases b with
    | dependent t =>
      rcases Std.ExtTreeSet.mem_union_iff.1 (show x ∈ s ∪ t from hx) with hx | hx
      · exact ha x hx
      · exact hb x hx
    | _ => exact ha x hx

theorem Among.height_le {U : Sources ValueId} {a : Dep} (ha : Among (· ∈ U) a) :
    a.height ≤ U.size + 2 := by
  cases a with
  | dependent s =>
    have hs := Fact.size_mono ha
    simp only [Fact.height, Fact.sources] at hs ⊢
    omega
  | _ => simp [Fact.height]

/-- How far the facts of instructions can still go up. -/
def room (U : Sources ValueId) (is : List ValueId) (s : BlockState) : Nat :=
  (is.map fun i => U.size + 2 - (s.instructions.fact i).height).sum

/-- The facts of the instructions and the pending ones have their sources among `U`, and only the
instructions `is` can go up. -/
structure Bounded (U : Sources ValueId) (is : List ValueId) (r : Revision) : Prop where
  instructions : ∀ i, Among (· ∈ U) (r.state.instructions.fact i)
  pending : ∀ k a, (k, a) ∈ r.pending → Among (· ∈ U) a
  derived : ∀ k i, .inst i ∈ r.state.derivations.of k → i ∈ is

variable {p : Program} {U : Sources ValueId} {is : List ValueId} {r : Revision} {k : ValueId}
  {a : Dep} {d : Derived}

theorem Bounded.joinDerived (h : r.Bounded U is) (ha : Among (· ∈ U) a) :
    (r.joinDerived p a d).Bounded U is where
  instructions j := by
    rw [state_joinDerived]
    cases d with
    | inst i =>
      simp only [BlockState.raise, Facts.fact_insert]
      split
      · exact (h.instructions i).sup ha
      · exact h.instructions j
    | _ => exact h.instructions j
  pending k c hk := by
    rw [pending_joinDerived] at hk
    rcases List.mem_append.1 hk with hk | hk
    · exact h.pending k c hk
    · obtain ⟨-, -, -, rfl⟩ := mem_news.1 hk
      exact (h.instructions k).sup ha
  derived k i := by
    rw [state_joinDerived, BlockState.derivations_raise]
    exact h.derived k i

/-- What becomes pending is paid for by an instruction that goes up. -/
theorem Bounded.room_joinDerived (h : r.Bounded U is) (ha : Among (· ∈ U) a)
    (hd : d ∈ r.state.derivations.of k) :
    (r.joinDerived p a d).pending.length + room U is (r.joinDerived p a d).state ≤
      r.pending.length + room U is r.state := by
  rw [pending_joinDerived, state_joinDerived, List.length_append]
  cases d with
  | inst i =>
    have hi := h.derived k i hd
    have hfact (j : ValueId) : (r.state.raise p a (.inst i)).instructions.fact j =
        if i = j then r.state.instructions.fact i ⊔ a else r.state.instructions.fact j :=
      Facts.fact_insert _ _ _ _
    have hle (j : ValueId) : U.size + 2 - ((r.state.raise p a (.inst i)).instructions.fact j).height ≤
        U.size + 2 - (r.state.instructions.fact j).height := by
      rw [hfact]
      split
      · rename_i hij
        have := Fact.height_mono (le_sup_left (a := r.state.instructions.fact i) (b := a))
        rw [← hij]
        omega
      · exact le_refl _
    by_cases hg : (r.state.instructions.fact i).grows a
    · have hlt : U.size + 2 - ((r.state.raise p a (.inst i)).instructions.fact i).height <
          U.size + 2 - (r.state.instructions.fact i).height := by
        have hup : r.state.instructions.fact i < r.state.instructions.fact i ⊔ a :=
          left_lt_sup.2 (Fact.grows_iff.1 hg)
        have h₁ := Fact.height_lt hup
        have h₂ := ((h.instructions i).sup ha).height_le
        rw [hfact, if_pos rfl]
        omega
      have hsum : room U is (r.state.raise p a (.inst i)) < room U is r.state :=
        List.sum_lt_sum _ _ (fun j _ => hle j) ⟨i, hi, hlt⟩
      have hnews : (r.news p a (.inst i)).length ≤ 1 := by
        rw [news]
        split <;> simp
      omega
    · have hnews : r.news p a (.inst i) = [] := by simp [news, hg]
      have hsum : room U is (r.state.raise p a (.inst i)) ≤ room U is r.state :=
        List.sum_le_sum fun j _ => hle j
      rw [hnews, List.length_nil]
      omega
  | _ => exact le_refl _

theorem Bounded.joinAll {ds : List Derived} (h : r.Bounded U is) (ha : Among (· ∈ U) a)
    (hds : ∀ d ∈ ds, d ∈ r.state.derivations.of k) :
    (ds.foldl (fun r d => r.joinDerived p a d) r).Bounded U is ∧
      (ds.foldl (fun r d => r.joinDerived p a d) r).pending.length +
        room U is (ds.foldl (fun r d => r.joinDerived p a d) r).state ≤
          r.pending.length + room U is r.state := by
  induction ds generalizing r with
  | nil => exact ⟨h, le_refl _⟩
  | cons d ds ih =>
    have hfirst := h.room_joinDerived (p := p) ha (hds d List.mem_cons_self)
    obtain ⟨hb, hrest⟩ := ih (h.joinDerived (p := p) (d := d) ha) fun e he => by
      rw [state_joinDerived, BlockState.derivations_raise]
      exact hds e (List.mem_cons_of_mem d he)
    exact ⟨hb, hrest.trans hfirst⟩

theorem Bounded.step (h : r.Bounded U is) (hr : r.pending ≠ []) :
    (r.step p).Bounded U is ∧ (r.step p).pending.length + room U is (r.step p).state <
      r.pending.length + room U is r.state := by
  rw [Revision.step]
  split
  · contradiction
  · rename_i source fact rest hpending
    have hfirst : ({ r with pending := rest, passed := r.passed ++ [source] } : Revision).Bounded U is :=
      ⟨h.instructions, fun k a hk => h.pending k a (by simp [hpending, hk]), h.derived⟩
    obtain ⟨hb, hle⟩ := hfirst.joinAll (p := p) (h.pending source fact (by simp [hpending]))
      (fun d hd => hd)
    refine ⟨hb, lt_of_le_of_lt hle ?_⟩
    simp [hpending]

theorem Bounded.cascade {fuel : Nat} (h : r.Bounded U is)
    (hfuel : r.pending.length + room U is r.state ≤ fuel) : (cascade p fuel r).pending = [] := by
  induction fuel generalizing r with
  | zero =>
    refine List.eq_nil_of_length_eq_zero ?_
    change r.pending.length = 0
    omega
  | succ fuel ih =>
    rw [Revision.cascade]
    split
    · rename_i hr
      exact List.isEmpty_iff.1 hr
    · rename_i hr
      obtain ⟨hb, hlt⟩ := h.step (p := p) fun hnil => hr (by simp [hnil])
      exact ih hb (by omega)

def occurring (a : Dep) (instructions : FactMap) : Sources ValueId :=
  instructions.foldl (fun sources _ a => sources ∪ a.sources) a.sources

theorem mem_occurring {a : Dep} {m : FactMap} {x : ValueId} :
    x ∈ occurring a m ↔ x ∈ a.sources ∨ ∃ i, x ∈ (m.fact i).sources := by
  have hfold (l : List (ValueId × Dep)) (U : Sources ValueId) :
      x ∈ l.foldl (fun sources c => sources ∪ c.2.sources) U ↔
        x ∈ U ∨ ∃ c ∈ l, x ∈ c.2.sources := by
    induction l generalizing U with
    | nil => simp
    | cons c l ih => simp [ih, Std.ExtTreeSet.mem_union_iff, or_assoc]
  have hlisted : (∃ c ∈ m.toList, x ∈ c.2.sources) ↔ ∃ i, x ∈ (m.fact i).sources := by
    constructor
    · rintro ⟨⟨i, c⟩, hc, hx⟩
      rw [Std.ExtTreeMap.mem_toList_iff_getElem?_eq_some] at hc
      exact ⟨i, by rwa [Facts.fact_of_some hc]⟩
    · rintro ⟨i, hx⟩
      have hi : i ∈ m := by
        by_contra hi
        simp [Facts.fact_of_not_mem hi, Fact.sources] at hx
      exact ⟨(i, m.fact i), Std.ExtTreeMap.mem_toList_iff_getElem?_eq_some.2
        (Facts.getElem?_of_mem hi), hx⟩
  rw [occurring, Std.ExtTreeMap.foldl_eq_foldl_toList, hfold, hlisted]

theorem exists_derived (D : Derivations) : ∃ is : Std.ExtTreeSet ValueId,
    is.size = derivedInstructions D ∧ ∀ i, i ∈ is ↔ ∃ k, .inst i ∈ D.of k := by
  rw [derivedInstructions]
  refine ⟨_, rfl, ?_⟩
  intro i
  rw [Std.ExtTreeSet.mem_ofList, List.contains_iff_mem, List.mem_flatMap]
  constructor
  · rintro ⟨⟨k, set⟩, hset, hi⟩
    rw [Std.ExtTreeMap.mem_toList_iff_getElem?_eq_some] at hset
    obtain ⟨d, hd, hdi⟩ := List.mem_filterMap.1 hi
    refine ⟨k, Derivations.mem_of.2 ?_⟩
    cases d with
    | inst j =>
      obtain rfl := Option.some.inj hdi
      simpa [hset] using hd
    | _ => simp at hdi
  · rintro ⟨k, hi⟩
    rw [Derivations.of] at hi
    split at hi
    next set hset =>
      exact ⟨(k, set), Std.ExtTreeMap.mem_toList_iff_getElem?_eq_some.2 hset,
        List.mem_filterMap.2 ⟨_, hi, rfl⟩⟩
    next => simp at hi

/-- Nothing is left pending once the consequences of a fact have been drawn. -/
theorem pending_spread (r : Revision) (p : Program) (v : ValueId) (a : Dep) :
    (r.spread p v a).pending = [] := by
  obtain ⟨is, hsize, hderived⟩ := exists_derived r.state.derivations
  have hbounded : ({ r with pending := [(v, a)] } : Revision).Bounded
      (occurring a r.state.instructions) is.toList := by
    constructor
    · intro i x hx
      exact mem_occurring.2 (.inr ⟨i, hx⟩)
    · intro k c hk x hx
      obtain ⟨-, rfl⟩ : k = v ∧ c = a := by simpa using hk
      exact mem_occurring.2 (.inl hx)
    · intro k i hi
      exact Std.ExtTreeSet.mem_toList.2 ((hderived i).2 ⟨k, hi⟩)
  rw [spread]
  apply hbounded.cascade
  have hroom : room (occurring a r.state.instructions) is.toList r.state ≤
      is.size * ((occurring a r.state.instructions).size + 2) := by
    have h := List.sum_le_card_nsmul (is.toList.map fun i =>
      (occurring a r.state.instructions).size + 2 - (r.state.instructions.fact i).height)
      ((occurring a r.state.instructions).size + 2) (by simp)
    simpa [room] using h
  rw [hsize] at hroom
  simp only [List.length_singleton, bound]
  exact Nat.add_le_add_left hroom 1

/-- Drawing consequences with fuel is taking steps while something is pending. -/
theorem cascade_eq_iterate (r : Revision) (p : Program) (fuel : Nat) : ∃ n ≤ fuel,
    cascade p fuel r = (·.step p)^[n] r ∧ ∀ j < n, ((·.step p)^[j] r).pending ≠ [] := by
  induction fuel generalizing r with
  | zero => exact ⟨0, le_refl 0, rfl, by simp⟩
  | succ fuel ih =>
    rw [cascade]
    split
    next => exact ⟨0, Nat.zero_le _, rfl, by simp⟩
    next hr =>
      obtain ⟨n, hn, heq, hbefore⟩ := ih (r.step p)
      refine ⟨n + 1, Nat.succ_le_succ hn, heq, ?_⟩
      intro j hj
      cases j with
      | zero => simpa using hr
      | succ j => exact hbefore j (by omega)

theorem passed_joinDerived (r : Revision) (p : Program) (a : Dep) (d : Derived) :
    (r.joinDerived p a d).passed = r.passed := by
  cases d with
  | inst i =>
    simp only [joinDerived, joinInstruction, valueChanged]
    split_ifs <;> rfl
  | slot v =>
    simp only [joinDerived, joinSlot, valueChanged]
    split <;> rfl
  | _ => rfl

/-- A step passes one value. -/
theorem length_passed_step (hr : r.pending ≠ []) :
    (r.step p).passed.length = r.passed.length + 1 := by
  rw [step]
  split
  next hnil => exact absurd hnil hr
  next source fact rest hpending =>
    have hpassed := unchanged_joinAll (f := passed) (fun r d => passed_joinDerived r p fact d)
      (r.state.derivations.of source) { r with pending := rest, passed := r.passed ++ [source] }
    simp [hpassed]

theorem length_passed_iterate (r : Revision) (p : Program) (n : Nat)
    (h : ∀ j < n, ((·.step p)^[j] r).pending ≠ []) :
    ((·.step p)^[n] r).passed.length = r.passed.length + n := by
  induction n with
  | zero => rfl
  | succ n ih =>
    have hn := ih fun j hj => h j (by omega)
    rw [Function.iterate_succ_apply', length_passed_step (h n (by omega)), hn]
    omega

theorem size_eq_ncard (s : Sources ValueId) : s.size = {x | x ∈ s}.ncard := by
  have hnodup : s.toList.Nodup := Std.ExtTreeSet.distinct_toList.imp fun h => by simpa using h
  have hset : {x | x ∈ s} = ↑s.toList.toFinset := by
    ext x
    simp
  rw [hset, Set.ncard_coe_finset, List.toFinset_card_of_nodup hnodup, Std.ExtTreeSet.length_toList]

/-- Whatever the facts of a block are and whatever counts as derived from what, even in circles, the
steps that draw the consequences of a fact come to an end. They are at most one, and for each derived
instruction two and one for each source that occurs; each passes one value. -/
theorem cascade_ends_within_bound (r : Revision) (p : Program) (v : ValueId) (a : Dep) :
    let start := { r with pending := [(v, a)] }
    let instructions := {i | ∃ k, .inst i ∈ r.state.derivations.of k}
    let sources := {x | x ∈ a.sources ∨ ∃ i, x ∈ (r.state.instructions.fact i).sources}
    ∃ n ≤ 1 + instructions.ncard * (sources.ncard + 2),
      ((·.step p)^[n] start).pending = [] ∧
      (∀ j < n, ((·.step p)^[j] start).pending ≠ []) ∧
      r.spread p v a = (·.step p)^[n] start ∧
      (r.spread p v a).passed.length = r.passed.length + n := by
  intro start instructions sources
  obtain ⟨is, hsize, hderived⟩ := exists_derived r.state.derivations
  have hk : derivedInstructions r.state.derivations = instructions.ncard := by
    rw [← hsize, size_eq_ncard]
    simp only [hderived, instructions]
  have hm : occurringSources a r.state.instructions = sources.ncard := by
    change (occurring a r.state.instructions).size = _
    rw [size_eq_ncard]
    simp only [mem_occurring, sources]
  obtain ⟨n, hn, heq, hbefore⟩ := cascade_eq_iterate start p (r.bound a)
  have hspread : r.spread p v a = (·.step p)^[n] start := heq
  refine ⟨n, ?_, ?_, hbefore, hspread, ?_⟩
  · rwa [bound, hk, hm] at hn
  · rw [← hspread]
    exact r.pending_spread p v a
  · rw [hspread]
    exact length_passed_iterate start p n hbefore

/-- Two sums in a circle. The first is passed again, for the source that the second brings back. -/
example :
    let p : Program := { values := #[⟨"x", .param⟩, ⟨"a", .inst (.binary .add 0 2)⟩,
      ⟨"b", .inst (.binary .add 1 1)⟩] }
    let derivations := ((Derivations.empty.record 0 (.inst 1)).record 1 (.inst 2)).record 2 (.inst 1)
    let instructions : FactMap := .ofList [(2, Fact.on 7)]
    let r : Revision := { state := { block := 0, entry := ∅, instructions, derivations } }
    (r.spread p 0 (.on 5)).passed = [0, 1, 2, 1] := by
  decide +kernel

end Revision

end InputFlow
