import InputFlow.Proofs.Block.Formula
import InputFlow.Proofs.Block.Steps
import Mathlib.Order.Ideal

namespace InputFlow

/-- A set of facts closed under joins. -/
structure JoinSet where
  carrier : Set Dep
  unknown_mem' : .unknown ∈ carrier
  sup_mem' : ∀ {a c : Dep}, a ∈ carrier → c ∈ carrier → a ⊔ c ∈ carrier

namespace JoinSet

instance : SetLike JoinSet Dep where
  coe J := J.carrier
  coe_injective J K h := by
    cases J
    cases K
    congr

def ofIdeal (I : Order.Ideal Dep) : JoinSet where
  carrier := I
  unknown_mem' := Order.Ideal.bot_mem I
  sup_mem' := Order.Ideal.sup_mem

variable {J : JoinSet} {a c : Dep}

theorem unknown_mem (J : JoinSet) : .unknown ∈ J :=
  J.unknown_mem'

theorem sup_mem (ha : a ∈ J) (hc : c ∈ J) : a ⊔ c ∈ J :=
  J.sup_mem' ha hc

theorem settle_mem (hJ : .independent ∈ J) (ha : a ∈ J) : a.settle ∈ J := by
  rw [Fact.settle_eq_sup]
  exact sup_mem ha hJ

theorem of_settle_mem (h : a.settle ∈ J) : a ∈ J := by
  cases a with
  | unknown => exact J.unknown_mem
  | independent => exact h
  | dependent s => exact h

/-- Between a fact and what it settles to there is no other. -/
theorem of_le_settle (hJ : .independent ∈ J) (ha : a ∈ J) (hle : a ≤ c) (hsettle : c ≤ a.settle) :
    c ∈ J := by
  cases a with
  | unknown =>
    cases c with
    | unknown => exact ha
    | independent => exact hJ
    | dependent s => exact absurd hsettle Fact.not_dependent_le_independent
  | independent => exact le_antisymm hle hsettle ▸ ha
  | dependent s => exact le_antisymm hle hsettle ▸ ha

theorem eval_mem {f : Formula} {ρ : Origin → Dep} (hbase : f.base ∈ J)
    (horigins : ∀ o ∈ f.origins, ρ o ∈ J) : f.eval ρ ∈ J := by
  obtain ⟨base, origins⟩ := f
  rw [Formula.eval]
  induction origins with
  | nil => exact hbase
  | cons o origins ih =>
    exact sup_mem (horigins o List.mem_cons_self) (ih hbase fun o ho => horigins o (.tail _ ho))

theorem base_sum_mem {fs : List Formula} (h : ∀ f ∈ fs, f.base ∈ J) : (Formula.sum fs).base ∈ J := by
  induction fs with
  | nil => exact J.unknown_mem
  | cons f fs ih => exact sup_mem (h f List.mem_cons_self) (ih fun f hf => h f (.tail _ hf))

theorem joinAll_mem {facts : List Dep} (h : ∀ a ∈ facts, a ∈ J) : Fact.joinAll facts ∈ J := by
  have hfold (c : Dep) (hc : c ∈ J) : facts.foldl Fact.join c ∈ J := by
    induction facts generalizing c with
    | nil => exact hc
    | cons a facts ih =>
      exact ih (fun a ha => h a (.tail _ ha)) _ (sup_mem hc (h a List.mem_cons_self))
  exact hfold .unknown J.unknown_mem

theorem fact_joinAll_mem {Xs : List FactMap} {v : ValueId} (h : ∀ X ∈ Xs, X.fact v ∈ J) :
    (Facts.joinAll Xs).fact v ∈ J := by
  induction Xs with
  | nil => exact J.unknown_mem
  | cons X Xs ih =>
    rw [(Facts.joinAll_cons X Xs v).1]
    exact sup_mem (h X List.mem_cons_self) (ih fun Y hY => h Y (.tail _ hY))

end JoinSet

namespace BlockState

variable {J : JoinSet} {p : Program} {s : BlockState} {v : ValueId} {a : Dep} {d : Derived}

/-- All facts of a block are in the set. -/
structure StaysIn (s : BlockState) (J : JoinSet) : Prop where
  entry : ∀ v, s.entry.fact v ∈ J
  get : ∀ d, s.get d ∈ J

/-- A slot without content gets none in a step. -/
theorem get_raise_of_not_mem (hv : v ∉ s.slots) (d' : Derived) :
    (s.raise p a (.slot v)).get d' = s.get d' := by
  cases d' with
  | slot u =>
    simp only [raise, get]
    rw [Std.ExtTreeMap.getElem?_modify]
    split
    next heq =>
      obtain rfl := Std.LawfulEqOrd.compare_eq_iff_eq.1 heq
      simp [Std.ExtTreeMap.getElem?_eq_none hv]
    next => rfl
  | _ => rfl

theorem StaysIn.raise (h : s.StaysIn J) (ha : a ∈ J) (d : Derived) : (s.raise p a d).StaysIn J := by
  refine ⟨fun v => ?_, fun d' => ?_⟩
  · rw [entry_raise]
    exact h.entry v
  · by_cases hd : ∀ v, d = .slot v → v ∈ s.slots
    · rw [get_raise hd]
      split
      · exact JoinSet.sup_mem (h.get d) ha
      · exact h.get d'
    · push Not at hd
      obtain ⟨v, rfl, hv⟩ := hd
      rw [get_raise_of_not_mem hv]
      exact h.get d'

theorem StaysIn.enter (h : s.StaysIn J) (ha : a ∈ J) : (s.enter v a).StaysIn J := by
  refine ⟨fun u => ?_, fun d => ?_⟩
  · rw [fact_entry_enter]
    split
    · exact JoinSet.sup_mem (h.entry v) ha
    · exact h.entry u
  · rw [get_enter]
    exact h.get d

end BlockState

namespace Revision

variable {J : JoinSet} {p : Program} {r : Revision} {v : ValueId} {a : Dep}

/-- All facts of a revision in progress are in the set. -/
structure StaysIn (r : Revision) (J : JoinSet) : Prop where
  state : r.state.StaysIn J
  pending : ∀ x ∈ r.pending, x.2 ∈ J

namespace StaysIn

theorem joinDerived (h : r.StaysIn J) (ha : a ∈ J) (d : Derived) :
    (r.joinDerived p a d).StaysIn J := by
  refine ⟨state_joinDerived r p a d ▸ h.state.raise ha d, fun x hx => ?_⟩
  rw [pending_joinDerived] at hx
  rcases List.mem_append.1 hx with hx | hx
  · exact h.pending x hx
  · obtain ⟨-, -, -, hx⟩ := mem_news.1 hx
    rw [hx]
    exact JoinSet.sup_mem (h.state.get _) ha

theorem step (h : r.StaysIn J) : (r.step p).StaysIn J := by
  have hfold (ds : List Derived) (r : Revision) (h : r.StaysIn J) {a : Dep} (ha : a ∈ J) :
      (ds.foldl (fun r d => r.joinDerived p a d) r).StaysIn J := by
    induction ds generalizing r with
    | nil => exact h
    | cons d ds ih => exact ih _ (h.joinDerived ha d)
  rw [Revision.step]
  split
  · exact h
  next source fact rest hpending =>
    have hfact : fact ∈ J := h.pending (source, fact) (by simp [hpending])
    refine hfold _ { r with pending := rest, passed := r.passed ++ [source] } ⟨h.state, ?_⟩ hfact
    exact fun x hx => h.pending x (by simp [hpending, hx])

theorem cascade (h : r.StaysIn J) (fuel : Nat) : (Revision.cascade p fuel r).StaysIn J := by
  induction fuel generalizing r with
  | zero => exact h
  | succ fuel ih =>
    rw [Revision.cascade]
    split
    · exact h
    · exact ih h.step

theorem joinEntry (h : r.StaysIn J) (ha : a ∈ J) : (r.joinEntry p v a).StaysIn J := by
  have hstate := h.state.enter (v := v) ha
  rw [joinEntry_eq]
  split
  · refine cascade ⟨state_opened r v a ▸ hstate, fun x hx => ?_⟩ _
    obtain rfl := List.mem_singleton.1 hx
    exact JoinSet.sup_mem (h.state.entry v) ha
  · refine ⟨state_entered r v a ▸ hstate, ?_⟩
    rw [entered]
    split
    · exact h.pending
    · exact h.pending

theorem joinEntries {vs : List (ValueId × Dep)} (h : r.StaysIn J) (hvs : ∀ v ∈ vs, v.2 ∈ J) :
    (vs.foldl (fun r v => r.joinEntry p v.1 v.2) r).StaysIn J := by
  induction vs generalizing r with
  | nil => exact h
  | cons v vs ih =>
    exact ih (h.joinEntry (hvs v List.mem_cons_self)) fun u hu => hvs u (List.mem_cons_of_mem v hu)

end StaysIn

end Revision

end InputFlow
