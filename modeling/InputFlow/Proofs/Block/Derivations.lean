import InputFlow.Block.Derivations
import Mathlib.Data.Finset.Basic
import Mathlib.Tactic.ByContra
import Mathlib.Tactic.SplitIfs

namespace InputFlow.Derivations

variable {D : Derivations} {k k' : ValueId} {d e : Derived}

theorem mem_of : d ∈ D.of k ↔ d ∈ D[k]?.getD ∅ := by
  rw [of]
  cases D[k]? with
  | none => simp
  | some set => simp

@[simp] theorem not_mem_of_empty : d ∉ of ∅ k := by
  simp [mem_of]

theorem getElem?_alter {f : Option (Std.ExtTreeSet Derived compare) →
    Option (Std.ExtTreeSet Derived compare)} :
    (D.alter k f)[k']? = if k = k' then f D[k]? else D[k']? := by
  rw [Std.ExtTreeMap.getElem?_alter]
  simp only [Std.LawfulEqOrd.compare_eq_iff_eq]

@[simp] theorem mem_of_record : d ∈ (D.record k e).of k' ↔ (k' = k ∧ d = e) ∨ d ∈ D.of k' := by
  rw [mem_of, mem_of, record, getElem?_alter]
  by_cases h : k = k'
  · subst h
    simp [Std.ExtTreeSet.mem_insert, eq_comm (a := d)]
  · simp [h, Ne.symm h]

@[simp] theorem mem_of_forget : d ∈ (D.forget k e).of k' ↔ d ∈ D.of k' ∧ ¬ (k' = k ∧ d = e) := by
  rw [mem_of, mem_of, forget, getElem?_alter]
  by_cases h : k = k'
  · subst h
    have hrest : d ∈ (D[k]?.getD ∅).erase e ↔ d ∈ D[k]?.getD ∅ ∧ ¬ d = e := by
      rw [Std.ExtTreeSet.mem_erase, and_comm]
      simp [eq_comm (a := d)]
    simp only [if_true, true_and]
    rw [← hrest]
    split_ifs with hempty
    · have hnone : (D[k]?.getD ∅).erase e = ∅ := by simpa using hempty
      simp [hnone]
    · rfl
  · simp [h, Ne.symm h]

@[simp] theorem mem_of_recordAll {ks : List ValueId} :
    d ∈ (ks.foldl (fun D k => D.record k e) D).of k' ↔ (k' ∈ ks ∧ d = e) ∨ d ∈ D.of k' := by
  induction ks generalizing D with
  | nil => simp
  | cons k ks ih =>
    rw [List.foldl_cons, ih, mem_of_record, List.mem_cons, or_and_right, ← or_assoc]
    exact or_congr_left or_comm

@[simp] theorem mem_of_forgetAll {ks : List ValueId} :
    d ∈ (ks.foldl (fun D k => D.forget k e) D).of k' ↔ d ∈ D.of k' ∧ ¬ (k' ∈ ks ∧ d = e) := by
  induction ks generalizing D with
  | nil => simp
  | cons k ks ih =>
    rw [List.foldl_cons, ih, mem_of_forget, List.mem_cons, or_and_right, not_or, and_assoc]

theorem mem_of_dropAll {ks : List ValueId} (h : d ∈ (ks.foldl (fun D k => D.drop k) D).of k') :
    d ∈ D.of k' := by
  induction ks generalizing D with
  | nil => exact h
  | cons k ks ih =>
    have hd := mem_of.1 (ih h)
    simp only [drop, Std.ExtTreeMap.getElem?_erase] at hd
    split at hd
    · simp at hd
    · exact mem_of.2 hd

inductive Change where
  | record (source : ValueId) (derived : Derived)
  | forget (source : ValueId) (derived : Derived)
  | drop (source : ValueId)
  | clear
deriving DecidableEq, Repr

namespace Change

def apply : Change → Derivations → Derivations
  | record source derived, D => D.record source derived
  | forget source derived, D => D.forget source derived
  | drop source, D => D.drop source
  | clear, _ => empty

/-- What the change means for a relation between sources and what was derived from them. -/
def relate : Change → Finset (ValueId × Derived) → Finset (ValueId × Derived)
  | record source derived, R => insert (source, derived) R
  | forget source derived, R => R.erase (source, derived)
  | drop source, R => R.filter (·.1 ≠ source)
  | clear, _ => ∅

end Change

def after (changes : List Change) : Derivations :=
  changes.foldl (fun D change => change.apply D) empty

def relationAfter (changes : List Change) : Finset (ValueId × Derived) :=
  changes.foldl (fun R change => change.relate R) ∅

/-- The derivations list what the relation holds, and every entry lists something. -/
structure Represents (D : Derivations) (R : Finset (ValueId × Derived)) : Prop where
  mem_iff : ∀ k d, d ∈ D.of k ↔ (k, d) ∈ R
  inhabited : ∀ (k : ValueId) set, D[k]? = some set → ∃ d, d ∈ set

variable {R : Finset (ValueId × Derived)}

@[simp] theorem mem_of_drop {k' : ValueId} : d ∈ (D.drop k).of k' ↔ d ∈ D.of k' ∧ k' ≠ k := by
  rw [mem_of, mem_of, drop, Std.ExtTreeMap.getElem?_erase]
  by_cases h : k = k'
  · simp [h]
  · simp [h, Ne.symm h]

theorem pairwise_of (D : Derivations) (k : ValueId) :
    (D.of k).Pairwise fun a b => compare a b = .lt := by
  rw [of]
  cases D[k]? with
  | none => exact .nil
  | some set => exact Std.ExtTreeSet.ordered_toList

namespace Represents

theorem empty : Represents empty ∅ := by
  constructor
  · intro k d
    simp [Derivations.empty]
  · intro k set h
    simp [Derivations.empty] at h

theorem record (h : D.Represents R) (k : ValueId) (d : Derived) :
    (D.record k d).Represents (insert (k, d) R) := by
  constructor
  · intro k' d'
    rw [mem_of_record, h.mem_iff, Finset.mem_insert, Prod.mk.injEq]
  · intro k' set hset
    rw [Derivations.record, getElem?_alter] at hset
    split at hset
    · obtain rfl := Option.some.inj hset
      exact ⟨d, by simp⟩
    · exact h.inhabited k' set hset

theorem forget (h : D.Represents R) (k : ValueId) (d : Derived) :
    (D.forget k d).Represents (R.erase (k, d)) := by
  constructor
  · intro k' d'
    rw [mem_of_forget, h.mem_iff, Finset.mem_erase, ne_eq, Prod.mk.injEq, and_comm]
  · intro k' set hset
    rw [Derivations.forget, getElem?_alter] at hset
    split at hset
    · -- The entry is kept only if something is left in it.
      dsimp only at hset
      split at hset
      · cases hset
      next hrest =>
        obtain rfl := Option.some.inj hset
        rw [Std.ExtTreeSet.isEmpty_iff, Std.ExtTreeSet.eq_empty_iff_forall_not_mem] at hrest
        exact not_forall_not.1 hrest
    · exact h.inhabited k' set hset

theorem drop (h : D.Represents R) (k : ValueId) :
    (D.drop k).Represents (R.filter (·.1 ≠ k)) := by
  constructor
  · intro k' d'
    rw [mem_of_drop, h.mem_iff, Finset.mem_filter]
  · intro k' set hset
    rw [Derivations.drop, Std.ExtTreeMap.getElem?_erase] at hset
    split at hset
    · cases hset
    · exact h.inhabited k' set hset

/-- A change does to derivations what it does to the relation they stand for. -/
theorem change (h : D.Represents R) (change : Change) :
    (change.apply D).Represents (change.relate R) := by
  cases change with
  | record source derived => exact h.record source derived
  | forget source derived => exact h.forget source derived
  | drop source => exact h.drop source
  | clear => exact Represents.empty

theorem foldl (h : D.Represents R) (changes : List Change) :
    (changes.foldl (fun D change => change.apply D) D).Represents
      (changes.foldl (fun R change => change.relate R) R) := by
  induction changes generalizing D R with
  | nil => exact h
  | cons change changes ih => exact ih (h.change change)

theorem contains_iff (h : D.Represents R) (k : ValueId) : D.contains k ↔ D.of k ≠ [] := by
  rw [contains, Std.ExtTreeMap.contains_eq_isSome_getElem?]
  cases hset : D[k]? with
  | none => simp [of, hset]
  | some set =>
    obtain ⟨d, hd⟩ := h.inhabited k set hset
    have hmem : d ∈ D.of k := by rw [mem_of, hset]; exact hd
    simp [List.ne_nil_of_mem hmem]

theorem isEmpty_iff (h : D.Represents R) : D.isEmpty ↔ R = ∅ := by
  rw [isEmpty, Std.ExtTreeMap.isEmpty_iff, Std.ExtTreeMap.eq_empty_iff_forall_not_mem]
  constructor
  · intro hnone
    rw [Finset.eq_empty_iff_forall_notMem]
    intro x hx
    have hof : D.of x.1 ≠ [] := List.ne_nil_of_mem ((h.mem_iff x.1 x.2).2 hx)
    exact hnone x.1 ((h.contains_iff x.1).2 hof)
  · intro hR k hk
    obtain ⟨d, hd⟩ := List.exists_mem_of_ne_nil _ ((h.contains_iff k).1 hk)
    have hmem := (h.mem_iff k d).1 hd
    simp [hR] at hmem

end Represents

/-- After any changes the derivations are those of the relation that the changes make. -/
theorem changes_follow_relation (changes : List Change) :
    (∀ k, ((after changes).of k).Pairwise fun a b => compare a b = .lt) ∧
    (∀ k d, d ∈ (after changes).of k ↔ (k, d) ∈ relationAfter changes) ∧
    (∀ k, (after changes).contains k ↔ (after changes).of k ≠ []) ∧
    ((after changes).isEmpty ↔ relationAfter changes = ∅) := by
  have h : (after changes).Represents (relationAfter changes) := Represents.empty.foldl changes
  exact ⟨pairwise_of _, h.mem_iff, h.contains_iff, h.isEmpty_iff⟩

end InputFlow.Derivations
