import InputFlow.Fact
import Mathlib.Order.BoundedOrder.Lattice
import Mathlib.Tactic.ByContra
import Mathlib.Tactic.SplitIfs

namespace InputFlow.Fact

variable {α : Type} [Ord α]

theorem independent_ne_unknown : (independent : Fact α) ≠ unknown := by
  rintro ⟨⟩

theorem dependent_ne_unknown (s : Sources α) : (dependent s : Fact α) ≠ unknown := by
  rintro ⟨⟩

theorem isUnknown_iff {a : Fact α} : a.isUnknown = true ↔ a = unknown := by
  cases a <;> simp [isUnknown, level]

@[simp] theorem settle_settle (a : Fact α) : a.settle.settle = a.settle := by
  cases a <;> rfl

theorem settle_ne_unknown (a : Fact α) : a.settle ≠ unknown := by
  cases a <;> simp [settle]

theorem isDependent_settle (a : Fact α) : a.settle.isDependent = a.isDependent := by
  cases a <;> rfl

theorem settle_of_ne_unknown {a : Fact α} (h : a ≠ unknown) : a.settle = a := by
  cases a with
  | unknown => exact absurd rfl h
  | independent => rfl
  | dependent s => rfl

theorem eq_of_settle_eq {a b : Fact α} (ha : a ≠ unknown) (hb : b ≠ unknown)
    (h : a.settle = b.settle) : a = b := by
  rwa [settle_of_ne_unknown ha, settle_of_ne_unknown hb] at h

variable [Std.TransOrd α]

theorem unknown_le (a : Fact α) : unknown ≤ a := by
  cases a <;> rfl

theorem le_unknown {a : Fact α} : a ≤ unknown ↔ a = unknown := by
  cases a <;> simp [LE.le, below]

theorem independent_le {a : Fact α} : independent ≤ a ↔ a ≠ unknown := by
  cases a <;> simp [LE.le, below]

theorem not_dependent_le_independent {s : Sources α} :
    ¬ (dependent s : Fact α) ≤ independent := by
  simp [LE.le, below]

variable [Std.LawfulEqOrd α]

theorem dependent_le_dependent {s t : Sources α} :
    (dependent s : Fact α) ≤ dependent t ↔ ∀ x ∈ s, x ∈ t := by
  change (s.toList.all fun x => t.contains x) = true ↔ _
  simp [List.all_eq_true]

instance : PartialOrder (Fact α) where
  le_refl a := by
    cases a with
    | unknown => rfl
    | independent => rfl
    | dependent s => exact dependent_le_dependent.2 fun x h => h
  le_trans a b c hab hbc := by
    cases a with
    | unknown => exact unknown_le c
    | independent =>
      refine independent_le.2 fun hc => ?_
      subst hc
      rw [le_unknown.1 hbc] at hab
      exact independent_le.1 hab rfl
    | dependent s =>
      cases b with
      | unknown => simp [LE.le, below] at hab
      | independent => simp [LE.le, below] at hab
      | dependent t =>
        cases c with
        | unknown => simp [LE.le, below] at hbc
        | independent => simp [LE.le, below] at hbc
        | dependent u =>
          exact dependent_le_dependent.2 fun x h =>
            dependent_le_dependent.1 hbc x (dependent_le_dependent.1 hab x h)
  le_antisymm a b hab hba := by
    cases a with
    | unknown => exact (le_unknown.1 hba).symm
    | independent =>
      cases b with
      | unknown => exact absurd rfl (independent_le.1 hab)
      | independent => rfl
      | dependent t => exact absurd hba not_dependent_le_independent
    | dependent s =>
      cases b with
      | unknown => exact le_unknown.1 hab
      | independent => exact absurd hab not_dependent_le_independent
      | dependent t =>
        have h : s = t := Std.ExtTreeSet.ext_mem fun x =>
          ⟨dependent_le_dependent.1 hab x, dependent_le_dependent.1 hba x⟩
        rw [h]

/-- The greatest fact below both. -/
def meet : Fact α → Fact α → Fact α
  | unknown, _ => unknown
  | _, unknown => unknown
  | independent, _ => independent
  | _, independent => independent
  | dependent s, dependent t => dependent (s ∩ t)

instance : Lattice (Fact α) where
  sup := join
  le_sup_left a b := by
    cases a <;> cases b <;> first
      | exact unknown_le _
      | exact independent_le.2 (by simp [join])
      | exact le_refl _
      | exact dependent_le_dependent.2 fun x h => Std.ExtTreeSet.mem_union_iff.2 (Or.inl h)
  le_sup_right a b := by
    cases a <;> cases b <;> first
      | exact unknown_le _
      | exact independent_le.2 (by simp [join])
      | exact le_refl _
      | exact dependent_le_dependent.2 fun x h => Std.ExtTreeSet.mem_union_iff.2 (Or.inr h)
  sup_le a b c hac hbc := by
    cases a <;> cases b <;> first
      | exact hac
      | exact hbc
      | skip
    rename_i s t
    cases c with
    | unknown => exact absurd (le_unknown.1 hac) (by simp)
    | independent => exact absurd hac not_dependent_le_independent
    | dependent u =>
      refine dependent_le_dependent.2 fun x h => ?_
      rcases Std.ExtTreeSet.mem_union_iff.1 h with h | h
      · exact dependent_le_dependent.1 hac x h
      · exact dependent_le_dependent.1 hbc x h
  inf := meet
  inf_le_left a b := by
    cases a <;> cases b <;> first
      | exact unknown_le _
      | exact independent_le.2 (by simp)
      | exact dependent_le_dependent.2 fun x h => (Std.ExtTreeSet.mem_inter_iff.1 h).1
  inf_le_right a b := by
    cases a <;> cases b <;> first
      | exact unknown_le _
      | exact independent_le.2 (by simp)
      | exact dependent_le_dependent.2 fun x h => (Std.ExtTreeSet.mem_inter_iff.1 h).2
  le_inf a b c hab hac := by
    cases b <;> cases c <;> first
      | exact hab
      | exact hac
      | skip
    rename_i s t
    cases a with
    | unknown => exact unknown_le _
    | independent => exact independent_le.2 (by simp [meet])
    | dependent u =>
      exact dependent_le_dependent.2 fun x h => Std.ExtTreeSet.mem_inter_iff.2
        ⟨dependent_le_dependent.1 hab x h, dependent_le_dependent.1 hac x h⟩

instance : OrderBot (Fact α) where
  bot := unknown
  bot_le := unknown_le

@[simp] theorem join_eq_sup (a b : Fact α) : a.join b = a ⊔ b := rfl

@[simp] theorem unknown_sup (a : Fact α) : unknown ⊔ a = a := bot_sup_eq a

@[simp] theorem sup_unknown (a : Fact α) : a ⊔ unknown = a := sup_bot_eq a

theorem settle_eq_sup (a : Fact α) : a.settle = a ⊔ independent := by
  cases a <;> rfl

theorem settle_sup (a b : Fact α) : (a ⊔ b).settle = a.settle ⊔ b.settle := by
  rw [settle_eq_sup, settle_eq_sup, settle_eq_sup]
  exact sup_sup_distrib_right a b independent

theorem le_settle (a : Fact α) : a ≤ a.settle := by
  rw [settle_eq_sup]
  exact le_sup_left

theorem settle_mono {a b : Fact α} (h : a ≤ b) : a.settle ≤ b.settle := by
  rw [settle_eq_sup, settle_eq_sup]
  exact sup_le_sup_right h independent

/-- Comparing facts up to what is still unknown needs to settle the upper one only. -/
theorem settle_le_settle {a b : Fact α} : a.settle ≤ b.settle ↔ a ≤ b.settle :=
  ⟨fun h => (le_settle a).trans h, fun h => settle_settle b ▸ settle_mono h⟩

theorem independent_le_settle (a : Fact α) : independent ≤ a.settle := by
  rw [settle_eq_sup]
  exact le_sup_right

theorem joinAll_le_iff {facts : List (Fact α)} {a : Fact α} :
    joinAll facts ≤ a ↔ ∀ b ∈ facts, b ≤ a := by
  have hfold (c : Fact α) : facts.foldl join c ≤ a ↔ c ≤ a ∧ ∀ b ∈ facts, b ≤ a := by
    induction facts generalizing c with
    | nil => simp
    | cons b facts ih =>
      rw [List.foldl_cons, ih, join_eq_sup, sup_le_iff, List.forall_mem_cons]
      exact and_assoc
  exact (hfold unknown).trans (and_iff_right (unknown_le a))

/-- The join of listed facts depends only on which facts are listed. -/
theorem joinAll_congr {facts facts' : List (Fact α)} (h : ∀ a, a ∈ facts ↔ a ∈ facts') :
    joinAll facts = joinAll facts' := by
  -- the lists have the same upper bounds
  apply eq_of_forall_ge_iff
  intro a
  rw [joinAll_le_iff, joinAll_le_iff]
  simp only [h]

/-- The join of facts depends only on what they are when settled. -/
theorem settle_joinAll_congr {facts facts' : List (Fact α)}
    (h : ∀ a ∈ facts, ∃ b ∈ facts', a.settle = b.settle)
    (h' : ∀ b ∈ facts', ∃ a ∈ facts, b.settle = a.settle) :
    (joinAll facts).settle = (joinAll facts').settle := by
  have hle {facts facts' : List (Fact α)} (h : ∀ a ∈ facts, ∃ b ∈ facts', a.settle = b.settle) :
      joinAll facts ≤ (joinAll facts').settle := by
    refine joinAll_le_iff.2 fun a ha => ?_
    obtain ⟨b, hb, hab⟩ := h a ha
    calc a ≤ a.settle := le_settle a
      _ = b.settle := hab
      _ ≤ (joinAll facts').settle := settle_mono (joinAll_le_iff.1 (le_refl _) b hb)
  exact le_antisymm (settle_le_settle.2 (hle h)) (settle_le_settle.2 (hle h'))

theorem size_union_ne {s t : Sources α} :
    (s ∪ t).size ≠ s.size ↔ ∃ x ∈ t, x ∉ s := by
  constructor
  · intro h
    by_contra hn
    have hs : s ∪ t = s := by
      refine Std.ExtTreeSet.ext_mem fun x => ?_
      rw [Std.ExtTreeSet.mem_union_iff]
      refine ⟨fun hx => hx.elim id fun ht => ?_, Or.inl⟩
      by_contra hx
      exact hn ⟨x, ht, hx⟩
    exact h (by rw [hs])
  · rintro ⟨x, ht, hx⟩ h
    have hu : s ∪ t = s.insert x ∪ t := by
      refine Std.ExtTreeSet.ext_mem fun y => ?_
      simp only [Std.ExtTreeSet.mem_union_iff, Std.ExtTreeSet.mem_insert,
        Std.LawfulEqOrd.compare_eq_iff_eq]
      refine ⟨fun hy => hy.elim (fun h => Or.inl (Or.inr h)) Or.inr, ?_⟩
      rintro ((rfl | h) | h)
      · exact Or.inr ht
      · exact Or.inl h
      · exact Or.inr h
    have hi : (s.insert x).size = s.size + 1 := by
      simp [Std.ExtTreeSet.size_insert, hx]
    have hle : (s.insert x).size ≤ (s.insert x ∪ t).size := Std.ExtTreeSet.size_left_le_size_union
    rw [← hu, h] at hle
    omega

/-- A fact grows exactly when what is joined into it is not below it. -/
theorem grows_iff {a b : Fact α} : a.grows b = true ↔ ¬ b ≤ a := by
  cases b with
  | unknown => simp [grows, unknown_le]
  | independent =>
    cases a <;> simp [grows, LE.le, below]
  | dependent t =>
    cases a with
    | unknown => simp [grows, LE.le, below]
    | independent => simp [grows, not_dependent_le_independent]
    | dependent s =>
      rw [dependent_le_dependent]
      simp only [grows, bne_iff_ne, size_union_ne, not_forall, exists_prop]

/-- A fact is said to grow exactly when joining changes it. -/
theorem grows_iff_sup_ne {a b : Fact α} : a.grows b = true ↔ a ⊔ b ≠ a := by
  rw [grows_iff, ne_eq, sup_eq_left]

theorem sup_eq_of_not_grows {a b : Fact α} (h : a.grows b = false) : a ⊔ b = a := by
  refine sup_eq_left.2 ?_
  by_contra hb
  simp [grows_iff.2 hb] at h

/-- The number of facts strictly below a fact on a longest way up. -/
def height : Fact α → Nat
  | unknown => 0
  | independent => 1
  | dependent s => s.size + 2

theorem size_mono {s t : Sources α} (h : ∀ x ∈ s, x ∈ t) : s.size ≤ t.size := by
  have hu : s ∪ t = t := Std.ExtTreeSet.ext_mem fun x => by
    rw [Std.ExtTreeSet.mem_union_iff]
    exact ⟨fun hx => hx.elim (h x) id, Or.inr⟩
  rw [← hu]
  exact Std.ExtTreeSet.size_left_le_size_union

theorem height_mono {a b : Fact α} (h : a ≤ b) : a.height ≤ b.height := by
  cases a with
  | unknown => exact Nat.zero_le _
  | independent =>
    cases b with
    | unknown => exact absurd rfl (independent_le.1 h)
    | independent => exact le_refl _
    | dependent t => simp [height]
  | dependent s =>
    cases b with
    | unknown => exact absurd (le_unknown.1 h) (by simp)
    | independent => exact absurd h not_dependent_le_independent
    | dependent t =>
      have hs := size_mono (dependent_le_dependent.1 h)
      simp only [height]
      omega

theorem height_lt {a b : Fact α} (h : a < b) : a.height < b.height := by
  obtain ⟨hab, hba⟩ := lt_iff_le_not_ge.1 h
  cases a with
  | unknown =>
    cases b with
    | unknown => exact absurd (le_refl _) hba
    | independent => simp [height]
    | dependent t => simp [height]
  | independent =>
    cases b with
    | unknown => exact absurd rfl (independent_le.1 hab)
    | independent => exact absurd (le_refl _) hba
    | dependent t => simp [height]
  | dependent s =>
    cases b with
    | unknown => exact absurd (le_unknown.1 hab) (by simp)
    | independent => exact absurd hab not_dependent_le_independent
    | dependent t =>
      have hs := size_mono (dependent_le_dependent.1 hab)
      have hne : (s ∪ t).size ≠ s.size := size_union_ne.2 (by
        by_contra hn
        refine hba (dependent_le_dependent.2 fun x hx => ?_)
        by_contra hx'
        exact hn ⟨x, hx, hx'⟩)
      have hu : s ∪ t = t := Std.ExtTreeSet.ext_mem fun x => by
        rw [Std.ExtTreeSet.mem_union_iff]
        exact ⟨fun hx => hx.elim (dependent_le_dependent.1 hab x) id, Or.inr⟩
      rw [hu] at hne
      simp only [height]
      omega

/-- Facts with sources of a type form a join semilattice under the operations that are run, and a
report of growth is exact. -/
structure JoinLaws (α : Type) [Ord α] [Std.TransOrd α] : Prop where
  below_refl : ∀ a : Fact α, a.below a
  below_trans : ∀ a b c : Fact α, a.below b → b.below c → a.below c
  below_antisymm : ∀ a b : Fact α, a.below b → b.below a → a = b
  below_join_left : ∀ a b : Fact α, a.below (a.join b)
  below_join_right : ∀ a b : Fact α, b.below (a.join b)
  join_below : ∀ a b c : Fact α, a.below c → b.below c → (a.join b).below c
  join_comm : ∀ a b : Fact α, a.join b = b.join a
  join_assoc : ∀ a b c : Fact α, (a.join b).join c = a.join (b.join c)
  join_self : ∀ a : Fact α, a.join a = a
  unknown_join : ∀ a : Fact α, unknown.join a = a
  join_unknown : ∀ a : Fact α, a.join unknown = a
  grows_iff : ∀ a b : Fact α, a.grows b ↔ a.join b ≠ a
  joinAll_congr : ∀ facts facts' : List (Fact α),
    (∀ a, a ∈ facts ↔ a ∈ facts') → joinAll facts = joinAll facts'
  settle_eq : ∀ a : Fact α, a.settle = a.join independent
  settle_join : ∀ a b : Fact α, (a.join b).settle = a.settle.join b.settle

/-- The laws hold whatever the sources are, if their order tells them apart. -/
theorem facts_form_join_semilattice : JoinLaws α where
  below_refl a := show a ≤ a from le_refl a
  below_trans a b c (hab : a ≤ b) (hbc : b ≤ c) := show a ≤ c from le_trans hab hbc
  below_antisymm a b (hab : a ≤ b) (hba : b ≤ a) := le_antisymm hab hba
  below_join_left a b := show a ≤ a ⊔ b from le_sup_left
  below_join_right a b := show b ≤ a ⊔ b from le_sup_right
  join_below a b c (ha : a ≤ c) (hb : b ≤ c) := show a ⊔ b ≤ c from sup_le ha hb
  join_comm := sup_comm
  join_assoc := sup_assoc
  join_self := sup_idem
  unknown_join := unknown_sup
  join_unknown := sup_unknown
  grows_iff _ _ := grows_iff_sup_ne
  joinAll_congr _ _ := joinAll_congr
  settle_eq := settle_eq_sup
  settle_join := settle_sup

/-- Numbers as sources: a join collects them once each, and only new ones are reported. -/
theorem numbered_facts_form_join_semilattice :
    joinAll [on 3, onAll [1, 3], independent, on 2] = onAll [1, 2, 3] ∧
    (onAll [1, 3]).grows (on 2) ∧ ¬ (onAll [1, 3]).grows (on 3) ∧ JoinLaws Nat :=
  ⟨by decide, by decide, by decide, facts_form_join_semilattice⟩

end InputFlow.Fact
