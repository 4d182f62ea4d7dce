import InputFlow.Fact
import InputFlow.Proofs.Fact

namespace InputFlow.Facts

variable {κ : Type} [Ord κ] [Std.TransOrd κ]

/-- Every fact of the first map is below that of the second. -/
def Below (m n : Facts κ) : Prop :=
  ∀ k, m.fact k ≤ n.fact k

/-- The two maps have the same facts, where unknown counts as independent. -/
def Agree (m n : Facts κ) : Prop :=
  ∀ k, (m.fact k).settle = (n.fact k).settle

theorem Below.refl (m : Facts κ) : m.Below m :=
  fun _ => le_refl _

theorem fact_eq (m : Facts κ) (k : κ) : m.fact k = m[k]?.getD .unknown :=
  Std.ExtTreeMap.getD_eq_getD_getElem?

theorem fact_of_some {m : Facts κ} {k : κ} {a : Dep} (h : m[k]? = some a) : m.fact k = a := by
  rw [fact_eq, h]
  rfl

theorem fact_of_not_mem {m : Facts κ} {k : κ} (h : k ∉ m) : m.fact k = .unknown :=
  Std.ExtTreeMap.getD_eq_fallback h

theorem mem_of_fact_ne {m : Facts κ} {k : κ} (h : m.fact k ≠ .unknown) : k ∈ m := by
  by_contra hk
  exact h (fact_of_not_mem hk)

theorem mem_of_some {m : Facts κ} {k : κ} {a : Dep} (h : m[k]? = some a) : k ∈ m :=
  Std.ExtTreeMap.mem_iff_isSome_getElem?.2 (by simp [h])

theorem getElem?_of_mem {m : Facts κ} {k : κ} (h : k ∈ m) : m[k]? = some (m.fact k) :=
  Std.ExtTreeMap.getElem?_eq_some_getD h

@[simp] theorem fact_empty (k : κ) : (∅ : Facts κ).fact k = .unknown :=
  Std.ExtTreeMap.getD_empty

theorem mem_join {m n : Facts κ} {k : κ} : k ∈ m.join n ↔ k ∈ m ∨ k ∈ n := by
  rw [join, Std.ExtTreeMap.mem_union_iff]
  simp

theorem getElem?_orElse (m other : Facts κ) (k : κ) : (m.orElse other)[k]? = m[k]?.or other[k]? :=
  Std.ExtTreeMap.getElem?_union

theorem fact_orElse_of_mem {m : Facts κ} {k : κ} (h : k ∈ m) (other : Facts κ) :
    (m.orElse other).fact k = m.fact k := by
  rw [fact_eq, getElem?_orElse, getElem?_of_mem h]
  rfl

theorem fact_orElse_of_not_mem {m : Facts κ} {k : κ} (h : k ∉ m) (other : Facts κ) :
    (m.orElse other).fact k = other.fact k := by
  rw [fact_eq, getElem?_orElse, Std.ExtTreeMap.getElem?_eq_none h, Option.none_or, ← fact_eq]

theorem mem_orElse {m other : Facts κ} {k : κ} : k ∈ m.orElse other ↔ k ∈ m ∨ k ∈ other := by
  rw [orElse, Std.ExtTreeMap.mem_union_iff]
  exact or_comm

theorem mem_settle {m : Facts κ} {k : κ} : k ∈ m.settle ↔ k ∈ m := by
  simp [settle]

variable [Std.LawfulEqOrd κ]

theorem mem_insert {m : Facts κ} {k k' : κ} {a : Dep} : k' ∈ m.insert k a ↔ k = k' ∨ k' ∈ m := by
  rw [Std.ExtTreeMap.mem_insert, Std.LawfulEqOrd.compare_eq_iff_eq]

theorem mem_joinAt {m : Facts κ} {k k' : κ} {a : Dep} : k' ∈ m.joinAt k a ↔ k = k' ∨ k' ∈ m :=
  mem_insert

theorem getElem?_join (m n : Facts κ) (k : κ) :
    (m.join n)[k]? = (n[k]?.map fun a => m.fact k ⊔ a).or m[k]? := by
  have h : (n.map fun k a => (m.fact k).join a)[k]? = n[k]?.map fun a => m.fact k ⊔ a := by
    rw [Std.ExtTreeMap.getElem?_map]
    cases n[k]? <;> rfl
  rw [join, Std.ExtTreeMap.getElem?_union, h]

theorem fact_join (m n : Facts κ) (k : κ) : (m.join n).fact k = m.fact k ⊔ n.fact k := by
  rw [fact_eq, getElem?_join, fact_eq n]
  cases h : n[k]? with
  | none =>
    rw [Option.map_none, Option.none_or, ← fact_eq]
    exact (Fact.sup_unknown _).symm
  | some a => rfl

theorem joinAll_cons (m : Facts κ) (ms : List (Facts κ)) (k : κ) :
    (joinAll (m :: ms)).fact k = m.fact k ⊔ (joinAll ms).fact k ∧
      (k ∈ joinAll (m :: ms) ↔ k ∈ m ∨ k ∈ joinAll ms) := by
  have h (ms : List (Facts κ)) (n : Facts κ) :
      (ms.foldl join n).fact k = n.fact k ⊔ (joinAll ms).fact k ∧
        (k ∈ ms.foldl join n ↔ k ∈ n ∨ k ∈ joinAll ms) := by
    induction ms generalizing n with
    | nil => simp [joinAll]
    | cons m ms ih =>
      obtain ⟨h₁, h₂⟩ := ih (n.join m)
      obtain ⟨h₃, h₄⟩ := ih (join ∅ m)
      simp only [joinAll, List.foldl_cons] at h₃ h₄ ⊢
      rw [h₁, h₂, h₃, h₄]
      simp [fact_join, mem_join, joinAll, sup_assoc, or_assoc]
  obtain ⟨h₁, h₂⟩ := h ms (join ∅ m)
  simp only [fact_join, mem_join, fact_empty, Fact.unknown_sup, Std.ExtTreeMap.not_mem_empty,
    false_or] at h₁ h₂
  exact ⟨h₁, h₂⟩

theorem mem_joinAll {ms : List (Facts κ)} {k : κ} : k ∈ joinAll ms ↔ ∃ m ∈ ms, k ∈ m := by
  induction ms with
  | nil => simp [joinAll]
  | cons m ms ih => simp [(joinAll_cons m ms k).2, ih]

theorem joinAll_le_iff {ms : List (Facts κ)} {k : κ} {a : Dep} :
    (joinAll ms).fact k ≤ a ↔ ∀ m ∈ ms, m.fact k ≤ a := by
  induction ms with
  | nil => simp [joinAll, Fact.unknown_le]
  | cons m ms ih => simp [(joinAll_cons m ms k).1, ih]

theorem le_joinAll {ms : List (Facts κ)} {m : Facts κ} (h : m ∈ ms) (k : κ) :
    m.fact k ≤ (joinAll ms).fact k :=
  joinAll_le_iff.1 (le_refl _) m h

/-- Two maps with the same keys and the same facts are equal. -/
theorem eq_of_fact_eq {m n : Facts κ} (hmem : ∀ k, k ∈ m ↔ k ∈ n) (h : ∀ k, m.fact k = n.fact k) :
    m = n := by
  apply Std.ExtTreeMap.ext_getElem?
  intro k
  by_cases hk : k ∈ m
  · rw [getElem?_of_mem hk, getElem?_of_mem ((hmem k).1 hk), h]
  · rw [Std.ExtTreeMap.getElem?_eq_none hk,
      Std.ExtTreeMap.getElem?_eq_none fun hn => hk ((hmem k).2 hn)]

theorem join_right_comm (m n o : Facts κ) : (m.join n).join o = (m.join o).join n :=
  eq_of_fact_eq (fun k => by simp only [mem_join, or_right_comm])
    fun k => by simp only [fact_join, sup_right_comm]

theorem join_assoc (m n o : Facts κ) : (m.join n).join o = m.join (n.join o) :=
  eq_of_fact_eq (fun k => by simp only [mem_join, or_assoc]) fun k => by simp only [fact_join, sup_assoc]

theorem join_self (m : Facts κ) : m.join m = m :=
  eq_of_fact_eq (fun k => by simp only [mem_join, or_self]) fun k => by simp only [fact_join, sup_idem]

theorem joinAll_append (ms ns : List (Facts κ)) :
    joinAll (ms ++ ns) = (joinAll ms).join (joinAll ns) := by
  apply eq_of_fact_eq
  · intro k
    simp only [mem_joinAll, mem_join, List.mem_append, or_and_right, exists_or]
  · intro k
    apply eq_of_forall_ge_iff
    intro a
    simp only [joinAll_le_iff, fact_join, sup_le_iff, List.mem_append, or_imp, forall_and]

theorem mem_foldl_joinAt {l : List (κ × Dep)} {m : Facts κ} {k : κ} :
    k ∈ l.foldl (fun m x => joinAt m x.1 x.2) m ↔ k ∈ m ∨ ∃ x ∈ l, x.1 = k := by
  induction l generalizing m with
  | nil => simp
  | cons x l ih =>
    rw [List.foldl_cons, ih, mem_joinAt]
    simp [or_assoc, or_left_comm]

theorem orElse_eq_left {m other : Facts κ} (h : ∀ k ∈ other, k ∈ m) : m.orElse other = m :=
  eq_of_fact_eq (fun k => mem_orElse.trans (or_iff_left_of_imp (h k))) fun k => by
    by_cases hk : k ∈ m
    · exact fact_orElse_of_mem hk other
    · rw [fact_orElse_of_not_mem hk, fact_of_not_mem hk, fact_of_not_mem fun ho => hk (h k ho)]

theorem getElem?_settle (m : Facts κ) (k : κ) : m.settle[k]? = m[k]?.map Fact.settle := by
  rw [settle, Std.ExtTreeMap.getElem?_map]

theorem fact_map (m : Facts κ) (g : κ → Dep → Dep) (k : κ) :
    fact (m.map g) k = if k ∈ m then g k (m.fact k) else .unknown := by
  rw [fact_eq, Std.ExtTreeMap.getElem?_map]
  split
  · rw [getElem?_of_mem ‹_›]
    rfl
  · rw [Std.ExtTreeMap.getElem?_eq_none ‹_›]
    rfl

/-- Settling a map changes no fact but those that are unknown. -/
theorem settle_fact_settle (m : Facts κ) (k : κ) : (m.settle.fact k).settle = (m.fact k).settle := by
  rw [fact_eq, fact_eq, getElem?_settle]
  cases m[k]? with
  | none => rfl
  | some a => exact Fact.settle_settle a

theorem fact_settle_of_mem {m : Facts κ} {k : κ} (h : k ∈ m) :
    m.settle.fact k = (m.fact k).settle := by
  rw [fact_eq, getElem?_settle, getElem?_of_mem h]
  rfl

theorem settle_eq_iff {m n : Facts κ} :
    m.settle = n.settle ↔ (∀ k, k ∈ m ↔ k ∈ n) ∧ m.Agree n := by
  constructor
  · intro h
    refine ⟨fun k => ?_, fun k => ?_⟩
    · rw [← mem_settle, h, mem_settle]
    · rw [← settle_fact_settle, h, settle_fact_settle]
  · rintro ⟨hmem, hagree⟩
    refine Std.ExtTreeMap.ext_getElem? fun k => ?_
    rw [getElem?_settle, getElem?_settle]
    by_cases hk : k ∈ m
    · rw [getElem?_of_mem hk, getElem?_of_mem ((hmem k).1 hk)]
      exact congrArg some (hagree k)
    · rw [Std.ExtTreeMap.getElem?_eq_none hk, Std.ExtTreeMap.getElem?_eq_none fun h => hk ((hmem k).2 h)]

/-- The join of maps depends only on what they are when settled. -/
theorem settle_joinAll_congr {ms ns : List (Facts κ)} (h : ∀ m ∈ ms, ∃ n ∈ ns, m.settle = n.settle)
    (h' : ∀ n ∈ ns, ∃ m ∈ ms, n.settle = m.settle) : (joinAll ms).settle = (joinAll ns).settle := by
  have hle {ms ns : List (Facts κ)} (h : ∀ m ∈ ms, ∃ n ∈ ns, m.settle = n.settle) (k : κ) :
      (k ∈ joinAll ms → k ∈ joinAll ns) ∧ (joinAll ms).fact k ≤ ((joinAll ns).fact k).settle := by
    refine ⟨fun hk => ?_, joinAll_le_iff.2 fun m hm => ?_⟩
    · obtain ⟨m, hm, hk⟩ := mem_joinAll.1 hk
      obtain ⟨n, hn, heq⟩ := h m hm
      exact mem_joinAll.2 ⟨n, hn, ((settle_eq_iff.1 heq).1 k).1 hk⟩
    · obtain ⟨n, hn, heq⟩ := h m hm
      calc m.fact k ≤ (m.fact k).settle := Fact.le_settle _
        _ = (n.fact k).settle := (settle_eq_iff.1 heq).2 k
        _ ≤ ((joinAll ns).fact k).settle := Fact.settle_mono (le_joinAll hn k)
  refine settle_eq_iff.2 ⟨fun k => ⟨(hle h k).1, (hle h' k).1⟩, fun k => ?_⟩
  exact le_antisymm (Fact.settle_le_settle.2 (hle h k).2) (Fact.settle_le_settle.2 (hle h' k).2)

variable [DecidableEq κ]

theorem getElem?_insert (m : Facts κ) (k k' : κ) (a : Dep) :
    (m.insert k a)[k']? = if k = k' then some a else m[k']? := by
  rw [Std.ExtTreeMap.getElem?_insert]
  simp only [Std.LawfulEqOrd.compare_eq_iff_eq]

theorem fact_insert (m : Facts κ) (k k' : κ) (a : Dep) :
    fact (m.insert k a) k' = if k = k' then a else m.fact k' := by
  rw [fact_eq, fact_eq, getElem?_insert]
  split_ifs <;> rfl

theorem fact_joinAt (m : Facts κ) (k k' : κ) (a : Dep) :
    (m.joinAt k a).fact k' = if k = k' then m.fact k ⊔ a else m.fact k' :=
  fact_insert m k k' _

theorem joinAt_of_le {m : Facts κ} {k : κ} {a : Dep} (hk : k ∈ m) (h : a ≤ m.fact k) :
    m.joinAt k a = m := by
  apply eq_of_fact_eq
  · intro k'
    rw [mem_joinAt]
    exact or_iff_right_of_imp fun heq => heq ▸ hk
  · intro k'
    rw [fact_joinAt, sup_eq_left.2 h]
    split
    next heq => rw [heq]
    next => rfl

theorem foldl_joinAt_le_iff {l : List (κ × Dep)} {m : Facts κ} {k : κ} {a : Dep} :
    (l.foldl (fun m x => joinAt m x.1 x.2) m).fact k ≤ a ↔
      m.fact k ≤ a ∧ ∀ x ∈ l, x.1 = k → x.2 ≤ a := by
  induction l generalizing m with
  | nil => simp
  | cons x l ih =>
    rw [List.foldl_cons, ih, fact_joinAt]
    by_cases hx : x.1 = k
    · simp [hx, and_assoc]
    · simp [hx]

/-- Joining the facts of a map one by one gives the join of the maps. -/
theorem foldl_joinAt_toList (m n : Facts κ) :
    n.toList.foldl (fun m x => joinAt m x.1 x.2) m = m.join n := by
  apply eq_of_fact_eq
  · intro k
    rw [mem_foldl_joinAt, mem_join]
    apply or_congr_right
    constructor
    · rintro ⟨x, hx, rfl⟩
      exact mem_of_some (Std.ExtTreeMap.mem_toList_iff_getElem?_eq_some.1 hx)
    · intro hk
      exact ⟨(k, n.fact k), Std.ExtTreeMap.mem_toList_iff_getElem?_eq_some.2 (getElem?_of_mem hk), rfl⟩
  · intro k
    apply eq_of_forall_ge_iff
    intro a
    rw [foldl_joinAt_le_iff, fact_join, sup_le_iff]
    apply and_congr_right
    intro _
    constructor
    · intro h
      by_cases hk : k ∈ n
      · exact h (k, n.fact k)
          (Std.ExtTreeMap.mem_toList_iff_getElem?_eq_some.2 (getElem?_of_mem hk)) rfl
      · rw [fact_of_not_mem hk]
        exact Fact.unknown_le a
    · rintro h x hx rfl
      rwa [← fact_of_some (Std.ExtTreeMap.mem_toList_iff_getElem?_eq_some.1 hx)]

end InputFlow.Facts
