import InputFlow.Proofs.Block.Origins

namespace InputFlow

/-- The value that a pointer cannot be traced beyond. -/
def Pointer.root : Pointer → ValueId
  | slot s _ => s
  | param root => root
  | untraced root => root

namespace Program

variable {p : Program} {v root root' s : ValueId} {whole : Bool}

/-- The first value is derived from the second by a chain of element addresses. -/
inductive RootedAt (p : Program) : ValueId → ValueId → Prop
  | self (v : ValueId) : RootedAt p v v
  | element {v base root : ValueId} {indices : List ValueId}
    (hv : p.definition? v = some (.inst (.gep base indices))) (h : RootedAt p base root) :
    RootedAt p v root

def IsRoot (p : Program) (v : ValueId) : Prop :=
  ∀ base indices, p.definition? v ≠ some (.inst (.gep base indices))

/-- A chain has one end. -/
theorem RootedAt.unique (h : p.RootedAt v root) (h' : p.RootedAt v root') (hr : p.IsRoot root)
    (hr' : p.IsRoot root') : root = root' := by
  induction h with
  | self v =>
    cases h' with
    | self => rfl
    | element hv _ => exact absurd hv (hr _ _)
  | element hv _ ih =>
    cases h' with
    | self => exact absurd hv (hr' _ _)
    | element hv' h' =>
      cases Option.some.inj (hv.symm.trans hv')
      exact ih h' hr

theorem isRoot_of_isStorage (h : p.isStorage v) : p.IsRoot v := by
  intro base indices hd
  simp [isStorage, role, isAlloca, hd] at h

theorem isRoot_of_argument (h : p.role v = .argument) : p.IsRoot v := by
  intro base indices hd
  simp [role, hd] at h

theorem not_isStorage_of_argument (h : p.role v = .argument) : ¬ p.isStorage v := by
  rw [role] at h
  rw [isStorage, role, isAlloca]
  split at h <;> simp_all

/-- What a pointer that was traced tells of its root. -/
structure Traced (p : Program) (v : ValueId) (whole : Bool) (P : Pointer) : Prop where
  rootedAt : p.RootedAt v P.root
  isRoot : p.IsRoot P.root
  slot : ∀ s w, P = .slot s w → p.isStorage s ∧ (w ↔ whole ∧ v = s)
  param : ∀ a, P = .param a → p.role a = .argument
  untraced : ∀ u, P = .untraced u → ¬ p.isStorage u ∧ p.role u ≠ .argument

theorem code?_eq_some {code : Code ValueId BlockId (Option FuncId)} :
    p.code? v = some code ↔ p.definition? v = some (.inst code) := by
  rw [code?]
  split <;> simp_all

theorem traced_slot (whole : Bool) (hv : p.isStorage v) : p.Traced v whole (.slot v whole) :=
  ⟨.self v, isRoot_of_isStorage hv, by rintro s w ⟨⟩; exact ⟨hv, by simp⟩, nofun, nofun⟩

theorem traced_of_pointerFrom {fuel : Nat} {P : Pointer} (h : p.pointerFrom fuel whole v = some P) :
    p.Traced v whole P := by
  induction fuel generalizing whole v with
  | zero => cases h
  | succ fuel ih =>
    rw [pointerFrom] at h
    cases hr : p.role v with
    | global =>
      obtain rfl : Pointer.slot v whole = P := by simpa [hr] using h
      exact traced_slot whole (by simp [isStorage, hr])
    | argument =>
      obtain rfl : Pointer.param v = P := by simpa [hr] using h
      refine ⟨.self v, isRoot_of_argument hr, ?_, ?_, ?_⟩
      · rintro s w ⟨⟩
      · rintro a ⟨⟩
        exact hr
      · rintro u ⟨⟩
    | constant =>
      obtain rfl : Pointer.untraced v = P := by simpa [hr] using h
      have hd : p.IsRoot v := fun base indices hd => by simp [role, hd] at hr
      refine ⟨.self v, hd, by rintro s w ⟨⟩, by rintro a ⟨⟩, ?_⟩
      rintro u ⟨⟩
      have ha : p.isAlloca v = false := by
        rw [role] at hr
        rw [isAlloca]
        split at hr <;> simp_all
      simp [isStorage, hr, ha]
    | instruction =>
      simp only [hr] at h
      split at h
      next hc =>
        obtain rfl : Pointer.slot v whole = P := by simpa using h
        exact traced_slot whole (by simp [isStorage, isAlloca, code?_eq_some.1 hc])
      next base indices hc =>
        have hd := code?_eq_some.1 hc
        obtain ⟨hrooted, hroot, hslot, hparam, huntraced⟩ := ih h
        refine ⟨.element hd hrooted, hroot, fun s w hP => ⟨(hslot s w hP).1, ?_⟩, hparam, huntraced⟩
        -- neither the base nor the element is the whole of what the chain ends in
        refine iff_of_false (fun hw => by simpa using ((hslot s w hP).2.1 hw).1) fun hv => ?_
        exact isRoot_of_isStorage (hslot s w hP).1 _ _ (hv.2 ▸ hd)
      next halloca hgep =>
        obtain rfl : Pointer.untraced v = P := by simpa using h
        have hd : p.IsRoot v := fun base indices hd => hgep base indices (code?_eq_some.2 hd)
        refine ⟨.self v, hd, by rintro s w ⟨⟩, by rintro a ⟨⟩, ?_⟩
        rintro u ⟨⟩
        have ha : p.isAlloca v = false := by
          rw [isAlloca]
          split
          next hd => exact absurd (code?_eq_some.2 hd) (halloca _ _)
          next => rfl
        simp [isStorage, hr, ha]

theorem traced_of_pointer? {P : Pointer} (h : p.pointer? v = some P) : p.Traced v true P :=
  traced_of_pointerFrom h

/-- A pointer that can be traced leads to the slot at the end of its chain. -/
theorem pointer?_eq_slot_iff (hv : p.pointer? v ≠ none) :
    p.pointer? v = some (.slot s whole) ↔
      p.RootedAt v s ∧ p.isStorage s ∧ (whole ↔ v = s) := by
  obtain ⟨P, hP⟩ := Option.ne_none_iff_exists'.1 hv
  have ht := traced_of_pointer? hP
  rw [hP]
  constructor
  · intro h
    cases Option.some.inj h
    obtain ⟨hs, hw⟩ := ht.slot s whole rfl
    exact ⟨ht.rootedAt, hs, by simpa using hw⟩
  · rintro ⟨hrooted, hs, hw⟩
    obtain hroot := ht.rootedAt.unique hrooted ht.isRoot (isRoot_of_isStorage hs)
    cases P with
    | slot s' w =>
      obtain rfl : s' = s := hroot
      obtain ⟨-, hw'⟩ := ht.slot s' w rfl
      obtain rfl : w = whole := by
        rw [Bool.eq_iff_iff, hw, hw']
        simp
      rfl
    | param a =>
      obtain rfl : a = s := hroot
      exact absurd hs (not_isStorage_of_argument (ht.param a rfl))
    | untraced u =>
      obtain rfl : u = s := hroot
      exact absurd hs (ht.untraced u rfl).1

theorem pointer?_eq_param_iff (hv : p.pointer? v ≠ none) :
    p.pointer? v = some (.param root) ↔ p.RootedAt v root ∧ p.role root = .argument := by
  obtain ⟨P, hP⟩ := Option.ne_none_iff_exists'.1 hv
  have ht := traced_of_pointer? hP
  rw [hP]
  constructor
  · intro h
    cases Option.some.inj h
    exact ⟨ht.rootedAt, ht.param root rfl⟩
  · rintro ⟨hrooted, hr⟩
    obtain hroot := ht.rootedAt.unique hrooted ht.isRoot (isRoot_of_argument hr)
    cases P with
    | slot s w =>
      obtain rfl : s = root := hroot
      exact absurd (ht.slot s w rfl).1 (not_isStorage_of_argument hr)
    | param a =>
      obtain rfl : a = root := hroot
      rfl
    | untraced u =>
      obtain rfl : u = root := hroot
      exact absurd hr (ht.untraced u rfl).2

/-- A pointer that does not lead to a slot may lead to any that the oracle does not rule out. -/
def Unrooted (p : Program) (v : ValueId) : Prop :=
  ∀ s, p.RootedAt v s → ¬ p.isStorage s

theorem unrooted_iff (hv : p.pointer? v ≠ none) :
    p.Unrooted v ↔ (∃ a, p.pointer? v = some (.param a)) ∨ ∃ u, p.pointer? v = some (.untraced u) := by
  obtain ⟨P, hP⟩ := Option.ne_none_iff_exists'.1 hv
  have ht := traced_of_pointer? hP
  have hunrooted (h : ¬ p.isStorage P.root) : p.Unrooted v := fun s hs hstorage =>
    h (ht.rootedAt.unique hs ht.isRoot (isRoot_of_isStorage hstorage) ▸ hstorage)
  rw [hP]
  cases P with
  | slot s w => simpa using fun h : p.Unrooted v => h s ht.rootedAt (ht.slot s w rfl).1
  | param a => simpa using hunrooted (not_isStorage_of_argument (ht.param a rfl))
  | untraced u => simpa using hunrooted (ht.untraced u rfl).1

end Program

end InputFlow
