import InputFlow.Proofs.Procedure.CircularAddresses
import InputFlow.Proofs.Source.Partition

namespace InputFlow

namespace Pointer

/-- The storage that a pointer leads to, in the terms of an oracle. -/
def storage : Pointer → Root
  | slot s _ => .named s
  | param a => .named a
  | untraced _ => .anywhere

theorem storage_eq_named_iff {P : Pointer} {w : ValueId} :
    P.storage = .named w ↔ (∃ whole, P = .slot w whole) ∨ P = .param w := by
  cases P <;> simp [storage]

theorem storage_eq_anywhere_iff {P : Pointer} : P.storage = .anywhere ↔ ∃ u, P = .untraced u := by
  cases P <;> simp [storage]

/-- Where the address of an element leads, given where its base does. -/
def element : Pointer → Pointer
  | slot s _ => .slot s false
  | P => P

@[simp] theorem storage_element (P : Pointer) : P.element.storage = P.storage := by
  cases P <;> rfl

@[simp] theorem element_element (P : Pointer) : P.element.element = P.element := by
  cases P <;> rfl

end Pointer

namespace Program

variable {p : Program} {u v w base root origin : ValueId} {indices : List ValueId} {fuel : Nat}
  {whole : Bool} {P : Pointer}

section Elements

theorem pointerFrom_succ (h : p.pointerFrom fuel whole v = some P) :
    p.pointerFrom (fuel + 1) whole v = some P := by
  induction fuel generalizing whole v with
  | zero => cases h
  | succ fuel ih =>
    rw [pointerFrom] at h ⊢
    split
    next hr => simpa only [hr] using h
    next hr => simpa only [hr] using h
    next hr => simpa only [hr] using h
    next hr =>
      simp only [hr] at h
      split
      next hc => simpa only [hc] using h
      next hc =>
        simp only [hc] at h
        exact ih h
      next => simpa only using h

/-- A search that has passed an element address finds an element. -/
theorem pointerFrom_false (p : Program) (fuel : Nat) (v : ValueId) :
    p.pointerFrom fuel false v = (p.pointerFrom fuel true v).map Pointer.element := by
  induction fuel generalizing v with
  | zero => rfl
  | succ fuel ih =>
    rw [pointerFrom, pointerFrom]
    cases p.role v with
    | instruction =>
      dsimp only
      split
      · rfl
      · simp only [ih, Option.map_map, Function.comp_def, Pointer.element_element]
      · rfl
    | _ => rfl

variable (hd : p.definition? v = some (.inst (.gep base indices)))

include hd

theorem rootedAt_element_iff (hroot : p.IsRoot root) : p.RootedAt v root ↔ p.RootedAt base root := by
  constructor
  · intro h
    cases h with
    | self => exact absurd hd (hroot _ _)
    | element hv h =>
      cases Option.some.inj (hd.symm.trans hv)
      exact h
  · exact .element hd

theorem circles_element_iff : p.Circles v ↔ p.Circles base := by
  rw [← not_iff_not, ← exists_root_iff, ← exists_root_iff]
  exact exists_congr fun root => and_congr_left fun hroot => rootedAt_element_iff hd hroot

/-- An element address leads where its base does. -/
theorem pointer?_element : p.pointer? v = (p.pointer? base).map Pointer.element := by
  have hv : p.pointer? v = p.pointerFrom p.values.size false base := by
    simp [pointer?, pointerFrom, role, code?, hd]
  cases hP : p.pointer? v with
  | none =>
    have hbase := pointer?_eq_none_iff.2 ((circles_element_iff hd).1 (pointer?_eq_none_iff.1 hP))
    rw [hbase, Option.map_none]
  | some P =>
    -- the search from the base finds the same with one step more, which `pointer?` allows it
    have hmore := pointerFrom_succ (hv.symm.trans hP)
    rw [pointerFrom_false] at hmore
    exact hmore.symm

end Elements

section Roots

variable (hw : p.WellFormed) (hp : p.Partitioned)

include hw hp

/-- The oracle follows bases as the analysis does, among the values of a program. -/
theorem rootFrom_eq (hv : v < p.values.size) : p.rootFrom origin fuel v =
    match p.pointerFrom fuel whole v with
    | some P => .ok P.storage
    | none => .error (.cyclicAddress origin) := by
  induction fuel generalizing whole v with
  | zero => rfl
  | succ fuel ih =>
    obtain ⟨d, hd⟩ : ∃ d, p.definition? v = some d :=
      ⟨_, by rw [definition?, Array.getElem?_eq_getElem hv]; rfl⟩
    rw [rootFrom, pointerFrom, role, code?, hd]
    cases d with
    | inst code =>
      cases code with
      | gep base indices =>
        have hbase : base < p.values.size := lt_of_mem_operands hw hp (v := v)
          (by simp [operands, hd, Definition.operands, Code.operands])
        exact ih hbase
      | _ => rfl
    | _ => rfl

theorem root_eq (hv : v < p.values.size) : p.root v =
    match p.pointer? v with
    | some P => .ok P.storage
    | none => .error (.cyclicAddress v) :=
  rootFrom_eq hw hp hv

theorem root_eq_ok_iff (hv : v < p.values.size) {R : Root} :
    p.root v = .ok R ↔ ∃ P, p.pointer? v = some P ∧ P.storage = R := by
  rw [root_eq hw hp hv]
  cases p.pointer? v <;> simp

theorem root_eq_named_iff (hv : v < p.values.size) : p.root v = .ok (.named w) ↔
    (∃ whole, p.pointer? v = some (.slot w whole)) ∨ p.pointer? v = some (.param w) := by
  rw [root_eq_ok_iff hw hp hv]
  simp only [Pointer.storage_eq_named_iff]
  cases p.pointer? v <;> simp

theorem root_eq_anywhere_iff (hv : v < p.values.size) :
    p.root v = .ok .anywhere ↔ ∃ u, p.pointer? v = some (.untraced u) := by
  rw [root_eq_ok_iff hw hp hv]
  simp only [Pointer.storage_eq_anywhere_iff]
  cases p.pointer? v <;> simp

theorem root_fails_iff (hv : v < p.values.size) :
    (∃ e, p.root v = .error e) ↔ ∀ w, p.RootedAt v w → ¬ p.IsRoot w := by
  have hnone : (∃ e, p.root v = .error e) ↔ p.pointer? v = none := by
    rw [root_eq hw hp hv]
    cases p.pointer? v <;> simp
  rw [hnone, pointer?_eq_none_iff, ← not_iff_not, ← exists_root_iff]
  simp

/-- An element address has the root of its base. -/
theorem root_element (hd : p.definition? v = some (.inst (.gep base indices))) {R : Root} :
    p.root v = .ok R ↔ p.root base = .ok R := by
  have hbase : base < p.values.size := lt_of_mem_operands hw hp (v := v)
    (by simp [operands, hd, Definition.operands, Code.operands])
  rw [root_eq_ok_iff hw hp (Module.Holds.lt hd), root_eq_ok_iff hw hp hbase, pointer?_element hd]
  simp

end Roots

/-- The oracle rules out that two pointers alias just when they have different named roots. -/
theorem mayAlias_iff : p.syntacticOracle.mayAlias u v ↔
    u = v ∨ ∀ x y, p.root u = .ok (.named x) → p.root v = .ok (.named y) → x = y := by
  rw [Oracle.mayAlias, syntacticOracle]
  by_cases huv : u = v
  · simp [huv]
  · rw [if_neg huv, or_iff_right huv]
    cases p.root u with
    | error e => simp [bind, Except.bind]
    | ok R =>
      cases p.root v with
      | error e => simp [bind, Except.bind]
      | ok S => cases R <;> cases S <;> simp [bind, Except.bind, pure, Except.pure]

theorem mayAlias_self (p : Program) (v : ValueId) : p.syntacticOracle.mayAlias v v :=
  mayAlias_iff.2 (.inl rfl)

theorem mayAlias_comm (p : Program) (u v : ValueId) :
    p.syntacticOracle.mayAlias u v = p.syntacticOracle.mayAlias v u := by
  have himp {u v : ValueId} (h : p.syntacticOracle.mayAlias u v) : p.syntacticOracle.mayAlias v u :=
    mayAlias_iff.2 ((mayAlias_iff.1 h).imp Eq.symm fun h x y hx hy => (h y x hy hx).symm)
  exact Bool.eq_iff_iff.2 ⟨himp, himp⟩

/-- An element address may alias what its base may. -/
theorem mayAlias_element (hw : p.WellFormed) (hp : p.Partitioned)
    (hd : p.definition? v = some (.inst (.gep base indices))) (u : ValueId) :
    p.syntacticOracle.mayAlias v u = p.syntacticOracle.mayAlias base u := by
  have hroot {x : ValueId} : p.root v = .ok (.named x) ↔ p.root base = .ok (.named x) :=
    root_element hw hp hd
  have hsame {x y : ValueId} (hx : p.root v = .ok (.named x)) (hy : p.root v = .ok (.named y)) :
      x = y := by
    simpa [hx] using hy
  rw [Bool.eq_iff_iff, mayAlias_iff, mayAlias_iff]
  simp only [hroot]
  constructor
  · rintro (rfl | h)
    · exact .inr fun x y hx hy => hsame (hroot.2 hx) hy
    · exact .inr h
  · rintro (rfl | h)
    · exact .inr fun x y hx hy => hsame (hroot.2 hx) (hroot.2 hy)
    · exact .inr h

/-- The oracle that goes by the text of a program and the analysis of its blocks find the same
storage behind a pointer. So the oracle takes an element address for its base, and what it says of
two pointers does not depend on their order. -/
theorem oracle_traces_like_analysis {text : List Char} {p : Program}
    (hparse : Source.parse text = .ok p) :
    (∀ v < p.values.size,
      ((∃ e, p.root v = .error e) ↔ ∀ w, p.RootedAt v w → ¬ p.IsRoot w) ∧
      (∀ w, p.root v = .ok (.named w) ↔
        (∃ whole, p.pointer? v = some (.slot w whole)) ∨ p.pointer? v = some (.param w)) ∧
      (p.root v = .ok .anywhere ↔ ∃ u, p.pointer? v = some (.untraced u))) ∧
    (∀ v, p.syntacticOracle.mayAlias v v) ∧
    (∀ u v, p.syntacticOracle.mayAlias u v = p.syntacticOracle.mayAlias v u) ∧
    ∀ v base indices, p.definition? v = some (.inst (.gep base indices)) → ∀ u,
      p.syntacticOracle.mayAlias v u = p.syntacticOracle.mayAlias base u ∧
      p.syntacticOracle.mayAlias u v = p.syntacticOracle.mayAlias u base := by
  have hw := Source.wellFormed_of_parse hparse
  have hp := Source.partitioned_of_parse hparse
  refine ⟨fun v hv => ?_, mayAlias_self p, mayAlias_comm p, fun v base indices hd u => ?_⟩
  · exact ⟨root_fails_iff hw hp hv, fun w => root_eq_named_iff hw hp hv, root_eq_anywhere_iff hw hp hv⟩
  · have helement := mayAlias_element hw hp hd u
    exact ⟨helement, by rw [mayAlias_comm, helement, mayAlias_comm]⟩

end Program

/-- In the loop that fills a slot, an element address has the root of the slot, and a phi may lead
anywhere. -/
theorem fill_roots_are_traced : fillProgram.root 10 = .ok (.named 4) ∧
    fillProgram.root 7 = .ok .anywhere ∧ ∀ u, fillProgram.syntacticOracle.mayAlias u 10 =
      fillProgram.syntacticOracle.mayAlias u 4 := by
  obtain ⟨hsize, helement, hphi, hd⟩ : fillProgram.values.size = 16 ∧
      fillProgram.pointer? 10 = some (.slot 4 false) ∧ fillProgram.pointer? 7 = some (.untraced 7) ∧
      fillProgram.definition? 10 = some (.inst (.gep 4 [9])) := by decide +kernel
  obtain ⟨hroots, -, -, haliases⟩ := Program.oracle_traces_like_analysis parse_fillText
  obtain ⟨-, hnamed, -⟩ := hroots 10 (by omega)
  obtain ⟨-, -, hanywhere⟩ := hroots 7 (by omega)
  exact ⟨(hnamed 4).2 (.inl ⟨false, helement⟩), hanywhere.2 ⟨7, hphi⟩,
    fun u => (haliases 10 4 [9] hd u).2⟩

end InputFlow
