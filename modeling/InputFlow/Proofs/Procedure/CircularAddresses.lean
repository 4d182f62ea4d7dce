import Mathlib.Data.Fintype.Pigeonhole
import Mathlib.Logic.Function.Iterate
import InputFlow.Proofs.Procedure.Dominance
import InputFlow.Proofs.Procedure.Effects

namespace InputFlow

namespace Program

variable {p : Program} {v w root : ValueId} {fuel : Nat} {whole : Bool}

/-- The chain of bases of a value runs into a circle. -/
def Circles (p : Program) (v : ValueId) : Prop :=
  ∃ w base indices, p.RootedAt v w ∧ p.definition? w = some (.inst (.gep base indices)) ∧
    p.RootedAt base w

/-- A chain that ends does not run into a circle. -/
theorem RootedAt.not_circles (h : p.RootedAt v root) (hroot : p.IsRoot root) : ¬ p.Circles v := by
  induction h with
  | self v =>
    rintro ⟨w, base, indices, hw, hd, -⟩
    cases hw with
    | self => exact hroot base indices hd
    | element hv _ => exact hroot _ _ hv
  | element hv _ ih =>
    rintro ⟨w, base, indices, hw, hd, hback⟩
    apply ih hroot
    cases hw with
    | self =>
      -- the circle starts at the element, so its base is on it as well
      cases Option.some.inj (hv.symm.trans hd)
      exact ⟨_, _, _, hback, hd, hback⟩
    | element hv' hw =>
      cases Option.some.inj (hv.symm.trans hv')
      exact ⟨w, base, indices, hw, hd, hback⟩

def base (p : Program) (v : ValueId) : ValueId :=
  match p.definition? v with
  | some (.inst (.gep base _)) => base
  | _ => v

theorem rootedAt_base (h : p.RootedAt (p.base v) w) : p.RootedAt v w := by
  rw [base] at h
  split at h
  next hd => exact .element hd h
  next => exact h

theorem rootedAt_iterate (p : Program) (v : ValueId) (n : Nat) : p.RootedAt v (p.base^[n] v) := by
  induction n generalizing v with
  | zero => exact .self v
  | succ n ih => exact rootedAt_base (ih (p.base v))

theorem exists_base_of_not_isRoot (h : ¬ p.IsRoot v) :
    ∃ indices, p.definition? v = some (.inst (.gep (p.base v) indices)) := by
  simp only [IsRoot, ne_eq, not_forall, not_not] at h
  obtain ⟨base, indices, hd⟩ := h
  exact ⟨indices, by simp only [Program.base, hd]⟩

/-- A search that runs out of fuel has met element addresses only. -/
theorem not_isRoot_of_pointerFrom (h : p.pointerFrom fuel whole v = none) {n : Nat} (hn : n < fuel) :
    ¬ p.IsRoot (p.base^[n] v) := by
  induction fuel generalizing whole v n with
  | zero => omega
  | succ fuel ih =>
    rw [pointerFrom] at h
    split at h
    · cases h
    · cases h
    · cases h
    · split at h
      · cases h
      next base indices hc =>
        have hd := code?_eq_some.1 hc
        have hbase : p.base v = base := by simp only [Program.base, hd]
        cases n with
        | zero => exact fun hroot => hroot base indices hd
        | succ n =>
          rw [Function.iterate_succ_apply, hbase]
          exact ih h (by omega)
      · cases h

/-- A chain that comes back to an element address runs into a circle. -/
theorem circles_of_iterate {i j : Nat} (hij : i < j) (hi : ¬ p.IsRoot (p.base^[i] v))
    (h : p.base^[i] v = p.base^[j] v) : p.Circles v := by
  obtain ⟨indices, hd⟩ := exists_base_of_not_isRoot hi
  obtain ⟨k, rfl⟩ := Nat.exists_eq_add_of_lt hij
  have hsteps : i + k + 1 = k + 1 + i := by omega
  have hback : p.base^[k] (p.base (p.base^[i] v)) = p.base^[i] v := by
    rw [hsteps, Function.iterate_add_apply, Function.iterate_succ_apply] at h
    exact h.symm
  have hrooted := p.rootedAt_iterate (p.base (p.base^[i] v)) k
  rw [hback] at hrooted
  exact ⟨p.base^[i] v, _, indices, p.rootedAt_iterate v i, hd, hrooted⟩

/-- A search with more fuel than there are values runs out of it in a circle only. -/
theorem circles_of_pointer?_eq_none (h : p.pointer? v = none) : p.Circles v := by
  have hroot (n : Fin (p.values.size + 1)) : ¬ p.IsRoot (p.base^[n.1] v) :=
    not_isRoot_of_pointerFrom h n.2
  have hlt (n : Fin (p.values.size + 1)) : p.base^[n.1] v < p.values.size := by
    obtain ⟨indices, hd⟩ := exists_base_of_not_isRoot (hroot n)
    exact Module.Holds.lt hd
  obtain ⟨i, j, hne, hij⟩ := Fintype.exists_ne_map_eq_of_card_lt
    (fun n : Fin (p.values.size + 1) => (⟨p.base^[n.1] v, hlt n⟩ : Fin p.values.size)) (by simp)
  have hij : p.base^[i.1] v = p.base^[j.1] v := Fin.mk.inj hij
  rcases lt_or_gt_of_ne hne with hlt | hgt
  · exact circles_of_iterate hlt (hroot i) hij
  · exact circles_of_iterate hgt (hroot j) hij.symm

/-- A pointer leads nowhere just when the chain of its bases runs into a circle. -/
theorem pointer?_eq_none_iff : p.pointer? v = none ↔ p.Circles v := by
  constructor
  · exact circles_of_pointer?_eq_none
  · intro hcircles
    cases hP : p.pointer? v with
    | none => rfl
    | some P =>
      have ht := traced_of_pointer? hP
      exact absurd hcircles (ht.rootedAt.not_circles ht.isRoot)

/-- The oracle that goes by the text gives up on a chain just when the search runs out of fuel. -/
theorem rootFrom_eq_cyclicAddress_iff {origin : ValueId} :
    p.rootFrom origin fuel v = .error (.cyclicAddress origin) ↔ p.pointerFrom fuel whole v = none := by
  induction fuel generalizing whole v with
  | zero => simp [rootFrom, pointerFrom]
  | succ fuel ih =>
    rw [rootFrom, pointerFrom]
    cases hd : p.definition? v with
    | none => simp [role, code?, hd]
    | some d =>
      cases d with
      | inst code =>
        cases code with
        | gep base indices => simpa only [role, code?, hd] using ih
        | _ => simp [role, code?, hd]
      | _ => simp [role, code?, hd]

theorem root_eq_cyclicAddress_iff : p.root v = .error (.cyclicAddress v) ↔ p.Circles v :=
  rootFrom_eq_cyclicAddress_iff.trans pointer?_eq_none_iff

/-- The chain of bases of a value ends just when it does not run into a circle. -/
theorem exists_root_iff : (∃ root, p.RootedAt v root ∧ p.IsRoot root) ↔ ¬ p.Circles v := by
  constructor
  · rintro ⟨root, hrooted, hroot⟩
    exact hrooted.not_circles hroot
  · intro h
    obtain ⟨P, hP⟩ := Option.ne_none_iff_exists'.1 (mt pointer?_eq_none_iff.1 h)
    have ht := traced_of_pointer? hP
    exact ⟨P.root, ht.rootedAt, ht.isRoot⟩

end Program

namespace Env

variable {env : Env} {entry : BlockId} {rounds : Nat} {v : ValueId}

/-- The analysis stops at a pointer that it cannot follow only if an instruction goes through it. -/
theorem circles_of_run_eq_endlessAddress (hv : env.Valid entry)
    (hrun : env.run rounds = .error (.endlessAddress v)) :
    env.program.Circles v ∧ ∃ i, env.program.Reachable entry i ∧ v ∈ env.addresses i := by
  obtain ⟨m, b, E, s, -, hb, -, hs⟩ := (run_eq_error hv hrun).resolve_left nofun
  cases mayStop_of_analyze hs with
  | endlessAddress hi haddress hnone =>
    exact ⟨Program.pointer?_eq_none_iff.1 hnone, _, ⟨b, hv.mem_order.1 hb, hi⟩, haddress⟩

/-- A pointer leads somewhere just when the chain of its bases does not run into a circle, and the
analysis of a function goes through no pointer whose chain does. -/
theorem chains_end_unless_circular {text : List Char} {env : Env} {entry : BlockId}
    (hparse : Source.parse text = .ok env.program) (hcontext : env.context.IsOf env.program)
    (hentry : env.program.entryBlock? env.context.func = some entry) (rounds : Nat) :
    (∀ v, (∃ root, env.program.RootedAt v root ∧ env.program.IsRoot root) ↔ ¬ env.program.Circles v) ∧
      (∀ v, env.program.pointer? v = none ↔ env.program.Circles v) ∧
      (∀ v, env.program.root v = .error (.cyclicAddress v) ↔ env.program.Circles v) ∧
      (∀ v, env.run rounds = .error (.endlessAddress v) →
        env.program.Circles v ∧ ∃ i, env.program.Reachable entry i ∧ v ∈ env.addresses i) ∧
      ∀ r, env.run rounds = .ok r → ∀ i, env.program.Reachable entry i →
        ∀ v ∈ env.addresses i, ¬ env.program.Circles v := by
  have hv : env.Valid entry := ⟨Source.wellFormed_of_parse hparse, hcontext, hentry⟩
  refine ⟨fun v => Program.exists_root_iff, fun v => Program.pointer?_eq_none_iff,
    fun v => Program.root_eq_cyclicAddress_iff, ?_, ?_⟩
  · exact fun v hrun => circles_of_run_eq_endlessAddress hv hrun
  · intro r hrun i hi v haddress hcircles
    obtain ⟨m, hfin, -⟩ := hv.finished_of_run hrun
    exact hfin.traceable hi v haddress (Program.pointer?_eq_none_iff.2 hcircles)

end Env

theorem fill_goes_through_no_circle : ∃ r, fillEnv.run 8 = .ok r ∧
    ∀ i, fillProgram.Reachable 0 i → ∀ v ∈ fillEnv.addresses i, ¬ fillProgram.Circles v := by
  obtain ⟨r, hrun⟩ := fillEnv_runs
  have hentry : fillEnv.program.entryBlock? fillEnv.context.func = some 0 := by decide +kernel
  obtain ⟨-, -, -, -, hok⟩ := Env.chains_end_unless_circular parse_fillText fillEnv_isOf hentry 8
  exact ⟨r, hrun, hok r hrun⟩

/-- A load through an element address that is its own base. -/
def circleText : String :=
  "main(%x) \x7b
entry:
  %v = load %p
  %p = gep %p, %x
  ret %v
\x7d
"

def circleProgram : Program :=
  Source.readProgram circleText

theorem parse_circleText : Source.parse circleText.toList = .ok circleProgram :=
  Source.parse_eq_readProgram circleText (by decide +kernel)

theorem load_circles : Source.parse circleText.toList = .ok circleProgram ∧
    (Env.plain circleProgram).run 8 = .error (.endlessAddress 2) ∧
    circleProgram.syntacticOracle 2 0 = .error (.cyclicAddress 2) ∧
    ¬ ∃ root, circleProgram.RootedAt 2 root ∧ circleProgram.IsRoot root := by
  obtain ⟨hd, horacle, herror⟩ : circleProgram.definition? 2 = some (.inst (.gep 2 [0])) ∧
      circleProgram.syntacticOracle 2 0 = .error (.cyclicAddress 2) ∧
      (match (Env.plain circleProgram).run 8 with
        | .error e => some e
        | .ok _ => none) = some (.endlessAddress 2) := by decide +kernel
  refine ⟨parse_circleText, ?_, horacle, fun h => ?_⟩
  · split at herror
    next e hrun => rw [hrun, Option.some.inj herror]
    next => cases herror
  · exact Program.exists_root_iff.1 h ⟨2, 2, [0], .self 2, hd, .self 2⟩

end InputFlow
