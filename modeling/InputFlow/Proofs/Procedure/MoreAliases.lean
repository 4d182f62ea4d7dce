import InputFlow.Proofs.Procedure.Monotonicity

namespace InputFlow

/-- All that the first oracle lets alias, the second does. -/
def Oracle.Within (oracle oracle' : Oracle) : Prop :=
  ∀ u v, oracle.mayAlias u v → oracle'.mayAlias u v

theorem Oracle.within_of_fails {oracle oracle' : Oracle}
    (h : ∀ u v, oracle' u v = oracle u v ∨ ∃ e, oracle' u v = .error e) : oracle.Within oracle' := by
  intro u v halias
  rw [mayAlias] at halias ⊢
  rcases h u v with hsame | ⟨e, hfails⟩
  · rwa [hsame]
  · rw [hfails]

namespace Env

variable {p : Program} {oracle oracle' : Oracle} {c : Context}

theorem paramFact_le (h : oracle.Within oracle') (v : ValueId) :
    paramFact ⟨p, oracle, c⟩ v ≤ paramFact ⟨p, oracle', c⟩ v := by
  have hmem : ∀ u ∈ aliases ⟨p, oracle, c⟩ v c.inputParams,
      u ∈ aliases ⟨p, oracle', c⟩ v c.inputParams := by
    intro u hu
    obtain ⟨hu, halias⟩ := List.mem_filter.1 hu
    exact List.mem_filter.2 ⟨hu, h v u halias⟩
  by_cases hinput : c.isInput v
  · rw [paramFact, paramFact, if_pos hinput, if_pos hinput]
  · cases hnone : aliases ⟨p, oracle, c⟩ v c.inputParams with
    | nil =>
      have hfact : paramFact ⟨p, oracle, c⟩ v = .independent := by
        rw [paramFact, if_neg hinput, hnone]
      rw [hfact, Fact.independent_le]
      exact paramFact_ne_unknown v
    | cons u us =>
      rw [hnone] at hmem
      have hu' := hmem u List.mem_cons_self
      rw [paramFact, paramFact, if_neg hinput, if_neg hinput, hnone]
      cases hsome : aliases ⟨p, oracle', c⟩ v c.inputParams with
      | nil => simp [hsome] at hu'
      | cons w ws =>
        rw [hsome] at hmem
        refine Fact.dependent_le_dependent.2 fun x hx => ?_
        rw [Std.ExtTreeSet.mem_ofList, List.contains_iff_mem] at hx ⊢
        exact hmem x hx

theorem weaker_of_within (h : oracle.Within oracle') :
    Weaker .settled ⟨p, oracle, c⟩ ⟨p, oracle', c⟩ where
  extensive := Fact.le_settle
  program := rfl
  func := rfl
  slots := rfl
  paramFact v := (paramFact_le h v).trans (Fact.le_settle _)
  isInputFunction _ := id
  mayAlias := h
  initial _ := Fact.le_settle _
  mem_initial _ := id

/-- What the analyses with two such oracles report. -/
theorem relatedResults_of_within {rounds rounds' : Nat} {r r' : Procedure} (hp : p.WellFormed)
    (hc : c.IsOf p) (h : oracle.Within oracle') (hphi : p.OwnPhisOnCycles c.func)
    (hrun : Env.run ⟨p, oracle, c⟩ rounds = .ok r) (hrun' : Env.run ⟨p, oracle', c⟩ rounds' = .ok r') :
    RelatedResults ⟨p, oracle, c⟩ (· ≤ ·) r r' := by
  obtain ⟨entry, m, hfin, rfl⟩ := finished_of_run hp hc hrun
  have hv' : Valid ⟨p, oracle', c⟩ entry := ⟨hp, hc, hfin.valid.entryBlock⟩
  obtain ⟨m', hfin', rfl⟩ := hv'.finished_of_run hrun'
  refine ((weaker_of_within h).relatedResults hfin hfin' hphi).mono fun a a' hwithin => ?_
  obtain ⟨hle, hknown⟩ := hwithin
  rw [← Fact.settle_of_ne_unknown hknown]
  exact hle

/-- With an oracle that rules out fewer aliases no fact gets smaller. A query that fails rules out
nothing, so an oracle that fails where another answers only makes facts larger. -/
theorem facts_grow_with_aliases {text : List Char} {p : Program} {oracle oracle' : Oracle}
    {c : Context} {rounds rounds' : Nat} {r r' : Procedure} (hparse : Source.parse text = .ok p)
    (hc : c.IsOf p) (hphi : p.OwnPhisOnCycles c.func)
    (hrun : Env.run ⟨p, oracle, c⟩ rounds = .ok r)
    (hrun' : Env.run ⟨p, oracle', c⟩ rounds' = .ok r') :
    ((∀ u v, oracle.mayAlias u v → oracle'.mayAlias u v) →
      RelatedResults ⟨p, oracle, c⟩ (· ≤ ·) r r') ∧
    ((∀ u v, oracle' u v = oracle u v ∨ ∃ e, oracle' u v = .error e) →
      RelatedResults ⟨p, oracle, c⟩ (· ≤ ·) r r') := by
  have hp := Source.wellFormed_of_parse hparse
  constructor
  · exact fun h => relatedResults_of_within hp hc h hphi hrun hrun'
  · exact fun h => relatedResults_of_within hp hc (Oracle.within_of_fails h) hphi hrun hrun'

end Env

/-- The stores through a parameter may reach the global once all queries fail. -/
theorem fill_facts_grow_with_failures :
    let c := (Context.ofFunction fillProgram 1).withInputs [2]
    let failing : Oracle := fun _ _ => .error .unavailable
    ∃ r r', Env.run ⟨fillProgram, Oracle.identity, c⟩ 8 = .ok r ∧
      Env.run ⟨fillProgram, failing, c⟩ 8 = .ok r' ∧
      Env.RelatedResults ⟨fillProgram, Oracle.identity, c⟩ (· ≤ ·) r r' ∧
      (r.exitFact? 2 0).map (·.isDependent) = some false ∧
      (r'.exitFact? 2 0).map (·.isDependent) = some true := by
  intro c failing
  obtain ⟨hrun, hrun'⟩ :
      (Env.run ⟨fillProgram, Oracle.identity, c⟩ 8).toOption.map
        (fun r => (r.exitFact? 2 0).map (·.isDependent)) = some (some false) ∧
      (Env.run ⟨fillProgram, failing, c⟩ 8).toOption.map
        (fun r => (r.exitFact? 2 0).map (·.isDependent)) = some (some true) := by
    decide +kernel
  obtain ⟨r, hr, hexit⟩ := Option.map_eq_some_iff.1 hrun
  obtain ⟨r', hr', hexit'⟩ := Option.map_eq_some_iff.1 hrun'
  have hr := eq_ok_of_toOption hr
  have hr' := eq_ok_of_toOption hr'
  obtain ⟨-, hfails⟩ :=
    Env.facts_grow_with_aliases parse_fillText ⟨rfl, rfl⟩ fillProgram_ownPhis hr hr'
  exact ⟨r, r', hr, hr', hfails fun u v => .inr ⟨_, rfl⟩, hexit, hexit'⟩

end InputFlow
