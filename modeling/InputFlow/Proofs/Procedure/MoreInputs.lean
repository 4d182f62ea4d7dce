import InputFlow.Proofs.Procedure.Monotonicity

namespace InputFlow

namespace Fact

theorem isDependent_iff {a : Dep} : a.isDependent ↔ ¬ a ≤ .independent := by
  cases a with
  | unknown => simp [isDependent, level, Fact.unknown_le]
  | independent => simp [isDependent, level]
  | dependent s => simp [isDependent, level, not_dependent_le_independent]

theorem isDependent_mono {a b : Dep} (h : a ≤ b) (ha : a.isDependent) : b.isDependent :=
  isDependent_iff.2 fun hb => isDependent_iff.1 ha (h.trans hb)

theorem isDependent_of_le_settle {a b : Dep} (h : a ≤ b.settle) (ha : a.isDependent) : b.isDependent :=
  isDependent_settle b ▸ isDependent_mono h ha

theorem isDependent_sup {a b : Dep} : (a ⊔ b).isDependent ↔ a.isDependent ∨ b.isDependent := by
  rw [isDependent_iff, isDependent_iff, isDependent_iff, sup_le_iff, not_and_or]

/-- The facts that are dependent only under a condition. -/
def dependentIf (P : Prop) : Order.Ideal Dep :=
  Order.IsIdeal.toIdeal (I := {a : Dep | a.isDependent → P})
    { IsLowerSet := fun _ _ hle ha hdep => ha (isDependent_mono hle hdep)
      Nonempty := ⟨.independent, nofun⟩
      Directed := fun a ha b hb =>
        ⟨a ⊔ b, fun hdep => (isDependent_sup.1 hdep).elim ha hb, le_sup_left, le_sup_right⟩ }

end Fact

/-- Facts widened to all that are dependent only if they are. -/
def Widening.dependence : Widening where
  toIdeal a := Fact.dependentIf a.isDependent
  independent_mem _ := nofun
  mono h _ hc hdep := Fact.isDependent_of_le_settle h (hc hdep)

/-- Two contexts of one function, of which the second has all that is input in the first. -/
structure Context.InputsWithin (c c' : Context) : Prop where
  func : c'.func = c.func
  inputs : ∀ v ∈ c.inputs, v ∈ c'.inputs
  inputFunctions : ∀ f ∈ c.inputFunctions, f ∈ c'.inputFunctions
  inputGlobals : ∀ g ∈ c.inputGlobals, g ∈ c'.inputGlobals

namespace Env

variable {env : Env} {p : Program} {oracle : Oracle} {c c' : Context}

theorem isDependent_paramFact {v : ValueId} : (env.paramFact v).isDependent ↔
    env.context.isInput v ∨
      ∃ u ∈ env.context.params, env.context.isInput u ∧ env.oracle.mayAlias v u := by
  rw [paramFact]
  split
  next h => exact iff_of_true rfl (Or.inl h)
  next h =>
    have hmem (u : ValueId) : u ∈ env.aliases v env.context.inputParams ↔
        u ∈ env.context.params ∧ env.context.isInput u ∧ env.oracle.mayAlias v u := by
      simp [aliases, Context.inputParams, and_comm]
    rw [or_iff_right h]
    simp only [← hmem]
    split
    next hnil => simp [hnil, Fact.isDependent, Fact.level]
    next hne => exact iff_of_true rfl (List.exists_mem_of_ne_nil _ hne)

theorem isDependent_initial {v : ValueId} : (env.initial.fact v).isDependent ↔
    v ∈ env.program.globals ∧ v ∈ env.context.inputGlobals ∨
      v ∉ env.program.globals ∧ v ∈ env.context.params ∧ env.context.isInput v := by
  rw [fact_initial]
  split_ifs with hglobal hinput hparam hinput <;>
    simp_all [Fact.isDependent, Fact.level, Fact.on]

theorem weaker_of_inputsWithin (hc : c.IsOf p) (hc' : c'.IsOf p) (h : c.InputsWithin c') :
    Weaker .dependence ⟨p, oracle, c⟩ ⟨p, oracle, c'⟩ := by
  have hparams : c'.params = c.params := by rw [hc.params, hc'.params, h.func]
  have hslots : c'.slots = c.slots := by rw [hc.slots, hc'.slots, h.func]
  have hinput {v : ValueId} (hv : c.isInput v) : c'.isInput v := by
    rw [Context.isInput, Std.ExtTreeSet.contains_iff_mem] at hv ⊢
    exact h.inputs v hv
  refine ⟨fun _ => id, rfl, h.func, hslots, fun v hdep => ?_, fun f hf => ?_, fun _ _ => id, fun v hdep => ?_,
    fun v hv => ?_⟩
  · refine isDependent_paramFact.2 ((isDependent_paramFact.1 hdep).imp hinput ?_)
    rintro ⟨u, hu, huinput, halias⟩
    exact ⟨u, hparams ▸ hu, hinput huinput, halias⟩
  · rw [Context.isInputFunction, Std.ExtTreeSet.contains_iff_mem] at hf ⊢
    exact h.inputFunctions f hf
  · refine isDependent_initial.2 ((isDependent_initial.1 hdep).imp ?_ ?_)
    · exact fun hv => ⟨hv.1, h.inputGlobals v hv.2⟩
    · exact fun hv => ⟨hv.1, hparams ▸ hv.2.1, hinput hv.2.2⟩
  · exact mem_initial.2 (by simpa only [hparams] using mem_initial.1 hv)

/-- What the analyses in two such contexts report. -/
theorem Finished.keepsDependence {entry : BlockId} {m m' : Blocks}
    (hfin : Finished ⟨p, oracle, c⟩ entry m) (hfin' : Finished ⟨p, oracle, c'⟩ entry m')
    (h : c.InputsWithin c') (hphi : p.OwnPhisOnCycles c.func) :
    RelatedResults ⟨p, oracle, c⟩ (fun a a' => a.isDependent → a'.isDependent)
      (result ⟨p, oracle, c⟩ m) (result ⟨p, oracle, c'⟩ m') :=
  ((weaker_of_inputsWithin hfin.valid.isOf hfin'.valid.isOf h).relatedResults hfin hfin' hphi).mono
    fun _ _ hwithin => hwithin.1

/-- With more parameters, functions or globals for inputs, all that depended on input still does.
The facts themselves need not go up: a parameter that becomes an input no longer depends on the
inputs that it may alias. -/
theorem dependence_grows_with_inputs {text : List Char} {p : Program} {oracle : Oracle}
    {c c' : Context} {rounds rounds' : Nat} {r r' : Procedure} (hparse : Source.parse text = .ok p)
    (hc : c.IsOf p) (hc' : c'.IsOf p) (hinputs : c.InputsWithin c') (hphi : p.OwnPhisOnCycles c.func)
    (hrun : Env.run ⟨p, oracle, c⟩ rounds = .ok r) (hrun' : Env.run ⟨p, oracle, c'⟩ rounds' = .ok r') :
    RelatedResults ⟨p, oracle, c⟩ (fun a a' => a.isDependent → a'.isDependent) r r' := by
  have hp := Source.wellFormed_of_parse hparse
  obtain ⟨entry, m, hfin, rfl⟩ := finished_of_run hp hc hrun
  have hv' : Valid ⟨p, oracle, c'⟩ entry := ⟨hp, hc', hinputs.func ▸ hfin.valid.entryBlock⟩
  obtain ⟨m', hfin', rfl⟩ := hv'.finished_of_run hrun'
  exact hfin.keepsDependence hfin' hinputs hphi

end Env

theorem fill_dependence_grows :
    let c := (Context.ofFunction fillProgram 1).withInputs [2]
    let c' := (c.withInputFunctions [0]).withInputGlobals [0]
    ∃ r r', Env.run ⟨fillProgram, Oracle.identity, c⟩ 8 = .ok r ∧
      Env.run ⟨fillProgram, Oracle.identity, c'⟩ 9 = .ok r' ∧
      Env.RelatedResults ⟨fillProgram, Oracle.identity, c⟩
        (fun a a' => a.isDependent → a'.isDependent) r r' ∧ r.isDependent 15 ∧ r'.isDependent 13 := by
  intro c c'
  obtain ⟨hrun, hrun'⟩ :
      (Env.run ⟨fillProgram, Oracle.identity, c⟩ 8).toOption.map (·.isDependent 15) = some true ∧
      (Env.run ⟨fillProgram, Oracle.identity, c'⟩ 9).toOption.map (·.isDependent 13) = some true := by
    decide +kernel
  obtain ⟨r, hr, hdep⟩ := Option.map_eq_some_iff.1 hrun
  obtain ⟨r', hr', hdep'⟩ := Option.map_eq_some_iff.1 hrun'
  have hinputs : c.InputsWithin c' := ⟨rfl, fun _ => id, by simp [c, Context.withInputs,
    Context.ofFunction], by simp [c, Context.withInputs, Context.ofFunction]⟩
  have hr := eq_ok_of_toOption hr
  have hr' := eq_ok_of_toOption hr'
  exact ⟨r, r', hr, hr', Env.dependence_grows_with_inputs parse_fillText ⟨rfl, rfl⟩ ⟨rfl, rfl⟩
    hinputs fillProgram_ownPhis hr hr', hdep, hdep'⟩

end InputFlow
