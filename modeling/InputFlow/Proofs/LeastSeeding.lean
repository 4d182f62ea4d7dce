import InputFlow.WholeProgram
import InputFlow.Proofs.Procedure.MoreInputs

namespace InputFlow

abbrev Seeding := FuncId → Std.ExtTreeSet ValueId

def Seeding.Below (S S' : Seeding) : Prop :=
  ∀ f, ∀ v ∈ S f, v ∈ S' f

def Seeds.seeding (seeds : Seeds) : Seeding :=
  fun f => seeds.getD f ∅

namespace Context

variable {p : Program} {s : Settings} {f : FuncId} {extra extra' : List ValueId} {v : ValueId}

theorem mem_inputs_ofSettings : v ∈ (ofSettings p s f extra).inputs ↔ v ∈ extra ∨
    (p.functionName f = s.entry ∨ s.scope = .allArguments) ∧ v ∈ p.params f := by
  rw [ofSettings, withInputs, Std.ExtTreeSet.mem_insertMany_list]
  refine or_congr ?_ ?_
  · simp [withInputs, Std.ExtTreeSet.mem_insertMany_list, ofFunction, withInputFunctions,
      withInputGlobals]
  · split <;> simp_all

/-- The contexts of a function differ only in their inputs. -/
theorem eq_ofSettings {c : Context}
    (hc : { c with inputs := ∅ } = { ofSettings p s f extra with inputs := ∅ })
    (h : ∀ v, v ∈ c.inputs ↔ v ∈ (ofSettings p s f extra).inputs) : c = ofSettings p s f extra := by
  have hinputs : c.inputs = (ofSettings p s f extra).inputs := Std.ExtTreeSet.ext_mem h
  calc c = { { c with inputs := ∅ } with inputs := c.inputs } := rfl
    _ = ofSettings p s f extra := by rw [hc, hinputs]

theorem inputsWithin_ofSettings (h : ∀ v ∈ extra, v ∈ extra') :
    (ofSettings p s f extra).InputsWithin (ofSettings p s f extra') where
  func := rfl
  inputs v hv := mem_inputs_ofSettings.2 ((mem_inputs_ofSettings.1 hv).imp_left (h v))
  inputFunctions _ := id
  inputGlobals _ := id

end Context

/-- A function keeps the inputs of its context. -/
theorem Env.inputs_of_run {env : Env} {rounds : Nat} {r : Procedure} (h : env.run rounds = .ok r) :
    r.inputs = env.context.inputs := by
  obtain ⟨_, _, -, -, rfl⟩ := run_eq_ok.1 h
  rfl

namespace Program

variable (p : Program) (oracle : Oracle) (s : Settings)

/-- A parameter receives a dependent argument at a call in the analysed function. -/
def Receives (r : Procedure) (g : FuncId) (v : ValueId) : Prop :=
  ∃ position a, r.callArgs[CallArg.mk g position]? = some a ∧ a.isDependent ∧
    p.param? g position = some v

def seeded (S : Seeding) (f : FuncId) : Except AnalysisError Procedure :=
  p.analyzeFunction oracle s f (S f).toList

/-- Parameters that receive dependent arguments are inputs, as far as the analyses succeed. -/
def IsClosed (S : Seeding) : Prop :=
  ∀ f ∈ p.definedFunctions, ∀ r, p.seeded oracle s S f = .ok r →
    ∀ g ∈ p.definedFunctions, ∀ v, p.Receives r g v →
      ∀ r', p.seeded oracle s S g = .ok r' → v ∈ r'.inputs

variable {p oracle s} {f g : FuncId} {v : ValueId} {r r' : Procedure} {S S' : Seeding}

/-- Dependent arguments stay dependent with more seeds. -/
theorem Receives.mono (hp : p.WellFormed) (hphi : p.OwnPhisOnCycles f)
    (hS : ∀ v ∈ S f, v ∈ S' f) (hr : p.seeded oracle s S f = .ok r)
    (hr' : p.seeded oracle s S' f = .ok r') (h : p.Receives r g v) : p.Receives r' g v := by
  obtain ⟨position, a, ha, hdep, hv⟩ := h
  have hlist : ∀ v ∈ (S f).toList, v ∈ (S' f).toList := by simpa using hS
  obtain ⟨entry, m, hfin, rfl⟩ := Env.finished_of_run hp (Context.isOf_ofSettings s f _) hr
  obtain ⟨entry', m', hfin', rfl⟩ := Env.finished_of_run hp (Context.isOf_ofSettings s f _) hr'
  obtain rfl : entry = entry' :=
    Option.some.inj (hfin.valid.entryBlock.symm.trans hfin'.valid.entryBlock)
  have hkeeps := hfin.keepsDependence hfin' (Context.inputsWithin_ofSettings hlist) hphi
  obtain ⟨c, hc, hcdep⟩ := hkeeps.callArgs ⟨g, position⟩ a ha
  exact ⟨position, c, hc, hcdep hdep, hv⟩

theorem mem_inputs_of_seeded (h : p.seeded oracle s S f = .ok r) : v ∈ r.inputs ↔ v ∈ S f ∨
    (p.functionName f = s.entry ∨ s.scope = .allArguments) ∧ v ∈ p.params f := by
  rw [Env.inputs_of_run h, Context.mem_inputs_ofSettings, Std.ExtTreeSet.mem_toList]

/-- The seeds of functions are parameters of theirs. -/
def IsSeeding (p : Program) (S : Seeding) : Prop :=
  ∀ f, ∀ v ∈ S f, v ∈ p.params f

/-- The results are those of the analyses of all functions with their seeds. -/
def Settled (p : Program) (oracle : Oracle) (s : Settings) (S : Seeding) (ps : Procedures) : Prop :=
  ∀ f, ps[f]? = if f ∈ p.definedFunctions then some (p.seeded oracle s S f) else none

/-- A parameter that receives a dependent argument and is no input. -/
structure Lacks (p : Program) (oracle : Oracle) (s : Settings) (S : Seeding) (g : FuncId)
    (v : ValueId) : Prop where
  defined : g ∈ p.definedFunctions
  received : ∃ f ∈ p.definedFunctions, ∃ r, p.seeded oracle s S f = .ok r ∧ p.Receives r g v
  missing : ∀ r, p.seeded oracle s S g = .ok r → v ∉ r.inputs

theorem isClosed_of_lacks (h : ∀ g v, p.Lacks oracle s S g v → v ∈ S g) : p.IsClosed oracle s S := by
  intro f hf r hr g hg v hv r' hr'
  by_contra hmissing
  have hlacks : p.Lacks oracle s S g v :=
    ⟨hg, ⟨f, hf, r, hr, hv⟩, fun r'' hr'' => Except.ok.inj (hr'.symm.trans hr'') ▸ hmissing⟩
  exact hmissing ((mem_inputs_of_seeded hr').2 (Or.inl (h g v hlacks)))

section Discovery

variable {seeds : Seeds} {todo : List FuncId} {ps : Procedures} {found : Seeds × Std.ExtTreeSet FuncId}
  {receivers : List (FuncId × ValueId)} {u : ValueId}

theorem mem_seed : v ∈ (seed ps found (g, u)).1.getD f ∅ ↔
    v ∈ found.1.getD f ∅ ∨ (f = g ∧ v = u) ∧ ¬ ps.hasInput g u := by
  rw [seed]
  split
  next h =>
    refine (or_iff_left_of_imp ?_).symm
    rintro ⟨⟨rfl, rfl⟩, hinput⟩
    simpa [hinput] using h
  next h =>
    simp only [Bool.or_eq_true, not_or] at h
    by_cases hfg : f = g
    · subst hfg
      simp [h.1, or_comm, @eq_comm _ u v]
    · simp [hfg, Std.ExtTreeMap.getD_insert, Ne.symm hfg]

theorem mem_grown_seed : f ∈ (seed ps found (g, u)).2 ↔
    f ∈ found.2 ∨ f = g ∧ ¬ ps.hasInput g u ∧ u ∉ found.1.getD g ∅ := by
  rw [seed]
  split
  next h =>
    refine (or_iff_left_of_imp ?_).symm
    rintro ⟨rfl, hinput, hknown⟩
    simp [hinput, hknown] at h
  next h =>
    simp only [Bool.or_eq_true, not_or, Std.ExtTreeSet.contains_iff_mem] at h
    simp [h, or_comm, @eq_comm _ g f]

theorem mem_foldl_seed : v ∈ (receivers.foldl (seed ps) found).1.getD f ∅ ↔
    v ∈ found.1.getD f ∅ ∨ (f, v) ∈ receivers ∧ ¬ ps.hasInput f v := by
  induction receivers generalizing found with
  | nil => simp
  | cons receiver receivers ih =>
    obtain ⟨g, u⟩ := receiver
    rw [List.foldl_cons, ih, mem_seed, List.mem_cons, Prod.mk.injEq, or_and_right, or_assoc]
    refine or_congr_right (or_congr_left (and_congr_right ?_))
    rintro ⟨rfl, rfl⟩
    rfl

theorem mem_grown_foldl_seed : f ∈ (receivers.foldl (seed ps) found).2 ↔
    f ∈ found.2 ∨ ∃ v, (f, v) ∈ receivers ∧ ¬ ps.hasInput f v ∧ v ∉ found.1.getD f ∅ := by
  induction receivers generalizing found with
  | nil => simp
  | cons receiver receivers ih =>
    obtain ⟨g, u⟩ := receiver
    rw [List.foldl_cons, ih, mem_grown_seed]
    simp only [mem_seed, List.mem_cons, Prod.mk.injEq]
    constructor
    · rintro ((hf | ⟨rfl, hu⟩) | ⟨v, hv, hinput, hnew⟩)
      · exact Or.inl hf
      · exact Or.inr ⟨u, Or.inl ⟨rfl, rfl⟩, hu⟩
      · exact Or.inr ⟨v, Or.inr hv, hinput, fun hold => hnew (Or.inl hold)⟩
    · rintro (hf | ⟨v, ⟨rfl, rfl⟩ | hv, hinput, hnew⟩)
      · exact Or.inl (Or.inl hf)
      · exact Or.inl (Or.inr ⟨rfl, hinput, hnew⟩)
      · by_cases hu : f = g ∧ v = u
        · obtain ⟨rfl, rfl⟩ := hu
          exact Or.inl (Or.inr ⟨rfl, hinput, hnew⟩)
        · exact Or.inr ⟨v, hv, hinput, fun hold => hold.elim hnew fun h => hu h.1⟩

theorem mem_receivers : (g, v) ∈ p.receivers ps r ↔ g ∈ ps ∧ p.Receives r g v := by
  simp only [receivers, List.mem_filterMap, Option.ite_none_right_eq_some, Bool.and_eq_true,
    Option.map_eq_some_iff, Prod.mk.injEq, Std.ExtTreeMap.contains_iff_mem]
  constructor
  · rintro ⟨⟨⟨g, position⟩, a⟩, ha, ⟨hdep, hg⟩, v, hv, rfl, rfl⟩
    exact ⟨hg, position, a, Std.ExtTreeMap.mem_toList_iff_getElem?_eq_some.1 ha, hdep, hv⟩
  · rintro ⟨hg, position, a, ha, hdep, hv⟩
    exact ⟨(⟨g, position⟩, a), Std.ExtTreeMap.mem_toList_iff_getElem?_eq_some.2 ha, ⟨hdep, hg⟩, v, hv,
      rfl, rfl⟩

theorem mem_results : (f, r) ∈ ps.results ↔ ps[f]? = some (.ok r) := by
  rw [Procedures.results, List.mem_filterMap]
  constructor
  · rintro ⟨⟨f', x⟩, hx, h⟩
    have hx := Std.ExtTreeMap.mem_toList_iff_getElem?_eq_some.1 hx
    cases x with
    | error e => simp at h
    | ok r' =>
      obtain ⟨rfl, rfl⟩ : f' = f ∧ r' = r := by simpa using h
      exact hx
  · exact fun h => ⟨(f, .ok r), Std.ExtTreeMap.mem_toList_iff_getElem?_eq_some.2 h, rfl⟩

namespace Settled

variable (h : p.Settled oracle s seeds.seeding ps)
include h

theorem mem_iff : f ∈ ps ↔ f ∈ p.definedFunctions := by
  rw [Std.ExtTreeMap.mem_iff_isSome_getElem?, h f]
  split <;> simp_all

theorem eq_ok_iff : ps[f]? = some (.ok r) ↔
    f ∈ p.definedFunctions ∧ p.seeded oracle s seeds.seeding f = .ok r := by
  rw [h f]
  split <;> simp_all

theorem hasInput_iff : ps.hasInput g v ↔ g ∈ p.definedFunctions ∧
    ∃ r, p.seeded oracle s seeds.seeding g = .ok r ∧ v ∈ r.inputs := by
  have hinput : ps.hasInput g v ↔ ∃ r, ps[g]? = some (.ok r) ∧ v ∈ r.inputs := by
    rw [Procedures.hasInput]
    split <;> simp_all
  simp only [hinput, h.eq_ok_iff, and_assoc, exists_and_left]

/-- What a round finds is what the seeds lack. -/
theorem lacks_iff : (g, v) ∈ (ps.results.flatMap fun entry => p.receivers ps entry.2) ∧
    ¬ ps.hasInput g v ↔ p.Lacks oracle s seeds.seeding g v := by
  have hreceived : (g, v) ∈ (ps.results.flatMap fun entry => p.receivers ps entry.2) ↔
      g ∈ p.definedFunctions ∧ ∃ f ∈ p.definedFunctions, ∃ r,
        p.seeded oracle s seeds.seeding f = .ok r ∧ p.Receives r g v := by
    simp only [List.mem_flatMap, Prod.exists, mem_results, mem_receivers, h.mem_iff, h.eq_ok_iff]
    grind
  rw [hreceived, h.hasInput_iff]
  constructor
  · rintro ⟨⟨hg, hf⟩, hmissing⟩
    exact ⟨hg, hf, fun r hr hv => hmissing ⟨hg, r, hr, hv⟩⟩
  · rintro ⟨hg, hf, hmissing⟩
    exact ⟨⟨hg, hf⟩, fun ⟨_, r, hr, hv⟩ => hmissing r hr hv⟩

theorem mem_discover : v ∈ (p.discover ps seeds).1.seeding g ↔
    v ∈ seeds.seeding g ∨ p.Lacks oracle s seeds.seeding g v := by
  rw [← h.lacks_iff]
  exact mem_foldl_seed

theorem mem_grown : g ∈ (p.discover ps seeds).2 ↔
    ∃ v, p.Lacks oracle s seeds.seeding g v ∧ v ∉ seeds.seeding g := by
  simp only [← h.lacks_iff, and_assoc]
  exact mem_grown_foldl_seed.trans (or_iff_right Std.ExtTreeSet.not_mem_empty)

end Settled

theorem getElem?_analyzeListed (f : FuncId) : (p.analyzeListed oracle s seeds todo ps)[f]? =
    if f ∈ todo then some (p.seeded oracle s seeds.seeding f) else ps[f]? := by
  rw [analyzeListed]
  induction todo generalizing ps with
  | nil => simp
  | cons g todo ih =>
    rw [List.foldl_cons, ih, Std.ExtTreeMap.getElem?_insert]
    simp only [Std.LawfulEqOrd.compare_eq_iff_eq, List.mem_cons]
    split_ifs <;> simp_all [seeded, Seeds.seeding]

/-- Only the listed functions are still to be analysed with their seeds. -/
structure Due (p : Program) (oracle : Oracle) (s : Settings) (S : Seeding) (todo : List FuncId)
    (ps : Procedures) : Prop where
  defined : ∀ f ∈ todo, f ∈ p.definedFunctions
  others : ∀ f ∉ todo, ps[f]? = if f ∈ p.definedFunctions then some (p.seeded oracle s S f) else none

theorem Due.settled (h : p.Due oracle s seeds.seeding todo ps) :
    p.Settled oracle s seeds.seeding (p.analyzeListed oracle s seeds todo ps) := by
  intro f
  rw [getElem?_analyzeListed]
  split
  next hf => rw [if_pos (h.defined f hf)]
  next hf => exact h.others f hf

theorem Settled.due (h : p.Settled oracle s seeds.seeding ps) :
    p.Due oracle s (p.discover ps seeds).1.seeding (p.discover ps seeds).2.toList ps := by
  refine ⟨fun f hf => ?_, fun f hf => ?_⟩
  · obtain ⟨v, hv, -⟩ := h.mem_grown.1 (Std.ExtTreeSet.mem_toList.1 hf)
    exact hv.defined
  · -- the seeds of a function that is not listed are the same
    have hsame : (p.discover ps seeds).1.seeding f = seeds.seeding f := by
      refine Std.ExtTreeSet.ext_mem fun v => h.mem_discover.trans (or_iff_left_of_imp fun hv => ?_)
      by_contra hnew
      exact hf (Std.ExtTreeSet.mem_toList.2 (h.mem_grown.2 ⟨v, hv, hnew⟩))
    rw [h f, seeded, seeded, hsame]

theorem Lacks.mem_params (h : p.Lacks oracle s S g v) : v ∈ p.params g := by
  obtain ⟨-, ⟨f, -, r, -, position, a, -, -, hv⟩, -⟩ := h
  exact List.mem_of_getElem? hv

theorem Settled.isSeeding (h : p.Settled oracle s seeds.seeding ps) (hS : p.IsSeeding seeds.seeding) :
    p.IsSeeding (p.discover ps seeds).1.seeding :=
  fun f v hv => (h.mem_discover.1 hv).elim (hS f v) fun hv => hv.mem_params

end Discovery

section Count

def seedCount (p : Program) (S : Seeding) : Nat :=
  (p.definedFunctions.flatMap fun f => (S f).toList).length

def definedParamCount (p : Program) : Nat :=
  (p.definedFunctions.flatMap p.params).length

theorem size_le_length {t : Std.ExtTreeSet ValueId} {l : List ValueId} (h : ∀ v ∈ t, v ∈ l) :
    t.size ≤ l.length := by
  rw [← Std.ExtTreeSet.length_toList]
  refine List.Subperm.length_le (List.Nodup.subperm ?_ ?_)
  · exact Std.ExtTreeSet.distinct_toList.imp fun h he => h (by simp [he])
  · exact fun v hv => h v (Std.ExtTreeSet.mem_toList.1 hv)

theorem IsSeeding.seedCount_le (h : p.IsSeeding S) : p.seedCount S ≤ p.definedParamCount := by
  rw [seedCount, definedParamCount, List.length_flatMap, List.length_flatMap]
  refine List.sum_le_sum fun f _ => ?_
  rw [Std.ExtTreeSet.length_toList]
  exact size_le_length (h f)

theorem seedCount_lt (h : S.Below S') (hg : g ∈ p.definedFunctions) (hv : v ∈ S' g)
    (hnew : v ∉ S g) : p.seedCount S < p.seedCount S' := by
  rw [seedCount, seedCount, List.length_flatMap, List.length_flatMap]
  refine List.sum_lt_sum _ _ (fun f _ => ?_) ⟨g, hg, ?_⟩
  · rw [Std.ExtTreeSet.length_toList]
    exact size_le_length fun v hv => Std.ExtTreeSet.mem_toList.2 (h f v hv)
  · have hinsert : ((S g).insert v).size ≤ (S' g).toList.length := by
      refine size_le_length fun u hu => Std.ExtTreeSet.mem_toList.2 ?_
      rcases Std.ExtTreeSet.mem_insert.1 hu with hu | hu
      · rwa [← Std.LawfulEqOrd.compare_eq_iff_eq.1 hu]
      · exact h g u hu
    refine Nat.lt_of_lt_of_le ?_ hinsert
    simp [Std.ExtTreeSet.size_insert, hnew]

theorem definedParamCount_le (p : Program) : p.definedParamCount ≤ p.paramCount := by
  rw [definedParamCount, paramCount, List.length_flatMap, List.length_flatMap]
  exact (List.filter_sublist.map _).sum_le_sum fun _ _ => Nat.zero_le _

end Count

/-- Whatever a smaller seeding lacks is a seed. -/
def Absorbs (p : Program) (oracle : Oracle) (s : Settings) (S' : Seeding) : Prop :=
  ∀ S, p.IsSeeding S → S.Below S' → ∀ g v, p.Lacks oracle s S g v → v ∈ S' g

/-- A closed seeding with which all analyses succeed has what smaller seedings lack. -/
theorem IsClosed.absorbs (hp : p.WellFormed) (hphi : ∀ f ∈ p.definedFunctions, p.OwnPhisOnCycles f)
    (h : p.IsClosed oracle s S') (hok : ∀ f ∈ p.definedFunctions, ∃ r, p.seeded oracle s S' f = .ok r)
    (hS' : p.IsSeeding S') : p.Absorbs oracle s S' := by
  intro S hS hle g v hlacks
  obtain ⟨f, hf, r, hr, hv⟩ := hlacks.received
  obtain ⟨r', hr'⟩ := hok f hf
  obtain ⟨t, ht⟩ := hok g hlacks.defined
  have hinput := h f hf r' hr' g hlacks.defined v (hv.mono hp (hphi f hf) (hle f) hr hr') t ht
  refine ((mem_inputs_of_seeded ht).1 hinput).resolve_right fun ⟨hentry, _⟩ => ?_
  -- the inputs of the entry function are its parameters with any seeds
  have hmem {T : Seeding} (hT : p.IsSeeding T) (u : ValueId) :
      u ∈ (Context.ofSettings p s g (T g).toList).inputs ↔ u ∈ p.params g := by
    rw [Context.mem_inputs_ofSettings, Std.ExtTreeSet.mem_toList]
    exact ⟨fun hu => hu.elim (hT g u) And.right, fun hu => Or.inr ⟨hentry, hu⟩⟩
  have hcontext : Context.ofSettings p s g (S g).toList = Context.ofSettings p s g (S' g).toList :=
    Context.eq_ofSettings rfl fun u => (hmem hS u).trans (hmem hS' u).symm
  have hsame : p.seeded oracle s S g = .ok t := by
    rw [← ht, seeded, seeded, analyzeFunction, analyzeFunction, hcontext]
  exact hlacks.missing t hsame hinput

theorem Settled.isClosed {seeds : Seeds} {ps : Procedures}
    (h : p.Settled oracle s seeds.seeding ps) (hgrown : (p.discover ps seeds).2.isEmpty) :
    p.IsClosed oracle s seeds.seeding := by
  refine isClosed_of_lacks fun g v hlacks => ?_
  by_contra hnew
  have hmem := h.mem_grown.2 ⟨v, hlacks, hnew⟩
  simp [Std.ExtTreeSet.isEmpty_iff.1 hgrown] at hmem

theorem Settled.seedCount_lt_discover {seeds : Seeds} {ps : Procedures}
    (h : p.Settled oracle s seeds.seeding ps) (hgrown : ¬ (p.discover ps seeds).2.isEmpty) :
    p.seedCount seeds.seeding < p.seedCount (p.discover ps seeds).1.seeding := by
  rw [← Std.ExtTreeSet.isEmpty_toList, List.isEmpty_iff] at hgrown
  obtain ⟨g, hg⟩ := List.exists_mem_of_ne_nil _ hgrown
  obtain ⟨v, hlacks, hnew⟩ := h.mem_grown.1 (Std.ExtTreeSet.mem_toList.1 hg)
  exact seedCount_lt (fun f u hu => h.mem_discover.2 (Or.inl hu)) hlacks.defined
    (h.mem_discover.2 (Or.inr hlacks)) hnew

theorem rounds_eq (hscope : s.scope = .interprocedural) (fuel round : Nat) (seeds : Seeds)
    (todo : List FuncId) (ps : Procedures) : p.rounds oracle s fuel round seeds todo ps =
      let ps := p.analyzeListed oracle s seeds todo ps
      if (p.discover ps seeds).2.isEmpty then ⟨ps, round⟩
      else
        match fuel with
        | 0 => ⟨ps, round⟩
        | fuel + 1 => p.rounds oracle s fuel (round + 1) (p.discover ps seeds).1
          (p.discover ps seeds).2.toList ps := by
  rw [rounds]
  exact if_neg (not_not.2 hscope)

/-- The rounds end with a closed seeding that is below all that absorb it. -/
theorem exists_seeding_of_rounds (hscope : s.scope = .interprocedural) (fuel round : Nat)
    (seeds : Seeds) (todo : List FuncId) (ps : Procedures) (hS : p.IsSeeding seeds.seeding)
    (hdue : p.Due oracle s seeds.seeding todo ps)
    (hfuel : p.definedParamCount ≤ p.seedCount seeds.seeding + fuel) :
    let w := p.rounds oracle s fuel round seeds todo ps
    w.rounds + p.seedCount seeds.seeding ≤ round + p.definedParamCount ∧
      ∃ S, p.IsSeeding S ∧ p.Settled oracle s S w.procedures ∧ p.IsClosed oracle s S ∧
        ∀ S', p.Absorbs oracle s S' → seeds.seeding.Below S' → S.Below S' := by
  have hsettled := hdue.settled
  rw [rounds_eq hscope]
  dsimp only
  split
  next hempty =>
    refine ⟨Nat.add_le_add_left hS.seedCount_le round, _, hS, hsettled, hsettled.isClosed hempty, ?_⟩
    exact fun S' _ hle => hle
  next hgrown =>
    have hlt := hsettled.seedCount_lt_discover hgrown
    have hle := (hsettled.isSeeding hS).seedCount_le
    cases fuel with
    | zero => omega
    | succ fuel =>
      dsimp only
      obtain ⟨hrounds, S, hseeding, hends, hclosed, hleast⟩ :=
        exists_seeding_of_rounds hscope fuel (round + 1) _ _ _ (hsettled.isSeeding hS)
          hsettled.due (by omega)
      refine ⟨by omega, S, hseeding, hends, hclosed, fun S' habsorbs hle => ?_⟩
      refine hleast S' habsorbs fun f v hv => ?_
      exact (hsettled.mem_discover.1 hv).elim (hle f v) (habsorbs _ hS hle f v)

/-- The interprocedural analysis ends with the least seeding that is closed: no parameter that is
not an input receives a dependent argument, and any other closed seeding makes inputs of all
parameters that this one does. -/
theorem analysis_reaches_least_seeding {text : List Char} (hparse : Source.parse text = .ok p)
    (oracle : Oracle) (hscope : s.scope = .interprocedural) (hsettings : s.validate = .ok ())
    (hentry : (p.functionNamed? s.entry).isSome) :
    ∃ w S, p.analyze oracle s = .ok w ∧ w.rounds ≤ 1 + p.definedParamCount ∧ p.IsSeeding S ∧
      p.Settled oracle s S w.procedures ∧ p.IsClosed oracle s S ∧
      ((∀ f ∈ p.definedFunctions, p.OwnPhisOnCycles f) → ∀ S', p.IsSeeding S' →
        p.IsClosed oracle s S' → (∀ f ∈ p.definedFunctions, ∃ r, p.seeded oracle s S' f = .ok r) →
        S.Below S') := by
  have hempty (f : FuncId) : Seeds.seeding ∅ f = ∅ := Std.ExtTreeMap.getD_empty
  have hseeding : p.IsSeeding (Seeds.seeding ∅) := fun f v hv => by simp [hempty] at hv
  have hdue : p.Due oracle s (Seeds.seeding ∅) p.definedFunctions ∅ :=
    ⟨fun _ => id, fun f hf => by simp [hf]⟩
  have hfuel := p.definedParamCount_le.trans (Nat.le_add_left _ (p.seedCount (Seeds.seeding ∅)))
  obtain ⟨hrounds, S, hS, hsettled, hclosed, hleast⟩ :=
    exists_seeding_of_rounds hscope p.paramCount 1 ∅ p.definedFunctions ∅ hseeding hdue hfuel
  refine ⟨_, S, ?_, (Nat.le_add_right _ _).trans hrounds, hS, hsettled, hclosed, ?_⟩
  · simp [analyze, hsettings, Option.isSome_iff_ne_none.1 hentry]
    rfl
  · intro hphi S' hS' hclosed' hok
    have hp := Source.wellFormed_of_parse hparse
    exact hleast S' (hclosed'.absorbs hp hphi hok hS') fun f v hv => by simp [hempty] at hv

/-- Two functions that hand their parameter to each other. -/
def parityText : String :=
  "main(%x) \x7b
entry:
  %r = call @even, %x
  ret %r
\x7d
even(%n) \x7b
entry:
  %r = call @odd, %n
  ret %r
\x7d
odd(%k) \x7b
entry:
  %r = call @even, %k
  ret %r
\x7d
"

def parityProgram : Program where
  functions := #[⟨"main", false, ⟨0, 1⟩, ⟨0, 1⟩⟩, ⟨"even", false, ⟨1, 2⟩, ⟨3, 4⟩⟩,
    ⟨"odd", false, ⟨2, 3⟩, ⟨6, 7⟩⟩]
  blocks := #[⟨"entry", 1, 1, 3⟩, ⟨"entry", 4, 4, 6⟩, ⟨"entry", 7, 7, 9⟩]
  values := #[⟨"x", .param⟩, ⟨"r", .inst (.call (some 1) [0])⟩, ⟨"", .inst (.ret (some 1))⟩,
    ⟨"n", .param⟩, ⟨"r", .inst (.call (some 2) [3])⟩, ⟨"", .inst (.ret (some 4))⟩,
    ⟨"k", .param⟩, ⟨"r", .inst (.call (some 1) [6])⟩, ⟨"", .inst (.ret (some 7))⟩]
  globals := []

theorem parity_reaches_least_seeding :
    let p := parityProgram
    let s : Settings := { scope := .interprocedural }
    ∃ w S, p.analyze Oracle.conservative s = .ok w ∧ w.rounds = 3 ∧ p.IsSeeding S ∧
      p.Settled Oracle.conservative s S w.procedures ∧ p.IsClosed Oracle.conservative s S ∧
      ∀ S', p.IsSeeding S' → p.IsClosed Oracle.conservative s S' →
        (∀ f ∈ p.definedFunctions, ∃ r, p.seeded Oracle.conservative s S' f = .ok r) → S.Below S' := by
  intro p s
  have hparse : Source.parse parityText.toList = .ok p := eq_ok_of_toOption (by decide +kernel)
  obtain ⟨hentry, hrounds, hphis⟩ : (p.functionNamed? s.entry).isSome ∧
      (p.analyze Oracle.conservative s).toOption.map (·.rounds) = some 3 ∧
      ∀ f ∈ p.definedFunctions, ∀ b ∈ (p.flow f).order, ∀ i ∈ p.instructions b, ¬ p.isPhi i := by
    decide +kernel
  obtain ⟨w, S, hw, -, hS, hsettled, hclosed, hleast⟩ :=
    analysis_reaches_least_seeding hparse Oracle.conservative rfl rfl hentry
  refine ⟨w, S, hw, by simpa [hw, Except.toOption] using hrounds, hS, hsettled, hclosed, hleast ?_⟩
  exact fun f hf b hb _ i hi hphi => absurd hphi (hphis f hf b hb i hi)

end Program

end InputFlow
