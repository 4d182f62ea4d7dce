import InputFlow.Proofs.Procedure.Availability

namespace InputFlow

namespace Env

variable {env : Env} {entry b c : BlockId} {m m' : Blocks} {s t : BlockState} {v : ValueId}
  {passed current : List BlockId}

theorem Covered.of_agree (h : env.Covered m b) (hm : ∀ u, u = b ∨ u ∈ env.flow.preds b → m'[u]? = m[u]?) :
    env.Covered m' b := by
  intro u hu s t hs ht
  rw [hm u (Or.inr hu)] at hs
  rw [hm b (Or.inl rfl)] at ht
  exact h u hu s t hs ht

/-- The blocks in `passed` are final, and those in `current` can still be revised. -/
structure Stage (env : Env) (entry : BlockId) (passed current : List BlockId) (m : Blocks) : Prop where
  reached : env.Reached entry m
  mem : ∀ b, b ∈ m ↔ b ∈ passed ∨ b ∈ current
  fresh : ∀ b ∈ current, b ∉ passed
  isOpen : ∀ b ∈ current, ∀ s, m[b]? = some s → env.Open b s
  preds : ∀ b ∈ passed, ∀ u ∈ env.flow.preds b, u ∈ passed
  covered : ∀ b ∈ passed, env.Covered m b
  determined : ∀ b ∈ passed, Determined m b

namespace Stage

theorem start (env : Env) (entry : BlockId) : Stage env entry [] [] ∅ :=
  ⟨.refl, by simp, by simp, by simp, by simp, by simp, by simp⟩

theorem exists_state (h : Stage env entry passed current m) (hb : b ∈ passed ∨ b ∈ current) :
    ∃ s, m[b]? = some s :=
  exists_state_of_mem ((h.mem b).2 hb)

/-- A move of a block that is not final leaves the rest as it is. -/
theorem move (h : Stage env entry passed current m) (hmove : env.Move entry m (m.insert b s))
    (hb : b ∉ passed) (hs : env.Open b s) : Stage env entry passed (current ++ [b]) (m.insert b s) where
  reached := h.reached.tail hmove
  mem c := by
    rw [Std.ExtTreeMap.mem_insert, h.mem, Std.LawfulEqOrd.compare_eq_iff_eq]
    grind
  fresh c hc := by
    rcases List.mem_append.1 hc with hc | hc
    · exact h.fresh c hc
    · exact List.mem_singleton.1 hc ▸ hb
  isOpen c hc t ht := by
    rw [Blocks.getElem?_insert] at ht
    split at ht
    · subst_vars
      exact Option.some.inj ht ▸ hs
    · refine h.isOpen c ?_ t ht
      rcases List.mem_append.1 hc with hc | hc
      · exact hc
      · exact absurd (List.mem_singleton.1 hc).symm ‹b ≠ c›
  preds := h.preds
  covered c hc := by
    refine (h.covered c hc).of_agree fun u hu => ?_
    rw [Blocks.getElem?_insert, if_neg]
    rintro rfl
    rcases hu with rfl | hu
    · exact hb hc
    · exact hb (h.preds c hc _ hu)
  determined c hc t ht := by
    rw [Blocks.getElem?_insert, if_neg (by rintro rfl; exact hb hc)] at ht
    exact h.determined c hc t ht

theorem congr (h : Stage env entry passed current m) {current' : List BlockId}
    (hmem : ∀ b, b ∈ current ↔ b ∈ current') : Stage env entry passed current' m :=
  ⟨h.reached, fun b => (h.mem b).trans (or_congr_right (hmem b)), fun b hb => h.fresh b ((hmem b).2 hb),
    fun b hb => h.isOpen b ((hmem b).2 hb), h.preds, h.covered, h.determined⟩

end Stage

theorem enter_eq_ok {initial : FactMap} {flow : Flow} :
    env.enter flow initial m b = .ok m' ↔ ∃ s,
      env.analyze.run { block := b, entry := (exits flow m b).headD initial } = .ok () s ∧
        m' = m.insert b s := by
  simp only [enter]
  generalize env.analyze.run { block := b, entry := (exits flow m b).headD initial } = result
  cases result <;> simp [eq_comm]

/-- A block with an analysed predecessor, or the entry before all others, is entered with facts that
are sent to it. -/
theorem Stage.sent (h : Stage env entry passed current m)
    (hstart : (b = entry ∧ passed = [] ∧ current = []) ∨
      ∃ u ∈ env.flow.preds b, u ∈ passed ∨ u ∈ current) :
    env.Sent entry m b ((exits env.flow m b).headD env.initial) := by
  rcases hstart with ⟨rfl, rfl, rfl⟩ | ⟨u, hu, hum⟩
  · left
    have hexits : exits env.flow m b = [] := by
      refine List.filterMap_eq_nil_iff.2 fun u _ => ?_
      rw [Std.ExtTreeMap.getElem?_eq_none fun hm => by simpa using (h.mem u).1 hm]
      rfl
    exact ⟨rfl, by rw [hexits]; rfl⟩
  · right
    obtain ⟨t, ht⟩ := h.exists_state hum
    have hmem : t.values ∈ exits env.flow m b := mem_exits.2 ⟨u, hu, t, ht, rfl⟩
    cases hexits : exits env.flow m b with
    | nil => simp [hexits] at hmem
    | cons X rest => exact mem_exits.1 (by simp [hexits])

theorem Stage.enter (hv : env.Valid entry) (h : Stage env entry passed current m)
    (hb : b ∈ env.flow.order) (hpassed : b ∉ passed) (hcurrent : b ∉ current)
    (hstart : (b = entry ∧ passed = [] ∧ current = []) ∨
      ∃ u ∈ env.flow.preds b, u ∈ passed ∨ u ∈ current)
    (henter : env.enter env.flow env.initial m b = .ok m') :
    Stage env entry passed (current ++ [b]) m' := by
  obtain ⟨s, hs, rfl⟩ := enter_eq_ok.1 henter
  refine h.move (Move.enter hb ?_ (h.sent hstart) hs) hpassed (hv.open_of_run hs)
  exact Std.ExtTreeMap.getElem?_eq_none fun hm => ((h.mem b).1 hm).elim hpassed hcurrent

theorem Stage.enterAll (hv : env.Valid entry) (h : Stage env entry passed [] m) {C : Component}
    (hC : env.flow.Ready entry passed C) {bs rest : List BlockId} (hsplit : C.blocks = bs ++ rest)
    (henter : bs.foldlM (env.enter env.flow env.initial) m = .ok m') :
    Stage env entry passed bs m' := by
  induction bs using List.reverseRecOn generalizing rest m' with
  | nil => exact pure_eq_ok.1 henter ▸ h
  | append_singleton bs b ih =>
    have hsplit : C.blocks = bs ++ b :: rest := by simpa using hsplit
    rw [List.foldlM_append, bind_eq_ok] at henter
    obtain ⟨m₁, hbs, hb⟩ := henter
    have hmem : b ∈ C.blocks := by simp [hsplit]
    have hnew : b ∉ bs := by
      have hnodup := hsplit ▸ hC.nodup
      exact fun hb => (List.nodup_append.1 hnodup).2.2 b hb b List.mem_cons_self rfl
    exact (ih hsplit hbs).enter hv (hC.reachable b hmem) (hC.fresh b hmem) hnew
      (hC.start bs b rest hsplit) (by simpa using hb)

theorem reviseBlock_eq (hv : env.Valid entry) (hs : m[b]? = some s) (hopen : env.Open b s)
    (release : Bool) : ∃ t D, Revised env b (env.merged m b) s t ∧
      (release = false → D = t.derivations) ∧
      (env.reviseBlock env.flow env.initial release m b).1 = m.insert b { t with derivations := D } ∧
      ((env.reviseBlock env.flow env.initial release m b).2.exitChanged = false ↔
        ∀ v, t.values.fact v = s.values.fact v) ∧
      ∀ v, s.values.fact v ≤ t.values.fact v := by
  obtain ⟨t, D, ht, hD, hrevise, hexit⟩ := revised_revise hv.slots hopen.shaped hopen.closed
    hopen.isOpen (exits env.flow m b) env.initial release
  refine ⟨t, D, ht, hD, ?_⟩
  simp only [reviseBlock, hs]
  exact ⟨by rw [hrevise], hexit⟩

/-- A revision covers all predecessors, unless the block is one itself and its end changed. -/
theorem covered_of_revised (hs : m[b]? = some s) {D : Derivations}
    (ht : Revised env b (env.merged m b) s t)
    (hexit : b ∈ env.flow.preds b → ∀ v, t.values.fact v = s.values.fact v) :
    env.Covered (m.insert b { t with derivations := D }) b := by
  intro u hu su sb hsu hsb v
  rw [Blocks.getElem?_insert, if_pos rfl] at hsb
  obtain rfl := Option.some.inj hsb
  dsimp only
  rw [ht.entry]
  rw [Blocks.getElem?_insert] at hsu
  split at hsu
  · subst_vars
    obtain rfl := Option.some.inj hsu
    dsimp only
    rw [hexit hu]
    exact (le_merged hu hs v).trans le_sup_right
  · exact (le_merged hu hsu v).trans le_sup_right

/-- Another block stays covered, unless the end of a predecessor changes. -/
theorem Covered.of_revised (h : env.Covered m c) (hs : m[b]? = some s) (hne : b ≠ c)
    {D : Derivations} (hexit : b ∈ env.flow.preds c → ∀ v, t.values.fact v = s.values.fact v) :
    env.Covered (m.insert b { t with derivations := D }) c := by
  intro u hu su sc hsu hsc v
  rw [Blocks.getElem?_insert, if_neg hne] at hsc
  rw [Blocks.getElem?_insert] at hsu
  split at hsu
  · subst_vars
    obtain rfl := Option.some.inj hsu
    dsimp only
    rw [hexit hu]
    exact h _ hu s sc hs hsc v
  · exact h u hu su sc hsu hsc v

/-- Blocks that are not covered are pending. -/
structure Pending (env : Env) (members : List BlockId) (pending : Std.ExtTreeSet Nat) (m : Blocks) :
    Prop where
  places : ∀ i ∈ pending, ∃ b ∈ members, env.flow.index? b = some i
  covered : ∀ b ∈ members, (∃ i ∈ pending, env.flow.order[i]? = some b) ∨ env.Covered m b

theorem getElem?_of_index? {flow : Flow} {i : Nat} (h : flow.index? b = some i) :
    flow.order[i]? = some b := by
  obtain ⟨hi, hb, -⟩ := List.findIdx?_eq_some_iff_getElem.1 h
  exact List.getElem?_eq_some_iff.2 ⟨hi, by simpa using hb⟩

theorem exists_index? {flow : Flow} (h : b ∈ flow.order) : ∃ i, flow.index? b = some i := by
  rw [← Option.isSome_iff_exists, Flow.index?, List.findIdx?_isSome, List.any_eq_true]
  exact ⟨b, h, by simp⟩

theorem mem_followers {flow : Flow} {members : List BlockId} {i : Nat} :
    i ∈ followers flow members b ↔ ∃ c ∈ flow.succs b, c ∈ members ∧ flow.index? c = some i := by
  simp [followers, and_assoc]

/-- One turn of the loop. -/
theorem Pending.revise (hv : env.Valid entry) (hstage : Stage env entry passed current m)
    {pending : Std.ExtTreeSet Nat} (h : env.Pending current pending m)
    (hreachable : ∀ b ∈ current, b ∈ env.flow.order) {place : Nat} (hplace : place ∈ pending)
    (hb : env.flow.order[place]? = some b) :
    let r := env.reviseBlock env.flow env.initial false m b
    let again := if r.2.exitChanged then followers env.flow current b else []
    Stage env entry passed current r.1 ∧
      env.Pending current ((pending.erase place).insertMany again) r.1 := by
  intro r again
  obtain ⟨c, hc, hbc⟩ := h.places place hplace
  obtain rfl := Option.some.inj (hb.symm.trans (getElem?_of_index? hbc))
  obtain ⟨s, hs⟩ := hstage.exists_state (Or.inr hc)
  have hopen := hstage.isOpen b hc s hs
  obtain ⟨t, D, ht, hD, hm, hexit, -⟩ := reviseBlock_eq hv hs hopen false
  obtain rfl := hD rfl
  have hr : r.1 = m.insert b t := hm
  have hmem {i : Nat} : i ∈ (pending.erase place).insertMany again ↔
      (place ≠ i ∧ i ∈ pending) ∨ i ∈ again := by
    simp [Std.ExtTreeSet.mem_insertMany_list, Std.ExtTreeSet.mem_erase]
  -- If the end of the block changed, the members that follow it are pending.
  have hfollow {c : BlockId} (hc : c ∈ current) (hbc : b ∈ env.flow.preds c) :
      (∃ i ∈ (pending.erase place).insertMany again, env.flow.order[i]? = some c) ∨
        ∀ v, t.values.fact v = s.values.fact v := by
    cases hchanged : r.2.exitChanged with
    | false => exact Or.inr (hexit.1 hchanged)
    | true =>
      obtain ⟨i, hi⟩ := exists_index? (hreachable c hc)
      refine Or.inl ⟨i, hmem.2 (Or.inr ?_), getElem?_of_index? hi⟩
      simp only [again, hchanged, if_true]
      exact mem_followers.2 ⟨c, (Flow.mem_preds.1 hbc).2, hc, hi⟩
  refine ⟨?_, fun i hi => ?_, fun c hc' => ?_⟩
  · rw [hr]
    exact (hstage.move (Move.revise hs hopen ht) (hstage.fresh b hc)
      (hopen.revised ht)).congr fun c => by simp; rintro rfl; exact hc
  · rcases hmem.1 hi with ⟨-, hi⟩ | hi
    · exact h.places i hi
    · simp only [again] at hi
      split at hi
      · obtain ⟨c, -, hc, hci⟩ := mem_followers.1 hi
        exact ⟨c, hc, hci⟩
      · simp at hi
  · by_cases hp : (∃ i ∈ (pending.erase place).insertMany again, env.flow.order[i]? = some c)
    · exact Or.inl hp
    right
    have hexit' (hbc : b ∈ env.flow.preds c) := (hfollow hc' hbc).resolve_left hp
    rw [hr]
    by_cases hne : b = c
    · subst hne
      exact covered_of_revised hs ht hexit'
    · refine Covered.of_revised ((h.covered c hc').resolve_left ?_) hs hne hexit'
      rintro ⟨i, hi, hic⟩
      refine hp ⟨i, hmem.2 (Or.inl ⟨fun hplace => ?_, hi⟩), hic⟩
      rw [hplace, hic] at hb
      exact hne (Option.some.inj hb).symm

theorem Pending.covered_of_empty (h : env.Pending current ∅ m) : ∀ b ∈ current, env.Covered m b :=
  fun b hb => (h.covered b hb).resolve_left fun ⟨_, hi, _⟩ => Std.ExtTreeSet.not_mem_empty hi

theorem settle_empty {flow : Flow} {initial : FactMap} {rounds steps : Nat} {members : List BlockId} :
    env.settle flow initial rounds members steps ∅ m = .ok m := by
  cases steps <;> simp [settle]

theorem settle_zero_eq_ok {flow : Flow} {initial : FactMap} {rounds : Nat} {members : List BlockId}
    {pending : Std.ExtTreeSet Nat} :
    env.settle flow initial rounds members 0 pending m = .ok m' ↔ pending = ∅ ∧ m = m' := by
  rw [settle, ← Std.ExtTreeSet.isEmpty_iff]
  split <;> simp [*]

/-- While something is pending, the loop takes a turn. -/
theorem Pending.exists_turn {pending : Std.ExtTreeSet Nat} (h : env.Pending current pending m)
    (hpending : pending ≠ ∅) : ∃ place b, place ∈ pending ∧ env.flow.order[place]? = some b ∧
      ∀ rounds steps, env.settle env.flow env.initial rounds current (steps + 1) pending m =
        let r := env.reviseBlock env.flow env.initial false m b
        let again := if r.2.exitChanged then followers env.flow current b else []
        env.settle env.flow env.initial rounds current steps ((pending.erase place).insertMany again)
          r.1 := by
  cases hmin : pending.min? with
  | none => exact absurd (Std.ExtTreeSet.min?_eq_none_iff.1 hmin) hpending
  | some place =>
    have hplace := Std.ExtTreeSet.min?_mem hmin
    obtain ⟨b, -, hindex⟩ := h.places place hplace
    have horder := getElem?_of_index? hindex
    refine ⟨place, b, hplace, horder, fun rounds steps => ?_⟩
    rw [settle, ← Std.ExtTreeSet.min?_eq_head?_toList, hmin]
    simp only [horder]

/-- When nothing is pending any more, all members are covered. -/
theorem settle_covers (hv : env.Valid entry) (hreachable : ∀ b ∈ current, b ∈ env.flow.order)
    {rounds steps : Nat} {pending : Std.ExtTreeSet Nat} (hstage : Stage env entry passed current m)
    (h : env.Pending current pending m)
    (hsettle : env.settle env.flow env.initial rounds current steps pending m = .ok m') :
    Stage env entry passed current m' ∧ ∀ b ∈ current, env.Covered m' b := by
  induction steps generalizing pending m with
  | zero =>
    obtain ⟨rfl, rfl⟩ := settle_zero_eq_ok.1 hsettle
    exact ⟨hstage, h.covered_of_empty⟩
  | succ steps ih =>
    by_cases hempty : pending = ∅
    · subst hempty
      obtain rfl := Except.ok.inj (settle_empty.symm.trans hsettle)
      exact ⟨hstage, h.covered_of_empty⟩
    · obtain ⟨place, b, hplace, hb, hturn⟩ := h.exists_turn hempty
      obtain ⟨hstage', hpending⟩ := h.revise hv hstage hreachable hplace hb
      exact ih hstage' hpending ((hturn rounds steps).symm.trans hsettle)

theorem pending_start (hreachable : ∀ b ∈ current, b ∈ env.flow.order) :
    env.Pending current (.ofList (current.filterMap env.flow.index?)) m := by
  have hmem {i : Nat} : i ∈ Std.ExtTreeSet.ofList (current.filterMap env.flow.index?) ↔
      ∃ b ∈ current, env.flow.index? b = some i := by
    rw [Std.ExtTreeSet.mem_ofList, List.contains_iff_mem, List.mem_filterMap]
  refine ⟨fun i hi => hmem.1 hi, fun b hb => ?_⟩
  obtain ⟨i, hi⟩ := exists_index? (hreachable b hb)
  exact Or.inl ⟨i, hmem.2 ⟨b, hb, hi⟩, getElem?_of_index? hi⟩

/-- A single predecessor is covered when a block is entered. -/
theorem covered_of_enter (hv : env.Valid entry) (hb : b ∉ env.flow.preds b)
    (hsingle : (env.flow.preds b).length ≤ 1)
    (hs : env.analyze.run { block := b, entry := (exits env.flow m b).headD env.initial } = .ok () s) :
    env.Covered (m.insert b s) b := by
  intro u hu su sb hsu hsb v
  rw [Blocks.getElem?_insert, if_pos rfl] at hsb
  obtain rfl := Option.some.inj hsb
  have hne : b ≠ u := fun h => hb (h ▸ hu)
  rw [Blocks.getElem?_insert, if_neg hne] at hsu
  have hpreds : env.flow.preds b = [u] := by
    generalize env.flow.preds b = us at hu hsingle
    cases us with
    | nil => simp at hu
    | cons a rest =>
      cases rest with
      | nil => rw [List.mem_singleton.1 hu]
      | cons _ _ => simp at hsingle
  rw [hv.entry_of_run hs, exits, hpreds]
  simp [hsu]

/-- Concluding a block changes what its successors are sent only where it was unknown. -/
theorem Covered.conclude (h : env.Covered m c) (hs : m[b]? = some s)
    (hi : ∀ v ∈ env.initial, v ∈ s.values) (hknown : b ∈ env.flow.preds c → Determined m b) :
    env.Covered (m.insert b (s.conclude env.initial)) c := by
  intro u hu su sc hsu hsc v
  obtain ⟨tc, htc, hentry⟩ : ∃ tc, m[c]? = some tc ∧ sc.entry = tc.entry := by
    rw [Blocks.getElem?_insert] at hsc
    split at hsc
    · subst_vars
      obtain rfl := Option.some.inj hsc
      exact ⟨s, hs, rfl⟩
    · exact ⟨sc, hsc, rfl⟩
  rw [hentry]
  rw [Blocks.getElem?_insert] at hsu
  split at hsu
  next hbu =>
    subst hbu
    obtain rfl := Option.some.inj hsu
    rw [fact_values_conclude hi]
    split
    · rw [Fact.settle_of_ne_unknown (hknown hu s hs v ‹_›)]
      exact h b hu s tc hs htc v
    · exact Fact.unknown_le _
  next => exact h u hu su tc hsu htc v

theorem Determined.conclude {initial : FactMap} (h : b ≠ c → Determined m c) :
    Determined (m.insert b (s.conclude initial)) c := by
  intro t ht v hv
  rw [Blocks.getElem?_insert] at ht
  split at ht
  next =>
    obtain rfl := Option.some.inj ht
    rw [BlockState.conclude, Facts.fact_settle_of_mem (Facts.mem_settle.1 hv)]
    exact Fact.settle_ne_unknown _
  next hne => exact h hne t ht v hv

theorem modify_eq_insert {f : BlockState → BlockState} (hs : m[b]? = some s) :
    m.modify b f = m.insert b (f s) := by
  refine Std.ExtTreeMap.ext_getElem? fun c => ?_
  rw [Std.ExtTreeMap.getElem?_modify, Blocks.getElem?_insert]
  simp [hs]

theorem concludeAll (hv : env.Valid entry) (bs : List BlockId) (hm : env.Reached entry m)
    (hbs : ∀ b ∈ bs, b ∈ m) :
    let m' := bs.foldl (fun m b => m.modify b (·.conclude env.initial)) m
    env.Reached entry m' ∧ (∀ c, c ∈ m' ↔ c ∈ m) ∧
      (∀ c, c ∈ bs ∨ Determined m c → Determined m' c) ∧
      ∀ c, (∀ b ∈ bs, b ∈ env.flow.preds c → Determined m b) → env.Covered m c → env.Covered m' c := by
  induction bs generalizing m with
  | nil => exact ⟨hm, fun _ => Iff.rfl, fun _ h => h.resolve_left (by simp), fun _ _ => id⟩
  | cons b bs ih =>
    have hb := hbs b List.mem_cons_self
    obtain ⟨s, hs⟩ := exists_state_of_mem hb
    have hmem (c : BlockId) : c ∈ m.insert b (s.conclude env.initial) ↔ c ∈ m := by
      rw [Std.ExtTreeMap.mem_insert, Std.LawfulEqOrd.compare_eq_iff_eq]
      exact or_iff_right_of_imp fun h => h ▸ hb
    obtain ⟨hreached, hkeys, hdetermined, hcovered⟩ := ih (hm.tail (Move.conclude hs)) fun c hc =>
      (hmem c).2 (hbs c (List.mem_cons_of_mem _ hc))
    rw [List.foldl_cons, modify_eq_insert hs]
    refine ⟨hreached, fun c => (hkeys c).trans (hmem c), fun c hc => ?_, fun c hknown hc => ?_⟩
    · by_cases hcb : c ∈ bs
      · exact hdetermined c (Or.inl hcb)
      · refine hdetermined c (Or.inr (Determined.conclude fun hne => hc.resolve_left ?_))
        exact List.not_mem_cons_of_ne_of_not_mem (Ne.symm hne) hcb
    · refine hcovered c (fun u hu huc => Determined.conclude fun _ => ?_) ?_
      · exact hknown u (List.mem_cons_of_mem b hu) huc
      · exact hc.conclude hs (hm.present hv b s hs).initial (hknown b List.mem_cons_self)

/-- What is left to do for a component once its blocks are covered is to conclude them. -/
structure Settled (env : Env) (entry : BlockId) (passed current : List BlockId) (m : Blocks) : Prop where
  reached : env.Reached entry m
  mem : ∀ b, b ∈ m ↔ b ∈ passed ∨ b ∈ current
  preds : ∀ b ∈ passed, ∀ u ∈ env.flow.preds b, u ∈ passed
  determined : ∀ b ∈ passed, Determined m b
  covered : ∀ b, b ∈ passed ∨ b ∈ current → env.Covered m b
  /-- Concluding the blocks changes nothing for each other. -/
  stable : ∀ b ∈ current, ∀ c ∈ current, b ∈ env.flow.preds c → Determined m b

/-- In a loop, all that is sent has become known when the facts have settled. -/
theorem Stage.settled_loop (hv : env.Valid entry) (h : Stage env entry passed current m)
    (hcurrent : ∀ b ∈ current, env.Covered m b)
    (hpreds : ∀ b ∈ current, ∀ u ∈ env.flow.preds b, u ∈ passed ∨ u ∈ current)
    (hcycle : ∀ b ∈ current, env.program.Leads b b) : env.Settled entry passed current m := by
  have hcovered (b : BlockId) (hb : b ∈ passed ∨ b ∈ current) : env.Covered m b :=
    hb.elim (h.covered b) (hcurrent b)
  have hbalanced : env.Balanced entry m := by
    refine ⟨hv, h.reached, fun b hb => hcovered b ((h.mem b).1 hb), fun b hb u hu => (h.mem u).2 ?_⟩
    exact ((h.mem b).1 hb).elim (fun hb => Or.inl (h.preds b hb u hu)) fun hb => hpreds b hb u hu
  have hdetermined := hbalanced.determined fun b hb =>
    ((h.mem b).1 hb).imp (h.determined b) (hcycle b)
  exact ⟨h.reached, h.mem, h.preds, h.determined, hcovered, fun b _ _ _ _ => hdetermined b⟩

/-- A block on no cycle is covered by one revision, or has but one predecessor. -/
theorem Stage.settled_single (hv : env.Valid entry)
    (hstage : Stage env entry passed [b] (m.insert b s)) (hpassed : b ∉ passed)
    (hself : b ∉ env.flow.preds b)
    (hs : env.analyze.run { block := b, entry := (exits env.flow m b).headD env.initial } = .ok () s) :
    env.Settled entry passed [b] (if 1 < (env.flow.preds b).length then
      (env.reviseBlock env.flow env.initial true (m.insert b s) b).1 else m.insert b s) := by
  have hstable (m : Blocks) : ∀ c ∈ [b], ∀ d ∈ [b], c ∈ env.flow.preds d → Determined m c := by
    simp only [List.mem_singleton]
    rintro c rfl d rfl hc
    exact absurd hc hself
  split
  next hmany =>
    have hb : (m.insert b s)[b]? = some s := by rw [Blocks.getElem?_insert, if_pos rfl]
    have hopen := hstage.isOpen b List.mem_cons_self s hb
    obtain ⟨t, D, ht, -, hm, -⟩ := reviseBlock_eq hv hb hopen true
    rw [hm]
    refine ⟨hstage.reached.tail (Move.revise hb hopen ht), fun c => ?_, hstage.preds, fun c hc => ?_,
      fun c hc => ?_, hstable _⟩
    · rw [Std.ExtTreeMap.mem_insert, hstage.mem, Std.LawfulEqOrd.compare_eq_iff_eq]
      grind
    · intro sc hsc
      rw [Blocks.getElem?_insert, if_neg (by rintro rfl; exact hpassed hc)] at hsc
      exact hstage.determined c hc sc hsc
    · rcases hc with hc | hc
      · refine (hstage.covered c hc).of_revised hb (fun h => hpassed (h ▸ hc)) fun hbc => ?_
        exact absurd (hstage.preds c hc b hbc) hpassed
      · obtain rfl := List.mem_singleton.1 hc
        exact covered_of_revised hb ht fun h => absurd h hself
  next hfew =>
    refine ⟨hstage.reached, hstage.mem, hstage.preds, hstage.determined, fun c hc => ?_, hstable _⟩
    refine hc.elim (hstage.covered c) fun hc => ?_
    obtain rfl := List.mem_singleton.1 hc
    exact covered_of_enter hv hself (not_lt.1 hfew) hs

theorem Stage.component (hv : env.Valid entry) (h : Stage env entry passed [] m) {C : Component}
    (hC : env.flow.Ready entry passed C) {rounds : Nat}
    (hcomponent : env.component env.flow env.initial rounds m C = .ok m') :
    Stage env entry (passed ++ C.blocks) [] m' := by
  rw [Env.component, bind_eq_ok] at hcomponent
  obtain ⟨m₁, henter, hrest⟩ := hcomponent
  have hstage := h.enterAll hv hC (List.append_nil _).symm henter
  obtain ⟨m₂, hsettled, rfl⟩ : ∃ m₂, env.Settled entry passed C.blocks m₂ ∧
      C.blocks.foldl (fun m b => m.modify b (·.conclude env.initial)) m₂ = m' := by
    split at hrest
    next hcyclic =>
      obtain ⟨m₂, hsettle, hm₂⟩ := bind_eq_ok.1 hrest
      obtain ⟨hstage', hcovered⟩ := settle_covers hv hC.reachable hstage
        (pending_start hC.reachable) hsettle
      refine ⟨m₂, hstage'.settled_loop hv hcovered hC.preds fun b hb => ?_, pure_eq_ok.1 hm₂⟩
      exact Relation.TransGen.mono (fun _ _ => List.mem_eraseDups.1) b b (hC.cycle hcyclic b hb)
    next hcyclic =>
      obtain ⟨b, hblocks, hself⟩ := hC.single (by simpa using hcyclic)
      rw [hblocks] at henter hstage hrest ⊢
      obtain ⟨m₃, hb, hm₃⟩ := bind_eq_ok.1 henter
      obtain rfl := pure_eq_ok.1 hm₃
      obtain ⟨s, hs, rfl⟩ := enter_eq_ok.1 hb
      have hsingle := hstage.settled_single hv (hC.fresh b (by simp [hblocks])) hself hs
      refine ⟨_, hsingle, ?_⟩
      by_cases hmany : 1 < (env.flow.preds b).length
      · simp only [List.find?_cons, hmany, decide_true, pure_bind, pure_eq_ok] at hrest
        rw [if_pos hmany, hrest]
      · simp only [List.find?_cons, hmany, decide_false, List.find?_nil, pure_bind,
          pure_eq_ok] at hrest
        rw [if_neg hmany, hrest]
  obtain ⟨hreached, hmem, hdetermined, hcovered⟩ := concludeAll hv C.blocks hsettled.reached
    fun b hb => (hsettled.mem b).2 (Or.inr hb)
  refine ⟨hreached, fun b => ?_, by simp, by simp, fun b hb u hu => ?_, fun b hb => ?_, fun b hb => ?_⟩
  · rw [hmem, hsettled.mem]
    simp
  · rcases List.mem_append.1 hb with hb | hb
    · exact List.mem_append_left _ (hsettled.preds b hb u hu)
    · exact List.mem_append.2 (hC.preds b hb u hu)
  · have hb := List.mem_append.1 hb
    refine hcovered b (fun u hu hub => ?_) (hsettled.covered b hb)
    rcases hb with hb | hb
    · exact absurd (hsettled.preds b hb u hub) (hC.fresh u hu)
    · exact hsettled.stable u hu b hb hub
  · exact hdetermined b ((List.mem_append.1 hb).symm.imp_right (hsettled.determined b))

/-- The components that come first have been passed. -/
theorem stage_of_components (hv : env.Valid entry) {rounds : Nat} {Cs rest : List Component}
    (hsplit : env.flow.components = Cs ++ rest)
    (hfold : Cs.foldlM (env.component env.flow env.initial rounds) ∅ = .ok m) :
    Stage env entry (Cs.flatMap (·.blocks)) [] m := by
  induction Cs using List.reverseRecOn generalizing rest m with
  | nil => exact pure_eq_ok.1 hfold ▸ Stage.start env entry
  | append_singleton Cs C ih =>
    have hsplit : env.flow.components = Cs ++ C :: rest := by simpa using hsplit
    rw [List.foldlM_append, bind_eq_ok] at hfold
    obtain ⟨m₁, hCs, hC⟩ := hfold
    simpa using (ih hsplit hCs).component hv (hv.startsAt.ready hsplit) (by simpa using hC)

/-- The blocks at the end of the analysis. -/
structure Finished (env : Env) (entry : BlockId) (m : Blocks) : Prop where
  valid : env.Valid entry
  reached : env.Reached entry m
  mem : ∀ b, b ∈ m ↔ b ∈ env.flow.order
  covered : ∀ b ∈ env.flow.order, env.Covered m b
  determined : ∀ b ∈ env.flow.order, Determined m b

theorem run_of_no_entry {rounds : Nat} (h : env.program.entryBlock? env.context.func = none) :
    env.run rounds = .error (.missingEntry env.context.func) := by
  rw [run, h]
  rfl

theorem run_of_entry {rounds : Nat} (h : env.program.entryBlock? env.context.func = some entry) :
    env.run rounds = (do
      let m ← env.flow.components.foldlM (env.component env.flow env.initial rounds) ∅
      return Procedure.ofBlocks env.context env.flow.order m) := by
  rw [run, h]
  rfl

theorem run_eq_ok {rounds : Nat} {r : Procedure} : env.run rounds = .ok r ↔
    ∃ entry m, env.program.entryBlock? env.context.func = some entry ∧
      env.flow.components.foldlM (env.component env.flow env.initial rounds) ∅ = .ok m ∧
      r = Procedure.ofBlocks env.context env.flow.order m := by
  cases hentry : env.program.entryBlock? env.context.func with
  | none => simp [run_of_no_entry hentry]
  | some entry =>
    rw [run_of_entry hentry, bind_eq_ok]
    simp only [pure_eq_ok, Option.some.injEq, exists_and_left, exists_eq_left', eq_comm (a := r)]

/-- The analysis of a function ends with all its blocks covered. -/
theorem finished_of_run {rounds : Nat} {r : Procedure} (hp : env.program.WellFormed)
    (hc : env.context.IsOf env.program) (hrun : env.run rounds = .ok r) :
    ∃ entry m, env.Finished entry m ∧ r = Procedure.ofBlocks env.context env.flow.order m := by
  obtain ⟨entry, m, hentry, hm, rfl⟩ := run_eq_ok.1 hrun
  have hv : env.Valid entry := ⟨hp, hc, hentry⟩
  have hstage := stage_of_components hv (List.append_nil _).symm hm
  have hmem {b : BlockId} := hv.startsAt.mem_components (b := b)
  refine ⟨entry, m, ⟨hv, hstage.reached, fun b => ?_, fun b hb => hstage.covered b (hmem.2 hb),
    fun b hb => hstage.determined b (hmem.2 hb)⟩, rfl⟩
  rw [hstage.mem, hmem]
  simp

theorem Valid.finished_of_run {rounds : Nat} {r : Procedure} (hv : env.Valid entry)
    (hrun : env.run rounds = .ok r) :
    ∃ m, env.Finished entry m ∧ r = Procedure.ofBlocks env.context env.flow.order m := by
  obtain ⟨entry', m, hfin, hr⟩ := Env.finished_of_run hv.wellFormed hv.isOf hrun
  obtain rfl : entry = entry' := Option.some.inj (hv.entryBlock.symm.trans hfin.valid.entryBlock)
  exact ⟨m, hfin, hr⟩

theorem Finished.exists_state (h : env.Finished entry m) (hb : b ∈ env.flow.order) :
    ∃ s, m[b]? = some s :=
  exists_state_of_mem ((h.mem b).2 hb)

/-- The reported facts of a block are those of the values that are available at its end. -/
theorem Finished.mem_values_iff (h : env.Finished entry m) (hs : m[b]? = some s) :
    v ∈ s.values ↔ env.Available entry b v := by
  refine Balanced.mem_values_iff ⟨h.valid, h.reached, fun b hb => h.covered b ((h.mem b).1 hb),
    fun b _ u hu => (h.mem u).2 (mem_preds.1 hu).1⟩ (fun b hb => ?_) hs
  exact Or.inl (h.determined b ((h.mem b).1 hb))

theorem Finished.mem_instructions_iff (h : env.Finished entry m) (hs : m[b]? = some s) {i : ValueId} :
    i ∈ s.instructions ↔ i ∈ env.program.instructions b := by
  obtain ⟨t, hcore⟩ := (h.reached.present h.valid b s hs).core
  rw [hcore.instructions]
  exact hcore.shaped.instructions i

/-- The fact of an instruction is that of its block. -/
theorem Finished.instruction?_eq (h : env.Finished entry m) (hs : m[b]? = some s) {i : ValueId}
    (hi : i ∈ env.program.instructions b) :
    (Procedure.ofBlocks env.context env.flow.order m).instruction? i = s.instructions[i]? := by
  have hunion (ts : List BlockState) (facts : FactMap)
      (hts : ∀ t ∈ ts, i ∈ t.instructions → t.instructions[i]? = s.instructions[i]?)
      (hfacts : facts[i]? = s.instructions[i]? ∨ ∃ t ∈ ts, i ∈ t.instructions) :
      (ts.foldl (fun facts t => facts ∪ t.instructions) facts)[i]? = s.instructions[i]? := by
    induction ts generalizing facts with
    | nil => exact hfacts.resolve_right (by simp)
    | cons t ts ih =>
      refine ih _ (fun t' ht' => hts t' (List.mem_cons_of_mem t ht')) ?_
      rw [Std.ExtTreeMap.getElem?_union]
      by_cases ht : i ∈ t.instructions
      · rw [hts t List.mem_cons_self ht, Facts.getElem?_of_mem ((h.mem_instructions_iff hs).2 hi)]
        exact Or.inl rfl
      · rw [Std.ExtTreeMap.getElem?_eq_none ht, Option.none_or]
        exact hfacts.imp_right fun ⟨t', ht', hit'⟩ =>
          ⟨t', (List.mem_cons.1 ht').resolve_left fun heq => ht (heq ▸ hit'), hit'⟩
  refine hunion _ ∅ (fun t ht hit => ?_) (Or.inr ⟨s, ?_, (h.mem_instructions_iff hs).2 hi⟩)
  · obtain ⟨⟨c, t⟩, hc, rfl⟩ := List.mem_map.1 ht
    have hc := Std.ExtTreeMap.mem_toList_iff_getElem?_eq_some.1 hc
    obtain rfl := h.valid.wellFormed.eq_of_mem_instructions hi ((h.mem_instructions_iff hc).1 hit)
    obtain rfl := Option.some.inj (hs.symm.trans hc)
    rfl
  · exact List.mem_map.2 ⟨(b, s), Std.ExtTreeMap.mem_toList_iff_getElem?_eq_some.2 hs, rfl⟩

theorem Finished.instruction?_eq_none (h : env.Finished entry m) {i : ValueId}
    (hi : ∀ b ∈ env.flow.order, i ∉ env.program.instructions b) :
    (Procedure.ofBlocks env.context env.flow.order m).instruction? i = none := by
  have hunion (ts : List BlockState) (facts : FactMap) (hts : ∀ t ∈ ts, i ∉ t.instructions)
      (hfacts : facts[i]? = none) :
      (ts.foldl (fun facts t => facts ∪ t.instructions) facts)[i]? = none := by
    induction ts generalizing facts with
    | nil => exact hfacts
    | cons t ts ih =>
      refine ih _ (fun t' ht' => hts t' (List.mem_cons_of_mem t ht')) ?_
      rw [Std.ExtTreeMap.getElem?_union, Std.ExtTreeMap.getElem?_eq_none (hts t List.mem_cons_self),
        hfacts]
      rfl
  refine hunion _ ∅ (fun t ht hit => ?_) (by simp)
  obtain ⟨⟨c, t⟩, hc, rfl⟩ := List.mem_map.1 ht
  have hc := Std.ExtTreeMap.mem_toList_iff_getElem?_eq_some.1 hc
  exact hi c ((h.mem c).1 (mem_of_getElem? hc)) ((h.mem_instructions_iff hc).1 hit)

end Env

end InputFlow
