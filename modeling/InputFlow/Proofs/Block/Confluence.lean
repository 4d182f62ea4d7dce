import InputFlow.Proofs.Block.Agreement
import InputFlow.Proofs.Block.Settling

namespace InputFlow

namespace Revision

variable {p : Program} {r : Revision}

/-- A fact on entry that says nothing new changes nothing. -/
theorem joinEntry_of_le {v : ValueId} {a : Dep} (hv : v ∈ r.state.entry)
    (ha : a ≤ r.state.entry.fact v) : r.joinEntry p v a = r := by
  have hgrows : (r.state.entry.fact v).grows a = false :=
    Bool.eq_false_iff.2 fun h => Fact.grows_iff.1 h ha
  have henter : r.state.enter v a = r.state := by
    have hentry := Facts.joinAt_of_le hv ha
    rw [Facts.joinAt, Fact.join_eq_sup] at hentry
    simp [BlockState.enter, hgrows, hentry]
  simp [joinEntry_eq, hgrows, entered, henter]

theorem joinEntries_of_le {vs : List (ValueId × Dep)}
    (hvs : ∀ v ∈ vs, v.1 ∈ r.state.entry ∧ v.2 ≤ r.state.entry.fact v.1) :
    vs.foldl (fun r v => r.joinEntry p v.1 v.2) r = r := by
  induction vs with
  | nil => rfl
  | cons v vs ih =>
    obtain ⟨hv, ha⟩ := hvs v List.mem_cons_self
    rw [List.foldl_cons, joinEntry_of_le hv ha]
    exact ih fun u hu => hvs u (.tail _ hu)

end Revision

namespace Complete

variable {env : Env} {b : BlockId} {s : BlockState}

theorem entry_revise (h : Complete env b s) (preds : List FactMap) (initial : FactMap) :
    (s.revise env.program preds initial false).1.entry =
      s.entry.join (BlockState.mergedEntry preds initial) := by
  rw [BlockState.revise_eq h.isOpen]
  exact BlockState.entry_revision _ _ _

theorem settles_revise (h : Complete env b s) (preds : List FactMap) (initial : FactMap) :
    Settles env.program s (s.revise env.program preds initial false).1 := by
  rw [BlockState.revise_eq h.isOpen]
  exact Revision.settles_joinEntries (r := { state := s }) _ h

/-- A revision for facts that are on entry already changes nothing. -/
theorem revise_of_join_eq (h : Complete env b s) {preds : List FactMap} {initial : FactMap}
    (hentry : s.entry.join (BlockState.mergedEntry preds initial) = s.entry) :
    s.revise env.program preds initial false = (s, {}) := by
  have hrevision : s.revision env.program (BlockState.mergedEntry preds initial) = { state := s } := by
    apply Revision.joinEntries_of_le
    intro v hv
    have hv := Std.ExtTreeMap.mem_toList_iff_getElem?_eq_some.1 hv
    change v.1 ∈ s.entry ∧ v.2 ≤ s.entry.fact v.1
    rw [← hentry, Facts.fact_join, Facts.mem_join]
    exact ⟨.inr (Facts.mem_of_some hv), le_sup_of_le_right (Facts.fact_of_some hv).ge⟩
  rw [BlockState.revise_eq h.isOpen, hrevision]
  rfl

end Complete

/-- The facts on entry for two lists of predecessors that leave nothing to the initial facts. -/
theorem BlockState.mergedEntry_append {P Q : List FactMap} {I : FactMap}
    (hP : ∀ v ∈ I, ∃ X ∈ P, v ∈ X) (hQ : ∀ v ∈ I, ∃ X ∈ Q, v ∈ X) :
    mergedEntry (P ++ Q) I = (mergedEntry P I).join (mergedEntry Q I) := by
  have hmerged {L : List FactMap} (hL : ∀ v ∈ I, ∃ X ∈ L, v ∈ X) : mergedEntry L I = Facts.joinAll L :=
    Facts.orElse_eq_left fun v hv => Facts.mem_joinAll.2 (hL v hv)
  have happend : ∀ v ∈ I, ∃ X ∈ P ++ Q, v ∈ X := by
    intro v hv
    obtain ⟨X, hX, hvX⟩ := hP v hv
    exact ⟨X, List.mem_append_left Q hX, hvX⟩
  rw [hmerged happend, hmerged hP, hmerged hQ, Facts.joinAll_append]

namespace Env

/-- Revisions can be repeated, taken in any order, and taken at once. -/
theorem revisions_are_confluent {text : List Char} {env : Env} {b : BlockId} {s : BlockState}
    (hparse : Source.parse text = .ok env.program) (hcontext : env.context.IsOf env.program)
    (hs : env.Revisable b s) (P Q : List FactMap) (I : FactMap) :
    let after (preds : List FactMap) (s : BlockState) := (s.revise env.program preds I false).1
    ((after P s).revise env.program P I false).2.isUnchanged ∧
      after P (after P s) = after P s ∧
      after Q (after P s) = after P (after Q s) ∧
      ((∀ v ∈ I, (∃ X ∈ P, v ∈ X) ∧ ∃ X ∈ Q, v ∈ X) → after Q (after P s) = after (P ++ Q) s) := by
  intro after
  have hslots := slotsAreStorage (Source.wellFormed_of_parse hparse) hcontext
  have h : Complete env b s := hs.complete hslots
  have hP : Complete env b (after P s) := h.revise P I false
  have hQ : Complete env b (after Q s) := h.revise Q I false
  have hPQ : Complete env b (after Q (after P s)) := hP.revise Q I false
  have hsettles := (h.settles_revise P I).trans (hP.settles_revise Q I)
  have hentry : (after Q (after P s)).entry =
      (s.entry.join (BlockState.mergedEntry P I)).join (BlockState.mergedEntry Q I) := by
    rw [hP.entry_revise, h.entry_revise]
  have hagain : (after P s).revise env.program P I false = (after P s, {}) := by
    apply hP.revise_of_join_eq
    rw [h.entry_revise, Facts.join_assoc, Facts.join_self]
  have hunchanged : ((after P s).revise env.program P I false).2.isUnchanged := by
    rw [hagain]
    rfl
  have hsame : after P (after P s) = after P s := by
    change ((after P s).revise env.program P I false).1 = after P s
    rw [hagain]
  refine ⟨hunchanged, hsame, ?_, fun hI => ?_⟩
  · have hsettles' := (h.settles_revise Q I).trans (hQ.settles_revise P I)
    apply hsettles.unique hsettles' hPQ (hQ.revise P I false)
    rw [hentry, hQ.entry_revise, h.entry_revise, Facts.join_right_comm]
  · apply hsettles.unique (h.settles_revise (P ++ Q) I) hPQ (h.revise (P ++ Q) I false)
    rw [hentry, h.entry_revise, Facts.join_assoc,
      BlockState.mergedEntry_append (fun v hv => (hI v hv).1) fun v hv => (hI v hv).2]

/-- A phi that takes a result of its own block, and a slot that is read and written there. -/
def totalText : String :=
  "main(%x, %y) \x7b
entry:
  %s = alloca 8, 8
  br ^loop
loop:
  %i = phi [^entry, %x], [^loop, %n]
  %a = load %s
  %n = add %i, %a
  store %n, %s
  condbr %n, ^loop, ^done
done:
  ret %n
\x7d
"

def totalProgram : Program :=
  Source.readProgram totalText

theorem parse_totalText : Source.parse totalText.toList = .ok totalProgram :=
  Source.parse_eq_readProgram totalText (by decide +kernel)

/-- The revisions of `loop` for the end of `entry` and for its own end, in the one order and in the
other. -/
theorem total_revisions_are_confluent :
    let env := plain totalProgram
    let initial : FactMap := .ofList [(2, Fact.independent)]
    let before : List FactMap := [.ofList [(2, Fact.on 0)]]
    let own : List FactMap := [.ofList [(2, Fact.independent), (6, Fact.on 1)]]
    let after (preds : List FactMap) (s : BlockState) := (s.revise totalProgram preds initial false).1
    ∃ s, env.Revisable 1 s ∧ ((after before s).revise totalProgram own initial false).2.exitChanged ∧
      ((after before s).revise totalProgram before initial false).2.isUnchanged ∧
      after before (after before s) = after before s ∧
      after own (after before s) = after before (after own s) ∧
      after own (after before s) = after (before ++ own) s := by
  intro env initial before own after
  have hok : (env.analysis? 1 initial).map (fun s =>
      ((after before s).revise totalProgram own initial false).2.exitChanged) = some true := by
    decide +kernel
  obtain ⟨s, hs, hchanged⟩ := Option.map_eq_some_iff.1 hok
  have hrevisable : env.Revisable 1 s := .analyze (.start initial) (analysis?_eq_some.1 hs)
  have hmentioned : ∀ v ∈ initial, (∃ X ∈ before, v ∈ X) ∧ ∃ X ∈ own, v ∈ X := by
    intro v hv
    obtain rfl : 2 = v := by simpa [initial] using hv
    simp [before, own]
  obtain ⟨hunchanged, hsame, hcomm, hboth⟩ := revisions_are_confluent parse_totalText
    (plain_isOf totalProgram) hrevisable before own initial
  exact ⟨s, hrevisable, hchanged, hunchanged, hsame, hcomm, hboth hmentioned⟩

end Env

end InputFlow
