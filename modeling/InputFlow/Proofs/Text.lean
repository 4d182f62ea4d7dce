import InputFlow.Text.Lines
import Mathlib.Data.List.DropRight

namespace InputFlow.Text

variable {lead pattern text rest : List Char}

theorem after?_eq_some : after? lead text = some rest ↔ text = lead ++ rest := by
  induction lead generalizing text with
  | nil => simp [after?]
  | cons c lead ih =>
    cases text with
    | nil => simp [after?]
    | cons d text =>
      rw [after?]
      by_cases h : c = d
      · simp [h, ih]
      · simp [h, Ne.symm h]

theorem isSome_after? : (after? lead text).isSome ↔ lead <+: text := by
  rw [Option.isSome_iff_exists]
  constructor
  · intro h
    obtain ⟨rest, hrest⟩ := h
    exact ⟨rest, (after?_eq_some.1 hrest).symm⟩
  · intro h
    obtain ⟨rest, hrest⟩ := h
    exact ⟨rest, after?_eq_some.2 hrest.symm⟩

theorem occursIn_iff : occursIn pattern text ↔ pattern <:+: text := by
  induction text with
  | nil => simp [occursIn]
  | cons c text ih => rw [occursIn, Bool.or_eq_true, isSome_after?, ih, List.infix_cons_iff]

theorem trim_eq_rdropWhile : trim text = (text.dropWhile isBlank).rdropWhile isBlank := rfl

theorem trim_eq_nil_iff : trim text = [] ↔ ∀ c ∈ text, isBlank c := by
  rw [trim_eq_rdropWhile, List.rdropWhile_eq_nil_iff]
  constructor
  · intro h c hc
    rw [← List.takeWhile_append_dropWhile (p := isBlank) (l := text), List.mem_append] at hc
    cases hc with
    | inl hc => exact List.mem_takeWhile_imp hc
    | inr hc => exact h c hc
  · intro h c hc
    exact h c ((List.dropWhile_sublist isBlank).mem hc)

/-- A text that starts with a visible character when it is trimmed has only blanks before it. -/
theorem exists_blanks_of_trim {c : Char} (h : trim text = c :: rest) :
    ∃ blanks behind, text = blanks ++ c :: behind ∧ ∀ b ∈ blanks, isBlank b := by
  have hlead : c :: rest <+: text.dropWhile isBlank := by
    rw [← h, trim_eq_rdropWhile]
    exact List.rdropWhile_prefix isBlank _
  obtain ⟨behind, hbehind⟩ := hlead
  refine ⟨text.takeWhile isBlank, rest ++ behind, ?_, ?_⟩
  · rw [← List.cons_append, hbehind, List.takeWhile_append_dropWhile]
  · intro b hb
    exact List.mem_takeWhile_imp hb

theorem splitBreaks_ne_nil (text : List Char) : splitBreaks text ≠ [] := by
  cases text with
  | nil => simp [splitBreaks]
  | cons c text =>
    rw [splitBreaks]
    split
    · simp
    · split <;> simp

theorem intercalate_splitBreaks (text : List Char) :
    ['\n'].intercalate (splitBreaks text) = text := by
  induction text with
  | nil => rfl
  | cons c text ih =>
    obtain ⟨line, lines, hlines⟩ := List.exists_cons_of_ne_nil (splitBreaks_ne_nil text)
    rw [hlines] at ih
    rw [splitBreaks, hlines]
    split
    next hc =>
      rw [List.intercalate_cons_cons, ih]
      simp [beq_iff_eq.1 hc]
    next => cases lines <;> simp_all [List.intercalate_cons_cons]

theorem notMem_of_mem_splitBreaks {line : List Char} (h : line ∈ splitBreaks text) : '\n' ∉ line := by
  induction text generalizing line with
  | nil => simp_all [splitBreaks]
  | cons c text ih =>
    rw [splitBreaks] at h
    split at h
    next =>
      cases List.mem_cons.1 h with
      | inl h => simp [h]
      | inr h => exact ih h
    next hc =>
      obtain ⟨first, lines, hlines⟩ := List.exists_cons_of_ne_nil (splitBreaks_ne_nil text)
      rw [hlines] at h ih
      cases List.mem_cons.1 h with
      | inl h =>
        have hfirst := ih List.mem_cons_self
        have hne : c ≠ '\n' := by simpa using hc
        simp [h, hfirst, hne.symm]
      | inr h => exact ih (List.mem_cons_of_mem _ h)

theorem mem_of_mem_dropReturn {line : List Char} {c : Char} (h : c ∈ dropReturn line) : c ∈ line := by
  rw [dropReturn] at h
  split at h
  · exact List.dropLast_subset line h
  · exact h

theorem notMem_of_mem_closeLines {pieces : List (List Char)} (h : ∀ piece ∈ pieces, '\n' ∉ piece)
    {line : List Char} (hline : line ∈ closeLines pieces) : '\n' ∉ line := by
  induction pieces with
  | nil => cases hline
  | cons piece pieces ih =>
    rw [List.forall_mem_cons] at h
    cases pieces with
    | nil =>
      rw [closeLines] at hline
      split at hline
      · cases hline
      · exact List.mem_singleton.1 hline ▸ h.1
    | cons next pieces =>
      have hclose : line = dropReturn piece ∨ line ∈ closeLines (next :: pieces) :=
        List.mem_cons.1 hline
      cases hclose with
      | inl hline => exact fun hmem => h.1 (mem_of_mem_dropReturn (hline ▸ hmem))
      | inr hline => exact ih h.2 hline

theorem notMem_of_mem_lines {line : List Char} (h : line ∈ lines text) : '\n' ∉ line :=
  notMem_of_mem_closeLines (fun _ => notMem_of_mem_splitBreaks) h

end InputFlow.Text
