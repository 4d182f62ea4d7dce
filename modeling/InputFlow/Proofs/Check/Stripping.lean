import InputFlow.Check.Spec
import InputFlow.Proofs.Source.Blindness

namespace InputFlow.Check

open InputFlow.Text InputFlow.Source

variable {line : List Char} {text : String} {spec : Spec}

theorem after?_eq_none {opening : String} (hopening : opening.toList.head? = some ';')
    (h : ∀ rest, line ≠ ';' :: rest) : after? opening.toList line = none := by
  by_contra hsome
  obtain ⟨rest, hrest⟩ := Option.ne_none_iff_exists'.1 hsome
  obtain ⟨lead, hlead⟩ := List.head?_eq_some_iff.1 hopening
  apply h (lead ++ rest)
  rw [after?_eq_some.1 hrest, hlead, List.cons_append]

/-- Every directive starts with the mark of a comment. -/
theorem kindOf_eq_program (h : ∀ rest, trim line ≠ ';' :: rest) : kindOf line = .program := by
  have hnone (opening : String) (hopening : opening.toList.head? = some ';') :=
    after?_eq_none hopening h
  simp only [kindOf, patternAfter?, hnone "; RUN:" (by decide), hnone "; CHECK-LABEL:" (by decide),
    hnone "; CHECK-NEXT:" (by decide), hnone "; CHECK-NOT:" (by decide),
    hnone "; CHECK-EMPTY" (by decide), hnone "; CHECK:" (by decide), hnone "; COM:" (by decide),
    hnone "; CHECK" (by decide), Option.map_none, Option.isSome_none, Bool.false_eq_true, if_false]

theorem lineSights_of_kindOf (hline : '\n' ∉ line) (h : kindOf line ≠ .program) :
    lineSights line = [] := by
  by_contra hsights
  apply h
  apply kindOf_eq_program
  intro rest hrest
  exact hsights (lineSights_comment hline hrest)

theorem flatMap_lineSights_filter {all : List (List Char)} (h : ∀ line ∈ all, '\n' ∉ line) :
    (all.filter fun line => kindOf line == .program).flatMap lineSights =
      all.flatMap lineSights := by
  induction all with
  | nil => rfl
  | cons line all ih =>
    rw [List.forall_mem_cons] at h
    by_cases hkind : kindOf line = .program
    · simp [hkind, ih h.2]
    · simp [hkind, ih h.2, lineSights_of_kindOf h.1 hkind]

/-- The program of a test is made of the lines that are no directives. -/
theorem toList_program (h : Spec.ofText text = .ok spec) : spec.program.toList =
    ['\n'].intercalate ((lines text.toList).filter fun line => kindOf line == .program) := by
  simp only [Spec.ofText] at h
  split at h
  · cases h
  · split at h
    · cases h
    · obtain rfl := Except.ok.inj h
      simp [String.toList_intercalate, Function.comp_def]

/-- The program of a test is read as the whole text is, or refused for the same reason. -/
theorem parse_program_eq_parse_text (h : Spec.ofText text = .ok spec) :
    (parse spec.program.toList).mapError Failure.error =
      (parse text.toList).mapError Failure.error := by
  apply parse_eq_of_sights
  have hlines : ∀ line ∈ lines text.toList, '\n' ∉ line := fun _ => notMem_of_mem_lines
  rw [toList_program h, opened_sights, opened_sights_eq, flatMap_lineSights_filter hlines]

/-- Directives around and between the lines of a program, one of which ends with its line. -/
def markedText : String :=
  "; RUN: show --print-ir\r\nf(%x) \x7b\nentry:\n  %v =\r\n  ; CHECK: Value v (any)\n  ret %v\n\x7d\n; COM: end"

def markedSpec : Spec where
  runs := [⟨"show", ["--print-ir"]⟩]
  checks := [.check "Value v (any)", .comment "end"]
  program := "f(%x) \x7b\nentry:\n  %v =\n  ret %v\n\x7d"

theorem markedText_program_eq : Spec.ofText markedText = .ok markedSpec ∧
    (parse markedSpec.program.toList).mapError Failure.error =
      (parse markedText.toList).mapError Failure.error := by
  have h : Spec.ofText markedText = .ok markedSpec := by decide +kernel
  exact ⟨h, parse_program_eq_parse_text h⟩

end InputFlow.Check
