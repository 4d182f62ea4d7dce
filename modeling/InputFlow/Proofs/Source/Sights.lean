import InputFlow.Proofs.Text
import InputFlow.Source.Lexeme

namespace InputFlow.Source

open InputFlow.Text

/-- The token of a lexeme, and whether the line has ended before it. -/
def Lexeme.sight (l : Lexeme) : Token × Bool :=
  (l.token, l.lineFeed?.isSome || decide (l.token = .finish))

/-- Takes the first of the sights for the first of its line. -/
def opened (sights : List (Token × Bool)) : List (Token × Bool) :=
  sights.modifyHead fun s => (s.1, true)

def lineSights (line : List Char) : List (Token × Bool) :=
  opened ((lexemes line).dropLast.map Lexeme.sight)

namespace Mode

/-- The mode with another line feed before its gap or lexeme. -/
def withFeed (lineFeed? : Option Nat) : Mode → Mode
  | gap _ => gap lineFeed?
  | comment _ => comment lineFeed?
  | word _ start read => word lineFeed? start read
  | zero _ start => zero lineFeed? start
  | decimal _ start read => decimal lineFeed? start read
  | hexadecimal _ start read => hexadecimal lineFeed? start read

def blur : Mode → Mode
  | gap lineFeed? => gap (lineFeed?.map fun _ => 0)
  | comment lineFeed? => comment (lineFeed?.map fun _ => 0)
  | word lineFeed? _ read => word (lineFeed?.map fun _ => 0) 0 read
  | zero lineFeed? _ => zero (lineFeed?.map fun _ => 0) 0
  | decimal lineFeed? _ read => decimal (lineFeed?.map fun _ => 0) 0 read
  | hexadecimal lineFeed? _ read => hexadecimal (lineFeed?.map fun _ => 0) 0 read

variable {m : Mode} {position : Nat} {c : Char}

theorem dropLast_close (m : Mode) (position : Nat) :
    (m.close position).dropLast = m.pending position := by
  cases m <;> simp [close, pending]

theorem close_ne_nil (m : Mode) (position : Nat) : m.close position ≠ [] := by
  cases m <;> simp [close]

theorem leave_fst (m : Mode) (position : Nat) (c : Char) :
    (m.leave position c).1 = m.pending position ++ (enter none position c).1 := rfl

theorem leave_snd (m : Mode) (position : Nat) (c : Char) :
    (m.leave position c).2 = (enter none position c).2 := rfl

theorem leave_of_isBlank (hmark : c ≠ ';') (hblank : isBlank c) :
    m.leave position c = (m.pending position, gap (if c = '\n' then some position else none)) := by
  simp [leave, enter, hmark, hblank]

/-- A line feed ends whatever the scanner is in the middle of. -/
theorem exists_step_break (m : Mode) (position : Nat) :
    ∃ feed, m.step position '\n' = (m.pending position, gap (some feed)) := by
  have hpart : isWordPart '\n' = false := by decide +kernel
  have hleave : m.leave position '\n' = (m.pending position, gap (some position)) :=
    leave_of_isBlank (by decide) (by decide)
  cases m with
  | gap feed? | comment feed? => cases feed? <;> exact ⟨_, rfl⟩
  | word feed? start read =>
    refine ⟨position, ?_⟩
    rw [step, hpart]
    exact hleave
  | _ => exact ⟨position, hleave⟩

/-- So does a carriage return, except for a comment. -/
theorem exists_step_return (m : Mode) (position : Nat) :
    ∃ next : Mode, m.step position '\r' = (m.pending position, next) ∧
      ∀ stop, next.pending stop = [] := by
  have hpart : isWordPart '\r' = false := by decide +kernel
  have hleave : m.leave position '\r' = (m.pending position, gap none) :=
    leave_of_isBlank (by decide) (by decide)
  cases m with
  | gap feed? => exact ⟨gap feed?, rfl, fun _ => rfl⟩
  | comment feed? => exact ⟨comment feed?, rfl, fun _ => rfl⟩
  | word feed? start read =>
    refine ⟨gap none, ?_, fun _ => rfl⟩
    rw [step, hpart]
    exact hleave
  | _ => exact ⟨gap none, hleave, fun _ => rfl⟩

theorem close_withFeed (feed : Nat) (m : Mode) (position : Nat) :
    (m.withFeed (some feed)).close position =
      (m.close position).modifyHead ({ · with lineFeed? := some feed }) := by
  cases m <;> rfl

/-- What is found, and the mode after it, are the same but for a line feed at the start. -/
def Fed (feed : Nat) (r s : List Lexeme × Mode) : Prop :=
  s.1 = r.1.modifyHead ({ · with lineFeed? := some feed }) ∧
    s.2 = if r.1 = [] then r.2.withFeed (some feed) else r.2

theorem fed_enter (feed : Nat) (feed? : Option Nat) (position : Nat) (c : Char) :
    Fed feed (enter feed? position c) (enter (some feed) position c) := by
  simp only [enter]
  split_ifs <;> simp [Fed, withFeed]

/-- The lexeme in progress takes the line feed. -/
theorem fed_leave (feed : Nat) (h : m.pending position ≠ []) (c : Char) :
    Fed feed (m.leave position c) ((m.withFeed (some feed)).leave position c) := by
  have hfound : (m.leave position c).1 ≠ [] := by
    rw [leave_fst]
    exact List.append_ne_nil_of_left_ne_nil h _
  refine ⟨?_, ?_⟩
  · rw [leave_fst, leave_fst]
    cases m with
    | gap feed? | comment feed? => exact absurd rfl h
    | _ => rfl
  · rw [if_neg hfound, leave_snd, leave_snd]

/-- The line feed goes to the first lexeme the scanner finds. -/
theorem fed_step (feed : Nat) (m : Mode) (position : Nat) (c : Char) :
    Fed feed (m.step position c) ((m.withFeed (some feed)).step position c) := by
  have hnone (next : Mode) : Fed feed ([], next) ([], next.withFeed (some feed)) := ⟨rfl, rfl⟩
  have hleave (h : m.pending position ≠ []) := fed_leave feed h c
  cases m with
  | gap feed? => exact fed_enter feed feed? position c
  | comment feed? =>
    simp only [step, withFeed]
    split
    · exact hnone (gap _)
    · exact hnone (comment feed?)
  | word feed? start read =>
    simp only [step, withFeed]
    split
    · exact hnone (word feed? start _)
    · exact hleave (List.cons_ne_nil _ _)
  | zero feed? start =>
    simp only [step, withFeed]
    split
    · exact hnone (hexadecimal feed? start _)
    · split
      · exact hnone (decimal feed? start _)
      · exact hleave (List.cons_ne_nil _ _)
  | decimal feed? start read =>
    simp only [step, withFeed]
    split
    · exact hnone (decimal feed? start _)
    · exact hleave (List.cons_ne_nil _ _)
  | hexadecimal feed? start read =>
    simp only [step, withFeed]
    split
    · exact hnone (hexadecimal feed? start _)
    · exact hleave (List.cons_ne_nil _ _)

/-- What is found looks the same, and so does the mode after it. -/
def LooksLike (r s : List Lexeme × Mode) : Prop :=
  r.1.map Lexeme.sight = s.1.map Lexeme.sight ∧ r.2.blur = s.2.blur

theorem enter_looksLike (feed? : Option Nat) (position : Nat) (c : Char) :
    LooksLike (enter feed? position c) (enter (feed?.map fun _ => 0) 0 c) := by
  simp only [enter]
  split_ifs <;> simp [LooksLike, blur, Lexeme.sight, Function.comp_def]

theorem leave_looksLike (m : Mode) (position : Nat) (c : Char) :
    LooksLike (m.leave position c) (m.blur.leave 0 c) := by
  obtain ⟨hmarks, hnext⟩ := enter_looksLike none position c
  have hpending : (m.pending position).map Lexeme.sight = (m.blur.pending 0).map Lexeme.sight := by
    cases m <;> simp [blur, pending, Lexeme.sight]
  refine ⟨?_, hnext⟩
  rw [leave_fst, leave_fst, List.map_append, List.map_append, hpending, hmarks]
  rfl

/-- A step does not depend on positions. -/
theorem step_looksLike (m : Mode) (position : Nat) (c : Char) :
    LooksLike (m.step position c) (m.blur.step 0 c) := by
  have hleave := m.leave_looksLike position c
  cases m with
  | gap feed? => exact enter_looksLike feed? position c
  | comment feed? =>
    simp only [step, blur]
    split <;> simp [LooksLike, blur, Function.comp_def]
  | word feed? start read =>
    simp only [step, blur]
    split
    · simp [LooksLike, blur, Function.comp_def]
    · exact hleave
  | zero feed? start =>
    simp only [step, blur]
    split
    · simp [LooksLike, blur, Function.comp_def]
    · split
      · simp [LooksLike, blur, Function.comp_def]
      · exact hleave
  | decimal feed? start read | hexadecimal feed? start read =>
    simp only [step, blur]
    split
    · simp [LooksLike, blur, Function.comp_def]
    · exact hleave

theorem sight_close_blur (m : Mode) (position : Nat) :
    (m.close position).map Lexeme.sight = (m.blur.close 0).map Lexeme.sight := by
  cases m <;> simp [blur, close, pending, Lexeme.sight]

end Mode

variable {m m' : Mode} {position position' : Nat} {text : List Char}

theorem scan_cons (m : Mode) (position : Nat) (c : Char) (text : List Char) :
    scan m position (c :: text) = (m.step position c).1 ++
      scan (m.step position c).2 (position + c.utf8Size) text := rfl

theorem scan_ne_nil (m : Mode) (position : Nat) (text : List Char) : scan m position text ≠ [] := by
  induction text generalizing m position with
  | nil => exact m.close_ne_nil position
  | cons c text ih =>
    rw [scan_cons]
    exact List.append_ne_nil_of_right_ne_nil _ (ih _ _)

/-- Where a text begins does not change what is seen of it. -/
theorem sight_scan (h : m.blur = m'.blur) :
    (scan m position text).map Lexeme.sight = (scan m' position' text).map Lexeme.sight := by
  induction text generalizing m m' position position' with
  | nil => rw [scan, scan, Mode.sight_close_blur, h, ← Mode.sight_close_blur]
  | cons c text ih =>
    obtain ⟨hfound, hnext⟩ := m.step_looksLike position c
    obtain ⟨hfound', hnext'⟩ := m'.step_looksLike position' c
    rw [← h] at hfound' hnext'
    rw [scan_cons, scan_cons, List.map_append, List.map_append, hfound, hfound',
      ih (hnext.trans hnext'.symm)]

/-- A line feed before a text goes to its first lexeme. -/
theorem scan_withFeed (feed : Nat) (m : Mode) (position : Nat) (text : List Char) :
    scan (m.withFeed (some feed)) position text =
      (scan m position text).modifyHead ({ · with lineFeed? := some feed }) := by
  induction text generalizing m position with
  | nil => exact m.close_withFeed feed position
  | cons c text ih =>
    obtain ⟨hfound, hnext⟩ := Mode.fed_step feed m position c
    rw [scan_cons, scan_cons, hfound, hnext]
    cases hstep : (m.step position c).1 with
    | nil => simp [ih]
    | cons l found => simp

/-- Two texts with a line feed between them are scanned one after the other. -/
theorem scan_append_break (m : Mode) (position : Nat) (text rest : List Char) :
    ∃ feed start, scan m position (text ++ '\n' :: rest) =
      (scan m position text).dropLast ++ scan (.gap (some feed)) start rest := by
  induction text generalizing m position with
  | nil =>
    obtain ⟨feed, hstep⟩ := m.exists_step_break position
    refine ⟨feed, position + '\n'.utf8Size, ?_⟩
    rw [List.nil_append, scan_cons, hstep, scan, Mode.dropLast_close]
  | cons c text ih =>
    obtain ⟨feed, start, hscan⟩ := ih (m.step position c).2 (position + c.utf8Size)
    refine ⟨feed, start, ?_⟩
    rw [List.cons_append, scan_cons, scan_cons, hscan,
      List.dropLast_append_of_ne_nil (scan_ne_nil _ _ _), List.append_assoc]

theorem sights_append_break (text rest : List Char) :
    (lexemes (text ++ '\n' :: rest)).map Lexeme.sight =
      (lexemes text).dropLast.map Lexeme.sight ++ opened ((lexemes rest).map Lexeme.sight) := by
  obtain ⟨feed, start, hscan⟩ := scan_append_break (.gap none) 0 text rest
  have hfeed := scan_withFeed feed (.gap none) start rest
  have hblur : (scan (.gap none) start rest).map Lexeme.sight = (lexemes rest).map Lexeme.sight :=
    sight_scan rfl
  rw [lexemes, hscan, List.map_append, ← lexemes, opened, ← hblur]
  congr 1
  rw [Mode.withFeed] at hfeed
  rw [hfeed]
  cases scan (.gap none) start rest with
  | nil => rfl
  | cons l found => simp [Lexeme.sight]

/-- The last lexeme is the end of the text. -/
theorem exists_finish (m : Mode) (position : Nat) (text : List Char) : ∃ l,
    scan m position text = (scan m position text).dropLast ++ [l] ∧ l.token = .finish := by
  induction text generalizing m position with
  | nil => cases m <;> simp [scan, Mode.close, Mode.pending]
  | cons c text ih =>
    obtain ⟨l, hscan, hl⟩ := ih (m.step position c).2 (position + c.utf8Size)
    refine ⟨l, ?_, hl⟩
    rw [scan_cons, List.dropLast_append_of_ne_nil (scan_ne_nil _ _ _), List.append_assoc, ← hscan]

theorem opened_append (front back : List (Token × Bool)) :
    opened (front ++ opened back) = opened front ++ opened back := by
  cases front with
  | nil => cases back <;> rfl
  | cons s front => rfl

/-- What is seen of a text, its first token taken for the first of a line, is what its lines give. -/
theorem opened_sights (lines : List (List Char)) :
    opened ((lexemes (['\n'].intercalate lines)).map Lexeme.sight) =
      lines.flatMap lineSights ++ [(.finish, true)] := by
  have hfinish : opened [(.finish, true)] = [(Token.finish, true)] := rfl
  have hsingle (line : List Char) : opened ((lexemes line).map Lexeme.sight) =
      lineSights line ++ [(.finish, true)] := by
    obtain ⟨l, hscan, hl⟩ := exists_finish (.gap none) 0 line
    have hsight : l.sight = (.finish, true) := by simp [Lexeme.sight, hl]
    rw [lexemes, hscan, List.map_append, List.map_singleton, hsight, ← hfinish, opened_append]
    rfl
  induction lines with
  | nil => rfl
  | cons line lines ih =>
    cases lines with
    | nil => simpa using hsingle line
    | cons next lines =>
      rw [List.intercalate_cons_cons, List.append_assoc, List.singleton_append,
        sights_append_break, opened_append, ih, ← lineSights]
      simp only [List.flatMap_cons, List.append_assoc]

/-- A carriage return at the end of a line is a blank like any other. -/
theorem dropLast_scan_return (m : Mode) (position : Nat) (line : List Char) :
    (scan m position (line ++ ['\r'])).dropLast = (scan m position line).dropLast := by
  induction line generalizing m position with
  | nil =>
    obtain ⟨next, hstep, hnext⟩ := m.exists_step_return position
    rw [List.nil_append, scan_cons, hstep, scan, scan, Mode.dropLast_close,
      List.dropLast_append_of_ne_nil (next.close_ne_nil _), Mode.dropLast_close, hnext,
      List.append_nil]
  | cons c line ih =>
    rw [List.cons_append, scan_cons, scan_cons, List.dropLast_append_of_ne_nil (scan_ne_nil _ _ _),
      List.dropLast_append_of_ne_nil (scan_ne_nil _ _ _), ih]

theorem lineSights_dropReturn (line : List Char) : lineSights (dropReturn line) = lineSights line := by
  rw [dropReturn]
  split
  next hlast =>
    obtain ⟨front, rfl⟩ := List.getLast?_eq_some_iff.1 (beq_iff_eq.1 hlast)
    rw [List.dropLast_concat, lineSights, lineSights, lexemes, lexemes, dropLast_scan_return]
  next => rfl

theorem scan_comment {line : List Char} (h : '\n' ∉ line) (feed? : Option Nat) (position : Nat) :
    (scan (.comment feed?) position line).dropLast = [] := by
  induction line generalizing position with
  | nil => rfl
  | cons c line ih =>
    have hc : c ≠ '\n' := fun hc => h (hc ▸ List.mem_cons_self)
    have hline : '\n' ∉ line := fun hline => h (List.mem_cons_of_mem c hline)
    have hstep : (Mode.comment feed?).step position c = ([], .comment feed?) := by
      simp [Mode.step, hc]
    rw [scan_cons, hstep, List.nil_append, ih hline]

theorem scan_blanks {blanks rest : List Char} (h : ∀ b ∈ blanks, isBlank b) (hrest : '\n' ∉ rest)
    (feed? : Option Nat) (position : Nat) :
    (scan (.gap feed?) position (blanks ++ ';' :: rest)).dropLast = [] := by
  induction blanks generalizing feed? position with
  | nil =>
    have hstep : (Mode.gap feed?).step position ';' = ([], .comment feed?) := rfl
    rw [List.nil_append, scan_cons, hstep, List.nil_append, scan_comment hrest]
  | cons b blanks ih =>
    rw [List.forall_mem_cons] at h
    have hb : b ≠ ';' := by
      intro hb
      have := hb ▸ h.1
      revert this
      decide
    have hstep : ∃ next?, (Mode.gap feed?).step position b = ([], .gap next?) := by
      simp [Mode.step, Mode.enter, hb, h.1]
    obtain ⟨next?, hstep⟩ := hstep
    rw [List.cons_append, scan_cons, hstep, List.nil_append, ih h.2]

/-- A comment line gives nothing. -/
theorem lineSights_comment {line rest : List Char} (hline : '\n' ∉ line)
    (h : trim line = ';' :: rest) : lineSights line = [] := by
  obtain ⟨blanks, behind, rfl, hblanks⟩ := exists_blanks_of_trim h
  have hbehind : '\n' ∉ behind := fun hmem =>
    hline (List.mem_append_right _ (List.mem_cons_of_mem _ hmem))
  rw [lineSights, lexemes, scan_blanks hblanks hbehind]
  rfl

theorem flatMap_lineSights_closeLines (pieces : List (List Char)) :
    (closeLines pieces).flatMap lineSights = pieces.flatMap lineSights := by
  induction pieces with
  | nil => rfl
  | cons line pieces ih =>
    cases pieces with
    | nil =>
      rw [closeLines]
      split
      next hempty => rw [List.isEmpty_iff.1 hempty]; rfl
      next => rfl
    | cons next pieces =>
      have hclose : closeLines (line :: next :: pieces) =
          dropReturn line :: closeLines (next :: pieces) := rfl
      rw [hclose, List.flatMap_cons, ih, lineSights_dropReturn, List.flatMap_cons (x := line)]

/-- What is seen of a text is what is seen of its lines. -/
theorem opened_sights_eq (text : List Char) :
    opened ((lexemes text).map Lexeme.sight) =
      (lines text).flatMap lineSights ++ [(.finish, true)] := by
  have h := opened_sights (splitBreaks text)
  rw [intercalate_splitBreaks] at h
  rw [h, lines, flatMap_lineSights_closeLines]

end InputFlow.Source
