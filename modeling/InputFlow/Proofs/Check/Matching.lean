import InputFlow.Check.Directive
import InputFlow.Proofs.Source.Layout
import InputFlow.Proofs.Text
import Mathlib.Data.List.Forall2
import Mathlib.Data.List.ReduceOption

namespace InputFlow.Check

open InputFlow.Text

def Shows (lines : List (List Char)) (n : Nat) (pattern : String) : Prop :=
  ∃ line, lines[n]? = some line ∧ pattern.toList <:+: line

def IsBlankLine (lines : List (List Char)) (n : Nat) : Prop :=
  ∃ line, lines[n]? = some line ∧ ∀ c ∈ line, isBlank c

/-- The line behind the last one taken, which is `start` if none was. -/
def resume (start : Nat) (places : List (Option Nat)) : Nat :=
  places.foldl (fun start place => place.elim start (· + 1)) start

/-- No line from `start` up to the next one taken contains the pattern. -/
def Absent (lines : List (List Char)) (start : Nat) (places : List (Option Nat)) (pattern : String) :
    Prop :=
  ∀ n, start ≤ n → (∀ m ∈ places.reduceOption, n < m) → ¬ Shows lines n pattern

/-- The line a directive takes is one it asks for, when `start` is the next line. Only a blank line is
not asked for where the text has ended. -/
def Fits (lines : List (List Char)) (start : Nat) : Directive → Option Nat → Prop
  | .check pattern, some n | .label pattern, some n => Shows lines n pattern
  | .next pattern, some n => n = start ∧ Shows lines n pattern
  | .empty, some n => n = start ∧ IsBlankLine lines n
  | .empty, none => lines.length ≤ start
  | .not _, none | .comment _, none => True
  | _, _ => False

/-- The directives take these lines, from `start` on. -/
structure Matching (lines : List (List Char)) (start : Nat) (directives : List Directive)
    (places : List (Option Nat)) : Prop where
  length_eq : places.length = directives.length
  increasing : places.reduceOption.Pairwise (· < ·)
  start_le : ∀ n ∈ places.reduceOption, start ≤ n
  fits : ∀ i d place, directives[i]? = some d → places[i]? = some place →
    Fits lines (resume start (places.take i)) d place
  absent : ∀ i pattern, directives[i]? = some (.not pattern) →
    Absent lines (resume start (places.take i)) (places.drop i) pattern

namespace Directive

def pattern? : Directive → Option String
  | check pattern | label pattern => some pattern
  | _ => none

def isPlain : Directive → Bool
  | check _ | label _ | comment _ => true
  | _ => false

end Directive

variable {lines skipped rest : List (List Char)} {line : List Char} {start n : Nat}
  {forbidden : List String} {pattern : String} {d : Directive} {directives : List Directive}
  {place : Option Nat} {places : List (Option Nat)}

theorem contains_iff : contains line pattern ↔ pattern.toList <:+: line :=
  occursIn_iff

theorem refuse_eq_ok : refuse lines forbidden = .ok () ↔
    ∀ pattern ∈ forbidden, ∀ line ∈ lines, ¬ pattern.toList <:+: line := by
  induction forbidden with
  | nil => simp [refuse, pure_eq_ok]
  | cons pattern forbidden ih =>
    rw [refuse, List.forM_eq_forM] at ih
    rw [refuse, List.forM_eq_forM, List.forM_cons, bind_eq_ok, List.forall_mem_cons, ← ih]
    have hfind : (∀ line ∈ lines, ¬ pattern.toList <:+: line) ↔
        lines.find? (contains · pattern) = none := by
      simp [List.find?_eq_none, ← contains_iff]
    rw [hfind]
    cases lines.find? (contains · pattern) with
    | none => simp
    | some line => simp

theorem splitAtMatch_eq_some (h : splitAtMatch pattern lines = some (skipped, rest)) :
    ∃ line, lines = skipped ++ line :: rest ∧ pattern.toList <:+: line ∧
      ∀ other ∈ skipped, ¬ pattern.toList <:+: other := by
  induction lines generalizing skipped with
  | nil => cases h
  | cons first lines ih =>
    rw [splitAtMatch] at h
    split at h
    next hfirst =>
      obtain ⟨rfl, rfl⟩ : [] = skipped ∧ lines = rest := by simpa using h
      exact ⟨first, rfl, contains_iff.1 hfirst, by simp⟩
    next hfirst =>
      obtain ⟨r, hr, heq⟩ := Option.map_eq_some_iff.1 h
      obtain ⟨rfl, rfl⟩ : first :: r.1 = skipped ∧ r.2 = rest := by simpa using heq
      obtain ⟨line, hlines, hline, hskipped⟩ := ih hr
      refine ⟨line, by rw [hlines, List.cons_append], hline, ?_⟩
      rw [contains_iff] at hfirst
      exact List.forall_mem_cons.2 ⟨hfirst, hskipped⟩

theorem exists_splitAtMatch (h : ∃ line ∈ lines, pattern.toList <:+: line) :
    ∃ skipped rest, splitAtMatch pattern lines = some (skipped, rest) := by
  induction lines with
  | nil => simp at h
  | cons first lines ih =>
    rw [splitAtMatch]
    split
    · exact ⟨[], lines, rfl⟩
    next hfirst =>
      rw [contains_iff] at hfirst
      obtain ⟨skipped, rest, hsplit⟩ := ih (by simpa [hfirst] using h)
      exact ⟨first :: skipped, rest, by rw [hsplit]; rfl⟩

theorem advance_eq_ok {missing : Mismatch} : advance lines forbidden pattern missing = .ok rest ↔
    ∃ skipped, splitAtMatch pattern lines = some (skipped, rest) ∧
      refuse skipped forbidden = .ok () := by
  rw [advance]
  cases hsplit : splitAtMatch pattern lines with
  | none => simp
  | some r =>
    obtain ⟨skipped, behind⟩ := r
    simp only [bind_eq_ok, pure_eq_ok, Option.some.injEq, Prod.mk.injEq]
    constructor
    · intro h
      obtain ⟨_, hrefuse, hrest⟩ := h
      exact ⟨skipped, ⟨rfl, hrest⟩, hrefuse⟩
    · intro h
      obtain ⟨other, ⟨hskipped, hrest⟩, hrefuse⟩ := h
      exact ⟨(), hskipped ▸ hrefuse, hrest⟩

/-- The lines from `start` on begin with some lines and go on with another. -/
theorem getElem?_of_drop_eq (h : lines.drop start = skipped ++ line :: rest) :
    lines[start + skipped.length]? = some line ∧ lines.drop (start + skipped.length + 1) = rest ∧
      ∀ n, start ≤ n → n < start + skipped.length → ∃ other ∈ skipped, lines[n]? = some other := by
  refine ⟨?_, ?_, ?_⟩
  · rw [← List.getElem?_drop, h]
    simp
  · rw [Nat.add_assoc, ← List.drop_drop, h]
    simp
  · intro n hstart hn
    have hlt : n - start < skipped.length := by omega
    refine ⟨skipped[n - start], List.getElem_mem hlt, ?_⟩
    have hget : (lines.drop start)[n - start]? = some skipped[n - start] := by
      rw [h, List.getElem?_append_left hlt, List.getElem?_eq_getElem hlt]
    rwa [List.getElem?_drop, Nat.add_sub_cancel' hstart] at hget

theorem getElem?_of_drop_eq_cons (h : lines.drop start = line :: rest) :
    lines[start]? = some line ∧ lines.drop (start + 1) = rest := by
  rw [← List.nil_append (line :: rest)] at h
  obtain ⟨hline, hrest, -⟩ := getElem?_of_drop_eq h
  exact ⟨hline, hrest⟩

namespace Matching

theorem nil : Matching lines start [] [] where
  length_eq := rfl
  increasing := .nil
  start_le := by simp
  fits := by simp
  absent := by simp

/-- One more directive before the others, which go on behind the line it takes. -/
theorem cons (hfits : Fits lines start d place) (hstart : ∀ n ∈ place, start ≤ n)
    (habsent : ∀ pattern, d = .not pattern → Absent lines start places pattern)
    (h : Matching lines (place.elim start (· + 1)) directives places) :
    Matching lines start (d :: directives) (place :: places) := by
  refine ⟨by simp [h.length_eq], ?_, ?_, ?_, ?_⟩
  · cases place with
    | none => exact h.increasing
    | some n => exact List.pairwise_cons.2 ⟨h.start_le, h.increasing⟩
  · cases place with
    | none => exact h.start_le
    | some n =>
      have hn : start ≤ n := hstart n rfl
      intro m hm
      cases List.mem_cons.1 hm with
      | inl hm => omega
      | inr hm =>
        have hnm : n + 1 ≤ m := h.start_le m hm
        omega
  · intro i e q hd hq
    cases i with
    | zero =>
      obtain rfl := Option.some.inj hd
      obtain rfl := Option.some.inj hq
      exact hfits
    | succ i => exact h.fits i e q hd hq
  · intro i pattern hd
    cases i with
    | zero =>
      intro n hn hbefore
      refine habsent pattern (Option.some.inj hd) n hn ?_
      intro m hm
      apply hbefore
      cases place with
      | none => exact hm
      | some k => exact List.mem_cons_of_mem _ hm
    | succ i => exact h.absent i pattern hd

end Matching

/-- Advancing takes the next line with the pattern, and no forbidden pattern occurs before it. -/
theorem exists_line_of_advance {missing : Mismatch}
    (h : advance (lines.drop start) forbidden pattern missing = .ok rest) :
    ∃ n, start ≤ n ∧ Shows lines n pattern ∧ lines.drop (n + 1) = rest ∧
      ∀ other ∈ forbidden, ∀ m, start ≤ m → m < n → ¬ Shows lines m other := by
  obtain ⟨skipped, hsplit, hrefuse⟩ := advance_eq_ok.1 h
  obtain ⟨line, hlines, hoccurs, -⟩ := splitAtMatch_eq_some hsplit
  obtain ⟨hline, hrest, hbefore⟩ := getElem?_of_drop_eq hlines
  refine ⟨start + skipped.length, by omega, ⟨line, hline, hoccurs⟩, hrest, ?_⟩
  intro other hother m hstart hm hshows
  obtain ⟨passed, hpassed, hm⟩ := hbefore m hstart hm
  obtain ⟨found, hfound, hin⟩ := hshows
  obtain rfl : passed = found := Option.some.inj (hm.symm.trans hfound)
  exact refuse_eq_ok.1 hrefuse other hother passed hpassed hin

theorem absent_cons (h : ∀ m, start ≤ m → m < n → ¬ Shows lines m pattern) :
    Absent lines start (some n :: places) pattern := by
  intro m hstart hbefore
  exact h m hstart (hbefore n List.mem_cons_self)

/-- Checking lines succeeds only if the directives have lines to take, and if no pattern forbidden at
the start occurs before the first of them. -/
theorem exists_matching (h : checkLines (lines.drop start) forbidden directives = .ok ()) :
    ∃ places, Matching lines start directives places ∧
      ∀ pattern ∈ forbidden, Absent lines start places pattern := by
  induction directives generalizing start forbidden with
  | nil =>
    refine ⟨[], .nil, ?_⟩
    rw [checkLines, refuse_eq_ok] at h
    intro pattern hpattern n hn _ hshows
    obtain ⟨line, hline, hoccurs⟩ := hshows
    have hmem : line ∈ lines.drop start := by
      rw [List.mem_iff_getElem?]
      exact ⟨n - start, by rwa [List.getElem?_drop, Nat.add_sub_cancel' hn]⟩
    exact h pattern hpattern line hmem hoccurs
  | cons d directives ih =>
    cases d with
    | comment text =>
      obtain ⟨places, hplaces, habsent⟩ := ih h
      exact ⟨none :: places, hplaces.cons trivial (by simp) (by simp), habsent⟩
    | not pattern =>
      obtain ⟨places, hplaces, habsent⟩ := ih h
      rw [List.forall_mem_append] at habsent
      refine ⟨none :: places, hplaces.cons trivial (by simp) ?_, habsent.1⟩
      intro other hother
      obtain rfl : pattern = other := by simpa using hother
      exact habsent.2 pattern List.mem_cons_self
    | check pattern | label pattern =>
      rw [checkLines, bind_eq_ok] at h
      obtain ⟨rest, hadvance, hrest⟩ := h
      obtain ⟨n, hn, hshows, rfl, hbefore⟩ := exists_line_of_advance hadvance
      obtain ⟨places, hplaces, -⟩ := ih hrest
      refine ⟨some n :: places, hplaces.cons hshows (by simpa using hn) (by simp), ?_⟩
      intro other hother
      exact absent_cons (hbefore other hother)
    | next pattern =>
      cases hdrop : lines.drop start with
      | nil =>
        rw [hdrop, checkLines] at h
        cases h
      | cons line behind =>
        obtain ⟨hline, rfl⟩ := getElem?_of_drop_eq_cons hdrop
        rw [hdrop, checkLines] at h
        split at h
        next hcontains =>
          obtain ⟨places, hplaces, -⟩ := ih h
          have hshows : Shows lines start pattern := ⟨line, hline, contains_iff.1 hcontains⟩
          refine ⟨some start :: places, hplaces.cons ⟨rfl, hshows⟩ (by simp) (by simp), ?_⟩
          intro other _
          exact absent_cons (by omega)
        next => cases h
    | empty =>
      cases hdrop : lines.drop start with
      | nil =>
        rw [hdrop, checkLines, ← hdrop] at h
        obtain ⟨places, hplaces, habsent⟩ := ih h
        have hend : lines.length ≤ start := List.drop_eq_nil_iff.1 hdrop
        exact ⟨none :: places, hplaces.cons hend (by simp) (by simp), habsent⟩
      | cons line behind =>
        obtain ⟨hline, rfl⟩ := getElem?_of_drop_eq_cons hdrop
        rw [hdrop, checkLines] at h
        split at h
        next hblank =>
          obtain ⟨places, hplaces, -⟩ := ih h
          have hline : IsBlankLine lines start :=
            ⟨line, hline, trim_eq_nil_iff.1 (List.isEmpty_iff.1 hblank)⟩
          refine ⟨some start :: places, hplaces.cons ⟨rfl, hline⟩ (by simp) (by simp), ?_⟩
          intro other _
          exact absent_cons (by omega)
        next => cases h

/-- Advancing takes a line no later than any given one with the pattern. -/
theorem advance_of_shows {missing : Mismatch} (hn : start ≤ n) (hshows : Shows lines n pattern) :
    ∃ m, m ≤ n ∧ advance (lines.drop start) [] pattern missing = .ok (lines.drop (m + 1)) := by
  obtain ⟨line, hline, hoccurs⟩ := hshows
  have hget : (lines.drop start)[n - start]? = some line := by
    rwa [List.getElem?_drop, Nat.add_sub_cancel' hn]
  obtain ⟨skipped, rest, hsplit⟩ :=
    exists_splitAtMatch ⟨line, List.mem_of_getElem? hget, hoccurs⟩
  obtain ⟨_, hlines, -, hskipped⟩ := splitAtMatch_eq_some hsplit
  obtain ⟨-, hrest, hbefore⟩ := getElem?_of_drop_eq hlines
  refine ⟨start + skipped.length, ?_, ?_⟩
  · by_contra hlt
    obtain ⟨other, hother, hn⟩ := hbefore n hn (by omega)
    obtain rfl : line = other := Option.some.inj (hline.symm.trans hn)
    exact hskipped line hother hoccurs
  · rw [hrest]
    exact advance_eq_ok.2 ⟨skipped, hsplit, rfl⟩

/-- The lines that are given can be exchanged for the earliest ones, one directive after the other. -/
theorem checkLines_of_shows (hplain : ∀ d ∈ directives, d.isPlain) {ns : List Nat}
    (hincreasing : ns.Pairwise (· < ·)) (hstart : ∀ n ∈ ns, start ≤ n)
    (hshows : List.Forall₂ (Shows lines) ns (directives.filterMap Directive.pattern?)) :
    checkLines (lines.drop start) [] directives = .ok () := by
  induction directives generalizing start ns with
  | nil => rfl
  | cons d directives ih =>
    rw [List.forall_mem_cons] at hplain
    cases d with
    | comment text => exact ih hplain.2 hincreasing hstart hshows
    | check pattern | label pattern =>
      rw [checkLines]
      obtain ⟨n, ns, hn, hns, rfl⟩ := List.forall₂_cons_right_iff.1 hshows
      rw [List.pairwise_cons] at hincreasing
      rw [List.forall_mem_cons] at hstart
      obtain ⟨m, hm, hadvance⟩ := advance_of_shows hstart.1 hn
      rw [hadvance]
      refine ih hplain.2 hincreasing.2 ?_ hns
      intro k hk
      have hnk := hincreasing.1 k hk
      omega
    | next pattern | not pattern | empty => cases hplain.1

/-- A text that passes has lines for all directives, and a text with lines for plain directives
passes. -/
theorem passing_texts_match (text : String) (directives : List Directive) :
    (validate text directives = .ok () →
      ∃ places, Matching (Text.lines text.toList) 0 directives places) ∧
    ((∀ d ∈ directives, d.isPlain) →
      (∃ ns : List Nat, ns.Pairwise (· < ·) ∧
        List.Forall₂ (Shows (Text.lines text.toList)) ns (directives.filterMap Directive.pattern?)) →
      validate text directives = .ok ()) := by
  constructor
  · intro h
    rw [validate, ← List.drop_zero (l := Text.lines text.toList)] at h
    obtain ⟨places, hplaces, -⟩ := exists_matching h
    exact ⟨places, hplaces⟩
  · intro hplain hlines
    obtain ⟨ns, hincreasing, hshows⟩ := hlines
    rw [validate, ← List.drop_zero (l := Text.lines text.toList)]
    exact checkLines_of_shows hplain hincreasing (fun n _ => Nat.zero_le n) hshows

/-- A text with a blank line, for one test of every kind and for one of plain directives. -/
def sampleText : String := "begin\n\nmiddle\nend\n"

def sampleDirectives : List Directive :=
  [.check "begin", .empty, .next "middle", .not "bad", .comment "last", .label "end"]

theorem sampleText_matches :
    (validate sampleText sampleDirectives = .ok () ∧
      ∃ places, Matching (Text.lines sampleText.toList) 0 sampleDirectives places) ∧
    (List.Forall₂ (Shows (Text.lines sampleText.toList)) [0, 3] ["gin", "end"] ∧
      validate sampleText [.check "gin", .comment "skip", .label "end"] = .ok ()) := by
  have hpasses : validate sampleText sampleDirectives = .ok () := by decide +kernel
  have hshows : List.Forall₂ (Shows (Text.lines sampleText.toList)) [0, 3] ["gin", "end"] :=
    .cons ⟨"begin".toList, by decide +kernel, by decide +kernel⟩
      (.cons ⟨"end".toList, by decide +kernel, by decide +kernel⟩ .nil)
  refine ⟨⟨hpasses, (passing_texts_match _ _).1 hpasses⟩, hshows, ?_⟩
  exact (passing_texts_match _ _).2 (by decide) ⟨[0, 3], by decide, hshows⟩

end InputFlow.Check
