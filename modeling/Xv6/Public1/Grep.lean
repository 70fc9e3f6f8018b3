import Xv6.Lib.Lines
import Xv6.Public1.Matcher

/-!
# grep (grep.c)

grep() over the pieces of its input that successive calls of read() return.
-/

set_option autoImplicit false

namespace Xv6.Public1.Grep

open Xv6.Lib.Lines
open Xv6.Lib.Words
open Xv6.Public1.Matcher

/-- `sizeof(buf)` -/
abbrev bufSize : Nat := 1024

/-- `'\n'` -/
def newline : Byte := 10

/-- `strchr(s, c)`: the bytes before the place it returns, and those after it. -/
def strchr (c : Byte) : List Byte → Option (List Byte × List Byte)
  | [] => none
  | x :: s =>
      if x = 0 then none
      else if x = c then some ([], s)
      else (strchr c s).map fun found => (x :: found.1, found.2)

theorem strchr_eq {c : Byte} {s before after : List Byte}
    (found : strchr c s = some (before, after)) :
    s = before ++ c :: after ∧ c ∉ before ∧ 0 ∉ before := by
  induction s generalizing before with
  | nil => cases found
  | cons x s ih =>
      rw [strchr] at found
      split at found
      · cases found
      · rename_i nonzero
        split at found
        · rename_i here
          cases found
          exact ⟨by rw [here]; rfl, List.not_mem_nil, List.not_mem_nil⟩
        · rename_i other
          obtain ⟨⟨before', after'⟩, later, pair⟩ := Option.map_eq_some_iff.mp found
          cases pair
          obtain ⟨rfl, unended, clean⟩ := ih later
          exact ⟨rfl, List.not_mem_cons_of_ne_of_not_mem (Ne.symm other) unended,
            List.not_mem_cons_of_ne_of_not_mem (Ne.symm nonzero) clean⟩

theorem strchr_none {c : Byte} {s : List Byte} (missing : strchr c s = none) (clean : 0 ∉ s) :
    c ∉ s := by
  induction s with
  | nil => exact List.not_mem_nil
  | cons x s ih =>
      have clean' : 0 ∉ s := fun listed => clean (.tail _ listed)
      rw [strchr, if_neg fun zero : x = 0 => clean (zero ▸ .head _)] at missing
      split at missing
      · cases missing
      · rename_i other
        exact List.not_mem_cons_of_ne_of_not_mem (Ne.symm other)
          (ih (Option.map_eq_none_iff.mp missing) clean')

theorem strchr_length {c : Byte} {s before after : List Byte}
    (found : strchr c s = some (before, after)) : after.length < s.length := by
  rw [(strchr_eq found).1, List.length_append, List.length_cons]
  omega

/-- `if(match(pattern, p)){ *q = '\n'; write(1, p, q+1 - p); }` -/
def written (pattern line : List Byte) : List Byte :=
  if match_ pattern line ≠ 0 then line ++ [newline] else []

/-- The inner loop of grep(): what is written, and the bytes from `p` on at its end. -/
def scan (pattern : List Byte) (p : List Byte) : List Byte × List Byte :=
  match _found : strchr newline p with
  | none => ([], p)
  | some (line, after) =>
      (written pattern line ++ (scan pattern after).1, (scan pattern after).2)
  termination_by p.length
  decreasing_by exact strchr_length _found

/-- `m`, and `buf[0..m)` with it, when the inner loop has come to `p`. -/
def carried (buf p : List Byte) : List Byte :=
  -- if(p == buf) m = 0;
  if p.length = buf.length then [] else p

/-- The outer loop of grep(), where `buf` is `buf[0..m)` and `pieces` are what the calls of
read() return. -/
def grepFrom (pattern : List Byte) : List Byte → List (List Byte) → List Byte
  | _, [] => []
  | buf, piece :: pieces =>
      -- read(fd, buf+m, 0) returns 0
      if bufSize - buf.length - 1 = 0 then []
      else
        let scanned := scan pattern (buf ++ piece)
        scanned.1 ++ grepFrom pattern (carried (buf ++ piece) scanned.2) pieces

/-- What grep() writes. -/
def grep (pattern : List Byte) (pieces : List (List Byte)) : List Byte :=
  grepFrom pattern [] pieces

/-! ## What grep() is for -/

/-- The lines that match, as they were. -/
def matching (pattern : List Byte) (lines : List (List Byte)) : List Byte :=
  ended newline (lines.filter fun line => match_ pattern line ≠ 0)

/-! ## The inner loop -/

theorem matching_cons (pattern line : List Byte) (lines : List (List Byte)) :
    matching pattern (line :: lines) = written pattern line ++ matching pattern lines := by
  rw [matching, List.filter_cons, written]
  split
  · rename_i hit
    rw [if_pos (of_decide_eq_true hit), ended_cons, List.append_assoc]
    rfl
  · rename_i miss
    rw [if_neg fun hit => miss (decide_eq_true hit)]
    rfl

theorem matching_append (pattern : List Byte) (first second : List (List Byte)) :
    matching pattern (first ++ second) = matching pattern first ++ matching pattern second := by
  rw [matching, List.filter_append, ended_append]
  rfl

/-- The inner loop takes lines off the front, until strchr() finds no more. -/
theorem scan_spec (pattern p : List Byte) : ∃ lines,
    (scan pattern p).1 = matching pattern lines ∧ p = ended newline lines ++ (scan pattern p).2 ∧
      (∀ l ∈ lines, newline ∉ l ∧ 0 ∉ l) ∧ strchr newline (scan pattern p).2 = none := by
  fun_induction scan pattern p with
  | case1 p missing => exact ⟨[], rfl, rfl, fun _ listed => absurd listed List.not_mem_nil, missing⟩
  | case2 p line after found ih =>
      obtain ⟨lines, output, split, clean, last⟩ := ih
      obtain ⟨whole, unended, nonzero⟩ := strchr_eq found
      refine ⟨line :: lines, ?_, ?_, ?_, last⟩
      · rw [output, matching_cons]
      · rw [whole, ended_cons, List.append_assoc, List.cons_append, ← split]
      · intro l listed
        rcases List.mem_cons.mp listed with rfl | later
        · exact ⟨unended, nonzero⟩
        · exact clean l later

/-! ## Reads that each bring the end of a line -/

/-- Where each read brings the end of a line, the lines that match are written. -/
theorem grepFrom_matching {pattern buf : List Byte} {pieces lines : List (List Byte)}
    (clean : ∀ l ∈ lines, newline ∉ l ∧ l.length ≤ 1022) (unended : newline ∉ buf)
    (nonzero : 0 ∉ buf) (nonzero' : 0 ∉ pieces.flatten) (ends : ∀ piece ∈ pieces, newline ∈ piece)
    (whole : buf ++ pieces.flatten = ended newline lines) :
    grepFrom pattern buf pieces = matching pattern lines := by
  induction pieces generalizing buf lines with
  | nil =>
      cases lines with
      | nil => rfl
      | cons l lines =>
          rw [List.flatten_nil, List.append_nil] at whole
          rw [whole, ended_cons] at unended
          exact absurd (List.mem_append_right _ (.head _)) unended
  | cons piece pieces ih =>
      have room : ¬ bufSize - buf.length - 1 = 0 := by
        have short := length_le_of_prefix unended (fun l listed => (clean l listed).2) whole
        show ¬ 1024 - buf.length - 1 = 0
        omega
      rw [List.flatten_cons] at nonzero' whole
      obtain ⟨found, output, split, tidy, last⟩ := scan_spec pattern (buf ++ piece)
      have rest_clean : 0 ∉ (scan pattern (buf ++ piece)).2 := by
        intro listed
        have inside : (0 : Byte) ∈ buf ++ piece := by
          rw [split]
          exact List.mem_append_right _ listed
        rcases List.mem_append.mp inside with old | new
        · exact nonzero old
        · exact nonzero' (List.mem_append_left _ new)
      have rest_unended := strchr_none last rest_clean
      -- the read has brought an `nl`, which is in a line that was found
      have shorter : ¬ (scan pattern (buf ++ piece)).2.length = (buf ++ piece).length := by
        intro same
        have none_found : ended newline found = [] := by
          have lengths := congrArg List.length split
          simp only [List.length_append] at lengths same
          exact List.length_eq_zero_iff.mp (by omega)
        rw [none_found, List.nil_append] at split
        rw [← split] at rest_unended
        exact rest_unended (List.mem_append_right _ (ends piece (.head _)))
      rw [← List.append_assoc, split, List.append_assoc] at whole
      obtain ⟨others, rfl, remaining⟩ := ended_prefix (fun l listed => (tidy l listed).1)
        (fun l listed => (clean l listed).1) whole
      rw [grepFrom, if_neg room]
      simp only
      rw [carried, if_neg shorter, output, matching_append]
      congr 1
      exact ih (fun l listed => clean l (List.mem_append_right _ listed)) rest_unended rest_clean
        (fun listed => nonzero' (List.mem_append_right _ listed))
        (fun p listed => ends p (.tail _ listed)) remaining

/-! ## Nothing that is lost comes back -/

theorem matching_length (pattern : List Byte) (lines : List (List Byte)) :
    (matching pattern lines).length ≤ (ended newline lines).length :=
  ended_filter_length _ lines

theorem zero_ended {lines : List (List Byte)} (clean : ∀ l ∈ lines, 0 ∉ l) :
    0 ∉ ended newline lines := by
  intro listed
  obtain ⟨l, line, inside⟩ := List.mem_flatMap.mp listed
  rcases List.mem_append.mp inside with char | last
  · exact clean l line char
  · exact absurd (List.mem_singleton.mp last) (by decide)

theorem carried_length (buf p : List Byte) : (carried buf p).length ≤ p.length := by
  unfold carried
  split
  · exact Nat.zero_le _
  · exact Nat.le_refl _

theorem grepFrom_length (pattern buf : List Byte) (pieces : List (List Byte)) :
    (grepFrom pattern buf pieces).length ≤ buf.length + pieces.flatten.length := by
  induction pieces generalizing buf with
  | nil => exact Nat.zero_le _
  | cons piece pieces ih =>
      rw [grepFrom]
      split
      · exact Nat.zero_le _
      · obtain ⟨found, output, split, -, -⟩ := scan_spec pattern (buf ++ piece)
        have lengths := congrArg List.length split
        have later := ih (carried (buf ++ piece) (scan pattern (buf ++ piece)).2)
        have kept := carried_length (buf ++ piece) (scan pattern (buf ++ piece)).2
        have first := matching_length pattern found
        simp only [List.length_append, List.flatten_cons] at lengths later ⊢
        rw [output]
        omega

/-- If as much is written as was read, each read brought the end of a line. -/
theorem grepFrom_complete {pattern buf : List Byte} {pieces : List (List Byte)}
    (some_piece : ∀ piece ∈ pieces, piece ≠ [])
    (complete : buf.length + pieces.flatten.length ≤ (grepFrom pattern buf pieces).length) :
    0 ∉ buf ∧ 0 ∉ pieces.flatten ∧ (newline ∉ buf → ∀ piece ∈ pieces, newline ∈ piece) := by
  induction pieces generalizing buf with
  | nil =>
      have empty : buf = [] := List.length_eq_zero_iff.mp (Nat.le_zero.mp complete)
      rw [empty]
      exact ⟨List.not_mem_nil, List.not_mem_nil, fun _ _ listed => absurd listed List.not_mem_nil⟩
  | cons piece pieces ih =>
      have positive : 0 < piece.length := List.length_pos_iff.mpr (some_piece piece (.head _))
      rw [grepFrom, List.flatten_cons, List.length_append] at complete
      split at complete
      · rw [List.length_nil] at complete
        omega
      · obtain ⟨found, output, split, tidy, last⟩ := scan_spec pattern (buf ++ piece)
        have lengths := congrArg List.length split
        have first := matching_length pattern found
        simp only [List.length_append] at lengths complete
        rw [output] at complete
        by_cases lost : (scan pattern (buf ++ piece)).2.length = (buf ++ piece).length
        · have later := grepFrom_length pattern [] pieces
          rw [carried, if_pos lost] at complete
          rw [List.length_append] at lost
          rw [List.length_nil] at later
          omega
        · rw [carried, if_neg lost] at complete
          obtain ⟨clean, clean', ends⟩ := @ih (scan pattern (buf ++ piece)).2
            (fun p listed => some_piece p (.tail _ listed)) (by omega)
          have all_clean : 0 ∉ buf ++ piece := by
            rw [split]
            intro listed
            rcases List.mem_append.mp listed with inside | after
            · exact zero_ended (fun l listed => (tidy l listed).2) inside
            · exact clean after
          have brought : newline ∈ buf ++ piece := by
            cases found with
            | nil =>
                rw [ended_nil, List.length_nil, Nat.zero_add] at lengths
                rw [List.length_append] at lost
                exact absurd lengths.symm lost
            | cons l found =>
                rw [split, ended_cons]
                exact List.mem_append_left _ (List.mem_append_right _ (.head _))
          refine ⟨fun listed => all_clean (List.mem_append_left _ listed), ?_, ?_⟩
          · intro listed
            rcases List.mem_append.mp listed with here | later
            · exact all_clean (List.mem_append_right _ here)
            · exact clean' later
          · intro unended p listed
            rcases List.mem_cons.mp listed with rfl | later
            · exact (List.mem_append.mp brought).resolve_left unended
            · exact ends (strchr_none last clean) p later

/-! ## grep() -/

/-- An empty pattern matches every line. -/
theorem match_empty (s : List Byte) : match_ [] s = 1 := by
  cases s <;> simp [match_, matchFrom, matchhere, caret]

theorem matching_empty (lines : List (List Byte)) : matching [] lines = ended newline lines := by
  rw [matching, List.filter_eq_self.mpr]
  intro l _
  exact decide_eq_true (by rw [match_empty]; decide)

/-- grep() writes the lines that match, whatever the pattern, if and only if each read
brings the end of a line, and there is no NUL in the input. -/
theorem grep_chunks (lines pieces : List (List Byte))
    (clean : ∀ l ∈ lines, newline ∉ l ∧ l.length ≤ 1022) (some_piece : ∀ piece ∈ pieces, piece ≠ [])
    (whole : pieces.flatten = ended newline lines) :
    (∀ pattern, grep pattern pieces = matching pattern lines) ↔
      (∀ piece ∈ pieces, newline ∈ piece) ∧ ∀ l ∈ lines, 0 ∉ l := by
  constructor
  · intro right
    have all := right []
    rw [matching_empty, ← whole] at all
    obtain ⟨-, nonzero, ends⟩ := @grepFrom_complete [] [] pieces some_piece
      (by rw [List.length_nil, Nat.zero_add, ← all]; exact Nat.le_refl _)
    refine ⟨ends List.not_mem_nil, fun l listed inside => nonzero ?_⟩
    rw [whole]
    exact List.mem_flatMap.mpr ⟨l, listed, List.mem_append_left _ inside⟩
  · rintro ⟨ends, nonzero⟩ pattern
    refine grepFrom_matching clean List.not_mem_nil List.not_mem_nil ?_ ends whole
    rw [whole]
    exact zero_ended nonzero

/-- "a\nb\n" in two reads. -/
theorem grep_chunks_twoReads :
    let lines : List (List Byte) := [[97], [98]]
    let pieces : List (List Byte) := [[97, 10], [98, 10]]
    (∀ l ∈ lines, newline ∉ l ∧ l.length ≤ 1022) ∧ (∀ piece ∈ pieces, piece ≠ []) ∧
      pieces.flatten = ended newline lines ∧
      ((∀ pattern, grep pattern pieces = matching pattern lines) ↔
        (∀ piece ∈ pieces, newline ∈ piece) ∧ ∀ l ∈ lines, 0 ∉ l) :=
  ⟨by decide, by decide, rfl, grep_chunks _ _ (by decide) (by decide) rfl⟩

/-- "a\n" in two reads, the first of which brings only "a". -/
theorem grep_part_lost :
    ¬ ∀ (pattern : List Byte) (lines pieces : List (List Byte)),
      (∀ l ∈ lines, newline ∉ l ∧ l.length ≤ 1022) → (∀ piece ∈ pieces, piece ≠ []) →
      pieces.flatten = ended newline lines → grep pattern pieces = matching pattern lines := by
  intro claim
  have right := claim [97] [[97]] [[97], [10]] (by decide) (by decide) rfl
  revert right
  decide +kernel

end Xv6.Public1.Grep
