import Mathlib.Computability.Language
import Xv6.Lib.CString
import Xv6.Lib.Letters

/-!
# The matcher of grep (grep.c)

match(), matchhere() and matchstar(), and the regular expression that they read a pattern
as.  A string is the list of bytes from a pointer on; the end of the list reads as the NUL.
-/

set_option autoImplicit false

namespace Xv6.Public1.Matcher

open Xv6.Lib.CString
open Xv6.Lib.Letters
open Xv6.Lib.Words
open scoped Computability

/-- `'*'` -/
def star : Byte := 42

/-- `'.'` -/
def dot : Byte := 46

/-- `'$'` -/
def dollar : Byte := 36

/-- `'^'` -/
def caret : Byte := 94

/-- matchstar(), where `matchhere` is matchhere() with its `re`. -/
def matchstar (c : Byte) (matchhere : List Byte → Int) : List Byte → Int
  | [] => if matchhere [] ≠ 0 then 1 else 0
  | t :: text =>
      if matchhere (t :: text) ≠ 0 then 1
      else if t ≠ 0 ∧ (t = c ∨ c = dot) then matchstar c matchhere text
      else 0

def matchhere : List Byte → List Byte → Int
  | [], _ => 1
  | r :: re, text =>
      if r = 0 then 1
      else if re.headD 0 = star then matchstar r (matchhere re.tail) text
      else if r = dollar ∧ re.headD 0 = 0 then if text.headD 0 = 0 then 1 else 0
      else if text.headD 0 ≠ 0 ∧ (r = dot ∨ r = text.headD 0) then matchhere re text.tail
      else 0
  termination_by re => re.length
  decreasing_by
    · rw [List.length_tail, List.length_cons]
      omega
    · exact Nat.lt_succ_self _

/-- The `do` loop of match(). -/
def matchFrom (re : List Byte) : List Byte → Int
  | [] => if matchhere re [] ≠ 0 then 1 else 0
  | t :: text =>
      if matchhere re (t :: text) ≠ 0 then 1
      else if t ≠ 0 then matchFrom re text
      else 0

/-- match() -/
def match_ (re text : List Byte) : Int :=
  if re.headD 0 = caret then matchhere re.tail text else matchFrom re text

/-! ## Regular expressions -/

/-- What one character is matched by. -/
inductive Atom where
  | char (c : Byte)
  | any

inductive Piece where
  | one (x : Atom)
  /-- `x*` -/
  | many (x : Atom)

structure Regex where
  /-- There is a `^` in front. -/
  fromStart : Bool
  pieces : List Piece
  /-- There is a `$` at the end. -/
  toEnd : Bool

def Atom.language : Atom → Language Byte
  | .char c => letters (· = c)
  | .any => letters fun _ => True

def Piece.language : Piece → Language Byte
  | .one x => x.language
  | .many x => x.language∗

def language : List Piece → Language Byte
  | [] => 1
  | x :: xs => x.language * language xs

/-- Some part of `s` is a word of the expression. -/
def Regex.Matches (e : Regex) (s : List Byte) : Prop :=
  ∃ before part after, s = before ++ part ++ after ∧ part ∈ language e.pieces ∧
    (e.fromStart = true → before = []) ∧ (e.toEnd = true → after = [])

/-! ## What a pattern denotes -/

def atom (c : Byte) : Atom := if c = dot then .any else .char c

/-- The pieces of a pattern, without a `^` in front, and whether it ends in a `$`. -/
def pieces : List Byte → List Piece × Bool
  | [] => ([], false)
  | [c] => if c = dollar then ([], true) else ([.one (atom c)], false)
  | c :: d :: re =>
      if d = star then (.many (atom c) :: (pieces re).1, (pieces re).2)
      else (.one (atom c) :: (pieces (d :: re)).1, (pieces (d :: re)).2)

def regex : List Byte → Regex
  | [] => ⟨false, [], false⟩
  | c :: re =>
      if c = caret then ⟨true, (pieces re).1, (pieces re).2⟩
      else ⟨false, (pieces (c :: re)).1, (pieces (c :: re)).2⟩

/-! ## matchhere() -/

/-- The text begins with a word of the pieces, and ends there if there is a `$`. -/
def Here (e : List Piece × Bool) : List Byte → Prop :=
  Begins (language e.1) fun after => e.2 = true → after = []

theorem here_end (s : List Byte) : Here ([], true) s ↔ s = [] := by
  rw [Here, language, begins_one]
  exact ⟨fun ends => ends rfl, fun empty _ => empty⟩

theorem here_nil (s : List Byte) : Here ([], false) s :=
  begins_one.mpr fun absurd => by cases absurd

theorem here_cons (x : Piece) (e : List Piece × Bool) (s : List Byte) :
    Here (x :: e.1, e.2) s ↔ Begins x.language (Here e) s := begins_mul

theorem atom_cons (c t : Byte) (rest : List Byte → Prop) (s : List Byte) :
    Begins (atom c).language rest (t :: s) ↔ (c = dot ∨ c = t) ∧ rest s := by
  unfold atom
  split
  · rename_i wild
    rw [Atom.language, begins_letters_cons]
    exact and_congr_left fun _ => ⟨fun _ => .inl wild, fun _ => trivial⟩
  · rename_i plain
    rw [Atom.language, begins_letters_cons]
    exact and_congr_left fun _ =>
      ⟨fun same => .inr same.symm, fun either => (either.resolve_left plain).symm⟩

theorem atom_nil (c : Byte) (rest : List Byte → Prop) :
    ¬ Begins (atom c).language rest [] := by
  unfold atom
  split <;> exact begins_letters_nil

/-- The function returns 1 on the strings that `P` holds of, and 0 on the others. -/
def Decides (f : List Byte → Int) (P : List Byte → Prop) : Prop :=
  ∀ s, f s = 1 ∧ P (text s) ∨ f s = 0 ∧ ¬ P (text s)

theorem Decides.ne_zero {f : List Byte → Int} {P : List Byte → Prop} (decides : Decides f P)
    (s : List Byte) : f s ≠ 0 ↔ P (text s) := by
  rcases decides s with ⟨one, holds⟩ | ⟨zero, fails⟩
  · rw [one]
    exact iff_of_true Int.one_ne_zero holds
  · rw [zero]
    exact iff_of_false (absurd rfl) fails

theorem decides_iff {f : List Byte → Int} {P Q : List Byte → Prop} (decides : Decides f P)
    (same : ∀ s, P (text s) ↔ Q (text s)) : Decides f Q := fun s => by
  rw [← same s]
  exact decides s

/-- A loop that tries each place in turn goes on at the next one. -/
theorem decides_or {f rest : Int} {P Q : Prop} (first : f ≠ 0 ↔ P)
    (others : rest = 1 ∧ Q ∨ rest = 0 ∧ ¬ Q) :
    (if f ≠ 0 then 1 else rest) = 1 ∧ (P ∨ Q) ∨
      (if f ≠ 0 then 1 else rest) = 0 ∧ ¬ (P ∨ Q) := by
  by_cases here : f ≠ 0
  · rw [if_pos here]
    exact .inl ⟨rfl, .inl (first.mp here)⟩
  · rw [if_neg here]
    have fails : ¬ P := fun holds => here (first.mpr holds)
    rcases others with ⟨one, holds⟩ | ⟨zero, fails'⟩
    · exact .inl ⟨one, .inr holds⟩
    · exact .inr ⟨zero, not_or.mpr ⟨fails, fails'⟩⟩

theorem matchstar_decides {c : Byte} {f : List Byte → Int} {rest : List Byte → Prop}
    (decides : Decides f rest) :
    Decides (matchstar c f) (Begins (atom c).language∗ rest) := by
  intro s
  rw [begins_kstar]
  induction s with
  | nil => exact decides_or (decides.ne_zero []) (.inr ⟨rfl, atom_nil c _⟩)
  | cons t s ih =>
      refine decides_or (decides.ne_zero (t :: s)) ?_
      by_cases nul : t = 0
      · rw [if_neg fun go => go.1 nul, text_cons, if_pos nul]
        exact .inr ⟨rfl, atom_nil c _⟩
      · rw [text_cons, if_neg nul, atom_cons, begins_kstar]
        by_cases same : t = c ∨ c = dot
        · have same' : c = dot ∨ c = t := same.symm.imp_right Eq.symm
          rw [if_pos ⟨nul, same⟩]
          exact ih.imp (.imp_right fun holds => ⟨same', holds⟩)
            (.imp_right fun fails both => fails both.2)
        · rw [if_neg fun go => same go.2]
          exact .inr ⟨rfl, fun both => same (both.1.symm.imp_left Eq.symm)⟩

theorem matchFrom_decides {re : List Byte} {rest : List Byte → Prop}
    (decides : Decides (matchhere re) rest) : Decides (matchFrom re) (Somewhere rest) := by
  intro s
  induction s with
  | nil =>
      rw [text_nil, somewhere_nil, ← or_false (rest [])]
      exact decides_or (decides.ne_zero []) (.inr ⟨rfl, not_false⟩)
  | cons t s ih =>
      rw [text_cons]
      by_cases nul : t = 0
      · have first := decides.ne_zero (t :: s)
        rw [text_cons, if_pos nul] at first
        rw [if_pos nul, somewhere_nil, ← or_false (rest [])]
        refine decides_or first (.inr ⟨if_neg fun go => go nul, not_false⟩)
      · have first := decides.ne_zero (t :: s)
        rw [text_cons, if_neg nul] at first
        rw [if_neg nul, somewhere_cons]
        refine decides_or first ?_
        rw [if_pos nul]
        exact ih

theorem text_headD (s : List Byte) :
    text s = if s.headD 0 = 0 then [] else s.headD 0 :: text s.tail := by
  cases s with
  | nil => rfl
  | cons c s => exact text_cons c s

theorem pieces_star (c : Byte) (re : List Byte) :
    pieces (c :: star :: re) = (.many (atom c) :: (pieces re).1, (pieces re).2) := by
  rw [pieces, if_pos rfl]

/-- A character that neither starts a `*` nor is a last `$`. -/
theorem pieces_plain {c : Byte} {re : List Byte} (single : re.headD 0 ≠ star)
    (inside : c = dollar → re ≠ []) :
    pieces (c :: re) = (.one (atom c) :: (pieces re).1, (pieces re).2) := by
  cases re with
  | nil =>
      show (if c = dollar then ([], true) else ([Piece.one (atom c)], false)) = _
      rw [if_neg fun last => inside last rfl]
      rfl
  | cons d re =>
      have other : d ≠ star := single
      rw [pieces, if_neg other]

/-- A character that is matched by itself, and then the rest. -/
theorem atom_decides {c : Byte} {f : List Byte → Int} {rest : List Byte → Prop}
    (decides : Decides f rest) :
    Decides (fun s => if s.headD 0 ≠ 0 ∧ (c = dot ∨ c = s.headD 0) then f s.tail else 0)
      (Begins (atom c).language rest) := by
  intro s
  rw [text_headD]
  by_cases nul : s.headD 0 = 0
  · rw [if_pos nul]
    exact .inr ⟨if_neg fun go => go.1 nul, atom_nil c rest⟩
  · rw [if_neg nul, atom_cons]
    by_cases same : c = dot ∨ c = s.headD 0
    · simp only
      rw [if_pos (And.intro nul same)]
      exact (decides s.tail).imp (.imp_right fun holds => ⟨same, holds⟩)
        (.imp_right fun fails both => fails both.2)
    · exact .inr ⟨if_neg fun go => same go.2, fun both => same both.1⟩

theorem end_decides :
    Decides (fun s => if s.headD 0 = 0 then 1 else 0) (Here ([], true)) := by
  intro s
  rw [here_end, text_headD]
  by_cases nul : s.headD 0 = 0
  · exact .inl ⟨if_pos nul, if_pos nul⟩
  · rw [if_neg nul]
    exact .inr ⟨if_neg nul, List.cons_ne_nil _ _⟩

theorem matchhere_decides (re : List Byte) :
    Decides (matchhere re) (Here (pieces (text re))) := by
  match re with
  | [] => exact fun s => .inl ⟨by rw [matchhere], here_nil _⟩
  | c :: re =>
      by_cases nul : c = 0
      · intro s
        rw [text_cons, if_pos nul]
        exact .inl ⟨by rw [matchhere, if_pos nul], here_nil _⟩
      rw [text_cons, if_neg nul]
      by_cases repeated : re.headD 0 = star
      · have value : matchhere (c :: re) = matchstar c (matchhere re.tail) := by
          funext s
          rw [matchhere, if_neg nul, if_pos repeated]
        have read : text re = star :: text re.tail := by
          rw [text_headD, repeated, if_neg (by decide)]
        rw [value, read, pieces_star]
        exact decides_iff (matchstar_decides (matchhere_decides re.tail)) fun s =>
          (here_cons (.many (atom c)) _ _).symm
      by_cases last : c = dollar ∧ re.headD 0 = 0
      · have value : matchhere (c :: re) = fun s => if s.headD 0 = 0 then 1 else 0 := by
          funext s
          rw [matchhere, if_neg nul, if_neg repeated, if_pos last]
        have read : text re = [] := by rw [text_headD, if_pos last.2]
        rw [value, read, last.1]
        exact end_decides
      · have value : matchhere (c :: re) = fun s =>
            if s.headD 0 ≠ 0 ∧ (c = dot ∨ c = s.headD 0) then matchhere re s.tail else 0 := by
          funext s
          rw [matchhere, if_neg nul, if_neg repeated, if_neg last]
        have single : (text re).headD 0 ≠ star := by
          rw [text_headD]
          split
          · decide
          · exact repeated
        have inside : c = dollar → text re ≠ [] := by
          intro here empty
          rw [text_headD] at empty
          split at empty
          · rename_i ends
            exact last ⟨here, ends⟩
          · cases empty
        rw [value, pieces_plain single inside]
        exact decides_iff (atom_decides (matchhere_decides re)) fun s =>
          (here_cons (.one (atom c)) _ _).symm
  termination_by re.length
  decreasing_by
    · rw [List.length_tail, List.length_cons]
      omega
    · exact Nat.lt_succ_self _

/-! ## match() -/

theorem matches_start (e : List Piece × Bool) (s : List Byte) :
    Here e s ↔ (⟨true, e.1, e.2⟩ : Regex).Matches s := by
  constructor
  · rintro ⟨part, after, word, ends, rfl⟩
    exact ⟨[], part, after, rfl, word, fun _ => rfl, ends⟩
  · rintro ⟨before, part, after, rfl, word, starts, ends⟩
    rw [starts rfl]
    exact ⟨part, after, word, ends, rfl⟩

theorem matches_anywhere (e : List Piece × Bool) (s : List Byte) :
    Somewhere (Here e) s ↔ (⟨false, e.1, e.2⟩ : Regex).Matches s := by
  constructor
  · rintro ⟨before, _, ⟨part, after, word, ends, rfl⟩, rfl⟩
    exact ⟨before, part, after, (List.append_assoc before part after).symm, word,
      (fun absurd => by cases absurd), ends⟩
  · rintro ⟨before, part, after, rfl, word, -, ends⟩
    exact ⟨before, part ++ after, ⟨part, after, word, ends, rfl⟩,
      (List.append_assoc before part after).symm⟩

/-- match() returns 1 if a part of the text matches the expression, and 0 otherwise. -/
theorem match_decides (re s : List Byte) :
    (match_ re s = 1 ↔ (regex (text re)).Matches (text s)) ∧
      (match_ re s = 0 ↔ ¬ (regex (text re)).Matches (text s)) := by
  have decides : Decides (match_ re) (regex (text re)).Matches := by
    have read := text_headD re
    by_cases anchored : re.headD 0 = caret
    · have value : match_ re = matchhere re.tail := funext fun _ => if_pos anchored
      rw [anchored, if_neg (by decide)] at read
      rw [value, read, regex, if_pos rfl]
      exact decides_iff (matchhere_decides re.tail) fun s => matches_start _ _
    · have value : match_ re = matchFrom re := funext fun _ => if_neg anchored
      have expression : regex (text re) =
          ⟨false, (pieces (text re)).1, (pieces (text re)).2⟩ := by
        rw [read]
        split
        · rfl
        · rw [regex, if_neg anchored]
      rw [value, expression]
      exact decides_iff (matchFrom_decides (matchhere_decides re)) fun s =>
        matches_anywhere _ _
  rcases decides s with ⟨one, holds⟩ | ⟨zero, fails⟩
  · rw [one]
    exact ⟨iff_of_true rfl holds, iff_of_false (by decide) (not_not.mpr holds)⟩
  · rw [zero]
    exact ⟨iff_of_false (by decide) fails, iff_of_true rfl fails⟩

/-- The pattern `a**`: any number of `a`, and then a `*`. -/
example : match_ [97, 42, 42] [98, 97, 42] = 1 := by decide +kernel

end Xv6.Public1.Matcher
