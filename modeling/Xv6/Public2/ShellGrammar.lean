import Mathlib.Data.List.TakeWhile
import Xv6.Lib.Outcome
import Xv6.Public2.Shell

/-!
# The grammar of the shell (xv6-public_2)

The grammar as a relation between a line, the command it stands for and what is left of the
line.
-/

set_option autoImplicit false

namespace Xv6.Public2.Shell

open Xv6.Lib.Words

/-! ## The grammar -/

structure Redirection (α : Type) where
  file : α
  mode : Nat
  fd : Nat

/-- A command in its redirections, in order of appearance. -/
def wrap {α : Type} (cmd : Cmd α) (redirs : List (Redirection α)) : Cmd α :=
  redirs.foldl (fun cmd r => .redir cmd r.file r.mode r.fd) cmd

def Blank (s rest : List Byte) : Prop :=
  ∃ blanks, (∀ c ∈ blanks, c ∈ whitespace) ∧ s = blanks ++ rest

/-- `t`, with whitespace around it. -/
def Symbol (t s rest : List Byte) : Prop := ∃ a, Blank s (t ++ a) ∧ Blank a rest

/-- The word `w` cannot be made longer. -/
structure Word (w s rest : List Byte) : Prop where
  some : w ≠ []
  letters : ∀ c ∈ w, IsWord c
  spelled : ∃ a, Blank s (w ++ a) ∧ (∀ c ∈ a.head?, ¬ IsWord c) ∧ Blank a rest

inductive Redir : List Byte → Redirection (List Byte) → List Byte → Prop where
  | input {s a rest w : List Byte} (symbol : Symbol [0x3c] s a) (word : Word w a rest) :
      Redir s ⟨w, O_RDONLY, 0⟩ rest
  | output {s a rest w : List Byte} (symbol : Symbol [0x3e] s a) (word : Word w a rest) :
      Redir s ⟨w, O_WRONLY ||| O_CREATE, 1⟩ rest
  | append {s a rest w : List Byte} (symbol : Symbol [0x3e, 0x3e] s a) (word : Word w a rest) :
      Redir s ⟨w, O_WRONLY ||| O_CREATE, 1⟩ rest

/-- `redir*` -/
inductive Redirs : List Byte → List (Redirection (List Byte)) → List Byte → Prop where
  | done {s rest : List Byte} (blank : Blank s rest) : Redirs s [] rest
  | more {s a rest : List Byte} {r : Redirection (List Byte)}
      {rs : List (Redirection (List Byte))} (first : Redir s r a) (later : Redirs a rs rest) :
      Redirs s (r :: rs) rest

/-- `(word redir*)*` -/
inductive Args : List Byte → List (List Byte) → List (Redirection (List Byte)) → List Byte →
    Prop where
  | done {s rest : List Byte} (blank : Blank s rest) : Args s [] [] rest
  | more {s a b rest w : List Byte} {ws : List (List Byte)}
      {rs rs' : List (Redirection (List Byte))} (word : Word w s a) (redirs : Redirs a rs b)
      (later : Args b ws rs' rest) : Args s (w :: ws) (rs ++ rs') rest

/-- `'&'*` around a command. -/
inductive Backs : List Byte → Cmd (List Byte) → Cmd (List Byte) → List Byte → Prop where
  | done {s rest : List Byte} {cmd : Cmd (List Byte)} (blank : Blank s rest) :
      Backs s cmd cmd rest
  | more {s a rest : List Byte} {cmd all : Cmd (List Byte)} (symbol : Symbol [0x26] s a)
      (later : Backs a (.back cmd) all rest) : Backs s cmd all rest

inductive Nonterminal where
  | line
  | pipe
  | exec

inductive Derives : Nonterminal → List Byte → Cmd (List Byte) → List Byte → Prop where
  /-- line ::= pipe '&'* -/
  | line {s a rest : List Byte} {cmd all : Cmd (List Byte)} (pipe : Derives .pipe s cmd a)
      (backs : Backs a cmd all rest) : Derives .line s all rest
  /-- line ::= pipe '&'* ';' line -/
  | list {s a b c rest : List Byte} {cmd left right : Cmd (List Byte)}
      (pipe : Derives .pipe s cmd a) (backs : Backs a cmd left b) (symbol : Symbol [0x3b] b c)
      (more : Derives .line c right rest) : Derives .line s (.list left right) rest
  /-- pipe ::= exec -/
  | last {s rest : List Byte} {cmd : Cmd (List Byte)} (exec : Derives .exec s cmd rest) :
      Derives .pipe s cmd rest
  /-- pipe ::= exec '|' pipe -/
  | pipe {s a b rest : List Byte} {left right : Cmd (List Byte)} (exec : Derives .exec s left a)
      (symbol : Symbol [0x7c] a b) (more : Derives .pipe b right rest) :
      Derives .pipe s (.pipe left right) rest
  /-- exec ::= '(' line ')' redir* -/
  | block {s a b c rest : List Byte} {cmd : Cmd (List Byte)}
      {rs : List (Redirection (List Byte))} (opens : Symbol [0x28] s a)
      (line : Derives .line a cmd b) (closes : Symbol [0x29] b c) (redirs : Redirs c rs rest) :
      Derives .exec s (wrap cmd rs) rest
  /-- exec ::= redir* (word redir*)* -/
  | exec {s a rest : List Byte} {ws : List (List Byte)}
      {rs rs' : List (Redirection (List Byte))} (redirs : Redirs s rs a)
      (args : Args a ws rs' rest) (few : ws.length ≤ 9) :
      Derives .exec s (wrap (.exec ws) (rs ++ rs')) rest

/-- The line is a sentence of the grammar. -/
def Derivable (line : List Byte) (cmd : Cmd (List Byte)) : Prop := Derives .line line cmd []

/-! ## Whitespace -/

section Blanks
variable {s a rest t w : List Byte} {c : Byte}

theorem skip_blank (blank : Blank s rest) : skip s = skip rest := by
  obtain ⟨blanks, all, rfl⟩ := blank
  induction blanks with
  | nil => rfl
  | cons c blanks ih =>
      have here : strchr whitespace c = true := strchr_iff.mpr (all c List.mem_cons_self)
      rw [← ih fun d member => all d (List.mem_cons_of_mem c member)]
      exact List.dropWhile_cons_of_pos here

theorem blank_skip (s : List Byte) : Blank s (skip s) := by
  refine ⟨s.takeWhile (strchr whitespace), ?_, List.takeWhile_append_dropWhile.symm⟩
  intro c member
  exact strchr_iff.mp (List.mem_takeWhile_imp member)

@[simp] theorem skip_skip (s : List Byte) : skip (skip s) = skip s :=
  (skip_blank (blank_skip s)).symm

theorem blank_refl (s : List Byte) : Blank s s := ⟨[], nofun, rfl⟩

/-- Nothing is skipped in front of another character. -/
theorem skip_cons (visible : c ∉ whitespace) : skip (c :: s) = c :: s := by
  have here : ¬ strchr whitespace c = true := mt strchr_iff.mp visible
  exact List.dropWhile_cons_of_neg here

theorem head_visible (head : (skip s).head? = some c) : c ∉ whitespace := by
  have not := List.head?_dropWhile_not (strchr whitespace) s
  unfold skip at head
  rw [head] at not
  intro blank
  have here : strchr whitespace c = true := strchr_iff.mpr blank
  exact absurd (here.symm.trans not) (by decide)

theorem blank_nil (blank : Blank s []) : skip s = [] := skip_blank blank

@[simp] theorem peek_skip (s toks : List Byte) : peek (skip s) toks = peek s toks := by
  unfold peek
  rw [skip_skip]

@[simp] theorem gettoken_skip (s : List Byte) : gettoken (skip s) = gettoken s := by
  unfold gettoken
  rw [skip_skip]

theorem peek_iff {toks : List Byte} :
    peek s toks = true ↔ (skip s).headD 0 ≠ 0 ∧ (skip s).headD 0 ∈ toks := by
  unfold peek
  rw [Bool.and_eq_true, decide_eq_true_eq, strchr_iff]

theorem peek_eq_true {toks : List Byte} (nul : (0 : Byte) ∉ toks) :
    peek s toks = true ↔ ∃ c ∈ toks, (skip s).head? = some c := by
  rw [peek_iff]
  cases skip s with
  | nil => simp
  | cons c rest =>
      constructor
      · exact fun both => ⟨c, both.2, rfl⟩
      · intro found
        obtain ⟨d, member, same⟩ := found
        obtain rfl := Option.some.inj same
        exact ⟨fun zero => nul (zero ▸ member), member⟩

theorem blank_suffix (blank : Blank s rest) : rest <:+ s :=
  blank.elim fun blanks parts => ⟨blanks, parts.2.symm⟩

end Blanks

/-! ## Tokens -/

/-- The tokens of one character other than '>'. -/
def singles : List Byte := [0x7c, 0x28, 0x29, 0x3b, 0x26, 0x3c]

def Span.text (w : Span) : List Byte := w.q.take (w.q.length - w.eq.length)

/-- The ends of a word in the line. -/
structure Span.Inside (line : List Byte) (w : Span) : Prop where
  inside : w.q <:+ line
  spelled : w.q = w.text ++ w.eq
  letters : ∀ c ∈ w.text, IsWord c
  stops : ∀ c ∈ w.eq.head?, ¬ IsWord c

section Tokens
variable {s a rest t w : List Byte} {c : Byte}

theorem letter_cases (visible : c ∉ whitespace) : c ∈ singles ∨ c = 0x3e ∨ IsWord c := by
  by_cases symbol : c ∈ symbols
  · simp only [symbols, singles, List.mem_cons, List.not_mem_nil, or_false] at symbol ⊢
    tauto
  · exact Or.inr (Or.inr ⟨visible, symbol⟩)

theorem single_symbol (single : c ∈ singles) :
    c ∈ symbols ∧ c ≠ 0 ∧ c ≠ 0x3e ∧ c ∉ whitespace := by
  simp only [singles, List.mem_cons, List.not_mem_nil, or_false] at single
  rcases single with rfl | rfl | rfl | rfl | rfl | rfl
  all_goals decide

theorem single_iff :
    c ∈ singles ↔ c = 0x7c ∨ c = 0x28 ∨ c = 0x29 ∨ c = 0x3b ∨ c = 0x26 ∨ c = 0x3c := by
  simp only [singles, List.mem_cons, List.not_mem_nil, or_false]

theorem gettoken_nul (head : (skip s).headD 0 = 0) :
    gettoken s = ⟨0, skip s, skip s, skip s⟩ := by
  unfold gettoken
  dsimp only
  rw [if_pos head, skip_skip]

theorem gettoken_single (head : skip s = c :: a) (single : c ∈ singles) :
    gettoken s = ⟨c, c :: a, a, skip a⟩ := by
  unfold gettoken
  rw [head]
  dsimp only [List.headD_cons, List.tail_cons]
  exact (if_neg (single_symbol single).2.1).trans (if_pos (single_iff.mp single))

theorem gettoken_greater (head : skip s = 0x3e :: a) :
    gettoken s = if a.headD 0 = 0x3e then ⟨0x2b, 0x3e :: a, a.tail, skip a.tail⟩
      else ⟨0x3e, 0x3e :: a, a, skip a⟩ := by
  unfold gettoken
  rw [head]
  rfl

theorem gettoken_word (head : skip s = c :: a) (letter : IsWord c) (nul : c ≠ 0) :
    gettoken s = ⟨0x61, c :: a, (c :: a).dropWhile fun c => decide (IsWord c),
      skip ((c :: a).dropWhile fun c => decide (IsWord c))⟩ := by
  have notSingle : c ∉ singles := fun single => letter.2 (single_symbol single).1
  have notGreater : c ≠ 0x3e := by
    intro same
    subst same
    exact letter.2 (by decide)
  unfold gettoken
  rw [head]
  dsimp only [List.headD_cons, List.tail_cons]
  exact (if_neg nul).trans ((if_neg (mt single_iff.mpr notSingle)).trans (if_neg notGreater))

theorem symbol_here (head : skip s = t ++ a) : Symbol t s (skip a) :=
  ⟨a, head ▸ blank_skip s, blank_skip a⟩

theorem Symbol.head (symbol : Symbol (c :: t) s rest) (visible : c ∉ whitespace) :
    ∃ a, skip s = c :: (t ++ a) ∧ skip a = skip rest := by
  obtain ⟨a, before, behind⟩ := symbol
  refine ⟨a, ?_, skip_blank behind⟩
  rw [skip_blank before]
  exact skip_cons visible

theorem Symbol.suffix (symbol : Symbol t s rest) : rest <:+ s := by
  obtain ⟨a, before, behind⟩ := symbol
  exact ((blank_suffix behind).trans (List.suffix_append t a)).trans (blank_suffix before)

theorem Symbol.shorter (symbol : Symbol (c :: t) s rest) : rest.length < s.length := by
  obtain ⟨a, before, behind⟩ := symbol
  have whole := (blank_suffix before).length_le
  have part := (blank_suffix behind).length_le
  rw [List.length_append, List.length_cons] at whole
  omega

theorem Word.head (word : Word w s rest) :
    ∃ c w' a, w = c :: w' ∧ IsWord c ∧ skip s = w ++ a ∧ (∀ d ∈ a.head?, ¬ IsWord d) ∧
      skip a = skip rest := by
  obtain ⟨a, before, stops, behind⟩ := word.spelled
  cases w with
  | nil => exact absurd rfl word.some
  | cons c w' =>
      have letter := word.letters c List.mem_cons_self
      refine ⟨c, w', a, rfl, letter, ?_, stops, skip_blank behind⟩
      rw [skip_blank before]
      exact skip_cons letter.1

theorem Word.suffix (word : Word w s rest) : rest <:+ s := by
  obtain ⟨a, before, _, behind⟩ := word.spelled
  exact ((blank_suffix behind).trans (List.suffix_append w a)).trans (blank_suffix before)

theorem Word.shorter (word : Word w s rest) : rest.length < s.length := by
  obtain ⟨a, before, _, behind⟩ := word.spelled
  have whole := (blank_suffix before).length_le
  have part := (blank_suffix behind).length_le
  have some := List.length_pos_iff.mpr word.some
  rw [List.length_append] at whole
  omega

/-- The longest word. -/
theorem dropWhile_word (letters : ∀ c ∈ w, IsWord c) (stops : ∀ c ∈ a.head?, ¬ IsWord c) :
    (w ++ a).dropWhile (fun c => decide (IsWord c)) = a := by
  induction w with
  | nil =>
      cases a with
      | nil => rfl
      | cons c a =>
          have here : ¬ decide (IsWord c) = true := by simpa using stops c rfl
          exact List.dropWhile_cons_of_neg here
  | cons c w ih =>
      have here : decide (IsWord c) = true := decide_eq_true (letters c List.mem_cons_self)
      have later := ih fun d member => letters d (List.mem_cons_of_mem c member)
      rw [List.cons_append, List.dropWhile_cons, if_pos here, later]

theorem text_append (w eq : List Byte) : Span.text ⟨w ++ eq, eq⟩ = w := by
  unfold Span.text
  rw [List.length_append, Nat.add_sub_cancel]
  exact List.take_left

/-- gettoken() at a word. -/
theorem gettoken_spells (head : skip s = c :: a) (letter : IsWord c) (nul : c ≠ 0) :
    (gettoken s).ret = 0x61 ∧
      Word (Span.text ⟨(gettoken s).q, (gettoken s).eq⟩) s (gettoken s).rest ∧
      Span.Inside s ⟨(gettoken s).q, (gettoken s).eq⟩ := by
  rw [gettoken_word head letter nul]
  dsimp only
  obtain ⟨w, taken⟩ : ∃ w, w = (c :: a).takeWhile fun c => decide (IsWord c) := ⟨_, rfl⟩
  obtain ⟨eq, left⟩ : ∃ eq, eq = (c :: a).dropWhile fun c => decide (IsWord c) := ⟨_, rfl⟩
  have parts : c :: a = w ++ eq := by
    rw [taken, left]
    exact List.takeWhile_append_dropWhile.symm
  have letters : ∀ d ∈ w, IsWord d := by
    intro d member
    rw [taken] at member
    have letter := List.mem_takeWhile_imp (p := fun c => decide (IsWord c)) member
    exact of_decide_eq_true letter
  have stops : ∀ d ∈ eq.head?, ¬ IsWord d := by
    intro d member
    have not := List.head?_dropWhile_not (fun c => decide (IsWord c)) (c :: a)
    rw [← left, Option.mem_def.mp member] at not
    simpa using not
  have some : w ≠ [] := by
    intro none
    rw [none, List.nil_append] at parts
    exact stops c (congrArg List.head? parts).symm letter
  rw [← left, parts]
  have whole : skip s = w ++ eq := head.trans parts
  refine ⟨rfl, ?_, ?_⟩
  · rw [text_append]
    exact ⟨some, letters, eq, whole ▸ blank_skip s, stops, blank_skip eq⟩
  · constructor
    case inside => exact whole ▸ blank_suffix (blank_skip s)
    case spelled => rw [text_append]
    case letters => rwa [text_append]
    case stops => exact stops

/-- gettoken() finds the word that is there. -/
theorem Word.gettoken (word : Word w s rest) (nulFree : (0 : Byte) ∉ s) :
    (gettoken s).ret = 0x61 ∧ Span.text ⟨(gettoken s).q, (gettoken s).eq⟩ = w ∧
      (Shell.gettoken s).rest = skip rest := by
  obtain ⟨c, w', a, rfl, letter, head, stops, behind⟩ := word.head
  have nul : c ≠ 0 := by
    intro zero
    have there : c ∈ skip s := head ▸ List.mem_cons_self
    exact nulFree (zero ▸ (blank_suffix (blank_skip s)).mem there)
  have head : skip s = c :: (w' ++ a) := head
  have found := gettoken_word head letter nul
  have left : (c :: (w' ++ a)).dropWhile (fun c => decide (IsWord c)) = a :=
    dropWhile_word word.letters stops
  rw [left] at found
  rw [found]
  exact ⟨rfl, text_append (c :: w') a, behind⟩

end Tokens

end Xv6.Public2.Shell
