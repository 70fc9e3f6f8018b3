import Mathlib.Tactic.Common
import Xv6.Lib.CString

/-!
# The login of init (xv6-public_1)

login() of init.c, with gets() of ulib.c under it, and what the child of init
does with it.  The console is the list of what the calls read(0, &c, 1) return
one after the other: a byte, or a result below 1 (`none`).  A read past the end
of the list waits for ever.
-/

set_option autoImplicit false

namespace Xv6.Public1.Login

open Xv6.Lib.Words
open Xv6.Lib.CString

abbrev Input := List (Option Byte)

def newline : Byte := 10

def carriageReturn : Byte := 13

/-- The loop of gets() with room for so many more bytes; `none` if it waits. -/
def getsLoop : Nat → Input → Option (List Byte × Input)
  | 0, input => some ([], input)
  | _ + 1, [] => none
  | _ + 1, none :: input => some ([], input)
  | room + 1, some c :: input =>
      if c = newline ∨ c = carriageReturn then some ([c], input)
      else (getsLoop room input).map fun read => (c :: read.1, read.2)

def gets (max : Nat) (input : Input) : Option (List Byte × Input) :=
  (getsLoop (max - 1) input).map fun read => (read.1 ++ [0], read.2)

/-- The newline at the end of the string becomes its NUL. -/
def chomp (s : List Byte) : List Byte :=
  let len := strlen s
  if len > 0 ∧ s.getD (len - 1) 0 = newline then s.set (len - 1) 0 else s

/-- The macros `USERNAME` and `PASSWORD`. -/
structure Credentials where
  USERNAME : List Byte
  PASSWORD : List Byte

/-- The values in the Makefile. -/
def makefile : Credentials := { USERNAME := bytes "user", PASSWORD := bytes "passwd" }

/-- What the child asks of the kernel, its reads apart. -/
inductive Action where
  | printf (text : String)
  | sleep (ticks : Nat)
  | exec (path : String) (argv : List String)
  | exit
  deriving DecidableEq

/-- How one round of the loop of login() ends. -/
inductive Round where
  | waiting
  | wrong (rest : Input)
  | right (rest : Input)
  deriving DecidableEq

def round (macros : Credentials) (input : Input) : List Action × Round :=
  match gets 32 input with
  | none => ([.printf "Enter username: "], .waiting)
  | some (uname, input) =>
      if strcmp (chomp uname) macros.USERNAME ≠ 0 then
        ([.printf "Enter username: ", .printf "Incorrect username.\n"], .wrong input)
      else
        match gets 32 input with
        | none => ([.printf "Enter username: ", .printf "Enter password: "], .waiting)
        | some (pword, input) =>
            if strcmp (chomp pword) macros.PASSWORD = 0 then
              ([.printf "Enter username: ", .printf "Enter password: "], .right input)
            else
              ([.printf "Enter username: ", .printf "Enter password: ",
                .printf "Incorrect password.\n"], .wrong input)

/-- The loop of login() with so many attempts left, and the sleep after it.
login() has no result: where it returns, the rest of the input is left. -/
def attempts (macros : Credentials) : Nat → Input → List Action × Option Input
  | 0, input => ([.sleep 100000], some input)
  | left + 1, input =>
      match round macros input with
      | (actions, .waiting) => (actions, none)
      | (actions, .right rest) => (actions, some rest)
      | (actions, .wrong rest) =>
          let further := attempts macros left rest
          (actions ++ further.1, further.2)

def login (macros : Credentials) (input : Input) : List Action × Option Input :=
  attempts macros 3 input

/-- What main() of init does in the child; `loads` tells whether the exec finds
the shell. -/
def child (macros : Credentials) (loads : Bool) (input : Input) : List Action :=
  match login macros input with
  | (actions, none) => actions
  | (actions, some _) =>
      actions ++ [.exec "sh" ["sh"]] ++
        (if loads then [] else [.printf "init: exec sh failed\n", .exit])

/-! ## What is entered -/

/-- One line as gets() takes it: up to a newline or carriage return, to a read
that returns nothing, or to the size of the buffer. -/
inductive Line : Nat → Input → List Byte → Input → Prop where
  | full (input : Input) : Line 0 input [] input
  | nothing (room : Nat) (input : Input) : Line (room + 1) (none :: input) [] input
  | last (room : Nat) (c : Byte) (input : Input) (ends : c = newline ∨ c = carriageReturn) :
      Line (room + 1) (some c :: input) [c] input
  | more (room : Nat) (c : Byte) (input rest : Input) (line : List Byte)
      (inner : ¬ (c = newline ∨ c = carriageReturn)) (tail : Line room input line rest) :
      Line (room + 1) (some c :: input) (c :: line) rest

/-- The word that a line enters: its bytes before a NUL or the newline. -/
def word (line : List Byte) : List Byte :=
  line.takeWhile fun c => decide (c ≠ 0 ∧ c ≠ newline)

/-- The next line of the input, in a buffer of 32 bytes, enters the word. -/
def Enters (input : Input) (entered : List Byte) (rest : Input) : Prop :=
  ∃ line, Line 31 input line rest ∧ word line = entered

/-- One attempt fails: a wrong username, or a wrong password after it. -/
inductive Fails (macros : Credentials) : Input → Input → Prop where
  | username (input rest : Input) (entered : List Byte) (typed : Enters input entered rest)
      (wrong : entered ≠ text macros.USERNAME) : Fails macros input rest
  | password (input middle rest : Input) (entered : List Byte)
      (known : Enters input (text macros.USERNAME) middle) (typed : Enters middle entered rest)
      (wrong : entered ≠ text macros.PASSWORD) : Fails macros input rest

/-- In one of so many attempts the username and then the password is entered. -/
inductive Granted (macros : Credentials) : Nat → Input → Prop where
  | now (left : Nat) (input middle rest : Input)
      (username : Enters input (text macros.USERNAME) middle)
      (password : Enters middle (text macros.PASSWORD) rest) : Granted macros (left + 1) input
  | later (left : Nat) (input rest : Input) (fails : Fails macros input rest)
      (granted : Granted macros left rest) : Granted macros (left + 1) input

inductive AllFail (macros : Credentials) : Nat → Input → Prop where
  | done (input : Input) : AllFail macros 0 input
  | next (left : Nat) (input rest : Input) (fails : Fails macros input rest)
      (others : AllFail macros left rest) : AllFail macros (left + 1) input

/-! ## gets() and the chomp after it take one line -/

theorem getsLoop_iff (room : Nat) (input rest : Input) (line : List Byte) :
    getsLoop room input = some (line, rest) ↔ Line room input line rest := by
  constructor
  · intro read
    induction room generalizing input line with
    | zero =>
        cases Option.some.inj read
        exact .full _
    | succ room ih =>
        match input with
        | [] => cases read
        | none :: input =>
            cases Option.some.inj read
            exact .nothing room rest
        | some c :: input =>
            rw [getsLoop] at read
            split at read
            · rename_i ends
              cases Option.some.inj read
              exact .last room c rest ends
            · rename_i inner
              obtain ⟨⟨tail, left⟩, found, same⟩ := Option.map_eq_some_iff.mp read
              cases same
              exact .more room c input _ tail inner (ih input tail found)
  · intro line
    induction line with
    | full input => rfl
    | nothing room input => rfl
    | last room c input ends => rw [getsLoop, if_pos ends]
    | more room c input rest line inner tail ih => rw [getsLoop, if_neg inner, ih, Option.map_some]

theorem chomp_cons (c : Byte) (s : List Byte) (nonzero : c ≠ 0) (inner : c ≠ newline) :
    chomp (c :: s) = c :: chomp s := by
  have longer : strlen (c :: s) = strlen s + 1 := by rw [strlen, if_neg nonzero]
  unfold chomp
  rw [longer]
  cases strlen s with
  | zero => simp [inner]
  | succ n =>
      simp only [Nat.add_sub_cancel, List.getD_cons_succ, List.set_cons_succ]
      split
      · rename_i ends
        rw [if_pos ⟨Nat.succ_pos n, ends.2⟩]
      · rename_i stays
        rw [if_neg fun ends => stays ⟨Nat.succ_pos _, ends.2⟩]

theorem word_cons (c : Byte) (line : List Byte) (nonzero : c ≠ 0) (inner : c ≠ newline) :
    word (c :: line) = c :: word line := by
  rw [word, List.takeWhile_cons, if_pos (decide_eq_true ⟨nonzero, inner⟩)]
  rfl

theorem Line.chomped {room : Nat} {input rest : Input} {line : List Byte}
    (read : Line room input line rest) : text (chomp (line ++ [0])) = word line := by
  induction read with
  | full input => rfl
  | nothing room input => rfl
  | last room c input ends =>
      rcases ends with rfl | rfl
      · rfl
      · rfl
  | more room c input rest line inner tail ih =>
      have notNewline : c ≠ newline := fun same => inner (Or.inl same)
      by_cases nul : c = 0
      · subst nul
        rfl
      · rw [List.cons_append, chomp_cons c _ nul notNewline, word_cons c _ nul notNewline,
          text_cons, if_neg nul, ih]

theorem enters_iff (input rest : Input) (entered : List Byte) : Enters input entered rest ↔
    ∃ buf, gets 32 input = some (buf, rest) ∧ text (chomp buf) = entered := by
  constructor
  · rintro ⟨line, read, rfl⟩
    refine ⟨line ++ [0], ?_, read.chomped⟩
    rw [gets, (getsLoop_iff 31 input rest line).mpr read]
    rfl
  · rintro ⟨buf, found, rfl⟩
    obtain ⟨⟨line, left⟩, read, same⟩ := Option.map_eq_some_iff.mp found
    cases same
    have taken := (getsLoop_iff 31 input _ line).mp read
    exact ⟨line, taken, taken.chomped.symm⟩

theorem Enters.gets {input rest : Input} {entered : List Byte} (typed : Enters input entered rest) :
    ∃ buf, Login.gets 32 input = some (buf, rest) ∧ text (chomp buf) = entered :=
  (enters_iff input rest entered).mp typed

theorem enters_of_gets {input rest : Input} {buf : List Byte}
    (found : gets 32 input = some (buf, rest)) : Enters input (text (chomp buf)) rest :=
  (enters_iff input rest _).mpr ⟨buf, found, rfl⟩

/-! ## The loop of login() -/

theorem round_right_iff (macros : Credentials) (input rest : Input) :
    (round macros input).2 = .right rest ↔
      ∃ middle, Enters input (text macros.USERNAME) middle ∧
        Enters middle (text macros.PASSWORD) rest := by
  constructor
  · intro ends
    unfold round at ends
    cases first : gets 32 input with
    | none => simp [first] at ends
    | some read =>
        obtain ⟨uname, middle⟩ := read
        by_cases known : strcmp (chomp uname) macros.USERNAME = 0
        · cases second : gets 32 middle with
          | none => simp [first, known, second] at ends
          | some read =>
              obtain ⟨pword, left⟩ := read
              by_cases fits : strcmp (chomp pword) macros.PASSWORD = 0
              · simp only [first, known, second, fits, ne_eq, not_true_eq_false, if_false,
                  if_true, Round.right.injEq] at ends
                subst ends
                rw [strcmp_eq_zero_iff] at known fits
                exact ⟨middle, known ▸ enters_of_gets first, fits ▸ enters_of_gets second⟩
              · simp [first, known, second, fits] at ends
        · simp [first, known] at ends
  · rintro ⟨middle, username, password⟩
    obtain ⟨uname, first, known⟩ := username.gets
    obtain ⟨pword, second, fits⟩ := password.gets
    rw [← strcmp_eq_zero_iff] at known fits
    simp [round, first, second, known, fits]

theorem round_wrong_iff (macros : Credentials) (input rest : Input) :
    (round macros input).2 = .wrong rest ↔ Fails macros input rest := by
  constructor
  · intro ends
    unfold round at ends
    cases first : gets 32 input with
    | none => simp [first] at ends
    | some read =>
        obtain ⟨uname, middle⟩ := read
        by_cases known : strcmp (chomp uname) macros.USERNAME = 0
        · cases second : gets 32 middle with
          | none => simp [first, known, second] at ends
          | some read =>
              obtain ⟨pword, left⟩ := read
              by_cases fits : strcmp (chomp pword) macros.PASSWORD = 0
              · simp [first, known, second, fits] at ends
              · simp only [first, known, second, fits, ne_eq, not_true_eq_false, if_false,
                  Round.wrong.injEq] at ends
                subst ends
                rw [strcmp_eq_zero_iff] at known fits
                exact .password input middle left _ (known ▸ enters_of_gets first)
                  (enters_of_gets second) fits
        · simp only [first, known, ne_eq, not_false_eq_true, if_true, Round.wrong.injEq] at ends
          subst ends
          rw [strcmp_eq_zero_iff] at known
          exact .username input middle _ (enters_of_gets first) known
  · intro fails
    cases fails with
    | username _ entered typed wrong =>
        obtain ⟨uname, first, rfl⟩ := typed.gets
        rw [ne_eq, ← strcmp_eq_zero_iff] at wrong
        simp [round, first, wrong]
    | password middle _ entered known typed wrong =>
        obtain ⟨uname, first, known⟩ := known.gets
        obtain ⟨pword, second, rfl⟩ := typed.gets
        rw [← strcmp_eq_zero_iff] at known
        rw [ne_eq, ← strcmp_eq_zero_iff] at wrong
        simp [round, first, known, second, wrong]

/-- login() returns to its caller in just two cases: the user has been let in,
or every attempt has failed. -/
theorem attempts_return_iff (macros : Credentials) (left : Nat) (input : Input) :
    (attempts macros left input).2.isSome = true ↔
      Granted macros left input ∨ AllFail macros left input := by
  induction left generalizing input with
  | zero => exact iff_of_true rfl (Or.inr (.done input))
  | succ left ih =>
      rw [attempts]
      rcases ended : round macros input with ⟨actions, result⟩
      have right := round_right_iff macros input
      have wrong := round_wrong_iff macros input
      rw [ended] at right wrong
      cases result with
      | waiting =>
          refine iff_of_false (by simp) ?_
          rintro (granted | failed)
          · cases granted with
            | now _ _ middle rest username password =>
                cases (right rest).mpr ⟨middle, username, password⟩
            | later _ _ rest fails _ => cases (wrong rest).mpr fails
          · cases failed with
            | next _ _ rest fails _ => cases (wrong rest).mpr fails
      | right rest =>
          obtain ⟨middle, username, password⟩ := (right rest).mp rfl
          exact iff_of_true rfl (Or.inl (.now left input middle rest username password))
      | wrong rest =>
          have fails := (wrong rest).mp rfl
          refine (ih rest).trans (or_congr ?_ ?_)
          · constructor
            · exact .later left input rest fails
            · intro granted
              cases granted with
              | now _ _ middle rest' username password =>
                  cases (right rest').mpr ⟨middle, username, password⟩
              | later _ _ rest' fails' granted =>
                  cases (wrong rest').mpr fails'
                  exact granted
          · constructor
            · exact .next left input rest fails
            · intro failed
              cases failed with
              | next _ _ rest' fails' others =>
                  cases (wrong rest').mpr fails'
                  exact others

/-! ## What the child reaches -/

theorem round_no_exec (macros : Credentials) (input : Input) (path : String) (argv : List String) :
    .exec path argv ∉ (round macros input).1 := by
  unfold round
  cases gets 32 input with
  | none => simp
  | some read =>
      dsimp only
      split
      · simp
      · cases gets 32 read.2 with
        | none => simp
        | some second =>
            dsimp only
            split <;> simp

theorem attempts_no_exec (macros : Credentials) (left : Nat) (input : Input) (path : String)
    (argv : List String) : .exec path argv ∉ (attempts macros left input).1 := by
  induction left generalizing input with
  | zero => simp [attempts]
  | succ left ih =>
      have first := round_no_exec macros input path argv
      rw [attempts]
      rcases ended : round macros input with ⟨actions, result⟩
      rw [ended] at first
      cases result with
      | waiting => exact first
      | right rest => exact first
      | wrong rest => simpa using ⟨first, ih rest⟩

/-- The child gets to exec("sh"). -/
def ReachesShell (macros : Credentials) (loads : Bool) (input : Input) : Prop :=
  .exec "sh" ["sh"] ∈ child macros loads input

theorem reachesShell_iff (macros : Credentials) (loads : Bool) (input : Input) :
    ReachesShell macros loads input ↔ Granted macros 3 input ∨ AllFail macros 3 input := by
  rw [← attempts_return_iff]
  have silent := attempts_no_exec macros 3 input "sh" ["sh"]
  unfold ReachesShell child login
  rcases returned : attempts macros 3 input with ⟨actions, result⟩
  rw [returned] at silent
  cases result with
  | none => simpa using silent
  | some rest => simp

/-- The gate holds exactly when the three attempts of the input do not all
fail: then, too, login() returns and main() goes on to the shell. -/
theorem login_gate_iff (macros : Credentials) (loads : Bool) (input : Input) :
    ((ReachesShell macros loads input → Granted macros 3 input) ∧
      (AllFail macros 3 input → ¬ ReachesShell macros loads input)) ↔
      ¬ AllFail macros 3 input := by
  rw [reachesShell_iff]
  constructor
  · rintro ⟨_, never⟩ failed
    exact never failed (Or.inr failed)
  · intro passed
    exact ⟨fun reached => reached.resolve_right passed, fun failed => absurd failed passed⟩

/-- Three lines that are no username. -/
def threeWrong : Input := (bytes "a\nb\nc\n").map some

theorem threeWrong_reaches_shell :
    ¬ (∀ (macros : Credentials) (loads : Bool) (input : Input),
      (ReachesShell macros loads input → Granted macros 3 input) ∧
        (AllFail macros 3 input → ¬ ReachesShell macros loads input)) := by
  intro gate
  have reached : ReachesShell makefile true threeWrong := by
    unfold ReachesShell
    decide +kernel
  have first : Fails makefile threeWrong (threeWrong.drop 2) :=
    (round_wrong_iff makefile threeWrong _).mp (by decide +kernel)
  have second : Fails makefile (threeWrong.drop 2) (threeWrong.drop 4) :=
    (round_wrong_iff makefile _ _).mp (by decide +kernel)
  have third : Fails makefile (threeWrong.drop 4) (threeWrong.drop 6) :=
    (round_wrong_iff makefile _ _).mp (by decide +kernel)
  have failed : AllFail makefile 3 threeWrong :=
    .next 2 _ _ first (.next 1 _ _ second (.next 0 _ _ third (.done _)))
  exact (gate makefile true threeWrong).2 failed reached

end Xv6.Public1.Login
