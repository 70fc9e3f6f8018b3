import Mathlib.Logic.Basic
import Xv6.Lib.CString

/-!
# The shell's parser (sh.c of xv6-public_2)

A pointer into the line is what follows it; the end of the line reads as NUL.  Loops and
recursion take fuel.
-/

set_option autoImplicit false

namespace Xv6.Public2.Shell

open Xv6.Lib.CString
open Xv6.Lib.Words

/-! ## Commands -/

def MAXARGS : Nat := 10

def O_RDONLY : Nat := 0x000
def O_WRONLY : Nat := 0x001
def O_CREATE : Nat := 0x200

/-- The commands, by what they have for words. -/
inductive Cmd (α : Type) where
  | exec (argv : List α)
  | redir (cmd : Cmd α) (file : α) (mode fd : Nat)
  | pipe (left right : Cmd α)
  | list (left right : Cmd α)
  | back (cmd : Cmd α)

/-- `argv[i]` and `eargv[i]`, or `file` and `efile`: the ends of a word. -/
structure Span where
  q : List Byte
  eq : List Byte

section Commands
variable {α β : Type}

/-- `argv[argc] = q` in the node that execcmd() has made. -/
def Cmd.push : Cmd α → α → Cmd α
  | .exec argv, w => .exec (argv ++ [w])
  | .redir cmd file mode fd, w => .redir (cmd.push w) file mode fd
  | cmd, _ => cmd

def Cmd.map (f : α → β) : Cmd α → Cmd β
  | .exec argv => .exec (argv.map f)
  | .redir cmd file mode fd => .redir (cmd.map f) (f file) mode fd
  | .pipe left right => .pipe (left.map f) (right.map f)
  | .list left right => .list (left.map f) (right.map f)
  | .back cmd => .back (cmd.map f)

end Commands

/-! ## Tokens -/

/-- `" \t\r\n\v"` -/
def whitespace : List Byte := [0x20, 0x09, 0x0d, 0x0a, 0x0b]

/-- `"<|>&;()"` -/
def symbols : List Byte := [0x3c, 0x7c, 0x3e, 0x26, 0x3b, 0x28, 0x29]

/-- strchr() finds the character. -/
def strchr (s : List Byte) (c : Byte) : Bool := s.any fun d => decide (d = c)

theorem strchr_iff {s : List Byte} {c : Byte} : strchr s c = true ↔ c ∈ s := by
  unfold strchr
  rw [List.any_eq_true]
  constructor
  · intro found
    obtain ⟨d, member, same⟩ := found
    exact of_decide_eq_true same ▸ member
  · exact fun member => ⟨c, member, decide_eq_true rfl⟩

/-- `while(s < es && strchr(whitespace, *s)) s++;` -/
def skip (s : List Byte) : List Byte := s.dropWhile (strchr whitespace)

/-- Neither whitespace nor a symbol. -/
def IsWord (c : Byte) : Prop := c ∉ whitespace ∧ c ∉ symbols

instance (c : Byte) : Decidable (IsWord c) :=
  decidable_of_iff (strchr whitespace c = false ∧ strchr symbols c = false)
    (and_congr (Bool.eq_false_iff.trans strchr_iff.not) (Bool.eq_false_iff.trans strchr_iff.not))

structure Token where
  ret : Byte
  q : List Byte
  eq : List Byte
  rest : List Byte

def gettoken (s : List Byte) : Token :=
  let q := skip s
  let c := q.headD 0
  if c = 0 then ⟨0, q, q, skip q⟩
  else if c = 0x7c ∨ c = 0x28 ∨ c = 0x29 ∨ c = 0x3b ∨ c = 0x26 ∨ c = 0x3c then
    ⟨c, q, q.tail, skip q.tail⟩
  else if c = 0x3e then
    -- '+' stands for ">>"
    if q.tail.headD 0 = 0x3e then ⟨0x2b, q, q.tail.tail, skip q.tail.tail⟩
    else ⟨c, q, q.tail, skip q.tail⟩
  else
    let eq := q.dropWhile fun c => decide (IsWord c)
    ⟨0x61, q, eq, skip eq⟩

/-- peek() moves `s` to `skip s`. -/
def peek (s toks : List Byte) : Bool :=
  decide ((skip s).headD 0 ≠ 0) && strchr toks ((skip s).headD 0)

/-! ## The parser -/

inductive Stop where
  | panic (msg : String)
  | fuel
  deriving DecidableEq

/-- What a function returns and where it leaves `*ps`. -/
abbrev Parse := Except Stop (Cmd Span × List Byte)

def redirect (tok : Byte) (cmd : Cmd Span) (file : Span) : Cmd Span :=
  if tok = 0x3c then .redir cmd file O_RDONLY 0
  else if tok = 0x3e then .redir cmd file (O_WRONLY ||| O_CREATE) 1
  else if tok = 0x2b then .redir cmd file (O_WRONLY ||| O_CREATE) 1
  else cmd

def parseredirs : Nat → Cmd Span → List Byte → Parse
  | 0, _, _ => .error .fuel
  | fuel + 1, cmd, s =>
      if peek s [0x3c, 0x3e] then
        let tok := gettoken (skip s)
        let file := gettoken tok.rest
        if file.ret ≠ 0x61 then .error (.panic "missing file for redirection")
        else parseredirs fuel (redirect tok.ret cmd ⟨file.q, file.eq⟩) file.rest
      else .ok (cmd, skip s)

/-- The loop of parseexec(). -/
def parseargs : Nat → Nat → Cmd Span → List Byte → Parse
  | 0, _, _, _ => .error .fuel
  | fuel + 1, argc, cmd, s =>
      if peek s [0x7c, 0x29, 0x26, 0x3b] then .ok (cmd, skip s)
      else
        let tok := gettoken (skip s)
        if tok.ret = 0 then .ok (cmd, tok.rest)
        else if tok.ret ≠ 0x61 then .error (.panic "syntax")
        else if argc + 1 ≥ MAXARGS then .error (.panic "too many args")
        else
          parseredirs fuel (cmd.push ⟨tok.q, tok.eq⟩) tok.rest >>= fun r =>
          parseargs fuel (argc + 1) r.1 r.2

/-- The loop of parseline(). -/
def parsebacks : Nat → Cmd Span → List Byte → Parse
  | 0, _, _ => .error .fuel
  | fuel + 1, cmd, s =>
      if peek s [0x26] then parsebacks fuel (.back cmd) (gettoken (skip s)).rest
      else .ok (cmd, skip s)

mutual

def parseline : Nat → List Byte → Parse
  | 0, _ => .error .fuel
  | fuel + 1, s =>
      parsepipe fuel s >>= fun r =>
      parsebacks fuel r.1 r.2 >>= fun r =>
      if peek r.2 [0x3b] then
        parseline fuel (gettoken (skip r.2)).rest >>= fun more =>
        .ok (.list r.1 more.1, more.2)
      else .ok (r.1, skip r.2)

def parsepipe : Nat → List Byte → Parse
  | 0, _ => .error .fuel
  | fuel + 1, s =>
      parseexec fuel s >>= fun r =>
      if peek r.2 [0x7c] then
        parsepipe fuel (gettoken (skip r.2)).rest >>= fun more =>
        .ok (.pipe r.1 more.1, more.2)
      else .ok (r.1, skip r.2)

def parseblock : Nat → List Byte → Parse
  | 0, _ => .error .fuel
  | fuel + 1, s =>
      if ¬ peek s [0x28] then .error (.panic "parseblock")
      else
        parseline fuel (gettoken (skip s)).rest >>= fun r =>
        if ¬ peek r.2 [0x29] then .error (.panic "syntax - missing )")
        else parseredirs fuel r.1 (gettoken (skip r.2)).rest

def parseexec : Nat → List Byte → Parse
  | 0, _ => .error .fuel
  | fuel + 1, s =>
      if peek s [0x28] then parseblock fuel (skip s)
      else
        parseredirs fuel (.exec []) (skip s) >>= fun r =>
        parseargs fuel 0 r.1 r.2

end

/-! ## Strings -/

/-- `*eq = 0` -/
def terminate (line eq : List Byte) : List Byte := line.set (line.length - eq.length) 0

def nulterminate : Cmd Span → List Byte → List Byte
  | .exec argv, line => argv.foldl (fun line w => terminate line w.eq) line
  | .redir cmd file _ _, line => terminate (nulterminate cmd line) file.eq
  | .pipe left right, line => nulterminate right (nulterminate left line)
  | .list left right, line => nulterminate right (nulterminate left line)
  | .back cmd, line => nulterminate cmd line

/-- The string at `w.q`. -/
def string (line : List Byte) (w : Span) : List Byte :=
  text (line.drop (line.length - w.q.length))

/-- The command, with the strings that its pointers stand for. -/
def parsecmd (fuel : Nat) (line : List Byte) : Except Stop (Cmd (List Byte)) :=
  parseline fuel line >>= fun r =>
  if skip r.2 ≠ [] then .error (.panic "syntax")
  else .ok (r.1.map (string (nulterminate r.1 line)))

end Xv6.Public2.Shell
