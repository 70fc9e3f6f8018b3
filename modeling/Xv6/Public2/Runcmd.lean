import Mathlib.Logic.Function.Basic
import Xv6.Lib.Runs
import Xv6.Public2.Shell

/-!
# Running commands (sh.c of xv6-public_2)

runcmd() as the system calls that it makes, and processes that make them in any order.
pipe(), fork(), dup() and open() succeed; a descriptor is the lowest that is free.
-/

set_option autoImplicit false

namespace Xv6.Public2.Runcmd

open Xv6.Lib.Runs
open Xv6.Lib.Words
open Xv6.Public2.Shell

/-! ## Descriptors -/

/-- A process by the forks that lead to it: `i :: pid` is the child `i` of `pid`. -/
abbrev Pid := List Nat

/-- What a descriptor refers to.  A pipe goes by the process that has made it, which makes
one only. -/
inductive Obj where
  /-- What the first process had. -/
  | given (fd : Nat)
  | file (path : List Byte) (mode : Nat)
  | readEnd (maker : Pid)
  | writeEnd (maker : Pid)
  deriving DecidableEq

/-- `ofile` -/
abbrev Fds := Nat → Option Obj

def NOFILE : Nat := 16

def fdalloc (fds : Fds) : Option Nat := (List.range NOFILE).find? fun fd => (fds fd).isNone

inductive Call where
  | close (fd : Nat)
  | dup (fd : Nat)

def Call.apply : Call → Fds → Option Fds
  | .close fd, fds => some (Function.update fds fd none)
  | .dup fd, fds =>
      match fds fd with
      | none => none
      | some obj => (fdalloc fds).map fun new => Function.update fds new (some obj)

/-! ## Processes -/

inductive Action where
  | run (cmd : Cmd (List Byte))
  | call (call : Call)
  | openFile (path : List Byte) (mode : Nat)
  | pipe (left right : Cmd (List Byte))
  /-- The child makes the calls and runs the command. -/
  | fork (calls : List Call) (cmd : Cmd (List Byte))
  | wait
  | exec (argv : List (List Byte))
  /-- The program runs until it exits. -/
  | program (argv : List (List Byte))
  | exit

/-- runcmd() up to the next command. -/
def runcmd : Cmd (List Byte) → List Action
  | .exec argv => if argv = [] then [.exit] else [.exec argv, .exit]
  | .redir cmd file mode fd => [.call (.close fd), .openFile file mode, .run cmd]
  | .list left right => [.fork [] left, .wait, .run right]
  | .pipe left right => [.pipe left right]
  | .back cmd => [.fork [] cmd, .exit]

/-- The case PIPE, behind pipe(p). -/
def piped (p0 p1 : Nat) (left right : Cmd (List Byte)) : List Action :=
  [.fork [.close 1, .dup p1, .close p0, .close p1] left,
    .fork [.close 0, .dup p0, .close p0, .close p1] right,
    .call (.close p0), .call (.close p1), .wait, .wait, .exit]

structure Proc where
  /-- What it has still to do; nothing if it has exited. -/
  todo : List Action
  fds : Fds
  /-- The children it has had. -/
  forks : Nat

/-- A call of exec(). -/
structure Exec where
  pid : Pid
  argv : List (List Byte)
  fds : Fds

structure State where
  procs : Pid → Option Proc
  execs : List Exec

def State.put (s : State) (pid : Pid) (proc : Proc) : State :=
  { s with procs := Function.update s.procs pid (some proc) }

def exited (proc : Option Proc) : Bool :=
  match proc with
  | none => false
  | some proc => proc.todo.isEmpty

/-- A child that has exited is taken away.  Without children wait() returns at once. -/
def waits (s : State) (pid : Pid) (proc : Proc) (rest : List Action) : Option State :=
  let children := List.range proc.forks
  match children.find? fun i => exited (s.procs (i :: pid)) with
  | some i =>
      some ({ s with procs := Function.update s.procs (i :: pid) none }.put pid
        { proc with todo := rest })
  | none =>
      if children.any fun i => (s.procs (i :: pid)).isSome then none
      else some (s.put pid { proc with todo := rest })

/-- What `pid` does next. -/
def act (s : State) (pid : Pid) (proc : Proc) (rest : List Action) : Action → Option State
  | .run cmd => some (s.put pid { proc with todo := runcmd cmd })
  | .call call =>
      (call.apply proc.fds).map fun fds => s.put pid { proc with todo := rest, fds := fds }
  | .openFile path mode =>
      (fdalloc proc.fds).map fun fd =>
        s.put pid { proc with
          todo := rest, fds := Function.update proc.fds fd (some (.file path mode)) }
  | .pipe left right =>
      (fdalloc proc.fds).bind fun p0 =>
      let fds := Function.update proc.fds p0 (some (.readEnd pid))
      (fdalloc fds).map fun p1 =>
        s.put pid { proc with
          todo := piped p0 p1 left right, fds := Function.update fds p1 (some (.writeEnd pid)) }
  | .fork calls cmd =>
      some ((s.put pid { proc with todo := rest, forks := proc.forks + 1 }).put (proc.forks :: pid)
        ⟨calls.map .call ++ [.run cmd], proc.fds, 0⟩)
  | .wait => waits s pid proc rest
  | .exec argv =>
      some { s.put pid { proc with todo := .program argv :: rest } with
        execs := ⟨pid, argv, proc.fds⟩ :: s.execs }
  | .program _ => some (s.put pid { proc with todo := rest })
  | .exit => some (s.put pid { proc with todo := [], fds := fun _ => none })

inductive Event where
  | turn (pid : Pid)
  | execFails (pid : Pid)

def step (s : State) : Event → Option State
  | .turn pid =>
      match s.procs pid with
      | none => none
      | some proc =>
          match proc.todo with
          | [] => none
          | action :: rest => act s pid proc rest action
  | .execFails pid =>
      match s.procs pid with
      | none => none
      | some proc =>
          match proc.todo with
          | .exec argv :: rest =>
              some { s.put pid { proc with todo := rest } with
                execs := ⟨pid, argv, proc.fds⟩ :: s.execs }
          | _ => none

/-- Descriptors 0, 1 and 2 and no others. -/
def standard (input output : Obj) : Fds := fun fd =>
  if fd = 0 then some input
  else if fd = 1 then some output
  else if fd = 2 then some (.given 2)
  else none

def start (cmd : Cmd (List Byte)) : State :=
  State.put ⟨fun _ => none, []⟩ [] ⟨[.run cmd], standard (.given 0) (.given 1), 0⟩

end Xv6.Public2.Runcmd
