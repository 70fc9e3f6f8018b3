import Xv6.Lib.Rely
import Xv6.Lib.Words
import Mathlib.Logic.Function.Basic

/-!
# Interrupts and spinlocks (spinlock.c)

pushcli(), popcli(), acquire(), release() and holding() on one CPU, one access to memory
or to `eflags` at a time, while the other CPUs take and release locks.
-/

set_option autoImplicit false

namespace Xv6.Common.Spinlocks

open Xv6.Lib.Rely
open Xv6.Lib.Words

inductive Panic where
  /-- panic("mycpu called with interrupts enabled\n") -/
  | mycpu
  /-- panic("popcli - interruptible") -/
  | interruptible
  /-- panic("popcli") -/
  | popcli
  /-- panic("acquire") -/
  | acquire
  /-- panic("release") -/
  | release
  deriving DecidableEq

def FL_IF : Word := 0x200

structure Spinlock (C : Type) where
  locked : Word
  cpu : Option C

structure Cpu where
  ncli : Word
  intena : Word

/-- What one CPU works on. -/
structure Machine (C L : Type) where
  /-- `FL_IF` of `eflags` -/
  interrupts : Bool
  cpu : Cpu
  locks : L → Spinlock C
  /-- Not in memory: the locks whose `locked` this CPU has set, and not cleared yet. -/
  won : L → Bool

variable {C L : Type}

def Machine.setLock [DecidableEq L] (s : Machine C L) (lk : L) (lock : Spinlock C) : Machine C L :=
  { s with locks := Function.update s.locks lk lock }

/-- `xchg(&lk->locked, 1)` -/
def Machine.xchg [DecidableEq L] (s : Machine C L) (lk : L) : Machine C L :=
  { s.setLock lk { s.locks lk with locked := 1 } with
    won := if (s.locks lk).locked = 0 then Function.update s.won lk true else s.won }

/-- `movl $0, lk->locked` -/
def Machine.unlock [DecidableEq L] (s : Machine C L) (lk : L) : Machine C L :=
  { s.setLock lk { s.locks lk with locked := 0 } with won := Function.update s.won lk false }

abbrev Code (C L α : Type) := Prog (Machine C L) Panic α

def readeflags : Code C L Word := read fun s => if s.interrupts then FL_IF else 0

def cli : Code C L Unit := write fun s => { s with interrupts := false }

def sti : Code C L Unit := write fun s => { s with interrupts := true }

section Calls

variable (me : C)

def mycpu : Code C L C := do
  let eflags ← readeflags
  if eflags &&& FL_IF ≠ 0 then .fail .mycpu else pure me

/-- `if(mycpu()->ncli == 0) mycpu()->intena = eflags & FL_IF;` -/
def saveFlag (eflags : Word) : Code C L Unit := do
  let _ ← mycpu me
  let ncli ← read fun s => s.cpu.ncli
  if ncli = 0 then do
    let _ ← mycpu me
    write fun s => { s with cpu := { s.cpu with intena := eflags &&& FL_IF } }
  else pure ()

def pushcli : Code C L Unit := do
  let eflags ← readeflags
  cli
  saveFlag me eflags
  let _ ← mycpu me
  write fun s => { s with cpu := { s.cpu with ncli := s.cpu.ncli + 1 } }

/-- `if(mycpu()->ncli == 0 && mycpu()->intena) sti();` -/
def restoreFlag : Code C L Unit := do
  let _ ← mycpu me
  let ncli ← read fun s => s.cpu.ncli
  if ncli = 0 then do
    let _ ← mycpu me
    let intena ← read fun s => s.cpu.intena
    if intena ≠ 0 then sti else pure ()
  else pure ()

def popcli : Code C L Unit := do
  let eflags ← readeflags
  if eflags &&& FL_IF ≠ 0 then .fail .interruptible
  else do
    let _ ← mycpu me
    write fun s => { s with cpu := { s.cpu with ncli := s.cpu.ncli - 1 } }
    let ncli ← read fun s => s.cpu.ncli
    if ncli.toInt < 0 then .fail .popcli
    else restoreFlag me

variable [DecidableEq C]

/-- `lock->locked && lock->cpu == mycpu()` -/
def heldHere (lk : L) : Code C L Bool := do
  let locked ← read fun s => (s.locks lk).locked
  if locked ≠ 0 then do
    let cpu ← read fun s => (s.locks lk).cpu
    let c ← mycpu me
    pure (cpu == some c)
  else pure false

def holding (lk : L) : Code C L Bool := do
  pushcli me
  let r ← heldHere me lk
  popcli me
  pure r

variable [DecidableEq L]

/-- Without getcallerpcs(). -/
def acquire (lk : L) : Code C L Unit := do
  pushcli me
  let r ← holding me lk
  if r then .fail .acquire
  else do
    spin (fun s => (s.locks lk).locked != 0) (·.xchg lk)
    let c ← mycpu me
    write fun s => s.setLock lk { s.locks lk with cpu := some c }

def release (lk : L) : Code C L Unit := do
  let r ← holding me lk
  if !r then .fail .release
  else do
    write fun s => s.setLock lk { s.locks lk with cpu := none }
    write fun s => s.unlock lk
    popcli me

inductive Call (L : Type) where
  | pushcli
  | popcli
  | acquire (lk : L)
  | release (lk : L)

def Call.code : Call L → Code C L Unit
  | .pushcli => Spinlocks.pushcli me
  | .popcli => Spinlocks.popcli me
  | .acquire lk => Spinlocks.acquire me lk
  | .release lk => Spinlocks.release me lk

def calls : List (Call L) → Code C L Unit
  | [] => pure ()
  | c :: cs => do
      c.code me
      calls cs

/-- What the other CPUs do: they leave a lock that this CPU has alone, and never store this
CPU in one. -/
structure Others (s s' : Machine C L) : Prop where
  interrupts : s'.interrupts = s.interrupts
  cpu : s'.cpu = s.cpu
  won : s'.won = s.won
  mine : ∀ lk, s.won lk = true → s'.locks lk = s.locks lk
  theirs : ∀ lk, (s.locks lk).cpu ≠ some me → (s'.locks lk).cpu ≠ some me

end Calls

/-! ## Nesting -/

/-- Calls in pairs, one in the other, where the locks in `held` are held. -/
inductive Nested [DecidableEq L] : (L → Bool) → List (Call L) → Prop where
  | nil {held : L → Bool} : Nested held []
  | cli {held : L → Bool} {body rest : List (Call L)} (inner : Nested held body)
      (after : Nested held rest) : Nested held (.pushcli :: body ++ .popcli :: rest)
  | lock {held : L → Bool} {body rest : List (Call L)} {lk : L} (distinct : held lk = false)
      (inner : Nested (Function.update held lk true) body) (after : Nested held rest) :
      Nested held (.acquire lk :: body ++ .release lk :: rest)

/-- The calls of pushcli() that no popcli() has answered, when a call has returned. -/
def Call.depth (d : Nat) : Call L → Nat
  | .pushcli | .acquire _ => d + 1
  | .popcli | .release _ => d - 1

/-- The most of them while it runs, where acquire() and release() call holding(). -/
def Call.peak (d : Nat) : Call L → Nat
  | .pushcli => d + 1
  | .popcli => d
  | .acquire _ => d + 2
  | .release _ => d + 1

/-- The most of them in a sequence that starts with `d`. -/
def deepest : Nat → List (Call L) → Nat
  | d, [] => d
  | d, c :: cs => max (c.peak d) (deepest (c.depth d) cs)

end Xv6.Common.Spinlocks
