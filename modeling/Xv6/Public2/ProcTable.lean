import Mathlib.Data.Fin.Basic
import Mathlib.Data.List.FinRange
import Mathlib.Logic.Function.Basic
import Xv6.Public2.Signals

/-!
# The process table (xv6-public_2)

`struct proc`, `ptable`, the per-CPU `proc` pointers and what proc.c does to
them inside its critical sections.  Slots of `ptable.proc` are `Fin NPROC`; a
null `struct proc*` or page is `none`.  Pids wrap as C ints; tick counts and
priorities are exact integers.

Two fields of `Proc` are history that the kernel does not store: `life`, what
the slot has been through since it was last allocated, and `tfStored`, whether
the trap frame on the present kernel stack has been filled in.  `thread` says
where the kernel thread of the slot goes on when it is resumed.
-/

set_option autoImplicit false

namespace Xv6.Public2.ProcTable

open Xv6.Lib.Words
open Xv6.Machine
open Xv6.Public2.Signals

abbrev NPROC : Nat := 64
abbrev NCPU : Nat := 8
def INIT_PRIORITY : Int := 50
def ALPHA : Int := 1
def BETA : Int := 2

abbrev Slot := Fin NPROC
abbrev Cpu := Fin NCPU
abbrev Page := Nat

-- Numerals for slots and CPUs.
instance slotNeZero : @NeZero Nat Zero.ofOfNat0 NPROC := ⟨Nat.succ_ne_zero 63⟩

instance cpuNeZero : @NeZero Nat Zero.ofOfNat0 NCPU := ⟨Nat.succ_ne_zero 7⟩

/-- A sleep channel: the address of a `struct proc` or any other address. -/
inductive Chan where
  | proc (slot : Slot)
  | addr (a : Nat)
  deriving DecidableEq

/-- `&ticks`. -/
def ticksChan : Chan := .addr 0

inductive ProcState where
  | UNUSED | EMBRYO | SLEEPING | RUNNABLE | RUNNING | ZOMBIE | CUSTOM_WAIT
  deriving DecidableEq

inductive Life where
  | free | embryo | live | exited
  deriving DecidableEq

inductive ForkStage where
  | allocated | stacked | copied
  deriving DecidableEq

/-- A call of fork() (`custom = none`) or custom_fork(start_later, exec_time)
that has got its slot `np` and not yet returned. -/
structure ForkCall where
  np : Slot
  custom : Option (Int × Int)
  stage : ForkStage
  deriving DecidableEq

inductive Thread where
  | user
  | asleep
  | waiting
  | forking (call : ForkCall)
  deriving DecidableEq

structure Proc extends SigState where
  pgdir : Option Page := none
  kstack : Option Page := none
  state : ProcState := .UNUSED
  pid : Int := 0
  parent : Option Slot := none
  context : Option Page := none
  chan : Option Chan := none
  killed : Int := 0
  b : Int := 0
  custom : Int := 0
  start_later : Int := 0
  exec_time : Int := 0
  creation_time : Int := 0
  first_cpu_time : Int := 0
  finish_time : Int := 0
  rtime : Int := 0
  context_switches : Int := 0
  init_priority : Int := 0
  waiting_time : Int := 0
  thread : Thread := .user
  life : Life := .free
  tfStored : Bool := false
  deriving DecidableEq

inductive Panic where
  | initExiting | zombieExit | noKstack | noPgdir
  deriving DecidableEq

structure Kernel where
  proc : Slot → Proc
  cpu : Cpu → Option Slot
  start_run : Cpu → Int
  prev_proc : Option Slot
  initproc : Slot
  nextpid : Int
  ticks : Int
  /-- The Ctrl-B branch has released ptable.lock and is about to wake up what
  this slot sleeps on. -/
  shellWake : Option Slot
  panic : Option Panic

def slots : List Slot := List.finRange NPROC

/-- Store into one slot. -/
def Kernel.set (k : Kernel) (i : Slot) (p : Proc) : Kernel :=
  { k with proc := Function.update k.proc i p }

@[simp] theorem Kernel.set_same (k : Kernel) (i : Slot) (p : Proc) : (k.set i p).proc i = p := by
  simp [Kernel.set]

theorem Kernel.set_other (k : Kernel) {i j : Slot} (p : Proc) (other : j ≠ i) :
    (k.set i p).proc j = k.proc j := by
  simp [Kernel.set, other]

@[simp] theorem Kernel.set_cpu (k : Kernel) (i : Slot) (p : Proc) : (k.set i p).cpu = k.cpu := rfl

@[simp] theorem Kernel.set_panic (k : Kernel) (i : Slot) (p : Proc) :
    (k.set i p).panic = k.panic := rfl

/-! ## Sleeping and waking -/

def wakeup1 (chan : Option Chan) (proc : Slot → Proc) : Slot → Proc := fun i =>
  if (proc i).state = .SLEEPING ∧ (proc i).chan = chan then
    { proc i with state := .RUNNABLE }
  else proc i

/-- `nextpid++` on a C int. -/
def pidAfter (pid : Int) : Int := (pid + 1).bmod (2 ^ 32)

/-! ## Creating a process -/

/-- The loop of allocproc() looking for an UNUSED slot. -/
def findUnused (proc : Slot → Proc) : Option Slot :=
  slots.find? fun i => decide ((proc i).state = .UNUSED)

/-- allocproc() from `found:` to the release of ptable.lock. -/
def embryo (k : Kernel) (p : Proc) : Proc :=
  { p with
    state := .EMBRYO
    pid := k.nextpid
    creation_time := k.ticks
    first_cpu_time := -1
    finish_time := 0
    rtime := 0
    context_switches := 0
    init_priority := INIT_PRIORITY
    life := .embryo
    tfStored := false }

def allocproc (k : Kernel) (np : Slot) : Kernel :=
  { k.set np (embryo k (k.proc np)) with nextpid := pidAfter k.nextpid }

/-- The rest of allocproc(): the kernel stack with the context that starts at
forkret, or back to UNUSED when kalloc returns 0. -/
def allocprocStack (page : Option Page) (p : Proc) : Proc :=
  match page with
  | none => { p with kstack := none, state := .UNUSED, life := .free }
  | some page => { p with kstack := some page, context := some page }

/-- fork() and custom_fork() from copyuvm to the copy of the trap frame. -/
def copyProcess (custom : Option (Int × Int)) (page : Option Page) (curproc : Slot)
    (tf : TrapFrame) (p : Proc) : Proc :=
  match page with
  | none => { p with pgdir := none, kstack := none, state := .UNUSED, life := .free }
  | some page =>
      let np := { p with
        pgdir := some page
        parent := some curproc
        tf := { tf with eax := 0 }
        tfStored := true }
      match custom with
      | none => np
      | some (start_later, exec_time) =>
          { np with
            custom := 1
            start_later := start_later
            exec_time := exec_time
            rtime := 0 }

/-- The locked end of fork() and custom_fork(). -/
def commitProcess (custom : Option (Int × Int)) (p : Proc) : Proc :=
  match custom with
  | none => { p with state := .RUNNABLE, b := 0, thread := .user, life := .live }
  | some (start_later, _) =>
      if start_later ≠ 0 then
        { p with state := .CUSTOM_WAIT, thread := .user, life := .live }
      else
        { p with state := .RUNNABLE, b := 0, thread := .user, life := .live }

/-! ## Leaving the CPU -/

/-- The test of the exec_time rule of scheduler(). -/
def overdue (p : Proc) (rtime : Int) : Prop := p.exec_time > 0 ∧ rtime ≥ p.exec_time

instance overdueDecidable (p : Proc) (rtime : Int) : Decidable (overdue p rtime) :=
  inferInstanceAs (Decidable (p.exec_time > 0 ∧ rtime ≥ p.exec_time))

/-- What scheduler() does with `chosen` once swtch has come back to it. -/
def accountRun (k : Kernel) (c : Cpu) (slot : Slot) (p : Proc) : Proc :=
  let rtime := p.rtime + (k.ticks - k.start_run c)
  { p with
    rtime := rtime
    context_switches :=
      if k.prev_proc = some slot then p.context_switches else p.context_switches + 1
    killed := if overdue p rtime then 1 else p.killed }

/-- `sched()` by the process in `slot`, whose record is `p` by now: back to
scheduler() on its CPU, up to the release of ptable.lock. -/
def sched (k : Kernel) (c : Cpu) (slot : Slot) (p : Proc) : Kernel :=
  { k.set slot (accountRun k c slot p) with
    cpu := Function.update k.cpu c none
    prev_proc := some slot }

/-! ## exit and wait -/

/-- The loop of exit() that passes abandoned children to init. -/
def reparent (curproc initproc : Slot) (proc : Slot → Proc) : Slot → Proc :=
  let handed : Slot → Proc := fun i =>
    if (proc i).parent = some curproc then { proc i with parent := some initproc } else proc i
  if slots.any fun i =>
      decide ((proc i).parent = some curproc) && decide ((proc i).state = .ZOMBIE) then
    wakeup1 (some (.proc initproc)) handed
  else handed

/-- exit() from the finish time to the loop over the children: the parent and,
for a ZOMBIE child, init are woken. -/
def exitNotify (k : Kernel) (curproc : Slot) : Slot → Proc :=
  let finished := Function.update k.proc curproc { k.proc curproc with finish_time := k.ticks }
  reparent curproc k.initproc (wakeup1 ((k.proc curproc).parent.map .proc) finished)

def exit (k : Kernel) (c : Cpu) (curproc : Slot) : Kernel :=
  if curproc = k.initproc then { k with panic := some .initExiting }
  else
    let k := { k with proc := exitNotify k curproc }
    sched k c curproc { k.proc curproc with state := .ZOMBIE, life := .exited }

/-- What a ZOMBIE slot becomes when wait() has reaped it. -/
def reap (p : Proc) : Proc :=
  { p with
    kstack := none
    pid := 0
    parent := none
    killed := 0
    state := .UNUSED
    life := .free }

/-- The slot at which the scan of wait() stops, if any. -/
def waitStop (proc : Slot → Proc) (curproc : Slot) : Option Slot :=
  slots.find? fun i =>
    decide ((proc i).parent = some curproc) &&
      (decide ((proc i).state = .ZOMBIE) ||
        (decide ((proc i).b = 1) && decide ((proc curproc).pid = 2)))

def haveKids (proc : Slot → Proc) (curproc : Slot) : Bool :=
  slots.any fun i => decide ((proc i).parent = some curproc)

def setThread (thread : Thread) (p : Proc) : Proc := { p with thread := thread }

/-- `p->chan = chan; p->state = SLEEPING` of sleep(). -/
def fallAsleep (chan : Chan) (thread : Thread) (p : Proc) : Proc :=
  { p with chan := some chan, state := .SLEEPING, thread := thread }

/-- One pass of the loop of wait() by `curproc` on CPU `c`: a child is reaped, a
suspended child ends the wait of the shell, there is nothing to wait for, or
the process sleeps on itself and scans again when it is resumed. -/
def wait (k : Kernel) (c : Cpu) (curproc : Slot) : Kernel :=
  match waitStop k.proc curproc with
  | some i =>
      let k := k.set curproc (setThread .user (k.proc curproc))
      if (k.proc i).state = .ZOMBIE then k.set i (reap (k.proc i)) else k
  | none =>
      if haveKids k.proc curproc = false ∨ (k.proc curproc).killed ≠ 0 then
        k.set curproc (setThread .user (k.proc curproc))
      else
        sched k c curproc (fallAsleep (.proc curproc) .waiting (k.proc curproc))

/-! ## The scheduler -/

def calculate_dynamic_priority (p : Proc) : Int :=
  p.init_priority - ALPHA * p.rtime + BETA * p.waiting_time

structure Scan where
  proc : Slot → Proc
  chosen : Option Slot
  best_priority : Int

/-- The body of the for loop of scheduler(). -/
def scanSlot (s : Scan) (i : Slot) : Scan :=
  if (s.proc i).state ≠ .RUNNABLE then s
  else if (s.proc i).b = 1 then s
  else
    let p := { s.proc i with waiting_time := (s.proc i).waiting_time + 1 }
    let s := { s with proc := Function.update s.proc i p }
    let dyn_priority := calculate_dynamic_priority p
    match s.chosen with
    | none => { s with chosen := some i, best_priority := dyn_priority }
    | some chosen =>
        if dyn_priority > s.best_priority then
          { s with chosen := some i, best_priority := dyn_priority }
        else if dyn_priority = s.best_priority then
          if p.pid < (s.proc chosen).pid then
            { s with chosen := some i, best_priority := dyn_priority }
          else s
        else s

def scan (proc : Slot → Proc) : Scan :=
  slots.foldl scanSlot { proc := proc, chosen := none, best_priority := -0x7fffffff }

/-- The record of `chosen` from `if(chosen)` to the switch. -/
def startRun (ticks : Int) (p : Proc) : Proc :=
  { p with
    first_cpu_time := if p.first_cpu_time < 0 then ticks else p.first_cpu_time
    waiting_time := p.waiting_time - 1
    state := .RUNNING }

/-- Where the kernel thread goes on after swtch: sleep() clears `chan`, and a
wait() keeps waiting. -/
def resume (p : Proc) : Proc :=
  match p.thread with
  | .asleep => { p with chan := none, thread := .user }
  | .waiting => { p with chan := none }
  | .user | .forking _ => p

/-- switchuvm(chosen) and swtch into it. -/
def switchTo (k : Kernel) (slot : Slot) : Kernel :=
  if (k.proc slot).kstack = none then { k with panic := some .noKstack }
  else if (k.proc slot).pgdir = none then { k with panic := some .noPgdir }
  else if (k.proc slot).life = .exited then { k with panic := some .zombieExit }
  else k.set slot (resume (k.proc slot))

/-- `if(chosen)` of scheduler() up to the switch. -/
def dispatch (k : Kernel) (c : Cpu) (slot : Slot) : Kernel :=
  { k with
    proc := Function.update k.proc slot (startRun k.ticks (k.proc slot))
    cpu := Function.update k.cpu c (some slot)
    start_run := Function.update k.start_run c k.ticks }

/-- One round of the loop of scheduler() on an idle CPU.  A process that sleeps
in wait() still holds ptable.lock when it is resumed and scans at once. -/
def scheduler (k : Kernel) (c : Cpu) : Kernel :=
  let s := scan k.proc
  let k := { k with proc := s.proc }
  match s.chosen with
  | none => k
  | some slot =>
      let k := switchTo (dispatch k c slot) slot
      if k.panic = none ∧ (k.proc slot).thread = .waiting then wait k c slot else k

/-! ## Other operations under ptable.lock -/

/-- kill(pid): the first slot with that pid. -/
def kill (pid : Int) (proc : Slot → Proc) : Slot → Proc :=
  match slots.find? fun i => decide ((proc i).pid = pid) with
  | none => proc
  | some i =>
      Function.update proc i
        { proc i with
          killed := 1
          state := if (proc i).state = .SLEEPING then .RUNNABLE else (proc i).state }

def sys_scheduler_start (proc : Slot → Proc) : Slot → Proc := fun i =>
  if (proc i).state = .CUSTOM_WAIT then { proc i with state := .RUNNABLE } else proc i

/-! ## The keys of consoleintr() -/

def ctrlC (proc : Slot → Proc) : Slot → Proc := fun i =>
  if (proc i).pid ≥ 3 then { proc i with killed := 1 } else proc i

/-- The slot that the second loop of the Ctrl-B branch stops at. -/
def shellSlot (proc : Slot → Proc) : Option Slot :=
  slots.find? fun i => decide ((proc i).pid = 2)

def ctrlBMark (proc : Slot → Proc) : Slot → Proc := fun i =>
  if (proc i).pid > 2 ∧ (proc i).state ≠ .ZOMBIE then { proc i with b := 1 } else proc i

/-- The Ctrl-B branch up to the release of ptable.lock. -/
def ctrlB (k : Kernel) : Kernel :=
  let marked := ctrlBMark k.proc
  match shellSlot marked with
  | none => { k with proc := marked }
  | some sh =>
      { k with
        proc := Function.update marked sh { marked sh with state := .RUNNABLE }
        shellWake := some sh }

def ctrlF (proc : Slot → Proc) : Slot → Proc := fun i =>
  if (proc i).pid > 2 ∧ (proc i).b = 1 then { proc i with b := 0, state := .RUNNABLE }
  else if (proc i).pid = 2 then { proc i with state := .SLEEPING }
  else proc i

end Xv6.Public2.ProcTable
