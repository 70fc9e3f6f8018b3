import Mathlib.Data.Fin.Basic
import Mathlib.Data.List.FinRange
import Mathlib.Logic.Function.Basic
import Xv6.Lib.Runs

/-!
# exit() and wait() (proc.c of xv6-public_3)

The process table and what proc.c does to it inside its critical sections, one
event for each of them and for each stretch of fork() outside the lock.  Pids are
exact: `nextpid` does not wrap.

`thread` says where the kernel thread of a slot goes on when it is resumed, and
`log` what exit() and wait() have done so far; the kernel stores neither.
-/

set_option autoImplicit false

namespace Xv6.Public3.ExitWait

abbrev NPROC : Nat := 64
abbrev NCPU : Nat := 8

abbrev Slot := Fin NPROC
abbrev Cpu := Fin NCPU

/-- A sleep channel: the address of a `struct proc` or any other address. -/
inductive Chan where
  | proc (slot : Slot)
  | addr (a : Nat)
  deriving DecidableEq

inductive ProcState where
  | UNUSED | EMBRYO | SLEEPING | RUNNABLE | RUNNING | ZOMBIE
  deriving DecidableEq

inductive ForkStage where
  | allocated | stacked | copied
  deriving DecidableEq

inductive Thread where
  | user
  | asleep
  | waiting
  /-- Inside fork(), with the slot that allocproc() has found. -/
  | forking (np : Slot) (stage : ForkStage)
  deriving DecidableEq

structure Proc where
  state : ProcState := .UNUSED
  pid : Int := 0
  parent : Option Slot := none
  chan : Option Chan := none
  killed : Bool := false
  thread : Thread := .user
  deriving DecidableEq

inductive Report where
  | exited (pid : Int)
  /-- wait() by the process in `caller` has returned `ret`. -/
  | waited (caller : Slot) (ret : Int)
  deriving DecidableEq

structure Kernel where
  proc : Slot → Proc
  cpu : Cpu → Option Slot
  initproc : Slot
  nextpid : Int
  log : List Report
  panicked : Bool

def slots : List Slot := List.finRange NPROC

/-- Store into one slot. -/
def Kernel.set (k : Kernel) (i : Slot) (p : Proc) : Kernel :=
  { k with proc := Function.update k.proc i p }

/-! ## Sleeping and waking -/

def wakeup1 (chan : Option Chan) (proc : Slot → Proc) : Slot → Proc := fun i =>
  if (proc i).state = .SLEEPING ∧ (proc i).chan = chan then
    { proc i with state := .RUNNABLE }
  else proc i

/-- `sched()` by the process in `slot`, whose record is `p` by now. -/
def sched (k : Kernel) (c : Cpu) (slot : Slot) (p : Proc) : Kernel :=
  { k.set slot p with cpu := Function.update k.cpu c none }

/-- `p->chan = chan; p->state = SLEEPING` of sleep(). -/
def fallAsleep (chan : Chan) (thread : Thread) (p : Proc) : Proc :=
  { p with chan := some chan, state := .SLEEPING, thread := thread }

/-- kill(pid): the first slot with that pid. -/
def kill (pid : Int) (proc : Slot → Proc) : Slot → Proc :=
  match slots.find? fun i => decide ((proc i).pid = pid) with
  | none => proc
  | some i =>
      Function.update proc i
        { proc i with
          killed := true
          state := if (proc i).state = .SLEEPING then .RUNNABLE else (proc i).state }

/-! ## fork() -/

/-- The loop of allocproc() looking for an UNUSED slot. -/
def findUnused (proc : Slot → Proc) : Option Slot :=
  slots.find? fun i => decide ((proc i).state = .UNUSED)

def setThread (thread : Thread) (p : Proc) : Proc := { p with thread := thread }

/-- Store into the slot being forked, then note how far the parent has come. -/
def forkOn (k : Kernel) (curproc np : Slot) (p : Proc) (thread : Thread) : Kernel :=
  let k := k.set np p
  k.set curproc (setThread thread (k.proc curproc))

/-- The locked part of allocproc(). -/
def allocproc (k : Kernel) (curproc : Slot) : Kernel :=
  match findUnused k.proc with
  | none => k
  | some np =>
      { forkOn k curproc np { k.proc np with state := .EMBRYO, pid := k.nextpid, thread := .user }
          (.forking np .allocated) with
        nextpid := k.nextpid + 1 }

/-- The kalloc() of allocproc(). -/
def allocprocStack (kalloc : Bool) (k : Kernel) (curproc np : Slot) : Kernel :=
  if kalloc then forkOn k curproc np (k.proc np) (.forking np .stacked)
  else forkOn k curproc np { k.proc np with state := .UNUSED } .user

/-- copyuvm() and what fork() does up to the lock. -/
def forkCopy (copyuvm : Bool) (k : Kernel) (curproc np : Slot) : Kernel :=
  if copyuvm then
    forkOn k curproc np { k.proc np with parent := some curproc } (.forking np .copied)
  else forkOn k curproc np { k.proc np with state := .UNUSED } .user

def forkCommit (k : Kernel) (curproc np : Slot) : Kernel :=
  forkOn k curproc np { k.proc np with state := .RUNNABLE } .user

/-! ## exit() and wait() -/

/-- The loop of exit() that passes abandoned children to init. -/
def reparent (curproc initproc : Slot) (proc : Slot → Proc) : Slot → Proc :=
  let handed : Slot → Proc := fun i =>
    if (proc i).parent = some curproc then { proc i with parent := some initproc } else proc i
  if slots.any fun i =>
      decide ((proc i).parent = some curproc) && decide ((proc i).state = .ZOMBIE) then
    wakeup1 (some (.proc initproc)) handed
  else handed

/-- exit() from the lock on. -/
def exit (k : Kernel) (c : Cpu) (curproc : Slot) : Kernel :=
  if curproc = k.initproc then { k with panicked := true }
  else
    let proc := reparent curproc k.initproc (wakeup1 ((k.proc curproc).parent.map .proc) k.proc)
    { sched { k with proc := proc } c curproc { proc curproc with state := .ZOMBIE } with
      log := k.log ++ [.exited (k.proc curproc).pid] }

/-- What a ZOMBIE slot becomes when wait() has reaped it. -/
def reap (p : Proc) : Proc := { p with pid := 0, parent := none, killed := false, state := .UNUSED }

/-- The slot at which the scan of wait() stops, if any. -/
def waitStop (proc : Slot → Proc) (curproc : Slot) : Option Slot :=
  slots.find? fun i =>
    decide ((proc i).parent = some curproc) && decide ((proc i).state = .ZOMBIE)

def havekids (proc : Slot → Proc) (curproc : Slot) : Bool :=
  slots.any fun i => decide ((proc i).parent = some curproc)

/-- wait() returns `ret` to the process in `curproc`. -/
def waitReturn (k : Kernel) (curproc : Slot) (ret : Int) : Kernel :=
  { k.set curproc (setThread .user (k.proc curproc)) with
    log := k.log ++ [.waited curproc ret] }

/-- One pass of the loop of wait(). -/
def wait (k : Kernel) (c : Cpu) (curproc : Slot) : Kernel :=
  match waitStop k.proc curproc with
  | some i => waitReturn (k.set i (reap (k.proc i))) curproc (k.proc i).pid
  | none =>
      if havekids k.proc curproc = false ∨ (k.proc curproc).killed = true then
        waitReturn k curproc (-1)
      else sched k c curproc (fallAsleep (.proc curproc) .waiting (k.proc curproc))

/-! ## scheduler() -/

/-- Where the kernel thread goes on after swtch: sleep() clears `chan`, and a
wait() keeps waiting. -/
def resume (p : Proc) : Proc :=
  match p.thread with
  | .asleep => { p with chan := none, thread := .user }
  | .waiting => { p with chan := none }
  | .user | .forking _ _ => p

/-- One turn of the loop of scheduler(), at a slot that is RUNNABLE.  A process that sleeps
in wait() still holds ptable.lock when it is resumed and scans at once. -/
def scheduler (k : Kernel) (c : Cpu) (slot : Slot) : Kernel :=
  let k := { k.set slot (resume { k.proc slot with state := .RUNNING }) with
    cpu := Function.update k.cpu c (some slot) }
  if (k.proc slot).thread = .waiting then wait k c slot else k

/-! ## Steps -/

inductive Event where
  | schedule (c : Cpu) (slot : Slot)
  | yield (c : Cpu)
  | fork (c : Cpu)
  | forkStack (c : Cpu) (kalloc : Bool)
  | forkCopy (c : Cpu) (copyuvm : Bool)
  | forkCommit (c : Cpu)
  | exit (c : Cpu)
  | wait (c : Cpu)
  | sleep (c : Cpu) (chan : Chan)
  | wakeup (chan : Chan)
  | kill (c : Cpu) (pid : Int)

/-- The action `act` of the process on CPU `c`, if it may do it now. -/
def onCpu (k : Kernel) (c : Cpu) (allowed : Proc → Bool) (act : Slot → Kernel) :
    Option Kernel :=
  match k.cpu c with
  | none => none
  | some p => if allowed (k.proc p) then some (act p) else none

def inUser (p : Proc) : Bool := decide (p.thread = .user)

/-- The next stretch of the fork() that the process on CPU `c` is in. -/
def inFork (k : Kernel) (c : Cpu) (stage : ForkStage) (act : Slot → Slot → Kernel) :
    Option Kernel :=
  match k.cpu c with
  | none => none
  | some p =>
      match (k.proc p).thread with
      | .forking np reached => if reached = stage then some (act p np) else none
      | _ => none

def act (k : Kernel) : Event → Option Kernel
  | .schedule c slot =>
      if k.cpu c = none ∧ (k.proc slot).state = .RUNNABLE then some (scheduler k c slot) else none
  | .yield c =>
      onCpu k c (fun _ => true) fun p => sched k c p { k.proc p with state := .RUNNABLE }
  | .fork c => onCpu k c inUser (allocproc k)
  | .forkStack c kalloc => inFork k c .allocated (allocprocStack kalloc k)
  | .forkCopy c copyuvm => inFork k c .stacked (forkCopy copyuvm k)
  | .forkCommit c => inFork k c .copied (forkCommit k)
  | .exit c => onCpu k c inUser (exit k c)
  | .wait c => onCpu k c inUser (wait k c)
  | .sleep c chan =>
      onCpu k c inUser fun p => sched k c p (fallAsleep chan .asleep (k.proc p))
  | .wakeup chan => some { k with proc := wakeup1 (some chan) k.proc }
  | .kill c pid => onCpu k c inUser fun _ => { k with proc := kill pid k.proc }

/-- A panic stops the machine. -/
def step (k : Kernel) (e : Event) : Option Kernel :=
  if k.panicked = false then act k e else none

theorem onCpu_some {k next : Kernel} {c : Cpu} {allowed : Proc → Bool} {act : Slot → Kernel}
    (taken : onCpu k c allowed act = some next) :
    ∃ p, k.cpu c = some p ∧ allowed (k.proc p) = true ∧ act p = next := by
  unfold onCpu at taken
  cases current : k.cpu c with
  | none => simp [current] at taken
  | some p =>
      simp only [current, Option.ite_none_right_eq_some, Option.some.injEq] at taken
      exact ⟨p, rfl, taken⟩

theorem inFork_some {k next : Kernel} {c : Cpu} {stage : ForkStage} {act : Slot → Slot → Kernel}
    (taken : inFork k c stage act = some next) :
    ∃ p np, k.cpu c = some p ∧ (k.proc p).thread = .forking np stage ∧ act p np = next := by
  unfold inFork at taken
  cases current : k.cpu c with
  | none => simp [current] at taken
  | some p =>
      simp only [current] at taken
      cases busy : (k.proc p).thread with
      | user => simp [busy] at taken
      | asleep => simp [busy] at taken
      | waiting => simp [busy] at taken
      | forking np reached =>
          simp only [busy, Option.ite_none_right_eq_some, Option.some.injEq] at taken
          obtain ⟨rfl, taken⟩ := taken
          exact ⟨p, np, rfl, busy, taken⟩

theorem step_some {k next : Kernel} {e : Event} (taken : step k e = some next) :
    act k e = some next := by
  unfold step at taken
  split at taken
  · exact taken
  · cases taken

theorem firstSlot_lt : 0 < NPROC := Nat.zero_lt_succ 63

/-- The slot that userinit() gets. -/
def firstSlot : Slot := ⟨0, firstSlot_lt⟩

/-- The kernel when userinit() has returned. -/
def boot : Kernel where
  proc := Function.update (fun _ => {}) firstSlot { state := .RUNNABLE, pid := 1 }
  cpu := fun _ => none
  initproc := firstSlot
  nextpid := 2
  log := []
  panicked := false

end Xv6.Public3.ExitWait
