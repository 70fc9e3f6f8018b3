import Xv6.Lib.Runs
import Xv6.Public2.ProcTable

/-!
# The process kernel as a step relation (xv6-public_2)

Every critical section under ptable.lock is one event, and so is every stretch
of fork() that another CPU or an interrupt can see from outside.  An event
names the CPU it happens on; calls of kalloc and copyuvm carry their result.
The keys of the console act from any interrupt, whatever the CPUs do.
-/

set_option autoImplicit false

namespace Xv6.Public2.Kernel

open Xv6.Lib.Words
open Xv6.Machine
open Xv6.Public2.Signals
open Xv6.Public2.ProcTable

inductive Event where
  /-- A round of scheduler() on an idle CPU. -/
  | schedule (c : Cpu)
  /-- The CPU 0 part of the timer interrupt. -/
  | tick
  | yield (c : Cpu)
  /-- The locked part of allocproc(), called by fork() or custom_fork(). -/
  | fork (c : Cpu) (custom : Option (Int × Int))
  /-- The kalloc of allocproc(). -/
  | forkStack (c : Cpu) (page : Option Page)
  /-- copyuvm, and the copies after it when it succeeds. -/
  | forkCopy (c : Cpu) (page : Option Page)
  | forkCommit (c : Cpu)
  | exit (c : Cpu)
  | wait (c : Cpu)
  | sleep (c : Cpu) (chan : Chan)
  | wakeup (chan : Option Chan)
  | kill (c : Cpu) (pid : Int)
  | schedulerStart (c : Cpu)
  | signal (c : Cpu) (handler : Option Word)
  | sigreturn (c : Cpu)
  | sigretFault (c : Cpu)
  | deliver (c : Cpu) (kalloc : Bool)
  | ctrlC
  | ctrlB
  /-- The wakeup(sh->chan) after the Ctrl-B branch has released ptable.lock. -/
  | ctrlBWake
  | ctrlF
  | ctrlG (c : Cpu)

/-- The action `act` of the process on CPU `c`, if it may do it now. -/
def onCpu (k : Kernel) (c : Cpu) (allowed : Proc → Bool) (act : Slot → Kernel) :
    Option Kernel :=
  match k.cpu c with
  | none => none
  | some p => if allowed (k.proc p) then some (act p) else none

def inUser (p : Proc) : Bool := decide (p.thread = .user)

/-- The next stretch of the fork() that the process on CPU `c` is in. -/
def inFork (k : Kernel) (c : Cpu) (stage : ForkStage) (act : Slot → ForkCall → Kernel) :
    Option Kernel :=
  match k.cpu c with
  | none => none
  | some p =>
      match (k.proc p).thread with
      | .forking call => if call.stage = stage then some (act p call) else none
      | _ => none

def setSig (f : SigState → SigState) (p : Proc) : Proc := { p with toSigState := f p.toSigState }

def forkBegin (custom : Option (Int × Int)) (k : Kernel) (curproc : Slot) : Kernel :=
  match findUnused k.proc with
  | none => k
  | some np =>
      let k := allocproc k np
      k.set curproc (setThread (.forking ⟨np, custom, .allocated⟩) (k.proc curproc))

/-- Store into the slot being forked, then note how far the parent has come. -/
def forkOn (k : Kernel) (curproc : Slot) (call : ForkCall) (np : Proc) (thread : Thread) : Kernel :=
  let k := k.set call.np np
  k.set curproc (setThread thread (k.proc curproc))

def forkStack (page : Option Page) (k : Kernel) (curproc : Slot) (call : ForkCall) : Kernel :=
  forkOn k curproc call (allocprocStack page (k.proc call.np))
    (if page = none then .user else .forking { call with stage := .stacked })

def forkCopy (page : Option Page) (k : Kernel) (curproc : Slot) (call : ForkCall) : Kernel :=
  forkOn k curproc call
    (copyProcess call.custom page curproc (k.proc curproc).tf (k.proc call.np))
    (if page = none then .user else .forking { call with stage := .copied })

def forkCommit (k : Kernel) (curproc : Slot) (call : ForkCall) : Kernel :=
  forkOn k curproc call (commitProcess call.custom (k.proc call.np)) .user

/-- Store into the record of the process on CPU `c`. -/
def ownStore (k : Kernel) (c : Cpu) (allowed : Proc → Bool) (f : Proc → Proc) : Option Kernel :=
  onCpu k c allowed fun p => k.set p (f (k.proc p))

/-- A key is taken only when the handler of the one before has finished. -/
def onKey (k : Kernel) (act : Kernel) : Option Kernel :=
  if k.shellWake = none then some act else none

def act (k : Kernel) : Event → Option Kernel
  | .schedule c => if k.cpu c = none then some (scheduler k c) else none
  | .tick => some { k with ticks := k.ticks + 1, proc := wakeup1 (some ticksChan) k.proc }
  | .yield c =>
      onCpu k c (fun p => decide (p.state = .RUNNING)) fun p =>
        sched k c p { k.proc p with state := .RUNNABLE }
  | .fork c custom => onCpu k c inUser (forkBegin custom k)
  | .forkStack c page => inFork k c .allocated (forkStack page k)
  | .forkCopy c page => inFork k c .stacked (forkCopy page k)
  | .forkCommit c => inFork k c .copied (forkCommit k)
  | .exit c => onCpu k c inUser (exit k c)
  | .wait c => onCpu k c inUser (wait k c)
  | .sleep c chan =>
      onCpu k c inUser fun p => sched k c p (fallAsleep chan .asleep (k.proc p))
  | .wakeup chan => some { k with proc := wakeup1 chan k.proc }
  | .kill c pid => onCpu k c inUser fun _ => { k with proc := kill pid k.proc }
  | .schedulerStart c =>
      onCpu k c inUser fun _ => { k with proc := sys_scheduler_start k.proc }
  | .signal c handler => ownStore k c inUser (setSig fun p => (sys_signal handler p).2)
  | .sigreturn c => ownStore k c inUser (setSig fun p => (sys_sigreturn p).2)
  | .sigretFault c => ownStore k c inUser (setSig fun p => (restoreOnFault p).getD p)
  | .deliver c kalloc =>
      ownStore k c (fun p => wantsDelivery p.toSigState) (setSig (deliver kalloc))
  | .ctrlC => onKey k { k with proc := ctrlC k.proc }
  | .ctrlB => onKey k (ctrlB k)
  | .ctrlBWake =>
      match k.shellWake with
      | none => none
      | some sh =>
          some { k with proc := wakeup1 (k.proc sh).chan k.proc, shellWake := none }
  | .ctrlF => onKey k { k with proc := ctrlF k.proc }
  | .ctrlG c => ownStore k c (fun _ => true) (setSig send_sigcustom)

/-- A panic stops the machine. -/
def step (k : Kernel) (e : Event) : Option Kernel :=
  if k.panic = none then act k e else none

theorem onCpu_some {k next : Kernel} {c : Cpu} {allowed : Proc → Bool} {act : Slot → Kernel}
    (taken : onCpu k c allowed act = some next) :
    ∃ p, k.cpu c = some p ∧ allowed (k.proc p) = true ∧ act p = next := by
  unfold onCpu at taken
  cases current : k.cpu c with
  | none => simp [current] at taken
  | some p =>
      simp only [current, Option.ite_none_right_eq_some, Option.some.injEq] at taken
      exact ⟨p, rfl, taken⟩

theorem inFork_some {k next : Kernel} {c : Cpu} {stage : ForkStage}
    {act : Slot → ForkCall → Kernel} (taken : inFork k c stage act = some next) :
    ∃ p call, k.cpu c = some p ∧ (k.proc p).thread = .forking call ∧ call.stage = stage ∧
      act p call = next := by
  unfold inFork at taken
  cases current : k.cpu c with
  | none => simp [current] at taken
  | some p =>
      simp only [current] at taken
      cases busy : (k.proc p).thread with
      | user => simp [busy] at taken
      | asleep => simp [busy] at taken
      | waiting => simp [busy] at taken
      | forking call =>
          simp only [busy, Option.ite_none_right_eq_some, Option.some.injEq] at taken
          exact ⟨p, call, rfl, busy, taken⟩

theorem ownStore_some {k next : Kernel} {c : Cpu} {allowed : Proc → Bool} {f : Proc → Proc}
    (taken : ownStore k c allowed f = some next) :
    ∃ p, k.cpu c = some p ∧ allowed (k.proc p) = true ∧ k.set p (f (k.proc p)) = next :=
  onCpu_some taken

theorem onKey_some {k act next : Kernel} (taken : onKey k act = some next) : act = next := by
  unfold onKey at taken
  split at taken
  · exact Option.some.inj taken
  · cases taken

theorem step_some {k next : Kernel} {e : Event} (taken : step k e = some next) :
    k.panic = none ∧ act k e = some next := by
  unfold step at taken
  split at taken
  · rename_i calm
    exact ⟨calm, taken⟩
  · cases taken

/-- The CPU that boots and counts the ticks. -/
def cpu0 : Cpu := 0

/-- fork() or custom_fork() without failures by the process on CPU `c`. -/
def forkEvents (c : Cpu) (custom : Option (Int × Int)) (stack dir : Page) : List Event :=
  [.fork c custom, .forkStack c (some stack), .forkCopy c (some dir), .forkCommit c]

/-! ## Boot -/

/-- The trap frame that userinit() builds for initcode. -/
def initFrame : TrapFrame :=
  { cs := 0x1b, ds := 0x23, es := 0x23, ss := 0x23, eflags := 0x200, esp := 4096, eip := 0 }

def zeroed : Kernel where
  proc := fun _ => {}
  cpu := fun _ => none
  start_run := fun _ => 0
  prev_proc := none
  initproc := 0
  nextpid := 1
  ticks := 0
  shellWake := none
  panic := none

/-- The record of the first process when userinit() makes it RUNNABLE. -/
def userinit : Proc :=
  { allocprocStack (some 1) (embryo zeroed {}) with
    pgdir := some 2
    tf := initFrame
    tfStored := true
    state := .RUNNABLE
    life := .live }

/-- The kernel when userinit() has returned and the CPUs enter scheduler(). -/
def boot : Kernel :=
  { zeroed.set zeroed.initproc userinit with nextpid := pidAfter zeroed.nextpid }

end Xv6.Public2.Kernel
