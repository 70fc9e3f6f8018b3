import Xv6.Public3.ExitWait

/-!
# Context switches (proc.c and spinlock.c of xv6-public_3)

The process table under ptable.lock, with the interrupt flag, `struct cpu` and the place
in proc.c of every CPU.  acquire(), what is done while the lock is held, swtch() and
release() are steps of their own, between which the other CPUs take theirs.  The locks of
the rest of the kernel are only counted, in `ncli`, which does not wrap.
-/

set_option autoImplicit false

namespace Xv6.Public3.Switching

open Xv6.Public3.ExitWait

inductive Panic where
  /-- panic("mycpu called with interrupts enabled\n") -/
  | mycpu
  /-- panic("popcli - interruptible") -/
  | interruptible
  /-- panic("popcli") -/
  | popcli
  /-- panic("acquire") -/
  | acquire
  /-- panic("release") -/
  | release
  /-- panic("sched ptable.lock") -/
  | schedLock
  /-- panic("sched locks") -/
  | schedLocks
  /-- panic("sched running") -/
  | schedRunning
  /-- panic("init exiting") -/
  | initExiting
  /-- panic("zombie exit") -/
  | zombieExit
  deriving DecidableEq

/-- Who calls sched(). -/
inductive Caller where
  | yield | sleep | wait | exit
  deriving DecidableEq

/-- What a process does with ptable.lock. -/
inductive Call where
  | yield
  | exit
  | wait
  /-- sleep(chan, lk), where `lk` is another lock. -/
  | sleep (chan : Chan)
  | kill (pid : Int)
  | allocproc
  /-- `np->state = RUNNABLE` of fork() -/
  | fork
  deriving DecidableEq

/-- Where a CPU is. -/
inductive Point where
  /-- Not in the parts below: in other code of the kernel or of the user, or before the
  acquire() of scheduler(). -/
  | outside
  | inside (call : Call)
  /-- wakeup(chan), which an interrupt handler may call on any stack. -/
  | waking (chan : Chan)
  /-- In sched(), with the state of the process changed. -/
  | leaving (caller : Caller)
  /-- release(&ptable.lock) is next. -/
  | done
  /-- In the loop of scheduler(), at `p = &ptable.proc[n]`. -/
  | scan (n : Nat)
  deriving DecidableEq

structure Core where
  /-- `FL_IF` of `eflags` -/
  interrupts : Bool := false
  ncli : Nat := 0
  intena : Bool := false
  point : Point := .outside
  /-- The local variable `p` of scheduler(), on the stack of `c->scheduler`. -/
  slot : Nat := 0
  deriving DecidableEq

/-- What `p->context` points to. -/
inductive Context where
  | forkret
  /-- A frame of sched(), with its local variable. -/
  | sched (intena : Bool) (caller : Caller)
  deriving DecidableEq

structure Machine where
  /-- `kernel.cpu` is `c->proc`: whose stack the CPU is on. -/
  kernel : Kernel
  /-- `lk->cpu` of ptable.lock, while `lk->locked` is set. -/
  lock : Option Cpu
  core : Cpu → Core
  context : Slot → Context
  panicked : Option Panic

def Machine.setCore (m : Machine) (c : Cpu) (r : Core) : Machine :=
  { m with core := Function.update m.core c r }

def Machine.goto (m : Machine) (c : Cpu) (point : Point) : Machine :=
  m.setCore c { m.core c with point := point }

def Machine.store (m : Machine) (k : Kernel) : Machine := { m with kernel := k }

def Machine.fail (m : Machine) (panic : Panic) : Machine := { m with panicked := some panic }

/-! ## Locks -/

def Core.pushcli (r : Core) : Core :=
  { r with
    interrupts := false
    ncli := r.ncli + 1
    intena := if r.ncli = 0 then r.interrupts else r.intena }

def Core.popcli (r : Core) : Except Panic Core :=
  if r.interrupts then .error .interruptible
  else
    match r.ncli with
    | 0 => .error .popcli
    | n + 1 => .ok { r with ncli := n, interrupts := decide (n = 0) && r.intena }

def popcli (m : Machine) (c : Cpu) : Machine :=
  match (m.core c).popcli with
  | .error panic => m.fail panic
  | .ok r => m.setCore c r

/-- acquire(&ptable.lock): no step while another CPU has the lock. -/
def acquire (m : Machine) (c : Cpu) (next : Point) : Option Machine :=
  if m.lock = some c then some (m.fail .acquire)
  else if m.lock = none then
    some { m.setCore c { (m.core c).pushcli with point := next } with lock := some c }
  else none

def release (m : Machine) (c : Cpu) : Machine :=
  if m.lock = some c then popcli { m.goto c .outside with lock := none } c
  else m.fail .release

/-! ## Processes -/

/-- One pass of the loop of wait(), up to sched() or release(). -/
def wait (m : Machine) (c : Cpu) (curproc : Slot) : Machine :=
  let k := m.kernel
  match waitStop k.proc curproc with
  | some i => (m.store (waitReturn (k.set i (reap (k.proc i))) curproc (k.proc i).pid)).goto c .done
  | none =>
      if havekids k.proc curproc = false ∨ (k.proc curproc).killed = true then
        (m.store (waitReturn k curproc (-1))).goto c .done
      else
        (m.store (k.set curproc (fallAsleep (.proc curproc) .waiting (k.proc curproc)))).goto c
          (.leaving .wait)

/-- exit() from the lock to sched(). -/
def zombie (k : Kernel) (curproc : Slot) : Kernel :=
  let proc := reparent curproc k.initproc (wakeup1 ((k.proc curproc).parent.map .proc) k.proc)
  { Kernel.set { k with proc := proc } curproc { proc curproc with state := .ZOMBIE } with
    log := k.log ++ [.exited (k.proc curproc).pid] }

def commit (k : Kernel) (curproc : Slot) : Kernel :=
  match (k.proc curproc).thread with
  | .forking np _ => forkCommit k curproc np
  | _ => k

/-- From the lock to sched() or release(). -/
def body (m : Machine) (c : Cpu) (curproc : Slot) : Call → Machine
  | .yield =>
      (m.store (m.kernel.set curproc { m.kernel.proc curproc with state := .RUNNABLE })).goto c
        (.leaving .yield)
  | .exit => (m.store (zombie m.kernel curproc)).goto c (.leaving .exit)
  | .wait => wait m c curproc
  | .sleep chan =>
      -- release(lk) comes first
      popcli ((m.store (m.kernel.set curproc
        (fallAsleep chan .asleep (m.kernel.proc curproc)))).goto c (.leaving .sleep)) c
  | .kill pid => (m.store { m.kernel with proc := kill pid m.kernel.proc }).goto c .done
  | .allocproc => (m.store (allocproc m.kernel curproc)).goto c .done
  | .fork => (m.store (commit m.kernel curproc)).goto c .done

/-- sched() up to swtch(), and `c->proc = 0` of scheduler() behind it.  The last check of
sched() is not reached with interrupts on, since mycpu() panics before it. -/
def sched (m : Machine) (c : Cpu) (curproc : Slot) (caller : Caller) : Machine :=
  let r := m.core c
  if m.lock ≠ some c then m.fail .schedLock
  else if r.interrupts = true then m.fail .mycpu
  else if r.ncli ≠ 1 then m.fail .schedLocks
  else if (m.kernel.proc curproc).state = .RUNNING then m.fail .schedRunning
  else
    { (m.store { m.kernel with cpu := Function.update m.kernel.cpu c none }).goto c
        (.scan (r.slot + 1)) with
      context := Function.update m.context curproc (.sched r.intena caller) }

/-- What a process does when swtch() has come to its stack: forkret(), or sched() and its
caller up to the next sched() or release(). -/
def resumed (m : Machine) (c : Cpu) (p : Slot) : Machine :=
  match m.context p with
  | .forkret => m.goto c .done
  | .sched intena caller =>
      let m := m.setCore c { m.core c with intena := intena }
      let k := m.kernel
      match caller with
      | .yield => m.goto c .done
      | .sleep =>
          -- acquire(lk) comes after the release()
          (m.store (k.set p { k.proc p with chan := none, thread := .user })).goto c .done
      | .wait => wait (m.store (k.set p { k.proc p with chan := none })) c p
      | .exit => m.fail .zombieExit

/-- The body of the loop of scheduler(). -/
def turn (m : Machine) (c : Cpu) (p : Slot) : Machine :=
  if (m.kernel.proc p).state ≠ .RUNNABLE then m.goto c (.scan (p + 1))
  else
    let k := { m.kernel.set p { m.kernel.proc p with state := .RUNNING } with
      cpu := Function.update m.kernel.cpu c (some p) }
    resumed ((m.store k).setCore c { m.core c with slot := p }) c p

/-! ## Steps -/

inductive Event where
  /-- An interrupt gate. -/
  | interrupt (c : Cpu)
  /-- sti() of scheduler(), or an iret. -/
  | sti (c : Cpu)
  /-- By the acquire() and the release() of other locks. -/
  | pushcli (c : Cpu)
  | popcli (c : Cpu)
  | acquire (c : Cpu) (call : Call)
  | wakeup (c : Cpu) (chan : Chan)
  /-- acquire() of scheduler(). -/
  | schedule (c : Cpu)
  /-- What CPU `c` does next with the lock. -/
  | go (c : Cpu)
  | forkStack (c : Cpu) (kalloc : Bool)
  | forkCopy (c : Cpu) (copyuvm : Bool)
  deriving DecidableEq

def Event.cpu : Event → Cpu
  | .interrupt c | .sti c | .pushcli c | .popcli c | .acquire c _ | .wakeup c _ | .schedule c
  | .go c | .forkStack c _ | .forkCopy c _ => c

/-- Where a process may call: in no lock, but in `lk` when it calls sleep(chan, lk). -/
def Call.allowed (ncli : Nat) (thread : Thread) : Call → Bool
  | .yield => decide (ncli = 0)
  | .exit | .wait | .kill _ | .allocproc => decide (ncli = 0 ∧ thread = .user)
  | .sleep _ => decide (ncli = 1 ∧ thread = .user)
  | .fork =>
      match thread with
      | .forking _ .copied => decide (ncli = 0)
      | _ => false

/-- What CPU `c` does next with the lock. -/
def go (m : Machine) (c : Cpu) : Option Machine :=
  match (m.core c).point, m.kernel.cpu c with
  | .inside call, some p => some (body m c p call)
  | .waking chan, _ =>
      some ((m.store { m.kernel with proc := wakeup1 (some chan) m.kernel.proc }).goto c .done)
  | .leaving caller, some p => some (sched m c p caller)
  | .done, _ => some (release m c)
  | .scan n, none => some (if here : n < NPROC then turn m c ⟨n, here⟩ else release m c)
  | _, _ => none

/-- allocproc() with its kalloc(). -/
def forkStack (m : Machine) (kalloc : Bool) (curproc np : Slot) : Machine :=
  { m.store (allocprocStack kalloc m.kernel curproc np) with
    context := if kalloc then Function.update m.context np .forkret else m.context }

def act (m : Machine) : Event → Option Machine
  | .interrupt c =>
      if (m.core c).interrupts = true then some (m.setCore c { m.core c with interrupts := false })
      else none
  | .sti c =>
      if (m.core c).point = .outside ∧ (m.core c).ncli = 0 then
        some (m.setCore c { m.core c with interrupts := true })
      else none
  | .pushcli c =>
      if (m.core c).point = .outside then some (m.setCore c (m.core c).pushcli) else none
  | .popcli c =>
      if (m.core c).point = .outside ∧ 0 < (m.core c).ncli then some (popcli m c) else none
  | .acquire c call =>
      match m.kernel.cpu c with
      | none => none
      | some p =>
          if (m.core c).point = .outside ∧
              call.allowed (m.core c).ncli (m.kernel.proc p).thread = true then
            if call = .exit ∧ p = m.kernel.initproc then some (m.fail .initExiting)
            else acquire m c (.inside call)
          else none
  | .wakeup c chan =>
      if (m.core c).point = .outside then acquire m c (.waking chan) else none
  | .schedule c =>
      if (m.core c).point = .outside ∧ m.kernel.cpu c = none ∧ (m.core c).interrupts = true then
        acquire m c (.scan 0)
      else none
  | .go c => go m c
  | .forkStack c kalloc =>
      match m.kernel.cpu c with
      | none => none
      | some p =>
          match (m.core c).point, (m.kernel.proc p).thread with
          | .outside, .forking np .allocated => some (forkStack m kalloc p np)
          | _, _ => none
  | .forkCopy c copyuvm =>
      match m.kernel.cpu c with
      | none => none
      | some p =>
          match (m.core c).point, (m.kernel.proc p).thread with
          | .outside, .forking np .stacked => some (m.store (forkCopy copyuvm m.kernel p np))
          | _, _ => none

/-- A panic stops the machine. -/
def step (m : Machine) (e : Event) : Option Machine :=
  if m.panicked = none then act m e else none

/-- Every CPU is about to enter scheduler(). -/
def boot : Machine where
  kernel := ExitWait.boot
  lock := none
  core := fun _ => {}
  context := fun _ => .forkret
  panicked := none

end Xv6.Public3.Switching
