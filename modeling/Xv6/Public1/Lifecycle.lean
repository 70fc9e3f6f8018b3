import Xv6.Lib.Runs
import Xv6.Lib.Slots
import Xv6.Public1.Process

/-!
# The process kernel as a step relation (xv6-public_1)

Every critical section under ptable.lock or hist_lock is one event, and so is
every stretch of fork() that others can see from outside; any process may be
the next to move.  What the rest of the kernel answers (kalloc, the loader, the
other system calls) comes with the event.  A step also says what an observer of
the process sees of it, and the ledger collects that.
-/

set_option autoImplicit false

namespace Xv6.Public1.Lifecycle

open Xv6.Lib.Words
open Xv6.Lib.CString
open Xv6.Machine
open Xv6.Public1.Syscall
open Xv6.Public1.BlockCalls
open Xv6.Public1.Process

structure Kernel where
  proc : Slot → Proc
  log : Log
  initproc : Slot
  nextpid : Int
  /-- panic("init exiting") has stopped the machine. -/
  panic : Bool

def Kernel.set (k : Kernel) (i : Slot) (p : Proc) : Kernel :=
  { k with proc := Function.update k.proc i p }

/-- What the code outside this model answers to a system call. -/
structure Answers where
  beyond : Int → Int
  image : Option Image
  grown : Option (Word × UserSpace)
  other : Word
  mem : Memory

inductive Event where
  /-- scheduler() switches to the process. -/
  | run (i : Slot)
  | yield (i : Slot)
  /-- User code runs. -/
  | user (i : Slot) (tf : TrapFrame) (mem : Memory)
  /-- The process traps into syscall(). -/
  | syscall (i : Slot) (answers : Answers)
  /-- The kalloc of allocproc(). -/
  | forkStack (i : Slot) (found : Bool)
  /-- copyuvm, and the copies after it when it succeeds. -/
  | forkCopy (i : Slot) (found : Bool)
  | forkCommit (i : Slot)
  | sleep (i : Slot) (chan : Chan)
  | wakeup (chan : Option Chan)
  | kill (pid : Int)
  /-- exit() of a killed process at the end of trap(). -/
  | killed (i : Slot)

/-- What the process and its parent see of a step. -/
inductive Note where
  | silent
  /-- allocproc() has found a slot for a child. -/
  | forks (parent np : Slot)
  | returned (i : Slot) (call : Call) (eax : Word)
  | exits (i : Slot)
  deriving DecidableEq

/-! ## Sleeping, waking, leaving -/

def wakeup1 (chan : Option Chan) (proc : Slot → Proc) : Slot → Proc := fun i =>
  if (proc i).state = .SLEEPING ∧ (proc i).chan = chan then
    { proc i with state := .RUNNABLE }
  else proc i

/-- The loop of exit() that passes abandoned children to init. -/
def reparent (curproc initproc : Slot) (proc : Slot → Proc) : Slot → Proc :=
  let handed : Slot → Proc := fun i =>
    if (proc i).parent = some curproc then { proc i with parent := some initproc } else proc i
  if slots.any fun i =>
      decide ((proc i).parent = some curproc) && decide ((proc i).state = .ZOMBIE) then
    wakeup1 (some (.proc initproc)) handed
  else handed

/-- exit() up to the history: the parent and, for a ZOMBIE child, init are
woken. -/
def exitNotify (k : Kernel) (curproc : Slot) : Slot → Proc :=
  reparent curproc k.initproc (wakeup1 ((k.proc curproc).parent.map .proc) k.proc)

def exit (k : Kernel) (curproc : Slot) : Note × Kernel :=
  if curproc = k.initproc then (.silent, { k with panic := true })
  else
    let told := exitNotify k curproc
    (.exits curproc, { k with
      log := k.log.append (told curproc)
      proc := Function.update told curproc { told curproc with state := .ZOMBIE } })

/-- What a ZOMBIE slot becomes when wait() has reaped it. -/
def reap (p : Proc) : Proc :=
  { p with pid := 0, parent := none, name := p.name.clear, killed := 0, state := .UNUSED }

/-- The ZOMBIE child at which the scan of wait() stops, if any. -/
def zombieChild (proc : Slot → Proc) (curproc : Slot) : Option Slot :=
  slots.find? fun i =>
    decide ((proc i).parent = some curproc) && decide ((proc i).state = .ZOMBIE)

def haveKids (proc : Slot → Proc) (curproc : Slot) : Bool :=
  slots.any fun i => decide ((proc i).parent = some curproc)

/-- One pass of the loop of wait(): a child is reaped, there is nothing to wait
for, or the process sleeps on itself and scans again when it is resumed. -/
def wait (k : Kernel) (curproc : Slot) : Note × Kernel :=
  let awake := setThread .user (k.proc curproc)
  match zombieChild k.proc curproc with
  | some i =>
      let pid := BitVec.ofInt 32 (k.proc i).pid
      let k := k.set curproc (result pid awake)
      (.returned curproc .sys_wait pid, k.set i (reap (k.proc i)))
  | none =>
      if haveKids k.proc curproc = false ∨ (k.proc curproc).killed ≠ 0 then
        (.returned curproc .sys_wait (-1), k.set curproc (result (-1) awake))
      else
        (.silent, k.set curproc
          { k.proc curproc with
            chan := some (.proc curproc), state := .SLEEPING, thread := .waiting })

/-- swtch into the process.  One that sleeps in wait() still holds ptable.lock
and scans at once. -/
def switchTo (k : Kernel) (i : Slot) : Note × Kernel :=
  let p := { k.proc i with state := .RUNNING }
  match p.thread with
  | .user | .forking _ => (.silent, k.set i p)
  | .asleep => (.silent, k.set i { p with chan := none, thread := .user })
  | .waiting => wait (k.set i { p with chan := none }) i

/-! ## fork -/

/-- The loop of allocproc() looking for an UNUSED slot. -/
def findUnused (proc : Slot → Proc) : Option Slot :=
  slots.find? fun i => decide ((proc i).state = .UNUSED)

/-- `nextpid++` on a C int. -/
def pidAfter (pid : Int) : Int := (pid + 1).bmod (2 ^ 32)

/-- allocproc() from `found:` to the release of ptable.lock. -/
def embryo (k : Kernel) (p : Proc) : Proc :=
  { p with state := .EMBRYO, pid := k.nextpid, check := 0 }

def forkBegin (k : Kernel) (curproc : Slot) : Note × Kernel :=
  match findUnused k.proc with
  | none => (.returned curproc .sys_fork (-1), k.set curproc (result (-1) (k.proc curproc)))
  | some np =>
      let k := { k.set np (embryo k (k.proc np)) with nextpid := pidAfter k.nextpid }
      (.forks curproc np, k.set curproc (setThread (.forking ⟨np, .allocated⟩) (k.proc curproc)))

/-- A stretch of fork() that fails gives the slot back. -/
def forkFail (k : Kernel) (curproc : Slot) (call : ForkCall) : Note × Kernel :=
  let k := k.set call.np { k.proc call.np with state := .UNUSED }
  (.returned curproc .sys_fork (-1),
    k.set curproc (result (-1) (setThread .user (k.proc curproc))))

/-- fork() from copyuvm to the end of the block for `blocked_syscalls`. -/
def copyProcess (slot : Slot) (curproc np : Proc) : Proc :=
  { np with
    sz := curproc.sz
    mem := curproc.mem
    user := curproc.user
    parent := some slot
    tf := { curproc.tf with eax := 0 }
    name := np.name.copy curproc.name.bytes
    blocked_syscalls := curproc.blocked_syscalls }

def forkStack (found : Bool) (k : Kernel) (curproc : Slot) (call : ForkCall) : Note × Kernel :=
  if found then
    (.silent, k.set curproc (setThread (.forking { call with stage := .stacked }) (k.proc curproc)))
  else forkFail k curproc call

def forkCopy (found : Bool) (k : Kernel) (curproc : Slot) (call : ForkCall) : Note × Kernel :=
  if found then
    let k := k.set call.np (copyProcess curproc (k.proc curproc) (k.proc call.np))
    (.silent, k.set curproc (setThread (.forking { call with stage := .copied }) (k.proc curproc)))
  else forkFail k curproc call

def forkCommit (k : Kernel) (curproc : Slot) (call : ForkCall) : Note × Kernel :=
  let pid := BitVec.ofInt 32 (k.proc call.np).pid
  let k := k.set call.np { k.proc call.np with state := .RUNNABLE, thread := .user }
  (.returned curproc .sys_fork pid,
    k.set curproc (result pid (setThread .user (k.proc curproc))))

/-! ## System calls and events -/

/-- A handler that works on the process of its caller alone. -/
def ownCall (k : Kernel) (i : Slot) (call : Call) (called : Word × Proc) : Note × Kernel :=
  (.returned i call called.1, k.set i (result called.1 called.2))

def handle (answers : Answers) (k : Kernel) (i : Slot) : Call → Note × Kernel
  | .sys_fork => forkBegin k i
  | .sys_exit => exit k i
  | .sys_wait => wait k i
  | .sys_exec => ownCall k i .sys_exec (sys_exec answers.image (k.proc i))
  | .sys_sbrk => ownCall k i .sys_sbrk (sys_sbrk answers.grown (k.proc i))
  | .sys_block => ownCall k i .sys_block (onCaller sys_block (k.proc i))
  | .sys_unblock => ownCall k i .sys_unblock (onCaller sys_unblock (k.proc i))
  | .sys_gethistory =>
      let called := sys_gethistory k.log (k.proc i)
      ownCall { k with log := called.2.2 } i .sys_gethistory (called.1, called.2.1)
  | call => ownCall k i call (answers.other, { k.proc i with mem := answers.mem })

def syscall (answers : Answers) (k : Kernel) (i : Slot) : Note × Kernel :=
  match (dispatchOf answers.beyond (k.proc i).toCaller).ran with
  | some call => handle answers k i call
  | none => (.silent, k.set i (result (-1) (k.proc i)))

/-- The action of a process that is on a CPU. -/
def onCpu (k : Kernel) (i : Slot) (allowed : Bool) (act : Kernel → Slot → Note × Kernel) :
    Option (Note × Kernel) :=
  if (k.proc i).state = .RUNNING ∧ allowed then some (act k i) else none

def inUser (k : Kernel) (i : Slot) : Bool := decide ((k.proc i).thread = .user)

/-- The next stretch of the fork() that the process is in. -/
def inFork (k : Kernel) (i : Slot) (stage : ForkStage)
    (act : Kernel → Slot → ForkCall → Note × Kernel) : Option (Note × Kernel) :=
  match (k.proc i).thread with
  | .forking call => onCpu k i (decide (call.stage = stage)) fun k i => act k i call
  | _ => none

/-- kill(pid): the first slot with that pid. -/
def kill (pid : Int) (proc : Slot → Proc) : Slot → Proc :=
  match slots.find? fun i => decide ((proc i).pid = pid) with
  | none => proc
  | some i =>
      Function.update proc i
        { proc i with
          killed := 1
          state := if (proc i).state = .SLEEPING then .RUNNABLE else (proc i).state }

def act (k : Kernel) : Event → Option (Note × Kernel)
  | .run i => if (k.proc i).state = .RUNNABLE then some (switchTo k i) else none
  | .yield i => onCpu k i true fun k i => (.silent, k.set i { k.proc i with state := .RUNNABLE })
  | .user i tf mem =>
      onCpu k i (inUser k i) fun k i => (.silent, k.set i { k.proc i with tf := tf, mem := mem })
  | .syscall i answers => onCpu k i (inUser k i) (syscall answers)
  | .forkStack i found => inFork k i .allocated (forkStack found)
  | .forkCopy i found => inFork k i .stacked (forkCopy found)
  | .forkCommit i => inFork k i .copied forkCommit
  | .sleep i chan =>
      onCpu k i (inUser k i) fun k i =>
        (.silent, k.set i
          { k.proc i with chan := some chan, state := .SLEEPING, thread := .asleep })
  | .wakeup chan => some (.silent, { k with proc := wakeup1 chan k.proc })
  | .kill pid => some (.silent, { k with proc := kill pid k.proc })
  | .killed i => onCpu k i (inUser k i && decide ((k.proc i).killed ≠ 0)) exit

/-- A panic stops the machine. -/
def step (k : Kernel) (e : Event) : Option (Note × Kernel) :=
  if k.panic then none else act k e

theorem onCpu_some {k : Kernel} {i : Slot} {allowed : Bool} {f : Kernel → Slot → Note × Kernel}
    {taken : Note × Kernel} (step : onCpu k i allowed f = some taken) :
    (k.proc i).state = .RUNNING ∧ allowed = true ∧ f k i = taken := by
  unfold onCpu at step
  simp only [Option.ite_none_right_eq_some, Option.some.injEq] at step
  exact ⟨step.1.1, step.1.2, step.2⟩

theorem inFork_some {k : Kernel} {i : Slot} {stage : ForkStage}
    {f : Kernel → Slot → ForkCall → Note × Kernel} {taken : Note × Kernel}
    (step : inFork k i stage f = some taken) :
    ∃ call, (k.proc i).thread = .forking call ∧ call.stage = stage ∧ f k i call = taken := by
  unfold inFork at step
  cases thread : (k.proc i).thread with
  | user => simp [thread] at step
  | asleep => simp [thread] at step
  | waiting => simp [thread] at step
  | forking call =>
      simp only [thread] at step
      obtain ⟨_, allowed, done⟩ := onCpu_some step
      exact ⟨call, rfl, of_decide_eq_true allowed, done⟩

theorem step_some {k : Kernel} {e : Event} {taken : Note × Kernel}
    (stepped : step k e = some taken) : act k e = some taken := by
  unfold step at stepped
  split at stepped
  · cases stepped
  · exact stepped

/-- A call is reported by the handler that ran. -/
theorem handle_returned {answers : Answers} {k next : Kernel} {i j : Slot} {call named : Call}
    {eax : Word} (taken : handle answers k i call = (.returned j named eax, next)) :
    named = call := by
  cases call with
  | sys_fork =>
      simp only [handle, forkBegin] at taken
      split at taken
      · cases taken
        rfl
      · cases taken
  | sys_exit =>
      simp only [handle, exit] at taken
      split at taken <;> cases taken
  | sys_wait =>
      simp only [handle, wait] at taken
      split at taken
      · cases taken
        rfl
      · split at taken
        · cases taken
          rfl
        · cases taken
  | _ =>
      cases taken
      rfl

/-- The process that an event is an action of. -/
def Event.actor : Event → Option Slot
  | .run i | .yield i | .user i _ _ | .syscall i _ | .forkStack i _ | .forkCopy i _
  | .forkCommit i | .sleep i _ | .killed i => some i
  | .wakeup _ | .kill _ => none

/-! ## What waking, reparenting and killing leave alone -/

section Blind
variable {α : Type}

/-- The observation does not tell a woken process from a sleeping one, nor
parents or `killed` flags from each other. -/
structure Blind (obs : Proc → α) : Prop where
  woken : ∀ p : Proc, p.state = .SLEEPING → obs { p with state := .RUNNABLE } = obs p
  parent : ∀ (p : Proc) parent, obs { p with parent := parent } = obs p
  killed : ∀ (p : Proc) killed, obs { p with killed := killed } = obs p

variable {obs : Proc → α}

theorem Blind.wakeup1 (blind : Blind obs) (chan : Option Chan) (proc : Slot → Proc) (i : Slot) :
    obs (wakeup1 chan proc i) = obs (proc i) := by
  unfold Lifecycle.wakeup1
  split
  · rename_i asleep
    exact blind.woken _ asleep.1
  · rfl

theorem Blind.reparent (blind : Blind obs) (curproc initproc : Slot) (proc : Slot → Proc)
    (i : Slot) : obs (reparent curproc initproc proc i) = obs (proc i) := by
  have handed : obs (if (proc i).parent = some curproc then
      { proc i with parent := some initproc } else proc i) = obs (proc i) := by
    split
    · exact blind.parent _ _
    · rfl
  unfold Lifecycle.reparent
  dsimp only
  split
  · exact (blind.wakeup1 _ _ i).trans handed
  · exact handed

theorem Blind.exitNotify (blind : Blind obs) (k : Kernel) (curproc i : Slot) :
    obs (exitNotify k curproc i) = obs (k.proc i) := by
  rw [Lifecycle.exitNotify, blind.reparent, blind.wakeup1]

theorem Blind.kill (blind : Blind obs) (pid : Int) (proc : Slot → Proc) (i : Slot) :
    obs (kill pid proc i) = obs (proc i) := by
  unfold Lifecycle.kill
  cases slots.find? fun i => decide ((proc i).pid = pid) with
  | none => rfl
  | some j =>
      refine Lib.Slots.update_observed obs proc j _ ?_ i
      split
      · rename_i asleep
        exact (blind.woken { proc j with killed := 1 } asleep).trans (blind.killed _ _)
      · exact blind.killed _ _

end Blind

/-! ## Boot -/

/-- The record of the first process when userinit() makes it RUNNABLE. -/
def userinit : Proc :=
  { unused with
    sz := 4096
    tf := { cs := 0x1b, ds := 0x23, es := 0x23, ss := 0x23, eflags := 0x200, esp := 4096, eip := 0 }
    user := fun page => decide (page = 0)
    state := .RUNNABLE
    pid := 1
    name := unused.name.copy (bytes "initcode") }

def boot : Kernel where
  proc := Function.update (fun _ => unused) 0 userinit
  log := emptyLog
  initproc := 0
  nextpid := 2
  panic := false

/-! ## The ledger -/

/-- What the history is to say of a process that exits. -/
structure Entry where
  pid : Int
  name : List Byte
  sz : Int
  deriving DecidableEq

def entryOf (p : Proc) : Entry := ⟨p.pid, p.name.text, p.sz.toInt⟩

/-- What an observer writes down along a run: for each slot the blocked set of
the parent when it called fork(), the successful calls of block() and unblock()
since, and whether an exec() has succeeded since; and the exits of those with
one, in order. -/
structure Ledger where
  inherited : Slot → Fin 32 → Int
  calls : Slot → List (Which × Fin 32)
  execd : Slot → Bool
  exits : List Entry

def Ledger.start : Ledger where
  inherited := fun _ _ => 0
  calls := fun _ => []
  execd := fun _ => false
  exits := []

def Ledger.call (k : Kernel) (i : Slot) (which : Which) (g : Ledger) : Ledger :=
  match argint (k.proc i).toCaller 0 with
  | none => g
  | some id =>
      { g with
        calls := Function.update g.calls i (g.calls i ++ [(which, Fin.ofNat 32 id.toNat)]) }

/-- The entries of one step taken in `k`. -/
def Ledger.record (k : Kernel) (note : Note) (g : Ledger) : Ledger :=
  match note with
  | .forks parent np =>
      { g with
        inherited := Function.update g.inherited np (k.proc parent).blocked_syscalls
        calls := Function.update g.calls np []
        execd := Function.update g.execd np false }
  | .returned i .sys_block eax => if eax = 0 then g.call k i .block else g
  | .returned i .sys_unblock eax => if eax = 0 then g.call k i .unblock else g
  | .returned i .sys_exec eax =>
      if eax = 0 then { g with execd := Function.update g.execd i true } else g
  | .exits i => if g.execd i then { g with exits := g.exits ++ [entryOf (k.proc i)] } else g
  | .silent | .returned _ _ _ => g

/-- wait() enters nothing. -/
theorem record_wait (g : Ledger) (k before : Kernel) (i : Slot) :
    g.record before (wait k i).1 = g := by
  unfold wait
  cases zombieChild k.proc i with
  | some j => rfl
  | none =>
      dsimp only
      split <;> rfl

/-- A step of the kernel with its observer. -/
def tracked (s : Kernel × Ledger) (e : Event) : Option (Kernel × Ledger) :=
  (step s.1 e).map fun taken => (taken.2, s.2.record s.1 taken.1)

end Xv6.Public1.Lifecycle
