import Xv6.Public2.Changes
import Xv6.Public2.Wakeups

/-!
# What a suspended job holds (xv6-public_2)

The sleeplocks of buffers and inodes and the operations of the log, on top of the
process table.  Ctrl-B marks a job wherever it is: a job that sleeps or is
interrupted inside a file system call is marked with its locks held, and
scheduler() then skips it.

`inOp` is history: the process in the slot is between begin_op() and the end of
its end_op().  Other system calls are made with no operation open.
-/

set_option autoImplicit false

namespace Xv6.Public2.Suspension

open Relation
open Xv6.Lib.Runs
open Xv6.Public2.ProcTable
open Xv6.Public2.Kernel
open Xv6.Public2.Changes

abbrev MAXOPBLOCKS : Nat := 10
abbrev LOGSIZE : Nat := MAXOPBLOCKS * 3
abbrev NBUF : Nat := MAXOPBLOCKS * 3
abbrev NINODE : Nat := 50

/-- The sleeplock of a buffer or of an inode. -/
abbrev Lock := Fin (NBUF + NINODE)

structure Sleeplock where
  locked : Bool
  pid : Int
  deriving DecidableEq

structure Log where
  outstanding : Int
  committing : Bool
  /-- `lh.n`. -/
  n : Nat

structure State where
  kernel : ProcTable.Kernel
  lock : Lock → Sleeplock
  log : Log
  inOp : Slot → Bool

def lockChan (lk : Lock) : Chan := .addr (lk.val + 2)
def logChan : Chan := .addr 1

inductive Event where
  | kernel (e : Kernel.Event)
  | acquiresleep (c : Cpu) (lk : Lock)
  | releasesleep (c : Cpu) (lk : Lock)
  | begin_op (c : Cpu)
  /-- log_write(); `absorbed` tells that the block is logged already. -/
  | log_write (c : Cpu) (absorbed : Bool)
  | end_op (c : Cpu)
  /-- The end of the commit() that the last end_op() does. -/
  | committed (c : Cpu)

/-- The system calls outside the file system. -/
def ownCall : Kernel.Event → Option Cpu
  | .fork c _ | .exit c | .wait c | .kill c _ | .schedulerStart c | .signal c _ | .sigreturn c
  | .sigretFault c => some c
  | .schedule _ | .tick | .yield _ | .forkStack _ _ | .forkCopy _ _ | .forkCommit _ | .sleep _ _
  | .wakeup _ | .deliver _ _ | .ctrlC | .ctrlB | .ctrlBWake | .ctrlF | .ctrlG _ => none

/-- `holdingsleep()` for the process with that pid. -/
def holdingsleep (lock : Lock → Sleeplock) (lk : Lock) (pid : Int) : Bool :=
  (lock lk).locked && decide ((lock lk).pid = pid)

/-- The process on CPU `c` runs kernel code of its own. -/
def running (s : State) (c : Cpu) (act : Slot → Option State) : Option State :=
  if s.kernel.panic ≠ none then none
  else
    match s.kernel.cpu c with
    | none => none
    | some p => if inUser (s.kernel.proc p) then act p else none

def wake (chan : Chan) (s : State) : State :=
  { s with kernel := { s.kernel with proc := wakeup1 (some chan) s.kernel.proc } }

/-- sleep(chan) in the loop of acquiresleep() or begin_op(), which tests again when it has been
woken. -/
def sleepOn (s : State) (c : Cpu) (p : Slot) (chan : Chan) : State :=
  { s with kernel := sched s.kernel c p (fallAsleep chan .asleep (s.kernel.proc p)) }

def acquiresleep (s : State) (c : Cpu) (lk : Lock) (p : Slot) : State :=
  if (s.lock lk).locked then sleepOn s c p (lockChan lk)
  else { s with lock := Function.update s.lock lk { locked := true, pid := (s.kernel.proc p).pid } }

def unlocked (s : State) (lk : Lock) : State :=
  { s with lock := Function.update s.lock lk { locked := false, pid := 0 } }

def releasesleep (s : State) (lk : Lock) : State := wake (lockChan lk) (unlocked s lk)

/-- The tests of begin_op() that make it wait. -/
def logBusy (log : Log) : Bool :=
  log.committing || decide (log.n + (log.outstanding + 1) * MAXOPBLOCKS > LOGSIZE)

def begin_op (s : State) (c : Cpu) (p : Slot) : State :=
  if logBusy s.log then sleepOn s c p logChan
  else
    { s with
      log := { s.log with outstanding := s.log.outstanding + 1 }
      inOp := Function.update s.inOp p true }

/-- The operation of the process in `p` is over. -/
def closed (s : State) (p : Slot) (log : Log) : State :=
  { s with log := log, inOp := Function.update s.inOp p false }

/-- end_op() up to the release of log.lock; the last one goes on to commit(). -/
def end_op (s : State) (p : Slot) : State :=
  let log := { s.log with outstanding := s.log.outstanding - 1 }
  if log.outstanding = 0 then { s with log := { log with committing := true } }
  else wake logChan (closed s p log)

/-- The end of end_op() after commit(). -/
def committed (s : State) (p : Slot) : State :=
  wake logChan (closed s p { s.log with committing := false, n := 0 })

/-- The process holds a sleeplock or is inside an operation. -/
def Pinned (s : State) (i : Slot) : Prop :=
  (∃ lk, holdingsleep s.lock lk (s.kernel.proc i).pid = true) ∨ s.inOp i = true

instance pinnedDecidable (s : State) (i : Slot) : Decidable (Pinned s i) :=
  inferInstanceAs (Decidable ((∃ lk, holdingsleep s.lock lk (s.kernel.proc i).pid = true) ∨
    s.inOp i = true))

/-- The panics of end_op() and log_write() stop the machine. -/
def act (s : State) : Event → Option State
  | .kernel e =>
      if (ownCall e).any fun c => (s.kernel.cpu c).any fun p => decide (Pinned s p) then none
      else (Kernel.step s.kernel e).map fun k => { s with kernel := k }
  | .acquiresleep c lk => running s c fun p => some (acquiresleep s c lk p)
  | .releasesleep c lk => running s c fun _ => some (releasesleep s lk)
  | .begin_op c => running s c fun p => some (begin_op s c p)
  | .log_write c absorbed =>
      running s c fun _ =>
        if s.log.n ≥ LOGSIZE ∨ s.log.outstanding < 1 then none
        else if absorbed then some s
        else some { s with log := { s.log with n := s.log.n + 1 } }
  | .end_op c =>
      running s c fun p =>
        if s.inOp p = false ∨ s.log.committing then none else some (end_op s p)
  | .committed c =>
      running s c fun p =>
        if s.inOp p = false ∨ s.log.committing = false then none else some (committed s p)

def step (s : State) (e : Event) : Option State := act s e

def boot : State where
  kernel := Kernel.boot
  lock := fun _ => { locked := false, pid := 0 }
  log := { outstanding := 0, committing := false, n := 0 }
  inOp := fun _ => false

/-! ## The property and its condition -/

/-- scheduler() skips the process because of its mark. -/
def Skipped (p : Proc) : Prop := p.state = .RUNNABLE ∧ p.b = 1

instance skippedDecidable (p : Proc) : Decidable (Skipped p) :=
  inferInstanceAs (Decidable (p.state = .RUNNABLE ∧ p.b = 1))

def Unpinned (s : State) : Prop := ∀ i, Skipped (s.kernel.proc i) → ¬ Pinned s i

/-- The process sleeps, is marked and holds something. -/
def Stuck (s : State) (i : Slot) : Prop :=
  (s.kernel.proc i).state = .SLEEPING ∧ (s.kernel.proc i).b = 1 ∧ Pinned s i

instance stuckDecidable (s : State) (i : Slot) : Decidable (Stuck s i) :=
  inferInstanceAs (Decidable ((s.kernel.proc i).state = .SLEEPING ∧ (s.kernel.proc i).b = 1 ∧
    Pinned s i))

/-- A step of the process table that puts a marked process with a resource back among the
RUNNABLE, or marks one there. -/
def Returns (s : State) (e : Kernel.Event) (i : Slot) : Prop :=
  match e with
  | .yield c => s.kernel.cpu c = some i ∧ (s.kernel.proc i).b = 1 ∧ Pinned s i
  | .kill _ pid => (slots.find? fun j => decide ((s.kernel.proc j).pid = pid)) = some i ∧ Stuck s i
  | .schedulerStart _ =>
      (s.kernel.proc i).state = .CUSTOM_WAIT ∧ (s.kernel.proc i).b = 1 ∧ Pinned s i
  | .ctrlB =>
      ((s.kernel.proc i).pid > 2 ∧ (s.kernel.proc i).state = .RUNNABLE ∨
        shellSlot (ctrlBMark s.kernel.proc) = some i ∧ (s.kernel.proc i).b = 1) ∧ Pinned s i
  | .schedule _ | .tick | .fork _ _ | .forkStack _ _ | .forkCopy _ _ | .forkCommit _ | .exit _
  | .wait _ | .sleep _ _ | .wakeup _ | .signal _ _ | .sigreturn _ | .sigretFault _ | .deliver _ _
  | .ctrlC | .ctrlBWake | .ctrlF | .ctrlG _ => False

instance returnsDecidable (s : State) (e : Kernel.Event) (i : Slot) : Decidable (Returns s e i) :=
  match e with
  | .yield c => inferInstanceAs (Decidable (s.kernel.cpu c = some i ∧ (s.kernel.proc i).b = 1 ∧
      Pinned s i))
  | .kill _ pid => inferInstanceAs (Decidable
      ((slots.find? fun j => decide ((s.kernel.proc j).pid = pid)) = some i ∧ Stuck s i))
  | .schedulerStart _ => inferInstanceAs (Decidable
      ((s.kernel.proc i).state = .CUSTOM_WAIT ∧ (s.kernel.proc i).b = 1 ∧ Pinned s i))
  | .ctrlB => inferInstanceAs (Decidable
      (((s.kernel.proc i).pid > 2 ∧ (s.kernel.proc i).state = .RUNNABLE ∨
        shellSlot (ctrlBMark s.kernel.proc) = some i ∧ (s.kernel.proc i).b = 1) ∧ Pinned s i))
  | .schedule _ | .tick | .fork _ _ | .forkStack _ _ | .forkCopy _ _ | .forkCommit _ | .exit _
  | .wait _ | .sleep _ _ | .wakeup _ | .signal _ _ | .sigreturn _ | .sigretFault _ | .deliver _ _
  | .ctrlC | .ctrlBWake | .ctrlF | .ctrlG _ => inferInstanceAs (Decidable False)

/-- A step that leaves a process with a resource to be skipped, in terms of what it finds. -/
def Strands (s : State) (e : Event) (i : Slot) : Prop :=
  match e with
  | .kernel e => Wakes s.kernel e (s.kernel.proc i).chan ∧ Stuck s i ∨ Returns s e i
  | .acquiresleep c lk => (s.lock lk).locked = false ∧ Skipped (s.kernel.proc i) ∧
      ∃ p, s.kernel.cpu c = some p ∧ (s.kernel.proc i).pid = (s.kernel.proc p).pid
  | .releasesleep _ lk =>
      (s.kernel.proc i).chan = some (lockChan lk) ∧ Stuck (unlocked s lk) i
  | .begin_op c => s.kernel.cpu c = some i ∧ logBusy s.log = false ∧ Skipped (s.kernel.proc i)
  | .log_write _ _ => False
  | .end_op c => s.log.outstanding ≠ 1 ∧ (s.kernel.proc i).chan = some logChan ∧
      ∃ p, s.kernel.cpu c = some p ∧ Stuck (closed s p s.log) i
  | .committed c => (s.kernel.proc i).chan = some logChan ∧
      ∃ p, s.kernel.cpu c = some p ∧ Stuck (closed s p s.log) i

instance strandsDecidable (s : State) (e : Event) (i : Slot) : Decidable (Strands s e i) :=
  match e with
  | .kernel e => inferInstanceAs (Decidable
      (Wakes s.kernel e (s.kernel.proc i).chan ∧ Stuck s i ∨ Returns s e i))
  | .acquiresleep c lk => inferInstanceAs (Decidable
      ((s.lock lk).locked = false ∧ Skipped (s.kernel.proc i) ∧
        ∃ p, s.kernel.cpu c = some p ∧ (s.kernel.proc i).pid = (s.kernel.proc p).pid))
  | .releasesleep _ lk => inferInstanceAs (Decidable
      ((s.kernel.proc i).chan = some (lockChan lk) ∧ Stuck (unlocked s lk) i))
  | .begin_op c => inferInstanceAs (Decidable
      (s.kernel.cpu c = some i ∧ logBusy s.log = false ∧ Skipped (s.kernel.proc i)))
  | .log_write _ _ => inferInstanceAs (Decidable False)
  | .end_op c => inferInstanceAs (Decidable
      (s.log.outstanding ≠ 1 ∧ (s.kernel.proc i).chan = some logChan ∧
        ∃ p, s.kernel.cpu c = some p ∧ Stuck (closed s p s.log) i))
  | .committed c => inferInstanceAs (Decidable
      ((s.kernel.proc i).chan = some logChan ∧
        ∃ p, s.kernel.cpu c = some p ∧ Stuck (closed s p s.log) i))

/-- The step strands nobody. -/
def Safe (s : State) (e : Event) : Prop := ∀ i, ¬ Strands s e i

instance safeDecidable (s : State) (e : Event) : Decidable (Safe s e) :=
  inferInstanceAs (Decidable (∀ i, ¬ Strands s e i))

/-! ## Steps of the process table -/

/-- A process that is skipped after some changes was skipped before them. -/
def Still (p p' : Proc) : Prop := Skipped p' → Skipped p ∧ p'.pid = p.pid

theorem Still.trans {p q r : Proc} (first : Still p q) (second : Still q r) : Still p r := by
  intro skipped
  obtain ⟨skipped, pid⟩ := second skipped
  obtain ⟨skipped, pid'⟩ := first skipped
  exact ⟨skipped, pid.trans pid'⟩

/-- The events that neither wake nor mark a process, nor put it back among the RUNNABLE. -/
def Tame : Kernel.Event → Prop
  | .tick | .yield _ | .exit _ | .wakeup _ | .kill _ _ | .schedulerStart _ | .ctrlB
  | .ctrlBWake => False
  | .schedule _ | .fork _ _ | .forkStack _ _ | .forkCopy _ _ | .forkCommit _ | .wait _
  | .sleep _ _ | .signal _ _ | .sigreturn _ | .sigretFault _ | .deliver _ _ | .ctrlC | .ctrlF
  | .ctrlG _ => True

theorem still_same {p p' : Proc} (state : p'.state = p.state) (b : p'.b = p.b)
    (pid : p'.pid = p.pid) : Still p p' := by
  intro skipped
  rw [Skipped, state, b] at skipped
  exact ⟨skipped, pid⟩

theorem still_off {p p' : Proc} (off : p'.state = .RUNNABLE → p'.b ≠ 1) : Still p p' :=
  fun skipped => absurd skipped.2 (off skipped.1)

theorem still_change {k : ProcTable.Kernel} {e : Kernel.Event} {i : Slot} {p p' : Proc}
    (tame : Tame e) (change : Change k e i p p') : Still p p' := by
  cases change with
  | count | thread | signal | sigreturn | sigretFault | deliver | ctrlG | ctrlC =>
      exact still_same rfl rfl rfl
  | start | resleep | sleep | waitSleep | reap | allocate | background =>
      exact still_off fun state => by cases state
  | foreground => exact still_off fun _ => by simp
  | resume =>
      unfold resume
      split
      all_goals exact still_same rfl rfl rfl
  | stack page =>
      cases page with
      | none => exact still_off fun state => by cases state
      | some page => exact still_same rfl rfl rfl
  | @copy _ _ _ call _ page =>
      cases page with
      | none => exact still_off fun state => by cases state
      | some page =>
          unfold copyProcess
          dsimp only
          split
          all_goals exact still_same rfl rfl rfl
  | @commit _ _ _ call =>
      unfold commitProcess
      split
      · exact still_off fun _ => by simp
      · split
        · exact still_off fun state => by cases state
        · exact still_off fun _ => by simp
  | wake wakes =>
      cases e with
      | tick | exit | wakeup | ctrlBWake => cases tame
      | _ => cases wakes
  | yield | finish | hand | die | kill | release | mark | shell => cases tame

theorem still_chain {k : ProcTable.Kernel} {e : Kernel.Event} {i : Slot} {p p' : Proc}
    (tame : Tame e) (chain : Chain k e i p p') : Still p p' := by
  induction chain with
  | refl => exact fun skipped => ⟨skipped, rfl⟩
  | tail _ change ih => exact ih.trans (still_change tame change)

theorem tame_unpinned {s : State} {e : Kernel.Event} {k : ProcTable.Kernel} (tame : Tame e)
    (taken : Kernel.step s.kernel e = some k) (unpinned : Unpinned s) :
    Unpinned { s with kernel := k } := by
  intro i skipped pinned
  obtain ⟨before, pid⟩ := still_chain tame (step_chained taken i) skipped
  refine unpinned i before ?_
  unfold Pinned at pinned ⊢
  rwa [← pid]

theorem tame_safe {s : State} {e : Kernel.Event} (tame : Tame e) : Safe s (.kernel e) := by
  intro i strands
  cases e with
  | tick | yield | exit | wakeup | kill | schedulerStart | ctrlB | ctrlBWake => cases tame
  | _ => exact strands.elim And.left id

theorem safe_wakes (s : State) (e : Kernel.Event) (only : ∀ i, ¬ Returns s e i) :
    Safe s (.kernel e) ↔ ∀ i, ¬ (Wakes s.kernel e (s.kernel.proc i).chan ∧ Stuck s i) :=
  forall_congr' fun i => not_congr (or_iff_left (only i))

theorem safe_returns (s : State) (e : Kernel.Event) (only : ∀ chan, ¬ Wakes s.kernel e chan) :
    Safe s (.kernel e) ↔ ∀ i, ¬ Returns s e i :=
  forall_congr' fun _ => not_congr (or_iff_right fun wakes => only _ wakes.1)

/-- A step that takes what has been RUNNABLE and marked as it is, and moves `fresh` there. -/
theorem unpinned_iff {s next : State} {fresh : Slot → Prop} (unpinned : Unpinned s)
    (back : ∀ i, Skipped (next.kernel.proc i) → Pinned next i →
      Skipped (s.kernel.proc i) ∧ Pinned s i ∨ fresh i)
    (forth : ∀ i, fresh i → Skipped (next.kernel.proc i) ∧ Pinned next i) :
    Unpinned next ↔ ∀ i, ¬ fresh i := by
  constructor
  · intro after i moved
    obtain ⟨skipped, pinned⟩ := forth i moved
    exact after i skipped pinned
  · intro none_fresh i skipped pinned
    rcases back i skipped pinned with ⟨before, held⟩ | moved
    · exact unpinned i before held
    · exact none_fresh i moved

/-- A step that makes RUNNABLE the sleepers in `woken`. -/
theorem unpinned_woken {s next : State} {woken : Slot → Prop} (unpinned : Unpinned s)
    (runnable : ∀ i, (next.kernel.proc i).state = .RUNNABLE ↔ (s.kernel.proc i).state = .RUNNABLE ∨
      (s.kernel.proc i).state = .SLEEPING ∧ woken i)
    (b : ∀ i, (next.kernel.proc i).b = (s.kernel.proc i).b)
    (pinned : ∀ i, Pinned next i ↔ Pinned s i) :
    Unpinned next ↔ ∀ i, ¬ (woken i ∧ Stuck s i) := by
  refine unpinned_iff unpinned ?_ ?_
  · intro i skipped held
    rw [Skipped, runnable, b] at skipped
    rw [pinned] at held
    rcases skipped with ⟨before | ⟨asleep, wakes⟩, marked⟩
    · exact Or.inl ⟨⟨before, marked⟩, held⟩
    · exact Or.inr ⟨wakes, asleep, marked, held⟩
  · rintro i ⟨wakes, asleep, marked, held⟩
    rw [Skipped, runnable, b, pinned]
    exact ⟨⟨Or.inr ⟨asleep, wakes⟩, marked⟩, held⟩

/-! ## Wakeups -/

/-- Where a wakeup leaves the state, and what it leaves alone. -/
theorem wakeup1_runnable (chan : Option Chan) (proc : Slot → Proc) (i : Slot) :
    ((wakeup1 chan proc i).state = .RUNNABLE ↔ (proc i).state = .RUNNABLE ∨
      (proc i).state = .SLEEPING ∧ (proc i).chan = chan) ∧
    (wakeup1 chan proc i).b = (proc i).b ∧ (wakeup1 chan proc i).pid = (proc i).pid := by
  unfold wakeup1
  split
  · rename_i woken
    exact ⟨iff_of_true rfl (Or.inr woken), rfl, rfl⟩
  · rename_i stays
    exact ⟨by simp [stays], rfl, rfl⟩

theorem unpinned_wakeup1 {s : State} (unpinned : Unpinned s) (chan : Option Chan)
    (k : ProcTable.Kernel) (woken : k.proc = wakeup1 chan s.kernel.proc) :
    Unpinned { s with kernel := k } ↔ ∀ i, ¬ ((s.kernel.proc i).chan = chan ∧ Stuck s i) := by
  have fields := wakeup1_runnable chan s.kernel.proc
  rw [← woken] at fields
  refine unpinned_woken unpinned (fun i => (fields i).1) (fun i => (fields i).2.1) fun i => ?_
  unfold Pinned
  dsimp only
  rw [(fields i).2.2]

theorem exitNotify_runnable (k : ProcTable.Kernel) (cur i : Slot) :
    ((exitNotify k cur i).state = .RUNNABLE ↔ (k.proc i).state = .RUNNABLE ∨
      (k.proc i).state = .SLEEPING ∧ Notifies k cur (k.proc i).chan) ∧
    (exitNotify k cur i).b = (k.proc i).b ∧ (exitNotify k cur i).pid = (k.proc i).pid := by
  obtain ⟨first, entry⟩ : ∃ first, first =
      Function.update k.proc cur { k.proc cur with finish_time := k.ticks } := ⟨_, rfl⟩
  have same : ∀ i, (first i).state = (k.proc i).state ∧ (first i).chan = (k.proc i).chan ∧
      (first i).b = (k.proc i).b ∧ (first i).pid = (k.proc i).pid ∧
      (first i).parent = (k.proc i).parent := by
    intro i
    by_cases here : i = cur
    · subst here
      rw [entry, Function.update_self]
      exact ⟨rfl, rfl, rfl, rfl, rfl⟩
    · rw [entry, Function.update_of_ne here]
      exact ⟨rfl, rfl, rfl, rfl, rfl⟩
  obtain ⟨woken, wakes⟩ : ∃ woken, woken = wakeup1 ((k.proc cur).parent.map .proc) first :=
    ⟨_, rfl⟩
  have fields := wakeup1_runnable ((k.proc cur).parent.map .proc) first
  rw [← wakes] at fields
  have zombie : ∀ j, (woken j).state = .ZOMBIE ↔ (k.proc j).state = .ZOMBIE := fun j => by
    rw [wakes, Wakeups.wakeup1_zombie, (same j).1]
  have sleeping : ∀ j, (woken j).state = .SLEEPING ↔ (k.proc j).state = .SLEEPING ∧
      (k.proc j).chan ≠ (k.proc cur).parent.map .proc := fun j => by
    rw [wakes, Wakeups.wakeup1_sleeping, (same j).1, (same j).2.1]
  have others : ∀ j, (woken j).chan = (k.proc j).chan ∧ (woken j).parent = (k.proc j).parent :=
    fun j => by
      obtain ⟨chan, _, parent⟩ := Wakeups.wakeup1_fields ((k.proc cur).parent.map .proc) first j
      rw [wakes, chan, parent]
      exact ⟨(same j).2.1, (same j).2.2.2.2⟩
  have dead : (slots.any fun j => decide ((woken j).parent = some cur) &&
      decide ((woken j).state = .ZOMBIE)) = true ↔ DeadChild k cur := by
    simp [DeadChild, slots, (others _).2, zombie]
  obtain ⟨handed, given⟩ : ∃ handed : Slot → Proc, handed = fun i =>
      if (woken i).parent = some cur then { woken i with parent := some k.initproc }
      else woken i := ⟨_, rfl⟩
  have kept : (handed i).state = (woken i).state ∧ (handed i).chan = (woken i).chan ∧
      (handed i).b = (woken i).b ∧ (handed i).pid = (woken i).pid := by
    rw [given]
    dsimp only
    split
    all_goals exact ⟨rfl, rfl, rfl, rfl⟩
  obtain ⟨state, b, pid⟩ := fields i
  rw [(same i).1, (same i).2.1] at state
  rw [(same i).2.2.1] at b
  rw [(same i).2.2.2.1] at pid
  unfold exitNotify reparent
  dsimp only
  rw [← entry, ← wakes, ← given]
  split
  · rename_i any
    obtain ⟨stateEq, bEq, pidEq⟩ := wakeup1_runnable (some (.proc k.initproc)) handed i
    rw [stateEq, bEq, pidEq, kept.1, kept.2.1, kept.2.2.1, kept.2.2.2, state, sleeping,
      (others i).1]
    refine ⟨?_, b, pid⟩
    have has := dead.mp any
    unfold Notifies
    tauto
  · rename_i none_dead
    have spared : ¬ DeadChild k cur := fun has => none_dead (dead.mpr has)
    rw [kept.1, kept.2.2.1, kept.2.2.2, state]
    refine ⟨?_, b, pid⟩
    unfold Notifies
    tauto

theorem exit_unpinned {s : State} (unpinned : Unpinned s) {c : Cpu} {cur : Slot}
    (current : s.kernel.cpu c = some cur) (free : ¬ Pinned s cur) :
    Unpinned { s with kernel := exit s.kernel c cur } ↔ Safe s (.kernel (.exit c)) := by
  by_cases init : cur = s.kernel.initproc
  · have same : (exit s.kernel c cur).proc = s.kernel.proc := by
      unfold ProcTable.exit
      rw [if_pos init]
    refine iff_of_true ?_ ?_
    · intro i skipped
      unfold Pinned
      dsimp only at skipped ⊢
      rw [same] at skipped ⊢
      exact unpinned i skipped
    · rintro i (⟨⟨cur', current', leaves, _⟩, _⟩ | returns)
      · rw [current] at current'
        exact leaves ((Option.some.inj current').symm.trans init)
      · exact returns
  have fields := exitNotify_runnable s.kernel cur
  have other : ∀ i, i ≠ cur → (exit s.kernel c cur).proc i = exitNotify s.kernel cur i := by
    intro i away
    unfold ProcTable.exit
    rw [if_neg init]
    simp [sched, Kernel.set, away]
  have self : ((exit s.kernel c cur).proc cur).state = .ZOMBIE := by
    unfold ProcTable.exit
    rw [if_neg init]
    simp [sched, Kernel.set, accountRun]
  have wakes : ∀ chan, Wakes s.kernel (.exit c) chan ↔ Notifies s.kernel cur chan := by
    intro chan
    constructor
    · rintro ⟨cur', current', _, notifies⟩
      rw [current] at current'
      exact Option.some.inj current' ▸ notifies
    · exact fun notifies => ⟨cur, current, init, notifies⟩
  rw [safe_wakes s (.exit c) fun _ returns => returns]
  refine unpinned_iff unpinned ?_ ?_
  · intro i skipped held
    have away : i ≠ cur := by
      rintro rfl
      have state := skipped.1
      rw [self] at state
      cases state
    unfold Pinned at held
    dsimp only at skipped held
    rw [other i away] at skipped held
    obtain ⟨state, b, pid⟩ := fields i
    rw [Skipped, state, b] at skipped
    rw [pid] at held
    rcases skipped with ⟨before | ⟨asleep, notifies⟩, marked⟩
    · exact Or.inl ⟨⟨before, marked⟩, held⟩
    · exact Or.inr ⟨(wakes _).mpr notifies, asleep, marked, held⟩
  · rintro i ⟨woken, asleep, marked, held⟩
    have away : i ≠ cur := by
      rintro rfl
      exact free held
    obtain ⟨state, b, pid⟩ := fields i
    unfold Pinned
    dsimp only
    rw [other i away, pid]
    refine ⟨⟨state.mpr (Or.inr ⟨asleep, (wakes _).mp woken⟩), b.trans marked⟩, held⟩

/-! ## Steps that put a process back among the RUNNABLE, and Ctrl-B -/

/-- A step of the process table that leaves the pids alone. -/
theorem unpinned_kernel {s : State} {k : ProcTable.Kernel} {fresh : Slot → Prop}
    (unpinned : Unpinned s) (pid : ∀ i, (k.proc i).pid = (s.kernel.proc i).pid)
    (skipped : ∀ i, Pinned s i →
      (Skipped (k.proc i) ↔ Skipped (s.kernel.proc i) ∨ fresh i))
    (held : ∀ i, fresh i → Pinned s i) :
    Unpinned { s with kernel := k } ↔ ∀ i, ¬ fresh i := by
  have pinned : ∀ i, Pinned { s with kernel := k } i ↔ Pinned s i := by
    intro i
    unfold Pinned
    dsimp only
    rw [pid]
  refine unpinned_iff unpinned ?_ ?_
  · intro i now pins
    have pins := (pinned i).mp pins
    exact ((skipped i pins).mp now).imp_left fun before => ⟨before, pins⟩
  · intro i moved
    have pins := held i moved
    exact ⟨(skipped i pins).mpr (Or.inr moved), (pinned i).mpr pins⟩

theorem yield_unpinned {s : State} (unpinned : Unpinned s) {c : Cpu} {cur : Slot}
    (current : s.kernel.cpu c = some cur) :
    Unpinned { s with
      kernel := (sched s.kernel c cur { s.kernel.proc cur with state := .RUNNABLE }) } ↔
      Safe s (.kernel (.yield c)) := by
  obtain ⟨p, stored⟩ : ∃ p, p = accountRun s.kernel c cur
      { s.kernel.proc cur with state := .RUNNABLE } := ⟨_, rfl⟩
  have fields : p.state = .RUNNABLE ∧ p.b = (s.kernel.proc cur).b ∧
      p.pid = (s.kernel.proc cur).pid := by
    rw [stored]
    exact ⟨rfl, rfl, rfl⟩
  have proc : (sched s.kernel c cur { s.kernel.proc cur with state := .RUNNABLE }).proc =
      Function.update s.kernel.proc cur p := by
    rw [stored]
    rfl
  rw [safe_returns s (.yield c) fun _ wakes => wakes]
  refine unpinned_kernel unpinned ?_ ?_ fun i strands => strands.2.2
  · intro i
    rw [proc]
    exact Lib.Slots.update_observed Proc.pid s.kernel.proc cur p fields.2.2 i
  · intro i pins
    rw [proc]
    by_cases here : i = cur
    · subst here
      rw [Function.update_self, Skipped, fields.1, fields.2.1]
      unfold Skipped Returns
      tauto
    · rw [Function.update_of_ne here]
      have elsewhere : ¬ Returns s (.yield c) i := by
        rintro ⟨on, _⟩
        rw [current] at on
        exact here (Option.some.inj on).symm
      simp [elsewhere]

theorem kill_unpinned {s : State} (unpinned : Unpinned s) (c : Cpu) (pid : Int) :
    Unpinned { s with kernel := { s.kernel with proc := kill pid s.kernel.proc } } ↔
      Safe s (.kernel (.kill c pid)) := by
  have fields : ∀ i, (kill pid s.kernel.proc i).pid = (s.kernel.proc i).pid ∧
      (kill pid s.kernel.proc i).b = (s.kernel.proc i).b ∧
      ((kill pid s.kernel.proc i).state = .RUNNABLE ↔ (s.kernel.proc i).state = .RUNNABLE ∨
        (slots.find? fun j => decide ((s.kernel.proc j).pid = pid)) = some i ∧
          (s.kernel.proc i).state = .SLEEPING) := by
    intro i
    unfold kill
    cases found : slots.find? fun j => decide ((s.kernel.proc j).pid = pid) with
    | none => simp
    | some j =>
        by_cases here : i = j
        · subst here
          by_cases asleep : (s.kernel.proc i).state = .SLEEPING
          · simp [asleep]
          · simp [asleep]
        · simp [here, Ne.symm here]
  rw [safe_returns s (.kill c pid) fun _ wakes => wakes]
  refine unpinned_kernel unpinned (fun i => (fields i).1) ?_ fun i strands => strands.2.2.2
  intro i pins
  obtain ⟨_, b, state⟩ := fields i
  dsimp only
  rw [Skipped, b, state]
  unfold Skipped Returns Stuck
  tauto

theorem schedulerStart_unpinned {s : State} (unpinned : Unpinned s) (c : Cpu) :
    Unpinned { s with kernel := { s.kernel with proc := sys_scheduler_start s.kernel.proc } } ↔
      Safe s (.kernel (.schedulerStart c)) := by
  have fields : ∀ i, (sys_scheduler_start s.kernel.proc i).pid = (s.kernel.proc i).pid ∧
      (sys_scheduler_start s.kernel.proc i).b = (s.kernel.proc i).b ∧
      ((sys_scheduler_start s.kernel.proc i).state = .RUNNABLE ↔
        (s.kernel.proc i).state = .RUNNABLE ∨ (s.kernel.proc i).state = .CUSTOM_WAIT) := by
    intro i
    unfold sys_scheduler_start
    split
    · rename_i gated
      simp [gated]
    · rename_i other
      simp [other]
  rw [safe_returns s (.schedulerStart c) fun _ wakes => wakes]
  refine unpinned_kernel unpinned (fun i => (fields i).1) ?_ fun i strands => strands.2.2
  intro i pins
  obtain ⟨_, b, state⟩ := fields i
  dsimp only
  rw [Skipped, b, state]
  unfold Skipped Returns
  tauto

theorem ctrlB_unpinned {s : State} (unpinned : Unpinned s) :
    Unpinned { s with kernel := ctrlB s.kernel } ↔ Safe s (.kernel .ctrlB) := by
  have marks : ∀ i, (ctrlBMark s.kernel.proc i).pid = (s.kernel.proc i).pid ∧
      (ctrlBMark s.kernel.proc i).state = (s.kernel.proc i).state ∧
      ((ctrlBMark s.kernel.proc i).b = 1 ↔ (s.kernel.proc i).b = 1 ∨
        (s.kernel.proc i).pid > 2 ∧ (s.kernel.proc i).state ≠ .ZOMBIE) := by
    intro i
    unfold ctrlBMark
    split
    · rename_i job
      exact ⟨rfl, rfl, iff_of_true rfl (Or.inr job)⟩
    · rename_i other
      exact ⟨rfl, rfl, by simp [other]⟩
  have shells : ∀ i, shellSlot (ctrlBMark s.kernel.proc) = some i → (s.kernel.proc i).pid = 2 := by
    intro i found
    have shell := List.find?_some found
    exact (marks i).1.symm.trans (of_decide_eq_true shell)
  have proc : ∀ i, ((ctrlB s.kernel).proc i).pid = (s.kernel.proc i).pid ∧
      ((ctrlB s.kernel).proc i).b = (ctrlBMark s.kernel.proc i).b ∧
      (((ctrlB s.kernel).proc i).state = .RUNNABLE ↔ (s.kernel.proc i).state = .RUNNABLE ∨
        shellSlot (ctrlBMark s.kernel.proc) = some i) := by
    intro i
    obtain ⟨pid, state, _⟩ := marks i
    unfold ctrlB
    dsimp only
    split
    · rename_i none_found
      simp [pid, state, none_found]
    · rename_i sh found
      by_cases here : i = sh
      · subst here
        simp [pid, found]
      · simp [here, pid, state, found, Ne.symm here]
  rw [safe_returns s .ctrlB fun _ wakes => wakes]
  refine unpinned_kernel unpinned (fun i => (proc i).1) ?_ fun i strands => strands.2
  intro i pins
  obtain ⟨_, b, state⟩ := proc i
  have shell := shells i
  rw [Skipped, b, state, (marks i).2.2]
  unfold Skipped Returns
  dsimp only
  constructor
  · rintro ⟨before | found, marked | job⟩
    · exact Or.inl ⟨before, marked⟩
    · exact Or.inr ⟨Or.inl ⟨job.1, before⟩, pins⟩
    · exact Or.inr ⟨Or.inr ⟨found, marked⟩, pins⟩
    · have two := shell found
      omega
  · rintro (⟨before, marked⟩ | ⟨⟨job, before⟩ | ⟨found, marked⟩, _⟩)
    · exact ⟨Or.inl before, Or.inl marked⟩
    · exact ⟨Or.inl before, Or.inr ⟨job, by simp [before]⟩⟩
    · exact ⟨Or.inr found, Or.inl marked⟩

/-- Every step of the process table. -/
theorem kernel_unpinned {s : State} {e : Kernel.Event} {k : ProcTable.Kernel}
    (unpinned : Unpinned s) (taken : Kernel.step s.kernel e = some k)
    (free : ∀ c cur, ownCall e = some c → s.kernel.cpu c = some cur → ¬ Pinned s cur) :
    Unpinned { s with kernel := k } ↔ Safe s (.kernel e) := by
  have quiet : Tame e → (Unpinned { s with kernel := k } ↔ Safe s (.kernel e)) := fun tame =>
    iff_of_true (tame_unpinned tame taken unpinned) (tame_safe tame)
  obtain ⟨_, acted⟩ := Kernel.step_some taken
  cases e with
  | tick =>
      simp only [Kernel.act] at acted
      cases Option.some.inj acted
      rw [unpinned_wakeup1 unpinned _ _ rfl, safe_wakes s .tick fun _ returns => returns]
      rfl
  | yield c =>
      simp only [Kernel.act] at acted
      obtain ⟨cur, current, _, rfl⟩ := onCpu_some acted
      exact yield_unpinned unpinned current
  | exit c =>
      simp only [Kernel.act] at acted
      obtain ⟨cur, current, _, rfl⟩ := onCpu_some acted
      exact exit_unpinned unpinned current (free c cur rfl current)
  | wakeup chan =>
      simp only [Kernel.act] at acted
      cases Option.some.inj acted
      rw [unpinned_wakeup1 unpinned _ _ rfl, safe_wakes s (.wakeup chan) fun _ returns => returns]
      rfl
  | kill c pid =>
      simp only [Kernel.act] at acted
      obtain ⟨_, _, _, rfl⟩ := onCpu_some acted
      exact kill_unpinned unpinned c pid
  | schedulerStart c =>
      simp only [Kernel.act] at acted
      obtain ⟨_, _, _, rfl⟩ := onCpu_some acted
      exact schedulerStart_unpinned unpinned c
  | ctrlB =>
      simp only [Kernel.act] at acted
      cases onKey_some acted
      exact ctrlB_unpinned unpinned
  | ctrlBWake =>
      simp only [Kernel.act] at acted
      cases found : s.kernel.shellWake with
      | none => simp [found] at acted
      | some sh =>
          simp only [found, Option.some.injEq] at acted
          rw [unpinned_wakeup1 unpinned (s.kernel.proc sh).chan k (by rw [← acted]),
            safe_wakes s .ctrlBWake fun _ returns => returns]
          have wakes : ∀ chan, Wakes s.kernel .ctrlBWake chan ↔ chan = (s.kernel.proc sh).chan := by
            intro chan
            constructor
            · rintro ⟨sh', found', same⟩
              rw [found] at found'
              rw [same, Option.some.inj found']
            · exact fun same => ⟨sh, found, same⟩
          refine forall_congr' fun i => ?_
          rw [← wakes]
  | _ => exact quiet trivial

/-! ## Sleeplocks and the log -/

/-- acquiresleep() or begin_op() goes to sleep. -/
theorem sleepOn_unpinned {s : State} (unpinned : Unpinned s) (c : Cpu) (cur : Slot) (chan : Chan) :
    Unpinned (sleepOn s c cur chan) := by
  intro i skipped
  have away : i ≠ cur := by
    rintro rfl
    have state := skipped.1
    simp [sleepOn, sched, Kernel.set, accountRun, fallAsleep] at state
  have same : (sleepOn s c cur chan).kernel.proc i = s.kernel.proc i := by
    simp [sleepOn, sched, Kernel.set, away]
  unfold Pinned
  rw [same] at skipped ⊢
  exact unpinned i skipped

theorem acquiresleep_unpinned {s : State} (unpinned : Unpinned s) {c : Cpu} {cur : Slot}
    (current : s.kernel.cpu c = some cur) (lk : Lock) :
    Unpinned (acquiresleep s c lk cur) ↔ Safe s (.acquiresleep c lk) := by
  unfold acquiresleep
  split
  · rename_i locked
    refine iff_of_true (sleepOn_unpinned unpinned c cur _) fun i strands => ?_
    rw [strands.1] at locked
    cases locked
  · rename_i free
    have free : (s.lock lk).locked = false := by simpa using free
    have holds : ∀ l pid, holdingsleep (Function.update s.lock lk
          { locked := true, pid := (s.kernel.proc cur).pid }) l pid = true →
        holdingsleep s.lock l pid = true ∨ pid = (s.kernel.proc cur).pid := by
      intro l pid held
      by_cases here : l = lk
      · subst here
        refine Or.inr ?_
        simp only [holdingsleep, Function.update_self, Bool.true_and, decide_eq_true_eq] at held
        exact held.symm
      · rw [holdingsleep, Function.update_of_ne here] at held
        exact Or.inl held
    refine unpinned_iff unpinned ?_ ?_
    · rintro i skipped (⟨l, held⟩ | inside)
      · rcases holds l _ held with before | same
        · exact Or.inl ⟨skipped, Or.inl ⟨l, before⟩⟩
        · exact Or.inr ⟨free, skipped, cur, current, same⟩
      · exact Or.inl ⟨skipped, Or.inr inside⟩
    · rintro i ⟨_, skipped, p, on, same⟩
      rw [current] at on
      refine ⟨skipped, Or.inl ⟨lk, ?_⟩⟩
      simp only [holdingsleep, Function.update_self, Bool.true_and, decide_eq_true_eq]
      rw [same, Option.some.inj on]

theorem unlocked_unpinned {s : State} (unpinned : Unpinned s) (lk : Lock) :
    Unpinned (unlocked s lk) := by
  rintro i skipped (⟨l, held⟩ | inside)
  · by_cases here : l = lk
    · subst here
      simp [holdingsleep, unlocked] at held
    · simp only [unlocked, holdingsleep, Function.update_of_ne here] at held
      exact unpinned i skipped (Or.inl ⟨l, held⟩)
  · exact unpinned i skipped (Or.inr inside)

theorem closed_unpinned {s : State} (unpinned : Unpinned s) (cur : Slot) (log : Log) :
    Unpinned (closed s cur log) := by
  rintro i skipped (held | inside)
  · exact unpinned i skipped (Or.inl held)
  · by_cases here : i = cur
    · simp [closed, here] at inside
    · simp only [closed, Function.update_of_ne here] at inside
      exact unpinned i skipped (Or.inr inside)

/-- A wakeup by the process on CPU `c`, which has just given something up. -/
theorem wake_unpinned {s : State} (unpinned : Unpinned s) (chan : Chan) :
    Unpinned (wake chan s) ↔ ∀ i, ¬ ((s.kernel.proc i).chan = some chan ∧ Stuck s i) :=
  unpinned_wakeup1 unpinned (some chan) { s.kernel with proc := _ } rfl

theorem begin_op_unpinned {s : State} (unpinned : Unpinned s) {c : Cpu} {cur : Slot}
    (current : s.kernel.cpu c = some cur) :
    Unpinned (begin_op s c cur) ↔ Safe s (.begin_op c) := by
  unfold begin_op
  split
  · rename_i busy
    refine iff_of_true (sleepOn_unpinned unpinned c cur _) fun i strands => ?_
    rw [strands.2.1] at busy
    cases busy
  · rename_i idle
    have idle : logBusy s.log = false := by simpa using idle
    refine unpinned_iff unpinned ?_ ?_
    · rintro i skipped (held | inside)
      · exact Or.inl ⟨skipped, Or.inl held⟩
      · by_cases here : i = cur
        · subst here
          exact Or.inr ⟨current, idle, skipped⟩
        · simp only [Function.update_of_ne here] at inside
          exact Or.inl ⟨skipped, Or.inr inside⟩
    · rintro i ⟨on, _, skipped⟩
      rw [current] at on
      obtain rfl := Option.some.inj on
      exact ⟨skipped, Or.inr (Function.update_self _ _ _)⟩

/-- Whoever is stuck when the operation in `cur` is over, whatever the log is then. -/
theorem stuck_closed (s : State) (cur : Slot) (log : Log) (i : Slot) :
    Stuck (closed s cur log) i ↔ Stuck (closed s cur s.log) i := Iff.rfl

theorem closed_wake_unpinned {s : State} (unpinned : Unpinned s) {c : Cpu} {cur : Slot}
    (current : s.kernel.cpu c = some cur) (log : Log) :
    Unpinned (wake logChan (closed s cur log)) ↔ ∀ i, ¬ ((s.kernel.proc i).chan = some logChan ∧
      ∃ p, s.kernel.cpu c = some p ∧ Stuck (closed s p s.log) i) := by
  rw [wake_unpinned (closed_unpinned unpinned cur log)]
  refine forall_congr' fun i => not_congr (and_congr_right fun _ => ?_)
  rw [stuck_closed]
  constructor
  · exact fun stuck => ⟨cur, current, stuck⟩
  · rintro ⟨p, on, stuck⟩
    rw [current] at on
    exact Option.some.inj on ▸ stuck

theorem end_op_unpinned {s : State} (unpinned : Unpinned s) {c : Cpu} {cur : Slot}
    (current : s.kernel.cpu c = some cur) :
    Unpinned (end_op s cur) ↔ Safe s (.end_op c) := by
  unfold end_op
  dsimp only
  split
  · rename_i last
    refine iff_of_true (fun i => unpinned i) fun i strands => strands.1 ?_
    omega
  · rename_i others
    have more : s.log.outstanding ≠ 1 := by omega
    rw [closed_wake_unpinned unpinned current]
    refine forall_congr' fun i => not_congr ?_
    exact (and_iff_right more).symm

/-- The condition is what a step must meet, and all that it must meet. -/
theorem step_unpinned {s next : State} {e : Event} (unpinned : Unpinned s)
    (taken : step s e = some next) : Unpinned next ↔ Safe s e := by
  have onRunning : ∀ {c : Cpu} {f : Slot → Option State}, running s c f = some next →
      ∃ cur, s.kernel.cpu c = some cur ∧ f cur = some next := by
    intro c f ran
    unfold running at ran
    split at ran
    · cases ran
    · cases current : s.kernel.cpu c with
      | none => simp [current] at ran
      | some cur =>
          simp only [current, Option.ite_none_right_eq_some] at ran
          exact ⟨cur, rfl, ran.2⟩
  cases e with
  | kernel e =>
      simp only [step, act, Option.ite_none_left_eq_some, Option.map_eq_some_iff] at taken
      obtain ⟨free, k, taken, rfl⟩ := taken
      refine kernel_unpinned unpinned taken fun c cur own current pinned => free ?_
      simp [own, current, pinned]
  | acquiresleep c lk =>
      obtain ⟨cur, current, did⟩ := onRunning taken
      rw [← Option.some.inj did]
      exact acquiresleep_unpinned unpinned current lk
  | releasesleep c lk =>
      obtain ⟨cur, _, did⟩ := onRunning taken
      rw [← Option.some.inj did]
      exact wake_unpinned (unlocked_unpinned unpinned lk) (lockChan lk)
  | begin_op c =>
      obtain ⟨cur, current, did⟩ := onRunning taken
      rw [← Option.some.inj did]
      exact begin_op_unpinned unpinned current
  | log_write c absorbed =>
      obtain ⟨cur, _, did⟩ := onRunning taken
      have same : next.kernel = s.kernel ∧ next.lock = s.lock ∧ next.inOp = s.inOp := by
        dsimp only at did
        split at did
        · cases did
        · split at did
          · rw [← Option.some.inj did]
            exact ⟨rfl, rfl, rfl⟩
          · rw [← Option.some.inj did]
            exact ⟨rfl, rfl, rfl⟩
      refine iff_of_true ?_ fun i strands => strands
      intro i skipped
      unfold Pinned
      rw [same.1] at skipped ⊢
      rw [same.2.1, same.2.2]
      exact unpinned i skipped
  | end_op c =>
      obtain ⟨cur, current, did⟩ := onRunning taken
      split at did
      · cases did
      · rw [← Option.some.inj did]
        exact end_op_unpinned unpinned current
  | committed c =>
      obtain ⟨cur, current, did⟩ := onRunning taken
      split at did
      · cases did
      · rw [← Option.some.inj did]
        exact closed_wake_unpinned unpinned current _

theorem boot_unpinned : Unpinned boot := by
  rintro i skipped (⟨lk, held⟩ | inside)
  · simp [boot, holdingsleep] at held
  · cases inside

/-! ## Runs -/

/-- In a run no process is ever skipped with a resource exactly when no step makes one with a
mark and a resource RUNNABLE, marks one, or gives a resource to one that is skipped. -/
theorem suspension_pins_nothing (es : List Event) (final : State)
    (ran : run step boot es = some final) :
    Always step Unpinned boot es ↔ Guarded step Safe boot es :=
  always_iff_guarded step (fun _ unpinned => unpinned)
    (fun _ _ _ unpinned safe taken => (step_unpinned unpinned taken).mpr safe)
    (fun _ _ _ unpinned taken after => (step_unpinned unpinned taken).mp after)
    es boot final boot_unpinned ran

def firstLock : Lock := ⟨0, Nat.zero_lt_succ 79⟩

/-- The channel of a disk transfer. -/
def diskChan : Chan := .addr 100

/-- The job that the shell waits for is inside a file system call, with a buffer locked. -/
def callRun : List Event :=
  Dispatch.jobRun.map .kernel ++ [.begin_op cpu0, .acquiresleep cpu0 firstLock]

/-- It finishes the call and then sleeps when Ctrl-B and Ctrl-F are pressed. -/
def finishedRun : List Event :=
  callRun ++ [.log_write cpu0 false, .releasesleep cpu0 firstLock, .end_op cpu0, .committed cpu0,
    .kernel (.sleep cpu0 diskChan), .kernel .ctrlB, .kernel .ctrlBWake,
    .kernel (.wakeup (some diskChan)), .kernel .ctrlF]

theorem finishedRun_completes : (run step boot finishedRun).isSome = true := by decide +kernel

theorem finishedRun_pins_nothing : Always step Unpinned boot finishedRun :=
  (suspension_pins_nothing finishedRun _ (Option.some_get finishedRun_completes).symm).mpr
    (by decide +kernel)

/-- It waits for the disk when Ctrl-B is pressed, and the transfer ends. -/
def pinnedRun : List Event :=
  callRun ++ [.kernel (.sleep cpu0 diskChan), .kernel .ctrlB, .kernel .ctrlBWake,
    .kernel (.wakeup (some diskChan))]

/-- The job is skipped with the buffer locked and an operation of the log open. -/
theorem pinnedRun_pins : ¬ ∀ (es : List Event) (s : State), run step boot es = some s →
    Unpinned s := by
  have pins : (run step boot pinnedRun).any (fun s => slots.any fun i =>
      decide (Skipped (s.kernel.proc i)) && decide (Pinned s i)) = true := by
    decide +kernel
  intro unpinned
  obtain ⟨s, ran, pins⟩ := (Option.any_eq_true _ _).mp pins
  obtain ⟨i, _, pins⟩ := List.any_eq_true.mp pins
  simp only [Bool.and_eq_true, decide_eq_true_eq] at pins
  exact unpinned pinnedRun s ran i pins.1 pins.2

end Xv6.Public2.Suspension
