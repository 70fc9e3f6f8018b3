import Mathlib.Logic.Function.Basic
import Mathlib.Tactic.Common
import Xv6.Lib.Runs

/-!
# Sleep locks (sleeplock.c)

acquiresleep(), releasesleep() and holdingsleep() on one lock by any number of processes,
with the sleep() and the wakeup() they call.  Every acquire() and release() of `lk->lk`
and of ptable.lock is a step, between which the other processes take theirs.
-/

set_option autoImplicit false

namespace Xv6.Common.SleepLocks

open Xv6.Lib.Runs

/-- The pids of the processes. -/
structure Pids (P : Type) where
  of : P → Nat
  distinct : Function.Injective of
  positive : ∀ p, of p ≠ 0

/-- What a process does next. -/
inductive Point where
  | outside
  /-- acquire(&lk->lk) of acquiresleep() -/
  | enter
  /-- while (lk->locked) -/
  | test
  /-- acquire(&ptable.lock) of sleep() -/
  | sleep
  /-- release(lk) of sleep() -/
  | unlock
  /-- p->state = SLEEPING; sched() -/
  | doze
  | asleep
  /-- RUNNABLE, until scheduler() chooses it. -/
  | awake
  /-- p->chan = 0; release(&ptable.lock) of sleep() -/
  | resumed
  /-- acquire(lk) of sleep() -/
  | relock
  /-- lk->locked = 1; lk->pid = myproc()->pid -/
  | take
  /-- release(&lk->lk) of acquiresleep() -/
  | leave
  /-- acquire(&lk->lk) of releasesleep() -/
  | give
  /-- lk->locked = 0; lk->pid = 0 -/
  | clear
  /-- acquire(&ptable.lock) of wakeup() -/
  | wakeup
  /-- wakeup1(chan) -/
  | wake
  /-- release(&ptable.lock) of wakeup() -/
  | woken
  /-- release(&lk->lk) of releasesleep() -/
  | given
  /-- acquire(&lk->lk) of holdingsleep() -/
  | ask
  /-- r = lk->locked && (lk->pid == myproc()->pid) -/
  | read
  /-- release(&lk->lk); return r -/
  | answer (r : Bool)
  deriving DecidableEq

/-- Who holds ptable.lock. -/
inductive Holder (P : Type) where
  | proc (p : P)
  /-- Other code of the kernel. -/
  | other

structure State (P : Type) where
  /-- Whose acquire() has got `lk->lk`. -/
  spin : Option P
  table : Option (Holder P)
  locked : Bool
  pid : Nat
  point : P → Point
  /-- Not in memory: an acquiresleep() has returned, and no releasesleep() been called. -/
  holds : P → Bool

variable {P : Type} [DecidableEq P]

def State.goto (s : State P) (p : P) (point : Point) : State P :=
  { s with point := Function.update s.point p point }

/-- acquire(&lk->lk) -/
def acquire (s : State P) (p : P) (next : Point) : Option (State P) :=
  if s.spin.isNone then some { s.goto p next with spin := some p } else none

def release (s : State P) (p : P) (next : Point) : State P :=
  { s.goto p next with spin := none }

/-- acquire(&ptable.lock) -/
def acquireTable (s : State P) (p : P) (next : Point) : Option (State P) :=
  if s.table.isNone then some { s.goto p next with table := some (.proc p) } else none

def releaseTable (s : State P) (p : P) (next : Point) : State P :=
  { s.goto p next with table := none }

def wakeup1 (point : P → Point) : P → Point := fun q =>
  if point q = .asleep then .awake else point q

/-- The next step of a process that is in a call. -/
def go (pids : Pids P) (s : State P) (p : P) : Option (State P) :=
  match s.point p with
  | .outside | .asleep => none
  | .enter | .relock => acquire s p .test
  | .test => some (s.goto p (if s.locked then .sleep else .take))
  | .sleep => acquireTable s p .unlock
  | .unlock => some (release s p .doze)
  -- scheduler() releases the lock that sched() has come with
  | .doze => some (releaseTable s p .asleep)
  | .awake => acquireTable s p .resumed
  | .resumed => some (releaseTable s p .relock)
  | .take => some { s.goto p .leave with locked := true, pid := pids.of p }
  | .leave => some { release s p .outside with holds := Function.update s.holds p true }
  | .give => acquire s p .clear
  | .clear => some { s.goto p .wakeup with locked := false, pid := 0 }
  | .wakeup => acquireTable s p .wake
  | .wake => some { s with point := Function.update (wakeup1 s.point) p .woken }
  | .woken => some (releaseTable s p .given)
  | .given => some (release s p .outside)
  | .ask => acquire s p .read
  | .read => some (s.goto p (.answer (s.locked && s.pid == pids.of p)))
  | .answer _ => some (release s p .outside)

inductive Event (P : Type) where
  | acquiresleep (p : P)
  | releasesleep (p : P)
  | holdingsleep (p : P)
  | go (p : P)
  /-- kill() of a process by another one, which takes and releases ptable.lock. -/
  | kill (p : P)
  /-- Other code takes and releases ptable.lock. -/
  | lockTable
  | unlockTable

/-- A process that has the lock does not ask for it, and only such a one gives it back. -/
def step (pids : Pids P) (s : State P) : Event P → Option (State P)
  | .acquiresleep p =>
      if s.point p = .outside ∧ s.holds p = false then some (s.goto p .enter) else none
  | .releasesleep p =>
      if s.point p = .outside ∧ s.holds p = true then
        some { s.goto p .give with holds := Function.update s.holds p false }
      else none
  | .holdingsleep p => if s.point p = .outside then some (s.goto p .ask) else none
  | .go p => go pids s p
  | .kill p =>
      if s.table.isNone = true ∧ s.point p = .asleep then some (s.goto p .awake) else none
  | .lockTable => if s.table.isNone then some { s with table := some .other } else none
  | .unlockTable =>
      match s.table with
      | some .other => some { s with table := none }
      | _ => none

/-- After initsleeplock(). -/
def boot : State P where
  spin := none
  table := none
  locked := false
  pid := 0
  point := fun _ => .outside
  holds := fun _ => false

/-! ## The invariant -/

/-- The process holds `lk->lk`. -/
def Point.spins : Point → Bool
  | .test | .sleep | .unlock | .take | .leave | .clear | .wakeup | .wake | .woken | .given
  | .read | .answer _ => true
  | _ => false

/-- The process holds ptable.lock. -/
def Point.tables : Point → Bool
  | .unlock | .doze | .resumed | .wake | .woken => true
  | _ => false

/-- `locked` is set for the process, in the midst of a call. -/
def Point.owns : Point → Bool
  | .leave | .give | .clear => true
  | _ => false

/-- Where a process that has the lock may be. -/
def Point.free : Point → Bool
  | .outside | .ask | .read | .answer _ => true
  | _ => false

/-- The process has found the lock taken, and still holds `lk->lk`. -/
def Point.sees : Point → Bool
  | .sleep | .unlock => true
  | _ => false

def Point.sleeps : Point → Bool
  | .doze | .asleep => true
  | _ => false

/-- The process has cleared `locked`, and not yet woken the others. -/
def Point.wakes : Point → Bool
  | .wakeup | .wake => true
  | _ => false

/-- The lock is the process's. -/
def Owns (s : State P) (p : P) : Prop := s.holds p = true ∨ (s.point p).owns = true

structure Guards (s : State P) : Prop where
  spin : ∀ p, s.spin = some p ↔ (s.point p).spins = true
  table : ∀ p, s.table = some (.proc p) ↔ (s.point p).tables = true
  holder : ∀ p, s.holds p = true → (s.point p).free = true
  answer : ∀ p r, s.point p = .answer r → (r = true ↔ s.holds p = true)

structure Inv (pids : Pids P) (s : State P) : Prop extends Guards s where
  locked : s.locked = true ↔ ∃ p, Owns s p
  single : ∀ p q, Owns s p → Owns s q → p = q
  pid : ∀ p, Owns s p → s.pid = pids.of p
  seen : ∀ p, (s.point p).sees = true → s.locked = true
  take : ∀ p, s.point p = .take → s.locked = false
  asleep : ∀ p, (s.point p).sleeps = true → s.locked = true ∨ ∃ q, (s.point q).wakes = true

end Xv6.Common.SleepLocks
