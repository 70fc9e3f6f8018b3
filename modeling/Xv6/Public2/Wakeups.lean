import Xv6.Lib.Slots
import Xv6.Public2.Dispatch

/-!
# Who is asleep (xv6-public_2)

A process goes to sleep on a channel, under ptable.lock, and wakeup1() finds it
there.  Ctrl-F stores SLEEPING for pid 2 whatever that process is doing, and is the
way in which a wakeup is lost.
-/

set_option autoImplicit false

namespace Xv6.Public2.Wakeups

open Xv6.Lib.Runs
open Xv6.Machine
open Xv6.Public2.Signals
open Xv6.Public2.ProcTable
open Xv6.Public2.Kernel
open Xv6.Public2.Scan

/-- The process is asleep in wait(). -/
def InWait (k : Kernel) (i : Slot) : Prop :=
  (k.proc i).state = .SLEEPING ∧ (k.proc i).thread = .waiting ∧
    (k.proc i).chan = some (.proc i)

/-- Every process that is asleep can be woken, and none of its children is a ZOMBIE if it
is in wait(). -/
structure NoLostWakeup (k : Kernel) : Prop where
  chan : ∀ i, (k.proc i).state = .SLEEPING → (k.proc i).chan ≠ none
  children : ∀ i j, InWait k i → (k.proc j).parent = some i → (k.proc j).state ≠ .ZOMBIE

/-- A ZOMBIE that Ctrl-F leaves one. -/
def Stays (p : Proc) : Prop := p.state = .ZOMBIE ∧ p.pid ≠ 2 ∧ ¬ (p.pid > 2 ∧ p.b = 1)

/-- Ctrl-F finds a process with pid 2 asleep, or on a channel and not in wait() with a dead
child; and a process that is its own parent, without other dead children, does not exit while
init is asleep in wait(). -/
def WakeSafe (k : Kernel) : Event → Prop
  | .ctrlF => ∀ i, (k.proc i).pid = 2 → (k.proc i).state = .SLEEPING ∨
      (k.proc i).chan ≠ none ∧
        ((k.proc i).thread = .waiting → ∀ j, (k.proc j).parent = some i → ¬ Stays (k.proc j))
  | .exit c => ∀ p, k.cpu c = some p → p ≠ k.initproc → (k.proc p).parent = some p →
      InWait k k.initproc → ∃ j, (k.proc j).parent = some p ∧ (k.proc j).state = .ZOMBIE
  | _ => True

/-! ## The invariant -/

structure Inv (k : Kernel) : Prop where
  chan : ∀ i, (k.proc i).state = .SLEEPING → (k.proc i).chan ≠ none
  waiting : ∀ i, (k.proc i).thread = .waiting → (k.proc i).chan = some (.proc i)
  children : ∀ i j, (k.proc i).state = .SLEEPING → (k.proc i).thread = .waiting →
    (k.proc j).parent = some i → (k.proc j).state ≠ .ZOMBIE

theorem Inv.noLostWakeup {k : Kernel} (inv : Inv k) : NoLostWakeup k where
  chan := inv.chan
  children := fun i j asleep => inv.children i j asleep.1 asleep.2.1

/-- What leaves everybody who is asleep where he is. -/
structure Calm (p p' : Proc) : Prop where
  sleeping : p'.state = .SLEEPING → p.state = .SLEEPING ∧ p'.chan = p.chan
  waiting : p'.thread = .waiting → p.thread = .waiting ∧ p'.chan = p.chan
  zombie : p'.state = .ZOMBIE → p.state = .ZOMBIE
  parent : ∀ i, p'.parent = some i → p.parent = some i

theorem Calm.refl (p : Proc) : Calm p p := by
  constructor
  case sleeping => exact fun asleep => ⟨asleep, rfl⟩
  case waiting => exact fun waits => ⟨waits, rfl⟩
  case zombie => exact fun dead => dead
  case parent => exact fun _ child => child

theorem Calm.trans {p q r : Proc} (first : Calm p q) (second : Calm q r) : Calm p r := by
  constructor
  case sleeping =>
    intro asleep
    obtain ⟨asleep, same⟩ := second.sleeping asleep
    obtain ⟨asleep, same'⟩ := first.sleeping asleep
    exact ⟨asleep, same.trans same'⟩
  case waiting =>
    intro waits
    obtain ⟨waits, same⟩ := second.waiting waits
    obtain ⟨waits, same'⟩ := first.waiting waits
    exact ⟨waits, same.trans same'⟩
  case zombie => exact fun dead => first.zombie (second.zombie dead)
  case parent => exact fun i child => first.parent i (second.parent i child)

/-- Everything but a state that is not SLEEPING or ZOMBIE is as it was. -/
theorem Calm.awake {p p' : Proc} (sleeping : p'.state ≠ .SLEEPING) (zombie : p'.state ≠ .ZOMBIE)
    (chan : p'.chan = p.chan) (thread : p'.thread = p.thread) (parent : p'.parent = p.parent) :
    Calm p p' := by
  constructor
  case sleeping => exact fun asleep => absurd asleep sleeping
  case waiting => exact fun waits => ⟨thread ▸ waits, chan⟩
  case zombie => exact fun dead => absurd dead zombie
  case parent => exact fun i child => parent ▸ child

/-- The state, the channel, the thread and the parent are as they were. -/
theorem Calm.same {p p' : Proc} (state : p'.state = p.state) (chan : p'.chan = p.chan)
    (thread : p'.thread = p.thread) (parent : p'.parent = p.parent) : Calm p p' := by
  constructor
  case sleeping => exact fun asleep => ⟨state ▸ asleep, chan⟩
  case waiting => exact fun waits => ⟨thread ▸ waits, chan⟩
  case zombie => exact fun dead => state ▸ dead
  case parent => exact fun i child => parent ▸ child

theorem calm_update (proc : Slot → Proc) (slot : Slot) (p : Proc) (calm : Calm (proc slot) p)
    (i : Slot) : Calm (proc i) (Function.update proc slot p i) :=
  Lib.Slots.update_related Calm Calm.refl proc slot p calm i

theorem Inv.of_calm {k k' : Kernel} (inv : Inv k) (calm : ∀ i, Calm (k.proc i) (k'.proc i)) :
    Inv k' := by
  constructor
  case chan =>
    intro i asleep
    obtain ⟨asleep, same⟩ := (calm i).sleeping asleep
    rw [same]
    exact inv.chan i asleep
  case waiting =>
    intro i waits
    obtain ⟨waits, same⟩ := (calm i).waiting waits
    rw [same]
    exact inv.waiting i waits
  case children =>
    intro i j asleep waits child dead
    exact inv.children i j ((calm i).sleeping asleep).1 ((calm i).waiting waits).1
      ((calm j).parent i child) ((calm j).zombie dead)

theorem Inv.withProc {k : Kernel} (inv : Inv k) (proc : Slot → Proc)
    (calm : ∀ i, Calm (k.proc i) (proc i)) : Inv { k with proc := proc } :=
  inv.of_calm calm

/-! ## Calm operations -/

theorem calm_wakeup1 (chan : Option Chan) (proc : Slot → Proc) (i : Slot) :
    Calm (proc i) (wakeup1 chan proc i) := by
  unfold wakeup1
  split
  · exact .awake (by simp) (by simp) rfl rfl rfl
  · exact Calm.refl _

theorem calm_kill (pid : Int) (proc : Slot → Proc) (i : Slot) :
    Calm (proc i) (kill pid proc i) := by
  unfold kill
  cases slots.find? fun i => decide ((proc i).pid = pid) with
  | none => exact Calm.refl _
  | some j =>
      refine calm_update proc j _ ?_ i
      by_cases asleep : (proc j).state = .SLEEPING
      · exact .awake (by simp [asleep]) (by simp [asleep]) rfl rfl rfl
      · exact .same (by simp [asleep]) rfl rfl rfl

theorem calm_sys_scheduler_start (proc : Slot → Proc) (i : Slot) :
    Calm (proc i) (sys_scheduler_start proc i) := by
  unfold sys_scheduler_start
  split
  · exact .awake (by simp) (by simp) rfl rfl rfl
  · exact Calm.refl _

theorem calm_ctrlC (proc : Slot → Proc) (i : Slot) : Calm (proc i) (ctrlC proc i) := by
  unfold ctrlC
  split
  · exact .same rfl rfl rfl rfl
  · exact Calm.refl _

theorem calm_ctrlB (k : Kernel) (i : Slot) : Calm (k.proc i) ((ctrlB k).proc i) := by
  have marked : ∀ j, Calm (k.proc j) (ctrlBMark k.proc j) := by
    intro j
    unfold ctrlBMark
    split
    · exact .same rfl rfl rfl rfl
    · exact Calm.refl _
  unfold ctrlB
  dsimp only
  split
  · exact marked i
  · rename_i sh _
    refine (marked i).trans (calm_update _ sh _ ?_ i)
    exact .awake (by simp) (by simp) rfl rfl rfl

theorem calm_scan (proc : Slot → Proc) (i : Slot) : Calm (proc i) ((scan proc).proc i) := by
  rw [(scan_scanned proc).same i]
  exact .same rfl rfl rfl rfl

/-! ## wait() and scheduler() -/

/-- The invariant, but for the channel of a process that comes back from sleep(). -/
structure Waking (k : Kernel) (cur : Slot) : Prop where
  chan : ∀ i, (k.proc i).state = .SLEEPING → (k.proc i).chan ≠ none
  waiting : ∀ i, i ≠ cur → (k.proc i).thread = .waiting → (k.proc i).chan = some (.proc i)
  children : ∀ i j, (k.proc i).state = .SLEEPING → (k.proc i).thread = .waiting →
    (k.proc j).parent = some i → (k.proc j).state ≠ .ZOMBIE

theorem Inv.waking {k : Kernel} (inv : Inv k) (cur : Slot) : Waking k cur where
  chan := inv.chan
  waiting := fun i _ => inv.waiting i
  children := inv.children

theorem calm_setThread {thread : Thread} (p : Proc) (idle : thread ≠ .waiting) :
    Calm p (setThread thread p) := by
  constructor
  case sleeping => exact fun asleep => ⟨asleep, rfl⟩
  case waiting => exact fun waits => absurd waits idle
  case zombie => exact fun dead => dead
  case parent => exact fun _ child => child

/-- The process returns from wait(). -/
theorem Waking.toUser {k : Kernel} {cur : Slot} (inv : Waking k cur) :
    Inv (k.set cur (setThread .user (k.proc cur))) := by
  have calm : ∀ i, Calm (k.proc i) ((k.set cur (setThread .user (k.proc cur))).proc i) :=
    calm_update k.proc cur _ (calm_setThread (k.proc cur) (by simp))
  constructor
  case chan =>
    intro i asleep
    obtain ⟨asleep, same⟩ := (calm i).sleeping asleep
    rw [same]
    exact inv.chan i asleep
  case waiting =>
    intro i waits
    by_cases here : i = cur
    · subst here
      rw [Kernel.set_same] at waits
      cases waits
    · rw [Kernel.set_other k _ here] at waits ⊢
      exact inv.waiting i here waits
  case children =>
    intro i j asleep waits child dead
    exact inv.children i j ((calm i).sleeping asleep).1 ((calm i).waiting waits).1
      ((calm j).parent i child) ((calm j).zombie dead)

theorem calm_reap (p : Proc) : Calm p (reap p) := by
  constructor
  case sleeping => exact fun asleep => by cases asleep
  case waiting => exact fun waits => ⟨waits, rfl⟩
  case zombie => exact fun dead => by cases dead
  case parent => exact fun _ child => by cases child

/-- The process goes to sleep in wait(), when it has no dead child. -/
theorem Waking.toSleep {k : Kernel} {cur : Slot} (inv : Waking k cur) (c : Cpu)
    (alive : ∀ j, (k.proc j).parent = some cur → (k.proc j).state ≠ .ZOMBIE) :
    Inv (sched k c cur (fallAsleep (.proc cur) .waiting (k.proc cur))) := by
  obtain ⟨p, stored⟩ : ∃ p, p = accountRun k c cur
      (fallAsleep (.proc cur) .waiting (k.proc cur)) := ⟨_, rfl⟩
  have fields : p.state = .SLEEPING ∧ p.chan = some (.proc cur) ∧
      p.parent = (k.proc cur).parent := by
    rw [stored]
    exact ⟨rfl, rfl, rfl⟩
  have proc : (sched k c cur (fallAsleep (.proc cur) .waiting (k.proc cur))).proc =
      Function.update k.proc cur p := by
    rw [stored]
    rfl
  have other : ∀ i, i ≠ cur → Function.update k.proc cur p i = k.proc i := fun i away =>
    Function.update_of_ne away _ _
  have child : ∀ i j, (Function.update k.proc cur p j).parent = some i →
      (Function.update k.proc cur p j).state = .ZOMBIE →
        (k.proc j).parent = some i ∧ (k.proc j).state = .ZOMBIE := by
    intro i j son dead
    by_cases here : j = cur
    · rw [here, Function.update_self, fields.1] at dead
      cases dead
    · rw [other j here] at son dead
      exact ⟨son, dead⟩
  constructor
  all_goals rw [proc]
  case chan =>
    intro i asleep
    by_cases here : i = cur
    · rw [here, Function.update_self, fields.2.1]
      exact Option.some_ne_none _
    · rw [other i here] at asleep ⊢
      exact inv.chan i asleep
  case waiting =>
    intro i waits
    by_cases here : i = cur
    · rw [here, Function.update_self]
      exact fields.2.1
    · rw [other i here] at waits ⊢
      exact inv.waiting i here waits
  case children =>
    intro i j asleep waits son dead
    obtain ⟨son, dead⟩ := child i j son dead
    by_cases here : i = cur
    · exact alive j (here ▸ son) dead
    · rw [other i here] at asleep waits
      exact inv.children i j asleep waits son dead

theorem waitStop_none {proc : Slot → Proc} {cur : Slot} (none_found : waitStop proc cur = none)
    (j : Slot) (child : (proc j).parent = some cur) : (proc j).state ≠ .ZOMBIE := by
  intro dead
  have every := List.find?_eq_none.mp none_found j (List.mem_finRange j)
  simp [child, dead] at every

theorem Waking.wait {k : Kernel} {cur : Slot} (inv : Waking k cur) (c : Cpu) :
    Inv (wait k c cur) := by
  unfold ProcTable.wait
  split
  · rename_i i _
    dsimp only
    split
    · exact inv.toUser.of_calm (calm_update _ i _ (calm_reap _))
    · exact inv.toUser
  · rename_i none_found
    split
    · exact inv.toUser
    · exact inv.toSleep c (waitStop_none none_found)

/-- The process that scheduler() starts is not asleep. -/
theorem dispatch_inv {k : Kernel} (inv : Inv k) (c : Cpu) (slot : Slot) :
    Inv (dispatch k c slot) := by
  have state : (startRun k.ticks (k.proc slot)).state = .RUNNING := rfl
  have calm : Calm (k.proc slot) (startRun k.ticks (k.proc slot)) :=
    .awake (by rw [state]; simp) (by rw [state]; simp) rfl rfl rfl
  exact inv.of_calm (calm_update k.proc slot _ calm)

theorem resume_state (p : Proc) : (resume p).state = p.state ∧ (resume p).parent = p.parent := by
  unfold resume
  split
  all_goals exact ⟨rfl, rfl⟩

/-- What the process in `slot` finds when its kernel thread goes on. -/
theorem resume_waking {k : Kernel} (inv : Inv k) {slot : Slot}
    (awake : (k.proc slot).state = .RUNNING) :
    Waking (k.set slot (resume (k.proc slot))) slot := by
  obtain ⟨state, parent⟩ := resume_state (k.proc slot)
  have stateEq : ∀ i, ((k.set slot (resume (k.proc slot))).proc i).state = (k.proc i).state :=
    Lib.Slots.update_observed Proc.state k.proc slot _ state
  have parentEq : ∀ i, ((k.set slot (resume (k.proc slot))).proc i).parent = (k.proc i).parent :=
    Lib.Slots.update_observed Proc.parent k.proc slot _ parent
  have away : ∀ i, ((k.set slot (resume (k.proc slot))).proc i).state = .SLEEPING →
      i ≠ slot := by
    rintro i asleep rfl
    rw [stateEq, awake] at asleep
    cases asleep
  constructor
  case chan =>
    intro i asleep
    have other := away i asleep
    rw [stateEq] at asleep
    rw [Kernel.set_other k _ other]
    exact inv.chan i asleep
  case waiting =>
    intro i other waits
    rw [Kernel.set_other k _ other] at waits ⊢
    exact inv.waiting i waits
  case children =>
    intro i j asleep waits child
    have other := away i asleep
    rw [stateEq] at asleep ⊢
    rw [parentEq] at child
    rw [Kernel.set_other k _ other] at waits
    exact inv.children i j asleep waits child

/-- A process that does not wait clears only the channel it slept on. -/
theorem Waking.idle {k : Kernel} {cur : Slot} (inv : Waking k cur)
    (idle : (k.proc cur).thread ≠ .waiting) : Inv k where
  chan := inv.chan
  waiting := by
    intro i waits
    by_cases here : i = cur
    · exact absurd (here ▸ waits) idle
    · exact inv.waiting i here waits
  children := inv.children

/-- The switch panics, or the kernel thread of the process goes on. -/
theorem switchTo_cases (k : Kernel) (slot : Slot) :
    (∃ why, switchTo k slot = { k with panic := some why }) ∨
      switchTo k slot = k.set slot (resume (k.proc slot)) := by
  unfold switchTo
  split
  · exact Or.inl ⟨_, rfl⟩
  · split
    · exact Or.inl ⟨_, rfl⟩
    · split
      · exact Or.inl ⟨_, rfl⟩
      · exact Or.inr rfl

/-- The switch into a process, with its scan if it is in wait(). -/
theorem switched_inv {k : Kernel} (inv : Inv k) (calm : k.panic = none) (c : Cpu) {slot : Slot}
    (awake : (k.proc slot).state = .RUNNING) :
    Inv (if (switchTo k slot).panic = none ∧ ((switchTo k slot).proc slot).thread = .waiting then
      wait (switchTo k slot) c slot else switchTo k slot) := by
  rcases switchTo_cases k slot with ⟨why, panicked⟩ | resumed
  · rw [panicked, if_neg (by simp)]
    exact inv.of_calm fun _ => Calm.refl _
  · have waking := resume_waking inv awake
    rw [resumed]
    split
    · exact waking.wait c
    · rename_i done
      exact waking.idle fun waits => done ⟨calm, waits⟩

theorem scheduler_inv {k : Kernel} (inv : Inv k) (calm : k.panic = none) (c : Cpu) :
    Inv (scheduler k c) := by
  have scanned : Inv { k with proc := (scan k.proc).proc } := inv.withProc _ (calm_scan k.proc)
  unfold scheduler
  cases chosen : (scan k.proc).chosen with
  | none => simpa only [chosen] using scanned
  | some slot =>
      simp only [chosen]
      generalize entry : ({ k with proc := (scan k.proc).proc } : ProcTable.Kernel) = k₁
        at scanned ⊢
      have awake : ((dispatch k₁ c slot).proc slot).state = .RUNNING := by
        simp [dispatch, startRun]
      have running : (dispatch k₁ c slot).panic = none := by
        rw [← entry]
        exact calm
      exact switched_inv (dispatch_inv scanned c slot) running c awake

/-! ## The other steps -/

/-- The record that the process leaves when it gives up the CPU. -/
theorem sched_proc (k : Kernel) (c : Cpu) (slot : Slot) (p : Proc) :
    ∃ p', (sched k c slot p).proc = Function.update k.proc slot p' ∧
      p'.state = p.state ∧ p'.chan = p.chan ∧ p'.thread = p.thread ∧ p'.parent = p.parent :=
  ⟨accountRun k c slot p, rfl, rfl, rfl, rfl, rfl⟩

theorem yield_inv {k : Kernel} (inv : Inv k) (c : Cpu) (slot : Slot) :
    Inv (sched k c slot { k.proc slot with state := .RUNNABLE }) := by
  obtain ⟨p', proc, state, chan, thread, parent⟩ :=
    sched_proc k c slot { k.proc slot with state := .RUNNABLE }
  refine inv.of_calm fun i => ?_
  rw [proc]
  exact calm_update k.proc slot p' (.awake (by simp [state]) (by simp [state])
    chan thread parent) i

/-- A process that is not in wait() goes to sleep. -/
theorem sleep_inv {k : Kernel} (inv : Inv k) (c : Cpu) (slot : Slot) (chan : Chan) :
    Inv (sched k c slot (fallAsleep chan .asleep (k.proc slot))) := by
  obtain ⟨p, proc, state, sleepsOn, thread, parent⟩ :=
    sched_proc k c slot (fallAsleep chan .asleep (k.proc slot))
  have other : ∀ i, i ≠ slot → Function.update k.proc slot p i = k.proc i := fun i away =>
    Function.update_of_ne away _ _
  constructor
  all_goals rw [proc]
  case chan =>
    intro i asleep
    by_cases here : i = slot
    · rw [here, Function.update_self, sleepsOn]
      exact Option.some_ne_none _
    · rw [other i here] at asleep ⊢
      exact inv.chan i asleep
  case waiting =>
    intro i waits
    by_cases here : i = slot
    · rw [here, Function.update_self, thread] at waits
      cases waits
    · rw [other i here] at waits ⊢
      exact inv.waiting i waits
  case children =>
    intro i j asleep waits son dead
    have away : i ≠ slot := by
      rintro rfl
      rw [Function.update_self, thread] at waits
      cases waits
    rw [other i away] at asleep waits
    by_cases here : j = slot
    · rw [here, Function.update_self, state] at dead
      cases dead
    · rw [other j here] at son dead
      exact inv.children i j asleep waits son dead

/-! ## fork() -/

/-- Calm, but that `cur` may have become the parent. -/
structure Born (cur : Slot) (p p' : Proc) : Prop where
  sleeping : p'.state = .SLEEPING → p.state = .SLEEPING ∧ p'.chan = p.chan
  waiting : p'.thread = .waiting → p.thread = .waiting ∧ p'.chan = p.chan
  zombie : p'.state = .ZOMBIE → p.state = .ZOMBIE
  parent : ∀ i, p'.parent = some i → p.parent = some i ∨ i = cur

theorem Calm.born {p p' : Proc} (calm : Calm p p') (cur : Slot) : Born cur p p' where
  sleeping := calm.sleeping
  waiting := calm.waiting
  zombie := calm.zombie
  parent := fun i child => Or.inl (calm.parent i child)

/-- The slot of a child is stored into while its parent is in fork(), not in wait(). -/
theorem Inv.of_born {k : Kernel} (inv : Inv k) {cur slot : Slot} {p : Proc}
    (busy : (k.proc cur).thread ≠ .waiting) (born : Born cur (k.proc slot) p) :
    Inv (k.set slot p) := by
  have every : ∀ i, Born cur (k.proc i) ((k.set slot p).proc i) :=
    Lib.Slots.update_related (Born cur) (fun p => (Calm.refl p).born cur) k.proc slot p born
  constructor
  case chan =>
    intro i asleep
    obtain ⟨asleep, same⟩ := (every i).sleeping asleep
    rw [same]
    exact inv.chan i asleep
  case waiting =>
    intro i waits
    obtain ⟨waits, same⟩ := (every i).waiting waits
    rw [same]
    exact inv.waiting i waits
  case children =>
    intro i j asleep waits child dead
    have waits := ((every i).waiting waits).1
    rcases (every j).parent i child with old | rfl
    · exact inv.children i j ((every i).sleeping asleep).1 waits old ((every j).zombie dead)
    · exact busy waits

theorem Inv.withThread {k : Kernel} (inv : Inv k) (cur : Slot) {thread : Thread}
    (idle : thread ≠ .waiting) : Inv (k.set cur (setThread thread (k.proc cur))) :=
  inv.of_calm (calm_update k.proc cur _ (calm_setThread _ idle))

theorem forkOn_inv {k : Kernel} (inv : Inv k) {cur : Slot} {call : ForkCall} {np : Proc}
    {thread : Thread} (busy : (k.proc cur).thread = .forking call) (idle : thread ≠ .waiting)
    (born : Born cur (k.proc call.np) np) : Inv (forkOn k cur call np thread) :=
  (inv.of_born (by simp [busy]) born).withThread cur idle

theorem forkBegin_inv {k : Kernel} (inv : Inv k) (custom : Option (Int × Int)) (cur : Slot) :
    Inv (forkBegin custom k cur) := by
  unfold forkBegin
  cases findUnused k.proc with
  | none => exact inv
  | some np =>
      have calm : Calm (k.proc np) (embryo k (k.proc np)) :=
        .awake (by simp [embryo]) (by simp [embryo]) rfl rfl rfl
      have allocated : Inv (allocproc k np) := inv.of_calm (calm_update k.proc np _ calm)
      exact allocated.withThread cur (by simp)

theorem born_allocprocStack (page : Option Page) (cur : Slot) (p : Proc) :
    Born cur p (allocprocStack page p) := by
  have calm : Calm p (allocprocStack page p) := by
    cases page with
    | none => exact .awake (by simp [allocprocStack]) (by simp [allocprocStack]) rfl rfl rfl
    | some page => exact .same rfl rfl rfl rfl
  exact calm.born cur

theorem born_copyProcess (custom : Option (Int × Int)) (page : Option Page) (cur : Slot)
    (tf : TrapFrame) (p : Proc) : Born cur p (copyProcess custom page cur tf p) := by
  cases page with
  | none =>
      have calm : Calm p (copyProcess custom none cur tf p) :=
        .awake (by simp [copyProcess]) (by simp [copyProcess]) rfl rfl rfl
      exact calm.born cur
  | some page =>
      obtain ⟨np, copied⟩ : ∃ np, np = copyProcess custom (some page) cur tf p := ⟨_, rfl⟩
      have same : np.state = p.state ∧ np.chan = p.chan ∧ np.thread = p.thread ∧
          np.parent = some cur := by
        rw [copied]
        cases custom with
        | none => exact ⟨rfl, rfl, rfl, rfl⟩
        | some asked => exact ⟨rfl, rfl, rfl, rfl⟩
      rw [← copied]
      constructor
      case sleeping => exact fun asleep => ⟨same.1 ▸ asleep, same.2.1⟩
      case waiting => exact fun waits => ⟨same.2.2.1 ▸ waits, same.2.1⟩
      case zombie => exact fun dead => same.1 ▸ dead
      case parent =>
        intro i child
        rw [same.2.2.2] at child
        exact Or.inr (Option.some.inj child).symm

theorem born_commitProcess (custom : Option (Int × Int)) (cur : Slot) (p : Proc) :
    Born cur p (commitProcess custom p) := by
  have awake : (commitProcess custom p).state ≠ .SLEEPING ∧
      (commitProcess custom p).state ≠ .ZOMBIE ∧ (commitProcess custom p).thread = .user ∧
        (commitProcess custom p).parent = p.parent := by
    unfold commitProcess
    split
    · simp
    · split
      all_goals simp
  constructor
  case sleeping => exact fun asleep => absurd asleep awake.1
  case waiting =>
    intro waits
    rw [awake.2.2.1] at waits
    cases waits
  case zombie => exact fun dead => absurd dead awake.2.1
  case parent => exact fun i child => Or.inl (awake.2.2.2 ▸ child)

/-! ## exit() -/

def DeadChild (k : Kernel) (cur : Slot) : Prop :=
  ∃ j, (k.proc j).parent = some cur ∧ (k.proc j).state = .ZOMBIE

/-- The wakeups of exit() that reach a sleeper on `chan`. -/
def Woken (k : Kernel) (cur : Slot) (chan : Option Chan) : Prop :=
  chan = (k.proc cur).parent.map .proc ∨ DeadChild k cur ∧ chan = some (.proc k.initproc)

theorem wakeup1_fields (chan : Option Chan) (proc : Slot → Proc) (i : Slot) :
    (wakeup1 chan proc i).chan = (proc i).chan ∧ (wakeup1 chan proc i).thread = (proc i).thread ∧
      (wakeup1 chan proc i).parent = (proc i).parent := by
  unfold wakeup1
  split
  all_goals exact ⟨rfl, rfl, rfl⟩

theorem wakeup1_sleeping (chan : Option Chan) (proc : Slot → Proc) (i : Slot) :
    (wakeup1 chan proc i).state = .SLEEPING ↔ (proc i).state = .SLEEPING ∧ (proc i).chan ≠ chan := by
  unfold wakeup1
  split
  · rename_i woken
    simp [woken.2]
  · rename_i stays
    grind

theorem wakeup1_zombie (chan : Option Chan) (proc : Slot → Proc) (i : Slot) :
    (wakeup1 chan proc i).state = .ZOMBIE ↔ (proc i).state = .ZOMBIE := by
  unfold wakeup1
  split
  · rename_i woken
    simp [woken.1]
  · rfl

/-- What exit() has done to the table when curproc becomes a ZOMBIE. -/
structure Notified (k : Kernel) (cur : Slot) (p p' : Proc) : Prop where
  sleeping : p'.state = .SLEEPING ↔ p.state = .SLEEPING ∧ ¬ Woken k cur p.chan
  zombie : p'.state = .ZOMBIE ↔ p.state = .ZOMBIE
  chan : p'.chan = p.chan
  thread : p'.thread = p.thread
  parent : p'.parent = if p.parent = some cur then some k.initproc else p.parent

/-- The loop of exit() over the children, when the parent has been woken. -/
theorem reparent_notified {k : Kernel} {cur : Slot} {proc : Slot → Proc}
    (zombie : ∀ i, (proc i).state = .ZOMBIE ↔ (k.proc i).state = .ZOMBIE)
    (parent : ∀ i, (proc i).parent = (k.proc i).parent) (i : Slot) :
    ((reparent cur k.initproc proc i).state = .SLEEPING ↔ (proc i).state = .SLEEPING ∧
        ¬ (DeadChild k cur ∧ (proc i).chan = some (.proc k.initproc))) ∧
      ((reparent cur k.initproc proc i).state = .ZOMBIE ↔ (proc i).state = .ZOMBIE) ∧
      (reparent cur k.initproc proc i).chan = (proc i).chan ∧
      (reparent cur k.initproc proc i).thread = (proc i).thread ∧
      (reparent cur k.initproc proc i).parent =
        if (proc i).parent = some cur then some k.initproc else (proc i).parent := by
  have dead : (slots.any fun j => decide ((proc j).parent = some cur) &&
      decide ((proc j).state = .ZOMBIE)) = true ↔ DeadChild k cur := by
    simp [DeadChild, slots, parent, zombie]
  obtain ⟨handed, entry⟩ : ∃ handed : Slot → Proc, handed = fun i =>
      if (proc i).parent = some cur then { proc i with parent := some k.initproc }
      else proc i := ⟨_, rfl⟩
  have fields : (handed i).state = (proc i).state ∧ (handed i).chan = (proc i).chan ∧
      (handed i).thread = (proc i).thread ∧ (handed i).parent =
        if (proc i).parent = some cur then some k.initproc else (proc i).parent := by
    rw [entry]
    dsimp only
    split
    all_goals exact ⟨rfl, rfl, rfl, rfl⟩
  obtain ⟨state, chan, thread, parentEq⟩ := fields
  unfold reparent
  dsimp only
  rw [← entry]
  split
  · rename_i any
    obtain ⟨chan', thread', parent'⟩ := wakeup1_fields (some (.proc k.initproc)) handed i
    rw [wakeup1_sleeping, wakeup1_zombie, chan', thread', parent', state, chan]
    exact ⟨by simp [dead.mp any], Iff.rfl, rfl, thread, parentEq⟩
  · rename_i none_dead
    have spared : ¬ DeadChild k cur := fun has => none_dead (dead.mpr has)
    rw [state]
    exact ⟨by simp [spared], Iff.rfl, chan, thread, parentEq⟩

theorem exitNotify_notified (k : Kernel) (cur i : Slot) :
    Notified k cur (k.proc i) (exitNotify k cur i) := by
  obtain ⟨finished, entry⟩ : ∃ finished, finished =
      Function.update k.proc cur { k.proc cur with finish_time := k.ticks } := ⟨_, rfl⟩
  have state : ∀ i, (finished i).state = (k.proc i).state := by
    rw [entry]
    exact Lib.Slots.update_observed Proc.state k.proc cur _ rfl
  have chan : ∀ i, (finished i).chan = (k.proc i).chan := by
    rw [entry]
    exact Lib.Slots.update_observed Proc.chan k.proc cur _ rfl
  have thread : ∀ i, (finished i).thread = (k.proc i).thread := by
    rw [entry]
    exact Lib.Slots.update_observed Proc.thread k.proc cur _ rfl
  have parent : ∀ i, (finished i).parent = (k.proc i).parent := by
    rw [entry]
    exact Lib.Slots.update_observed Proc.parent k.proc cur _ rfl
  have fields := wakeup1_fields ((k.proc cur).parent.map .proc) finished
  have zombie : ∀ i, (wakeup1 ((k.proc cur).parent.map .proc) finished i).state = .ZOMBIE ↔
      (k.proc i).state = .ZOMBIE := fun i => by
    rw [wakeup1_zombie, state]
  have parentEq : ∀ i, (wakeup1 ((k.proc cur).parent.map .proc) finished i).parent =
      (k.proc i).parent := fun i => (fields i).2.2.trans (parent i)
  obtain ⟨asleep, dead, sleepsOn, threadEq, handed⟩ :=
    @reparent_notified k cur _ zombie parentEq i
  unfold exitNotify
  dsimp only
  rw [← entry]
  constructor
  case sleeping =>
    rw [asleep, wakeup1_sleeping, (fields i).1, state, chan]
    unfold Woken
    tauto
  case zombie => exact dead.trans (zombie i)
  case chan => exact sleepsOn.trans ((fields i).1.trans (chan i))
  case thread => exact threadEq.trans ((fields i).2.1.trans (thread i))
  case parent => rw [handed, parentEq]

/-- The table when the process in `cur` has left its CPU for good. -/
structure Left (k k' : Kernel) (cur : Slot) : Prop where
  zombie : (k'.proc cur).state = .ZOMBIE
  self : (k'.proc cur).thread = (k.proc cur).thread ∧ (k'.proc cur).chan = (k.proc cur).chan
  parent : (k'.proc cur).parent =
    if (k.proc cur).parent = some cur then some k.initproc else (k.proc cur).parent
  other : ∀ i, i ≠ cur → Notified k cur (k.proc i) (k'.proc i)
  initproc : k'.initproc = k.initproc

theorem exit_left (k : Kernel) (c : Cpu) {cur : Slot} (leaves : cur ≠ k.initproc) :
    Left k (exit k c cur) cur := by
  have notified := exitNotify_notified k cur
  have exited : exit k c cur = sched { k with proc := exitNotify k cur } c cur
      { exitNotify k cur cur with state := .ZOMBIE, life := .exited } := by
    unfold ProcTable.exit
    rw [if_neg leaves]
  obtain ⟨p, proc, state, chan, thread, parent⟩ := sched_proc { k with proc := exitNotify k cur }
    c cur { exitNotify k cur cur with state := .ZOMBIE, life := .exited }
  rw [← exited] at proc
  have here : (exit k c cur).proc cur = p := by rw [proc, Function.update_self]
  constructor
  case zombie => rw [here, state]
  case self =>
    rw [here, thread, chan]
    exact ⟨(notified cur).thread, (notified cur).chan⟩
  case parent => rw [here, parent, (notified cur).parent]
  case other =>
    intro i away
    rw [proc, Function.update_of_ne away]
    exact notified i
  case initproc =>
    rw [exited]
    rfl

theorem Left.inv {k k' : Kernel} {cur : Slot} (left : Left k k' cur) (inv : Inv k)
    (guarded : (k.proc cur).parent = some cur → InWait k k.initproc → DeadChild k cur) :
    Inv k' := by
  have away : ∀ i, (k'.proc i).state = .SLEEPING → i ≠ cur := by
    rintro i asleep rfl
    rw [left.zombie] at asleep
    cases asleep
  constructor
  case chan =>
    intro i asleep
    have notified := left.other i (away i asleep)
    rw [notified.chan]
    exact inv.chan i (notified.sleeping.mp asleep).1
  case waiting =>
    intro i waits
    by_cases here : i = cur
    · subst here
      rw [left.self.1] at waits
      rw [left.self.2]
      exact inv.waiting i waits
    · have notified := left.other i here
      rw [notified.thread] at waits
      rw [notified.chan]
      exact inv.waiting i waits
  case children =>
    intro i j asleep waits child dead
    have notified := left.other i (away i asleep)
    rw [notified.thread] at waits
    obtain ⟨asleep, unwoken⟩ := notified.sleeping.mp asleep
    have chan := inv.waiting i waits
    rw [chan] at unwoken
    -- Whoever is still asleep is not the parent, and not init with a dead child.
    have stranger : (k.proc cur).parent ≠ some i := by
      intro parent
      exact unwoken (Or.inl (by rw [parent]; rfl))
    have noneDead : i = k.initproc → ¬ DeadChild k cur := by
      rintro rfl has
      exact unwoken (Or.inr ⟨has, rfl⟩)
    by_cases here : j = cur
    · subst here
      rw [left.parent] at child
      split at child
      · rename_i own
        obtain rfl := Option.some.inj child
        exact noneDead rfl (guarded own ⟨asleep, waits, chan⟩)
      · exact stranger child
    · have son := left.other j here
      rw [son.parent] at child
      rw [son.zombie] at dead
      split at child
      · rename_i orphan
        exact noneDead (Option.some.inj child).symm ⟨j, orphan, dead⟩
      · exact inv.children i j asleep waits child dead

/-- A process that is its own parent is handed to init, which nobody wakes. -/
theorem Left.guarded {k k' : Kernel} {cur : Slot} (left : Left k k' cur)
    (good : NoLostWakeup k') (leaves : cur ≠ k.initproc) (own : (k.proc cur).parent = some cur)
    (sleeps : InWait k k.initproc) : DeadChild k cur := by
  obtain ⟨asleep, waits, chan⟩ := sleeps
  by_contra spared
  have notified := left.other k.initproc leaves.symm
  have unwoken : ¬ Woken k cur (k.proc k.initproc).chan := by
    rw [chan]
    rintro (parent | ⟨has, _⟩)
    · rw [own] at parent
      exact leaves (Chan.proc.inj (Option.some.inj parent)).symm
    · exact spared has
  have still : InWait k' k.initproc :=
    ⟨notified.sleeping.mpr ⟨asleep, unwoken⟩, notified.thread.trans waits,
      notified.chan.trans chan⟩
  have child : (k'.proc cur).parent = some k.initproc := by rw [left.parent, if_pos own]
  exact good.children k.initproc cur still child left.zombie

/-! ## Ctrl-F -/

theorem ctrlF_shell (proc : Slot → Proc) (i : Slot) (shell : (proc i).pid = 2) :
    ctrlF proc i = { proc i with state := .SLEEPING } := by
  unfold ctrlF
  rw [if_neg (by omega), if_pos shell]

/-- Ctrl-F leaves alone everything but the states. -/
structure Resumed (p p' : Proc) : Prop where
  chan : p'.chan = p.chan
  thread : p'.thread = p.thread
  parent : p'.parent = p.parent
  zombie : p'.state = .ZOMBIE ↔ Stays p
  sleeping : p'.state = .SLEEPING → p.state = .SLEEPING ∨ p.pid = 2

theorem ctrlF_resumed (proc : Slot → Proc) (i : Slot) : Resumed (proc i) (ctrlF proc i) := by
  unfold ctrlF
  split
  · rename_i marked
    exact ⟨rfl, rfl, rfl, by simp [Stays, marked], by simp⟩
  · rename_i unmarked
    split
    · rename_i shell
      exact ⟨rfl, rfl, rfl, by simp [Stays, shell], fun _ => Or.inr shell⟩
    · rename_i other
      exact ⟨rfl, rfl, rfl, by simp [Stays, other, unmarked], Or.inl⟩

theorem ctrlF_inv {k : Kernel} (inv : Inv k) (guarded : WakeSafe k .ctrlF) :
    Inv { k with proc := ctrlF k.proc } := by
  have resumed := ctrlF_resumed k.proc
  constructor
  all_goals dsimp only
  case chan =>
    intro i asleep
    rw [(resumed i).chan]
    rcases (resumed i).sleeping asleep with before | shell
    · exact inv.chan i before
    · rcases guarded i shell with before | ⟨chan, _⟩
      · exact inv.chan i before
      · exact chan
  case waiting =>
    intro i waits
    rw [(resumed i).thread] at waits
    rw [(resumed i).chan]
    exact inv.waiting i waits
  case children =>
    intro i j asleep waits child dead
    rw [(resumed i).thread] at waits
    rw [(resumed j).parent] at child
    have stays := (resumed j).zombie.mp dead
    have fromSleep : (k.proc i).state = .SLEEPING → False := fun before =>
      inv.children i j before waits child stays.1
    rcases (resumed i).sleeping asleep with before | shell
    · exact fromSleep before
    · rcases guarded i shell with before | ⟨_, childless⟩
      · exact fromSleep before
      · exact childless waits j child stays

theorem ctrlF_guarded {k : Kernel} (inv : Inv k)
    (good : NoLostWakeup { k with proc := ctrlF k.proc }) : WakeSafe k .ctrlF := by
  intro i shell
  have resumed := ctrlF_resumed k.proc
  have asleep : (ctrlF k.proc i).state = .SLEEPING := by rw [ctrlF_shell k.proc i shell]
  refine Or.inr ⟨?_, fun waits j child stays => ?_⟩
  · rw [← (resumed i).chan]
    exact good.chan i asleep
  · have still : InWait { k with proc := ctrlF k.proc } i :=
      ⟨asleep, (resumed i).thread.trans waits, (resumed i).chan.trans (inv.waiting i waits)⟩
    exact good.children i j still ((resumed j).parent.trans child) ((resumed j).zombie.mpr stays)

/-! ## Every step, every run -/

theorem Inv.setSig {k : Kernel} (inv : Inv k) (slot : Slot) (f : SigState → SigState) :
    Inv (k.set slot (setSig f (k.proc slot))) := by
  have calm : Calm (k.proc slot) (Kernel.setSig f (k.proc slot)) := .same rfl rfl rfl rfl
  exact inv.of_calm (calm_update k.proc slot _ calm)

theorem step_inv (k : Kernel) (e : Event) (next : Kernel) (inv : Inv k) (safe : WakeSafe k e)
    (taken : step k e = some next) : Inv next := by
  obtain ⟨calm, taken⟩ := step_some taken
  cases e with
  | schedule c =>
      simp only [act, Option.ite_none_right_eq_some, Option.some.injEq] at taken
      obtain ⟨_, rfl⟩ := taken
      exact scheduler_inv inv calm c
  | tick =>
      simp only [act] at taken
      cases Option.some.inj taken
      exact inv.of_calm (calm_wakeup1 _ k.proc)
  | yield c =>
      simp only [act] at taken
      obtain ⟨p, _, _, rfl⟩ := onCpu_some taken
      exact yield_inv inv c p
  | fork c custom =>
      simp only [act] at taken
      obtain ⟨p, _, _, rfl⟩ := onCpu_some taken
      exact forkBegin_inv inv custom p
  | forkStack c page =>
      simp only [act] at taken
      obtain ⟨p, call, _, busy, _, rfl⟩ := inFork_some taken
      exact forkOn_inv inv busy (by split <;> simp) (born_allocprocStack page p _)
  | forkCopy c page =>
      simp only [act] at taken
      obtain ⟨p, call, _, busy, _, rfl⟩ := inFork_some taken
      exact forkOn_inv inv busy (by split <;> simp) (born_copyProcess call.custom page p _ _)
  | forkCommit c =>
      simp only [act] at taken
      obtain ⟨p, call, _, busy, _, rfl⟩ := inFork_some taken
      exact forkOn_inv inv busy (by simp) (born_commitProcess call.custom p _)
  | exit c =>
      simp only [act] at taken
      obtain ⟨p, current, _, rfl⟩ := onCpu_some taken
      by_cases init : p = k.initproc
      · unfold ProcTable.exit
        rw [if_pos init]
        exact inv.of_calm fun _ => Calm.refl _
      · exact (exit_left k c init).inv inv fun own => safe p current init own
  | wait c =>
      simp only [act] at taken
      obtain ⟨p, _, _, rfl⟩ := onCpu_some taken
      exact (inv.waking p).wait c
  | sleep c chan =>
      simp only [act] at taken
      obtain ⟨p, _, _, rfl⟩ := onCpu_some taken
      exact sleep_inv inv c p chan
  | wakeup chan =>
      simp only [act] at taken
      cases Option.some.inj taken
      exact inv.withProc _ (calm_wakeup1 chan k.proc)
  | kill c pid =>
      simp only [act] at taken
      obtain ⟨p, _, _, rfl⟩ := onCpu_some taken
      exact inv.withProc _ (calm_kill pid k.proc)
  | schedulerStart c =>
      simp only [act] at taken
      obtain ⟨p, _, _, rfl⟩ := onCpu_some taken
      exact inv.withProc _ (calm_sys_scheduler_start k.proc)
  | signal c handler =>
      simp only [act] at taken
      obtain ⟨p, _, _, rfl⟩ := ownStore_some taken
      exact inv.setSig p _
  | sigreturn c =>
      simp only [act] at taken
      obtain ⟨p, _, _, rfl⟩ := ownStore_some taken
      exact inv.setSig p _
  | sigretFault c =>
      simp only [act] at taken
      obtain ⟨p, _, _, rfl⟩ := ownStore_some taken
      exact inv.setSig p _
  | deliver c kalloc =>
      simp only [act] at taken
      obtain ⟨p, _, _, rfl⟩ := ownStore_some taken
      exact inv.setSig p _
  | ctrlC =>
      simp only [act] at taken
      cases onKey_some taken
      exact inv.withProc _ (calm_ctrlC k.proc)
  | ctrlB =>
      simp only [act] at taken
      cases onKey_some taken
      exact inv.of_calm (calm_ctrlB k)
  | ctrlBWake =>
      simp only [act] at taken
      cases found : k.shellWake with
      | none => simp [found] at taken
      | some sh =>
          simp only [found, Option.some.injEq] at taken
          subst taken
          exact inv.of_calm (calm_wakeup1 _ k.proc)
  | ctrlF =>
      simp only [act] at taken
      cases onKey_some taken
      exact ctrlF_inv inv safe
  | ctrlG c =>
      simp only [act] at taken
      obtain ⟨p, _, _, rfl⟩ := ownStore_some taken
      exact inv.setSig p _

/-- An unguarded Ctrl-F or exit() loses a wakeup at once. -/
theorem step_guarded (k : Kernel) (e : Event) (next : Kernel) (inv : Inv k)
    (taken : step k e = some next) (good : NoLostWakeup next) : WakeSafe k e := by
  obtain ⟨_, taken⟩ := step_some taken
  cases e with
  | ctrlF =>
      simp only [act] at taken
      cases onKey_some taken
      exact ctrlF_guarded inv good
  | exit c =>
      simp only [act] at taken
      obtain ⟨p, current, _, rfl⟩ := onCpu_some taken
      intro q on leaves own sleeps
      rw [current] at on
      obtain rfl := Option.some.inj on
      exact (exit_left k c leaves).guarded good leaves own sleeps
  | _ => trivial

theorem boot_inv : Inv boot := by
  have first : boot.proc zeroed.initproc = userinit := by simp [boot]
  have others : ∀ p, p ≠ zeroed.initproc → boot.proc p = {} :=
    fun p other => Kernel.set_other zeroed userinit other
  have idle : ∀ i, (boot.proc i).state ≠ .SLEEPING ∧ (boot.proc i).thread ≠ .waiting := by
    intro i
    by_cases same : i = zeroed.initproc
    · rw [same, first]
      exact ⟨by simp [userinit], by simp [userinit, allocprocStack, embryo, zeroed]⟩
    · rw [others i same]
      exact ⟨by simp, by simp⟩
  constructor
  case chan => exact fun i asleep => absurd asleep (idle i).1
  case waiting => exact fun i waits => absurd waits (idle i).2
  case children => exact fun i _ asleep => absurd asleep (idle i).1

instance inWaitDecidable (k : Kernel) (i : Slot) : Decidable (InWait k i) :=
  inferInstanceAs (Decidable ((k.proc i).state = .SLEEPING ∧ (k.proc i).thread = .waiting ∧
    (k.proc i).chan = some (.proc i)))

instance staysDecidable (p : Proc) : Decidable (Stays p) :=
  inferInstanceAs (Decidable (p.state = .ZOMBIE ∧ p.pid ≠ 2 ∧ ¬ (p.pid > 2 ∧ p.b = 1)))

instance wakeSafeDecidable (k : Kernel) (e : Event) : Decidable (WakeSafe k e) :=
  match e with
  | .ctrlF => inferInstanceAs (Decidable (∀ i, (k.proc i).pid = 2 → (k.proc i).state = .SLEEPING ∨
      (k.proc i).chan ≠ none ∧
        ((k.proc i).thread = .waiting →
          ∀ j, (k.proc j).parent = some i → ¬ Stays (k.proc j))))
  | .exit c => inferInstanceAs (Decidable (∀ p, k.cpu c = some p → p ≠ k.initproc →
      (k.proc p).parent = some p → InWait k k.initproc →
        ∃ j, (k.proc j).parent = some p ∧ (k.proc j).state = .ZOMBIE))
  | .schedule _ | .tick | .yield _ | .fork _ _ | .forkStack _ _ | .forkCopy _ _ | .forkCommit _
  | .wait _ | .sleep _ _ | .wakeup _ | .kill _ _ | .schedulerStart _ | .signal _ _ | .sigreturn _
  | .sigretFault _ | .deliver _ _ | .ctrlC | .ctrlB | .ctrlBWake | .ctrlG _ =>
      inferInstanceAs (Decidable True)

/-- No wakeup is lost in any state of a run exactly when no Ctrl-F puts to sleep a process
that nobody will wake, and no process that is its own parent is handed to a sleeping init. -/
theorem no_lost_wakeup (es : List Event) (final : Kernel) (ran : run step boot es = some final) :
    Always step NoLostWakeup boot es ↔ Guarded step WakeSafe boot es :=
  always_iff_guarded step (fun _ inv => inv.noLostWakeup) step_inv step_guarded es boot final
    boot_inv ran

/-- The shell sleeps in wait() when Ctrl-F is pressed. -/
def resumeRun : List Event := Dispatch.jobRun ++ [.sleep cpu0 (.addr 1), .ctrlF]

theorem resumeRun_completes : (run step boot resumeRun).isSome = true := by decide +kernel

theorem resumeRun_no_lost_wakeup : Always step NoLostWakeup boot resumeRun :=
  (no_lost_wakeup resumeRun _ (Option.some_get resumeRun_completes).symm).mpr
    (by decide +kernel)

/-- The job exits, which makes the shell RUNNABLE, and Ctrl-F is pressed before the shell has
run. -/
def lostRun : List Event := Dispatch.jobRun ++ [.exit cpu0, .ctrlF]

/-- The shell sleeps in wait() and its child is a ZOMBIE. -/
theorem lostRun_loses : ¬ ∀ (es : List Event) (k : Kernel), run step boot es = some k →
    NoLostWakeup k := by
  have lost : (run step boot lostRun).any (fun k => slots.any fun i => slots.any fun j =>
      decide (InWait k i) && (decide ((k.proc j).parent = some i) &&
        decide ((k.proc j).state = .ZOMBIE))) = true := by
    decide +kernel
  intro safe
  obtain ⟨k, ran, lost⟩ := (Option.any_eq_true _ _).mp lost
  obtain ⟨i, _, lost⟩ := List.any_eq_true.mp lost
  obtain ⟨j, _, lost⟩ := List.any_eq_true.mp lost
  simp only [Bool.and_eq_true, decide_eq_true_eq] at lost
  exact (safe lostRun k ran).children i j lost.1 lost.2.1 lost.2.2

end Xv6.Public2.Wakeups
