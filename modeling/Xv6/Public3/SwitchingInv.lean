import Mathlib.Tactic.Common
import Xv6.Public3.ReapingRuns
import Xv6.Public3.Switching

/-!
# Who holds ptable.lock (proc.c of xv6-public_3)

What holds between any two steps of the CPUs: who has the lock and in how many pushcli()
each CPU is, which process is on which CPU, and what the context of a process that is on
none will go on with.
-/

set_option autoImplicit false

namespace Xv6.Public3.Switching

open Xv6.Public3.ExitWait

/-! ## The table that the lock protects -/

def Point.left : Point → Bool
  | .leaving _ => true
  | _ => false

/-- The process table as if no lock were there: a process has left its CPU when its state
has changed. -/
def view (m : Machine) : Kernel :=
  { m.kernel with
    cpu := fun c => if (m.core c).point.left = true then none else m.kernel.cpu c
    panicked := m.panicked.isSome }

/-! ## The invariant -/

/-- The interrupt flag and the depth at each point. -/
def Level (r : Core) : Prop :=
  match r.point with
  | .outside => r.interrupts = true → r.ncli = 0
  | .inside (.sleep _) => r.interrupts = false ∧ r.ncli = 2
  | .inside _ | .leaving _ | .scan _ => r.interrupts = false ∧ r.ncli = 1
  | .waking _ | .done => r.interrupts = false ∧ 0 < r.ncli

/-- A thread that will go on in `caller` when sched() returns. -/
def Suits (thread : Thread) : Caller → Prop
  | .yield => thread ≠ .asleep ∧ thread ≠ .waiting
  | .sleep => thread = .asleep
  | .wait => thread = .waiting
  | .exit => False

/-- A process in sched(). -/
def Left (p : Proc) : Caller → Prop
  | .exit => p.state = .ZOMBIE
  | .yield => p.state = .RUNNABLE ∧ Suits p.thread .yield
  | .sleep => p.state = .SLEEPING ∧ Suits p.thread .sleep
  | .wait => p.state = .SLEEPING ∧ Suits p.thread .wait

/-- The process that may be in the call `call`. -/
def Ready (k : Kernel) (p : Slot) : Call → Prop
  | .yield => True
  | .exit => (k.proc p).thread = .user ∧ p ≠ k.initproc
  | .wait | .sleep _ | .kill _ | .allocproc => (k.proc p).thread = .user
  | .fork => ∃ np, (k.proc p).thread = .forking np .copied

def Who (k : Kernel) (current : Option Slot) : Point → Prop
  | .outside | .waking _ | .done => True
  | .inside call => ∃ p, current = some p ∧ Ready k p call
  | .leaving caller => ∃ p, current = some p ∧ Left (k.proc p) caller
  | .scan _ => current = none

structure At (m : Machine) (c : Cpu) : Prop where
  held : m.lock = some c ↔ (m.core c).point ≠ .outside
  level : Level (m.core c)
  who : Who m.kernel (m.kernel.cpu c) (m.core c).point

/-- The process can be chosen or woken. -/
def Off (p : Proc) : Prop := p.state = .SLEEPING ∨ p.state = .RUNNABLE

def Resumes (thread : Thread) : Context → Prop
  | .forkret => Suits thread .yield
  | .sched _ caller => Suits thread caller

structure Threads (m : Machine) : Prop where
  running : ∀ p, (m.kernel.proc p).state = .RUNNING →
    (∃ c, m.kernel.cpu c = some p) ∧ Suits (m.kernel.proc p).thread .yield
  saved : ∀ p, Off (m.kernel.proc p) → (∀ c, m.kernel.cpu c ≠ some p) →
    Resumes (m.kernel.proc p).thread (m.context p)
  embryo : ∀ p np stage, (m.kernel.proc p).thread = .forking np stage →
    (m.kernel.proc np).thread = .user ∧ (stage ≠ .allocated → m.context np = .forkret)

/-- The same of everybody but `cur`. -/
structure Others (m : Machine) (cur : Slot) : Prop where
  running : ∀ p, p ≠ cur → (m.kernel.proc p).state = .RUNNING →
    (∃ c, m.kernel.cpu c = some p) ∧ Suits (m.kernel.proc p).thread .yield
  saved : ∀ p, p ≠ cur → Off (m.kernel.proc p) → (∀ c, m.kernel.cpu c ≠ some p) →
    Resumes (m.kernel.proc p).thread (m.context p)
  embryo : ∀ p np stage, (m.kernel.proc p).thread = .forking np stage →
    (m.kernel.proc np).thread = .user ∧ (stage ≠ .allocated → m.context np = .forkret)

theorem Threads.others {m : Machine} (threads : Threads m) (cur : Slot) : Others m cur :=
  ⟨fun p _ => threads.running p, fun p _ => threads.saved p, threads.embryo⟩

structure Inv (m : Machine) : Prop where
  table : ExitWait.Inv (view m)
  quiet : m.panicked = none
  places : ∀ c, At m c
  threads : Threads m

/-! ## What a stretch under the lock does -/

/-- What a step of another process may do to a process with the context `x`. -/
structure Turned (x : Context) (p p' : Proc) : Prop where
  running : p'.state = .RUNNING → p.state = .RUNNING ∧ p'.thread = p.thread
  off : Off p' → Off p ∧ p'.thread = p.thread ∨ x = .forkret ∧ p'.thread = .user
  user : p.thread = .user → p'.thread = .user
  forking : ∀ np stage, p'.thread = .forking np stage → p.thread = .forking np stage
  living : phase p.state = .living → phase p'.state = .living

/-- A change of the state only, to one in which the process can be chosen if it could. -/
theorem Turned.of_state {x : Context} {p p' : Proc} (thread : p'.thread = p.thread)
    (running : p'.state = .RUNNING → p.state = .RUNNING) (off : Off p' → Off p)
    (living : phase p.state = .living → phase p'.state = .living) : Turned x p p' where
  running := fun r => ⟨running r, thread⟩
  off := fun o => Or.inl ⟨off o, thread⟩
  user := fun user => thread.trans user
  forking := fun _ _ busy => thread ▸ busy
  living := living

theorem Turned.refl (x : Context) (p : Proc) : Turned x p p := .of_state rfl id id id

theorem Turned.trans {x : Context} {p p' p'' : Proc} (first : Turned x p p')
    (second : Turned x p' p'') : Turned x p p'' where
  running := by
    intro running
    obtain ⟨running, same⟩ := second.running running
    obtain ⟨running, same'⟩ := first.running running
    exact ⟨running, same.trans same'⟩
  off := by
    intro off
    rcases second.off off with ⟨off, same⟩ | fresh
    · rcases first.off off with ⟨off, same'⟩ | ⟨fresh, user⟩
      · exact Or.inl ⟨off, same.trans same'⟩
      · exact Or.inr ⟨fresh, same.trans user⟩
    · exact Or.inr fresh
  user := fun user => second.user (first.user user)
  forking := fun np stage busy => first.forking np stage (second.forking np stage busy)
  living := fun living => second.living (first.living living)

theorem Turned.gone {x : Context} {p p' : Proc} (thread : p'.thread = p.thread)
    (gone : p'.state = .UNUSED) (dead : phase p.state ≠ .living) : Turned x p p' := by
  refine .of_state thread (fun running => ?_) (fun off => ?_) fun living => absurd living dead
  · rw [gone] at running
    cases running
  · rcases off with off | off
    all_goals rw [gone] at off; cases off

theorem turned_wakeup1 (x : Context) (chan : Option Chan) (proc : Slot → Proc) (i : Slot) :
    Turned x (proc i) (wakeup1 chan proc i) := by
  unfold wakeup1
  split
  · rename_i asleep
    exact .of_state rfl (fun running => by cases running) (fun _ => Or.inl asleep.1) fun _ => rfl
  · exact .refl x _

theorem turned_kill (x : Context) (pid : Int) (proc : Slot → Proc) (i : Slot) :
    Turned x (proc i) (kill pid proc i) := by
  rcases kill_cases pid proc i with same | same | ⟨asleep, same⟩
  · rw [same]
    exact .refl x _
  · rw [same]
    exact .of_state rfl id id id
  · rw [same]
    exact .of_state rfl (fun running => by cases running) (fun _ => Or.inl asleep) fun _ => rfl

theorem turned_reparent (x : Context) (cur init : Slot) (proc : Slot → Proc) (i : Slot) :
    Turned x (proc i) (reparent cur init proc i) := by
  have handed : Turned x (proc i)
      (if (proc i).parent = some cur then { proc i with parent := some init } else proc i) := by
    split
    · exact .of_state rfl id id id
    · exact .refl x _
  unfold reparent
  dsimp only
  split
  · have woken := turned_wakeup1 x (some (.proc init)) (fun i =>
      if (proc i).parent = some cur then { proc i with parent := some init } else proc i) i
    exact handed.trans woken
  · exact handed

/-- How a stretch under the lock ends for the process that CPU `r` is in. -/
inductive Ends (r : Core) (p : Proc) : Prop
  | done (point : r.point = .done) (running : p.state = .RUNNING)
      (awake : Suits p.thread .yield)
  | left (caller : Caller) (point : r.point = .leaving caller) (left : Left p caller)

/-- A stretch by `cur` on CPU `c`. -/
structure Did (m : Machine) (c : Cpu) (cur : Slot) (m' : Machine) : Prop where
  lock : m'.lock = m.lock
  quiet : m'.panicked = m.panicked
  others : ∀ d, d ≠ c → m'.core d = m.core d
  cpu : m'.kernel.cpu = m.kernel.cpu
  context : m'.context = m.context
  turned : ∀ i, i ≠ cur → Turned (m.context i) (m.kernel.proc i) (m'.kernel.proc i)
  mine : ∀ np stage, (m'.kernel.proc cur).thread = .forking np stage →
    (m'.kernel.proc np).thread = .user ∧ (stage ≠ .allocated → m.context np = .forkret)
  level : Level (m'.core c)
  ends : Ends (m'.core c) (m'.kernel.proc cur)

theorem Others.turned {m m' : Machine} {c : Cpu} {cur : Slot} (others : Others m cur)
    (current : m.kernel.cpu c = some cur) (cpu : m'.kernel.cpu = m.kernel.cpu)
    (context : ∀ i, i ≠ cur → Off (m.kernel.proc i) → m'.context i = m.context i)
    (turned : ∀ i, i ≠ cur → Turned (m'.context i) (m.kernel.proc i) (m'.kernel.proc i))
    (awake : (m'.kernel.proc cur).state = .RUNNING → Suits (m'.kernel.proc cur).thread .yield)
    (mine : ∀ np stage, (m'.kernel.proc cur).thread = .forking np stage →
      (m'.kernel.proc np).thread = .user ∧ (stage ≠ .allocated → m'.context np = .forkret))
    (theirs : ∀ q np stage, q ≠ cur → (m.kernel.proc q).thread = .forking np stage →
      np ≠ cur ∧ (m.context np = .forkret → m'.context np = .forkret)) : Threads m' := by
  constructor
  case running =>
    intro p running
    rw [cpu]
    by_cases here : p = cur
    · subst here
      exact ⟨⟨c, current⟩, awake running⟩
    · obtain ⟨before, same⟩ := (turned p here).running running
      rw [same]
      exact others.running p here before
  case saved =>
    intro p off away
    rw [cpu] at away
    have here : p ≠ cur := by
      rintro rfl
      exact away c current
    rcases (turned p here).off off with ⟨off, same⟩ | ⟨fresh, user⟩
    · rw [same, context p here off]
      exact others.saved p here off away
    · rw [fresh, user]
      exact ⟨Thread.noConfusion, Thread.noConfusion⟩
  case embryo =>
    intro q np stage busy
    by_cases here : q = cur
    · exact mine np stage (here ▸ busy)
    · have before := (turned q here).forking np stage busy
      obtain ⟨user, fresh⟩ := others.embryo q np stage before
      obtain ⟨away, kept⟩ := theirs q np stage here before
      exact ⟨(turned np away).user user, fun later => kept (fresh later)⟩

/-! ## Each call under the lock -/

section Calls

variable {m : Machine} {c : Cpu} {cur : Slot}

theorem did_store {k : Kernel} {r : Core} (cpu : k.cpu = m.kernel.cpu)
    (turned : ∀ i, i ≠ cur → Turned (m.context i) (m.kernel.proc i) (k.proc i))
    (mine : ∀ np stage, (k.proc cur).thread = .forking np stage →
      (k.proc np).thread = .user ∧ (stage ≠ .allocated → m.context np = .forkret))
    (level : Level r) (ends : Ends r (k.proc cur)) :
    Did m c cur ((m.store k).setCore c r) where
  lock := rfl
  quiet := rfl
  others := fun d away => Function.update_of_ne away _ _
  cpu := cpu
  context := rfl
  turned := turned
  mine := mine
  level := by
    have core : ((m.store k).setCore c r).core c = r := Function.update_self ..
    rwa [core]
  ends := by
    have core : ((m.store k).setCore c r).core c = r := Function.update_self ..
    rwa [core]

theorem goto_core (m : Machine) (c : Cpu) (point : Point) :
    (m.goto c point).core c = { m.core c with point := point } := Function.update_self ..

theorem setCore_goto (m : Machine) (c : Cpu) (point : Point) (r : Core) :
    (m.goto c point).setCore c r = m.setCore c r := by
  simp [Machine.goto, Machine.setCore]

theorem popcli_eq {m : Machine} {c : Cpu} {n : Nat} (off : (m.core c).interrupts = false)
    (depth : (m.core c).ncli = n + 1) : popcli m c = m.setCore c { m.core c with
      ncli := n
      interrupts := decide (n = 0) && (m.core c).intena } := by
  unfold popcli Core.popcli
  rw [off, if_neg Bool.false_ne_true, depth]

/-- A stretch that changes only the process and ends at the release() or in sched(). -/
theorem did_set {p : Proc} {r : Core} (level : Level r) (ends : Ends r p)
    (idle : ∀ np stage, p.thread = .forking np stage → np ≠ cur ∧
      (m.kernel.proc np).thread = .user ∧ (stage ≠ .allocated → m.context np = .forkret)) :
    Did m c cur ((m.store (m.kernel.set cur p)).setCore c r) := by
  have here : (m.kernel.set cur p).proc cur = p := Function.update_self ..
  have there : ∀ i, i ≠ cur → (m.kernel.set cur p).proc i = m.kernel.proc i :=
    fun i away => Function.update_of_ne away _ _
  refine did_store rfl (fun i away => ?_) (fun np stage busy => ?_) level ?_
  · rw [there i away]
    exact .refl _ _
  · rw [here] at busy
    obtain ⟨away, fresh⟩ := idle np stage busy
    rwa [there np away]
  · rwa [here]

/-- wait() returns: only `cur` and a zombie have changed. -/
theorem did_waitReturn {k : Kernel} {ret : Int} (cpu : k.cpu = m.kernel.cpu)
    (same : k.proc cur = m.kernel.proc cur)
    (turned : ∀ i, i ≠ cur → Turned (m.context i) (m.kernel.proc i) (k.proc i))
    (level : (m.core c).interrupts = false ∧ (m.core c).ncli = 1)
    (running : (m.kernel.proc cur).state = .RUNNING) :
    Did m c cur ((m.store (waitReturn k cur ret)).goto c .done) := by
  have here : (waitReturn k cur ret).proc cur = setThread .user (m.kernel.proc cur) := by
    rw [← same]
    exact Function.update_self ..
  refine did_store cpu (fun i away => ?_) (fun np stage busy => ?_) ?_ ?_
  · have there : (waitReturn k cur ret).proc i = k.proc i := Function.update_of_ne away _ _
    rw [there]
    exact turned i away
  · rw [here] at busy
    cases busy
  · exact ⟨level.1, level.2 ▸ Nat.one_pos⟩
  · rw [here]
    exact .done rfl running ⟨Thread.noConfusion, Thread.noConfusion⟩

theorem suits_user {thread : Thread} (user : thread = .user) : Suits thread .yield := by
  rw [user]
  exact ⟨Thread.noConfusion, Thread.noConfusion⟩

theorem did_wait (level : (m.core c).interrupts = false ∧ (m.core c).ncli = 1)
    (running : (m.kernel.proc cur).state = .RUNNING) : Did m c cur (wait m c cur) := by
  unfold wait
  dsimp only
  cases found : waitStop m.kernel.proc cur with
  | some i =>
      have dead := (waitStop_some found).2
      have apart : cur ≠ i := by
        rintro rfl
        rw [running] at dead
        cases dead
      refine did_waitReturn rfl (Function.update_of_ne apart _ _) (fun j away => ?_) level running
      by_cases here : j = i
      · subst here
        have reaped : (m.kernel.set j (reap (m.kernel.proc j))).proc j = reap (m.kernel.proc j) :=
          Function.update_self ..
        rw [reaped]
        refine .gone rfl rfl ?_
        rw [dead]
        exact Lib.Families.Phase.noConfusion
      · have kept : (m.kernel.set i (reap (m.kernel.proc i))).proc j = m.kernel.proc j :=
          Function.update_of_ne here _ _
        rw [kept]
        exact .refl _ _
  | none =>
      dsimp only
      split
      · exact did_waitReturn rfl rfl (fun i _ => .refl _ _) level running
      · refine did_set level (.left .wait rfl ⟨rfl, rfl⟩) fun np stage busy => ?_
        cases busy

theorem zombie_eq (k : Kernel) (cur : Slot) : (zombie k cur).proc = Function.update
    (reparent cur k.initproc (wakeup1 ((k.proc cur).parent.map .proc) k.proc)) cur
    { reparent cur k.initproc (wakeup1 ((k.proc cur).parent.map .proc) k.proc) cur with
      state := .ZOMBIE } := rfl

theorem did_exit (level : (m.core c).interrupts = false ∧ (m.core c).ncli = 1)
    (user : (m.kernel.proc cur).thread = .user) :
    Did m c cur ((m.store (zombie m.kernel cur)).goto c (.leaving .exit)) := by
  have turned := fun i => (turned_wakeup1 (m.context i)
    ((m.kernel.proc cur).parent.map .proc) m.kernel.proc i).trans
      (turned_reparent (m.context i) cur m.kernel.initproc _ i)
  refine did_store rfl (fun i away => ?_) (fun np stage busy => ?_) level ?_
  · rw [zombie_eq, Function.update_of_ne away]
    exact turned i
  · rw [zombie_eq, Function.update_self] at busy
    have before := (turned cur).forking np stage busy
    rw [user] at before
    cases before
  · rw [zombie_eq, Function.update_self]
    exact .left .exit rfl rfl

theorem did_table {k : Kernel} (cpu : k.cpu = m.kernel.cpu)
    (turned : ∀ i, Turned (m.context i) (m.kernel.proc i) (k.proc i))
    (level : (m.core c).interrupts = false ∧ (m.core c).ncli = 1)
    (running : (k.proc cur).state = .RUNNING)
    (user : (m.kernel.proc cur).thread = .user) : Did m c cur ((m.store k).goto c .done) := by
  refine did_store cpu (fun i _ => turned i) (fun np stage busy => ?_)
    ⟨level.1, level.2 ▸ Nat.one_pos⟩ (.done rfl running (suits_user ((turned cur).user user)))
  have before := (turned cur).forking np stage busy
  rw [user] at before
  cases before

theorem did_kill (pid : Int) (level : (m.core c).interrupts = false ∧ (m.core c).ncli = 1)
    (running : (m.kernel.proc cur).state = .RUNNING)
    (user : (m.kernel.proc cur).thread = .user) :
    Did m c cur
      ((m.store { m.kernel with proc := kill pid m.kernel.proc }).goto c .done) := by
  refine did_table rfl (fun i => turned_kill _ pid _ i) level ?_ user
  rcases kill_cases pid m.kernel.proc cur with same | same | ⟨asleep, _⟩
  · exact (congrArg Proc.state same).trans running
  · exact (congrArg Proc.state same).trans running
  · rw [running] at asleep
    cases asleep

theorem forkOn_here {k : Kernel} {cur np : Slot} (apart : np ≠ cur) (p : Proc) (thread : Thread) :
    (forkOn k cur np p thread).proc cur = setThread thread (k.proc cur) ∧
      (forkOn k cur np p thread).proc np = p := by
  simp [forkOn, Kernel.set, apart, apart.symm]

theorem forkOn_turned {k : Kernel} {cur np : Slot} {p : Proc} {thread : Thread}
    {context : Slot → Context} (apart : np ≠ cur) (child : Turned (context np) (k.proc np) p)
    (i : Slot) (away : i ≠ cur) :
    Turned (context i) (k.proc i) ((forkOn k cur np p thread).proc i) := by
  by_cases here : i = np
  · subst here
    rw [(forkOn_here apart p thread).2]
    exact child
  · have same : (forkOn k cur np p thread).proc i = k.proc i := by
      simp [forkOn, Kernel.set, here, away]
    rw [same]
    exact .refl _ _

/-- A stretch of fork() under the lock. -/
theorem did_forkOn {k : Kernel} {np : Slot} {p : Proc} {thread : Thread}
    (cpu : k.cpu = m.kernel.cpu) (proc : k.proc = (forkOn m.kernel cur np p thread).proc)
    (apart : np ≠ cur) (child : Turned (m.context np) (m.kernel.proc np) p)
    (level : (m.core c).interrupts = false ∧ (m.core c).ncli = 1)
    (running : (m.kernel.proc cur).state = .RUNNING)
    (awake : Suits thread .yield)
    (mine : ∀ n stage, thread = .forking n stage → n = np ∧ p.thread = .user ∧
      stage = .allocated) : Did m c cur ((m.store k).goto c .done) := by
  obtain ⟨here, there⟩ := @forkOn_here m.kernel cur np apart p thread
  refine did_store cpu (fun i away => ?_) (fun n stage busy => ?_)
    ⟨level.1, level.2 ▸ Nat.one_pos⟩ (.done rfl ?_ ?_)
  · rw [proc]
    exact forkOn_turned apart child i away
  · rw [proc, here] at busy
    obtain ⟨rfl, user, first⟩ := mine n stage busy
    rw [proc, there]
    exact ⟨user, fun later => absurd first later⟩
  · rw [proc, here]
    exact running
  · rw [proc, here]
    exact awake

theorem did_allocproc (level : (m.core c).interrupts = false ∧ (m.core c).ncli = 1)
    (running : (m.kernel.proc cur).state = .RUNNING) (user : (m.kernel.proc cur).thread = .user) :
    Did m c cur ((m.store (allocproc m.kernel cur)).goto c .done) := by
  unfold allocproc
  cases found : findUnused m.kernel.proc with
  | none => exact did_table rfl (fun i => .refl _ _) level running user
  | some np =>
      have unused := findUnused_some found
      have apart : np ≠ cur := by
        rintro rfl
        rw [running] at unused
        cases unused
      refine did_forkOn rfl rfl apart ?_ level running
        ⟨Thread.noConfusion, Thread.noConfusion⟩ fun n stage busy => ?_
      · constructor
        case running => exact fun running => by cases running
        case off => exact fun off => by rcases off with off | off <;> cases off
        case user => exact fun _ => rfl
        case forking => exact fun n stage busy => by cases busy
        case living => exact fun living => by rw [unused] at living; cases living
      · cases busy
        exact ⟨rfl, rfl, rfl⟩

theorem did_fork {np : Slot} (threads : Threads m) (apart : np ≠ cur)
    (busy : (m.kernel.proc cur).thread = .forking np .copied)
    (level : (m.core c).interrupts = false ∧ (m.core c).ncli = 1)
    (running : (m.kernel.proc cur).state = .RUNNING) :
    Did m c cur ((m.store (forkCommit m.kernel cur np)).goto c .done) := by
  obtain ⟨user, fresh⟩ := threads.embryo cur np .copied busy
  refine did_forkOn rfl rfl apart ?_ level running (suits_user rfl) fun n stage busy => by
    cases busy
  constructor
  case running => exact fun running => by cases running
  case off => exact fun _ => Or.inr ⟨fresh ForkStage.noConfusion, user⟩
  case user => exact fun _ => user
  case forking =>
    intro n stage born
    rw [user] at born
    cases born
  case living => exact fun _ => rfl

/-- sleep() with the other lock released. -/
theorem sleep_eq (chan : Chan) (level : (m.core c).interrupts = false ∧ (m.core c).ncli = 2) :
    body m c cur (.sleep chan) =
      (m.store (m.kernel.set cur (fallAsleep chan .asleep (m.kernel.proc cur)))).setCore c
        { m.core c with point := .leaving .sleep, ncli := 1, interrupts := false } := by
  let k := m.kernel.set cur (fallAsleep chan .asleep (m.kernel.proc cur))
  have core := goto_core (m.store k) c (.leaving .sleep)
  have depth : (((m.store k).goto c (.leaving .sleep)).core c).ncli = 1 + 1 :=
    (congrArg Core.ncli core).trans level.2
  have popped := popcli_eq ((congrArg Core.interrupts core).trans level.1) depth
  rw [body, popped, core, setCore_goto]
  rfl

theorem did_sleep (chan : Chan) (level : (m.core c).interrupts = false ∧ (m.core c).ncli = 2) :
    Did m c cur (body m c cur (.sleep chan)) := by
  rw [sleep_eq chan level]
  refine did_set ⟨rfl, rfl⟩ (.left .sleep rfl ⟨rfl, rfl⟩) fun np stage busy => ?_
  cases busy

/-- What CPU `c` does for the process that is in `call`. -/
theorem did_body {call : Call} (threads : Threads m)
    (point : (m.core c).point = .inside call) (level : Level (m.core c))
    (ready : Ready m.kernel cur call) (running : (m.kernel.proc cur).state = .RUNNING) :
    Did m c cur (body m c cur call) := by
  unfold Level at level
  rw [point] at level
  cases call with
  | yield =>
      refine did_set level (.left .yield rfl ⟨rfl, (threads.running cur running).2⟩)
        fun np stage busy => ?_
      obtain ⟨user, fresh⟩ := threads.embryo cur np stage busy
      refine ⟨?_, user, fresh⟩
      rintro rfl
      rw [user] at busy
      cases busy
  | exit => exact did_exit level ready.1
  | wait => exact did_wait level running
  | sleep chan => exact did_sleep chan level
  | kill pid => exact did_kill pid level running ready
  | allocproc => exact did_allocproc level running ready
  | fork =>
      obtain ⟨np, busy⟩ := ready
      obtain ⟨user, fresh⟩ := threads.embryo cur np .copied busy
      have apart : np ≠ cur := by
        rintro rfl
        rw [user] at busy
        cases busy
      have commits : commit m.kernel cur = forkCommit m.kernel cur np := by
        rw [commit, busy]
      rw [body, commits]
      exact did_fork threads apart busy level running

theorem Did.of_core {m' : Machine} {r : Core} (did : Did (m.setCore c r) c cur m') :
    Did m c cur m' where
  lock := did.lock
  quiet := did.quiet
  others := fun d away => (did.others d away).trans (Function.update_of_ne away _ _)
  cpu := did.cpu
  context := did.context
  turned := did.turned
  mine := did.mine
  level := did.level
  ends := did.ends

/-- A process that has slept in wait() goes on with its next pass. -/
theorem did_waking {p : Proc} (level : (m.core c).interrupts = false ∧ (m.core c).ncli = 1)
    (running : p.state = .RUNNING) :
    Did m c cur (wait (m.store (m.kernel.set cur p)) c cur) := by
  have here : (m.kernel.set cur p).proc cur = p := Function.update_self ..
  have did := @did_wait (m.store (m.kernel.set cur p)) c cur level
    ((congrArg Proc.state here).trans running)
  refine { did with turned := fun i away => ?_ }
  have there : (m.kernel.set cur p).proc i = m.kernel.proc i := Function.update_of_ne away _ _
  rw [← there]
  exact did.turned i away

/-- What a process does when scheduler() has chosen it. -/
theorem did_resumed (level : (m.core c).interrupts = false ∧ (m.core c).ncli = 1)
    (running : (m.kernel.proc cur).state = .RUNNING)
    (saved : Resumes (m.kernel.proc cur).thread (m.context cur))
    (embryo : ∀ np stage, (m.kernel.proc cur).thread = .forking np stage →
      (m.kernel.proc np).thread = .user ∧ (stage ≠ .allocated → m.context np = .forkret)) :
    Did m c cur (resumed m c cur) := by
  unfold resumed
  cases context : m.context cur with
  | forkret =>
      rw [context] at saved
      exact did_store rfl (fun i _ => .refl _ _) embryo ⟨level.1, level.2 ▸ Nat.one_pos⟩
        (.done rfl running saved)
  | sched intena caller =>
      rw [context] at saved
      dsimp only
      have core : (m.setCore c { m.core c with intena := intena }).core c =
          { m.core c with intena := intena } := Function.update_self ..
      have level' : ((m.setCore c { m.core c with intena := intena }).core c).interrupts = false ∧
          ((m.setCore c { m.core c with intena := intena }).core c).ncli = 1 := by
        rwa [core]
      have positive : 0 < ((m.setCore c { m.core c with intena := intena }).core c).ncli :=
        level'.2 ▸ Nat.one_pos
      apply Did.of_core
      cases caller with
      | yield =>
          exact did_store rfl (fun i _ => .refl _ _) embryo ⟨level'.1, positive⟩
            (.done rfl running saved)
      | sleep =>
          refine did_set ⟨level'.1, positive⟩ (.done rfl running (suits_user rfl))
            fun np stage busy => ?_
          cases busy
      | wait => exact did_waking level' running
      | exit => exact saved.elim

end Calls

end Xv6.Public3.Switching
