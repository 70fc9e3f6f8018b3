import Mathlib.Tactic.Common
import Xv6.Lib.Families
import Xv6.Lib.Slots
import Xv6.Public3.ExitWait

/-!
# Who waits for whom (proc.c of xv6-public_3)

The process table as a family: every step of the kernel is a step of the family
or leaves it alone.  With the order in which exit() and wait() wake and look it
follows that every process that has exited is reaped by exactly one wait().
-/

set_option autoImplicit false

namespace Xv6.Public3.ExitWait

open Xv6.Lib.Families (Family Member Phase)
open Xv6.Lib.Runs

/-! ## The family of a process table -/

def phase : ProcState → Phase
  | .UNUSED => .free
  | .EMBRYO => .embryo
  | .SLEEPING | .RUNNABLE | .RUNNING => .living
  | .ZOMBIE => .zombie

def member (p : Proc) : Member Slot := { phase := phase p.state, pid := p.pid, parent := p.parent }

/-- A wait() that returns -1 reaps nobody. -/
def report : Report → Option (Lib.Families.Report Slot)
  | .exited pid => some (.exited pid)
  | .waited caller ret => if ret = -1 then none else some (.reaped caller ret)

def family (k : Kernel) : Family Slot where
  member := fun i => member (k.proc i)
  nextpid := k.nextpid
  log := k.log.filterMap report

theorem phase_free {s : ProcState} : phase s = .free ↔ s = .UNUSED := by
  cases s <;> simp [phase]

theorem phase_embryo {s : ProcState} : phase s = .embryo ↔ s = .EMBRYO := by
  cases s <;> simp [phase]

theorem phase_zombie {s : ProcState} : phase s = .zombie ↔ s = .ZOMBIE := by
  cases s <;> simp [phase]

/-! ## The invariant -/

structure Cpus (k : Kernel) : Prop where
  running : ∀ c p, k.cpu c = some p → (k.proc p).state = .RUNNING
  single : ∀ c d p, k.cpu c = some p → k.cpu d = some p → c = d

/-- The slot of an unfinished fork() by `p`. -/
structure Half (p : Slot) (stage : ForkStage) (np : Proc) : Prop where
  state : np.state = .EMBRYO
  parent : np.parent = if stage = .copied then some p else none

structure Forks (k : Kernel) : Prop where
  forking : ∀ p np stage, (k.proc p).thread = .forking np stage →
    phase (k.proc p).state = .living ∧ Half p stage (k.proc np)
  owner : ∀ p q np stage stage', (k.proc p).thread = .forking np stage →
    (k.proc q).thread = .forking np stage' → p = q

/-- The process is asleep in wait(). -/
def InWait (k : Kernel) (i : Slot) : Prop :=
  (k.proc i).state = .SLEEPING ∧ (k.proc i).thread = .waiting

structure Waits (k : Kernel) : Prop where
  chan : ∀ i, InWait k i → (k.proc i).chan = some (.proc i)
  children : ∀ i j, InWait k i → (k.proc j).parent = some i → (k.proc j).state ≠ .ZOMBIE

structure Inv (k : Kernel) : Prop where
  family : Lib.Families.Inv k.initproc (family k)
  cpus : Cpus k
  forks : Forks k
  waits : Waits k

/-- What a step keeps besides the family. -/
structure Kept (k k' : Kernel) : Prop where
  init : k'.initproc = k.initproc
  cpus : Cpus k'
  forks : Forks k'
  waits : Waits k'

/-- The kalloc() or the copyuvm() of a fork() into the slot `np` fails. -/
def FailedFork (k : Kernel) (e : Event) (np : Slot) : Prop :=
  ∃ c p, k.cpu c = some p ∧
    ((k.proc p).thread = .forking np .allocated ∧ e = .forkStack c false ∨
      (k.proc p).thread = .forking np .stacked ∧ e = .forkCopy c false)

/-- What a step does to the family and to the log. -/
inductive Moved (k : Kernel) (e : Event) (k' : Kernel) : Prop
  | stays (same : family k' = family k) (log : k'.log = k.log)
  | fails (cur : Slot) (same : family k' = family k)
      (log : k'.log = k.log ++ [.waited cur (-1)])
      (why : (∀ i, (k.proc i).parent ≠ some cur) ∨ (k.proc cur).killed = true)
  | allocates (np : Slot) (free : (k.proc np).state = .UNUSED)
      (grows : family k' = (family k).allocate np)
      (log : k'.log = k.log)
  | abandons (np : Slot) (failed : FailedFork k e np) (embryo : (k.proc np).state = .EMBRYO)
      (orphan : (k.proc np).parent = none)
      (shrinks : family k' = (family k).set np { (family k).member np with phase := .free })
      (log : k'.log = k.log)
  | adopts (np cur : Slot) (embryo : (k.proc np).state = .EMBRYO)
      (orphan : (k.proc np).parent = none) (living : phase (k.proc cur).state = .living)
      (adopted : family k' = (family k).set np { (family k).member np with parent := some cur })
      (log : k'.log = k.log)
  | commits (np : Slot) (embryo : (k.proc np).state = .EMBRYO)
      (child : (k.proc np).parent ≠ none)
      (born : family k' = (family k).set np { (family k).member np with phase := .living })
      (log : k'.log = k.log)
  | exits (cur : Slot) (living : phase (k.proc cur).state = .living) (other : cur ≠ k.initproc)
      (leaves : family k' = (family k).leave k.initproc cur)
      (log : k'.log = k.log ++ [.exited (k.proc cur).pid])
  | reaps (cur i : Slot) (zombie : (k.proc i).state = .ZOMBIE)
      (child : (k.proc i).parent = some cur) (gone : family k' = (family k).reap cur i)
      (log : k'.log = k.log ++ [.waited cur (k.proc i).pid])

theorem Moved.family {k k' : Kernel} {e : Event} (moved : Moved k e k')
    (inv : Lib.Families.Inv k.initproc (family k)) :
    Lib.Families.Inv k.initproc (ExitWait.family k') := by
  cases moved with
  | stays same _ => rwa [same]
  | fails _ same _ _ => rwa [same]
  | allocates np free grows _ =>
      rw [grows]
      exact Lib.Families.allocate_inv inv (phase_free.mpr free)
  | abandons np _ embryo orphan shrinks _ =>
      rw [shrinks]
      exact Lib.Families.abandon_inv inv (phase_embryo.mpr embryo) orphan
  | adopts np cur embryo _ living adopted _ =>
      rw [adopted]
      exact Lib.Families.adopt_inv inv (phase_embryo.mpr embryo) living
  | commits np embryo child born _ =>
      rw [born]
      exact Lib.Families.commit_inv inv (phase_embryo.mpr embryo) child
  | exits cur living other leaves _ =>
      rw [leaves]
      exact Lib.Families.leave_inv inv living other
  | reaps cur i zombie child gone _ =>
      rw [gone]
      exact Lib.Families.reap_inv inv (phase_zombie.mpr zombie) child

/-- The operation keeps the invariant, and the family takes a step or none. -/
structure Steps (k : Kernel) (e : Event) (k' : Kernel) : Prop extends Kept k k' where
  moved : Moved k e k'

theorem Steps.inv {k k' : Kernel} {e : Event} (steps : Steps k e k') (inv : Inv k) : Inv k' where
  family := by
    rw [steps.init]
    exact steps.moved.family inv.family
  cpus := steps.cpus
  forks := steps.forks
  waits := steps.waits

/-! ## Processors -/

theorem Cpus.of_same {k k' : Kernel} (cpus : Cpus k) (same : k'.cpu = k.cpu)
    (running : ∀ i, (k.proc i).state = .RUNNING → (k'.proc i).state = .RUNNING) : Cpus k' := by
  constructor
  all_goals rw [same]
  case running => exact fun c p on => running p (cpus.running c p on)
  case single => exact cpus.single

/-- The process in `slot` leaves CPU `c`; nobody else is touched. -/
theorem Cpus.leave {k k' : Kernel} (cpus : Cpus k) {c : Cpu} {slot : Slot}
    (current : k.cpu c = some slot) (left : k'.cpu = Function.update k.cpu c none)
    (running : ∀ i, i ≠ slot → (k.proc i).state = .RUNNING → (k'.proc i).state = .RUNNING) :
    Cpus k' := by
  have still : ∀ d p, k'.cpu d = some p → d ≠ c ∧ k.cpu d = some p := by
    intro d p on
    rw [left] at on
    by_cases here : d = c
    · rw [here, Function.update_self] at on
      cases on
    · rw [Function.update_of_ne here] at on
      exact ⟨here, on⟩
  constructor
  case running =>
    intro d p on
    obtain ⟨away, on⟩ := still d p on
    refine running p ?_ (cpus.running d p on)
    rintro rfl
    exact away (cpus.single d c p on current)
  case single =>
    intro d e p left right
    exact cpus.single d e p (still d p left).2 (still e p right).2

/-- A process that is on no CPU goes on CPU `c`. -/
theorem Cpus.enter {k k' : Kernel} (cpus : Cpus k) {c : Cpu} {slot : Slot}
    (off : (k.proc slot).state ≠ .RUNNING)
    (entered : k'.cpu = Function.update k.cpu c (some slot))
    (state : (k'.proc slot).state = .RUNNING)
    (running : ∀ i, i ≠ slot → (k.proc i).state = .RUNNING → (k'.proc i).state = .RUNNING) :
    Cpus k' := by
  have on : ∀ d p, k'.cpu d = some p → d = c ∧ p = slot ∨ d ≠ c ∧ p ≠ slot ∧ k.cpu d = some p := by
    intro d p on
    rw [entered] at on
    by_cases here : d = c
    · rw [here, Function.update_self] at on
      exact Or.inl ⟨here, (Option.some.inj on).symm⟩
    · rw [Function.update_of_ne here] at on
      refine Or.inr ⟨here, ?_, on⟩
      rintro rfl
      exact off (cpus.running d p on)
  constructor
  case running =>
    intro d p there
    rcases on d p there with ⟨_, rfl⟩ | ⟨_, away, before⟩
    · exact state
    · exact running p away (cpus.running d p before)
  case single =>
    intro d e p left right
    rcases on d p left with ⟨rfl, rfl⟩ | ⟨_, away, before⟩
    · rcases on e p right with ⟨rfl, _⟩ | ⟨_, away, _⟩
      · rfl
      · exact absurd rfl away
    · rcases on e p right with ⟨_, rfl⟩ | ⟨_, _, before'⟩
      · exact absurd rfl away
      · exact cpus.single d e p before before'

/-! ## Unfinished forks -/

/-- Nobody has begun a fork(), and those who are in one are left alone with their slots. -/
theorem Forks.of_kept {k k' : Kernel} (forks : Forks k)
    (thread : ∀ p np stage, (k'.proc p).thread = .forking np stage →
      (k.proc p).thread = .forking np stage)
    (living : ∀ p np stage, (k.proc p).thread = .forking np stage →
      phase (k.proc p).state = .living → phase (k'.proc p).state = .living)
    (half : ∀ p np stage, (k.proc p).thread = .forking np stage →
      Half p stage (k.proc np) → Half p stage (k'.proc np)) : Forks k' := by
  constructor
  case forking =>
    intro p np stage busy
    have before := thread p np stage busy
    obtain ⟨alive, halfway⟩ := forks.forking p np stage before
    exact ⟨living p np stage before alive, half p np stage before halfway⟩
  case owner =>
    intro p q np stage stage' left right
    exact forks.owner p q np stage stage' (thread p np stage left) (thread q np stage' right)

/-- One stretch of a fork() that `cur` is in. -/
theorem Forks.stretch {k : Kernel} (forks : Forks k) {cur np : Slot} {p : Proc} {thread : Thread}
    (mine : ∀ q stage, (k.proc q).thread = .forking np stage → q = cur)
    (living : phase (k.proc cur).state = .living) (apart : np ≠ cur)
    (busy : ∀ n stage, (k.proc np).thread ≠ .forking n stage)
    (idle : ∀ n stage, p.thread ≠ .forking n stage)
    (next : ∀ n stage, thread = .forking n stage → n = np ∧ Half cur stage p) :
    Forks (forkOn k cur np p thread) := by
  have here : (forkOn k cur np p thread).proc cur = setThread thread (k.proc cur) := by
    simp [forkOn, Kernel.set, apart.symm]
  have there : (forkOn k cur np p thread).proc np = p := by
    simp [forkOn, Kernel.set, apart]
  have other : ∀ q, q ≠ cur → q ≠ np → (forkOn k cur np p thread).proc q = k.proc q := by
    intro q away away'
    simp [forkOn, Kernel.set, away, away']
  have back : ∀ q n stage, ((forkOn k cur np p thread).proc q).thread = .forking n stage →
      q = cur ∧ n = np ∨ q ≠ cur ∧ q ≠ np ∧ (k.proc q).thread = .forking n stage := by
    intro q n stage forking
    by_cases first : q = cur
    · subst first
      rw [here] at forking
      exact Or.inl ⟨rfl, (next n stage forking).1⟩
    · by_cases second : q = np
      · subst second
        rw [there] at forking
        exact absurd forking (idle n stage)
      · rw [other q first second] at forking
        exact Or.inr ⟨first, second, forking⟩
  constructor
  case forking =>
    intro q n stage forking
    rcases back q n stage forking with ⟨rfl, rfl⟩ | ⟨away, away', before⟩
    · rw [here] at forking ⊢
      rw [there]
      exact ⟨living, (next n stage forking).2⟩
    · obtain ⟨alive, half⟩ := forks.forking q n stage before
      have elsewhere : n ≠ np := by
        rintro rfl
        exact away (mine q stage before)
      have awake : n ≠ cur := by
        rintro rfl
        rw [half.state] at living
        cases living
      rw [other q away away', other n awake elsewhere]
      exact ⟨alive, half⟩
  case owner =>
    intro q r n stage stage' left right
    rcases back q n stage left with ⟨rfl, rfl⟩ | ⟨_, _, before⟩
    · rcases back r n stage' right with ⟨rfl, _⟩ | ⟨_, _, before'⟩
      · rfl
      · exact (mine r stage' before').symm
    · rcases back r n stage' right with ⟨rfl, rfl⟩ | ⟨_, _, before'⟩
      · exact mine q stage before
      · exact forks.owner q r n stage stage' before before'

/-! ## Sleepers -/

/-- What leaves everybody who is asleep in wait() where he is. -/
structure Calm (p p' : Proc) : Prop where
  sleeping : p'.state = .SLEEPING → p'.thread = .waiting →
    p.state = .SLEEPING ∧ p.thread = .waiting ∧ p'.chan = p.chan
  zombie : p'.state = .ZOMBIE → p.state = .ZOMBIE
  parent : ∀ i, p'.parent = some i → p.parent = some i

theorem Calm.refl (p : Proc) : Calm p p :=
  ⟨fun asleep waits => ⟨asleep, waits, rfl⟩, fun dead => dead, fun _ child => child⟩

theorem Waits.of_calm {k k' : Kernel} (waits : Waits k)
    (calm : ∀ i, Calm (k.proc i) (k'.proc i)) : Waits k' := by
  constructor
  case chan =>
    intro i asleep
    obtain ⟨before, waited, same⟩ := (calm i).sleeping asleep.1 asleep.2
    rw [same]
    exact waits.chan i ⟨before, waited⟩
  case children =>
    intro i j asleep child dead
    obtain ⟨before, waited, _⟩ := (calm i).sleeping asleep.1 asleep.2
    exact waits.children i j ⟨before, waited⟩ ((calm j).parent i child) ((calm j).zombie dead)

/-! ## Steps that leave the family alone -/

theorem family_same {k k' : Kernel} (same : ∀ i, member (k'.proc i) = member (k.proc i))
    (nextpid : k'.nextpid = k.nextpid) (log : k'.log.filterMap report = k.log.filterMap report) :
    family k' = family k := by
  unfold family
  rw [nextpid, log]
  congr 1
  exact funext same

/-- What leaves a process where it is in its family and in its fork(). -/
structure Same (p p' : Proc) : Prop where
  member : member p' = member p
  thread : ∀ np stage, p'.thread = .forking np stage → p.thread = .forking np stage

/-- Besides it is not put to sleep in wait(). -/
structure Quiet (p p' : Proc) : Prop extends Same p p' where
  sleeping : p'.state = .SLEEPING → p'.thread = .waiting →
    p.state = .SLEEPING ∧ p.thread = .waiting ∧ p'.chan = p.chan

theorem Same.refl (p : Proc) : Same p p := ⟨rfl, fun _ _ busy => busy⟩

theorem Quiet.refl (p : Proc) : Quiet p p :=
  ⟨Same.refl p, fun asleep waits => ⟨asleep, waits, rfl⟩⟩

theorem Same.phase_eq {p p' : Proc} (same : Same p p') : phase p'.state = phase p.state :=
  congrArg Member.phase same.member

theorem Same.parent_eq {p p' : Proc} (same : Same p p') : p'.parent = p.parent :=
  congrArg Member.parent same.member

theorem Same.zombie {p p' : Proc} (same : Same p p') (dead : p'.state = .ZOMBIE) :
    p.state = .ZOMBIE :=
  phase_zombie.mp (same.phase_eq ▸ phase_zombie.mpr dead)

theorem Quiet.calm {p p' : Proc} (quiet : Quiet p p') : Calm p p' where
  sleeping := quiet.sleeping
  zombie := quiet.zombie
  parent := fun _ child => quiet.parent_eq ▸ child

theorem same_update (proc : Slot → Proc) (slot : Slot) (p : Proc) (same : Same (proc slot) p)
    (i : Slot) : Same (proc i) (Function.update proc slot p i) :=
  Lib.Slots.update_related Same Same.refl proc slot p same i

theorem quiet_update (proc : Slot → Proc) (slot : Slot) (p : Proc) (quiet : Quiet (proc slot) p)
    (i : Slot) : Quiet (proc i) (Function.update proc slot p i) :=
  Lib.Slots.update_related Quiet Quiet.refl proc slot p quiet i

theorem Forks.of_same {k k' : Kernel} (forks : Forks k)
    (same : ∀ i, Same (k.proc i) (k'.proc i)) : Forks k' := by
  refine forks.of_kept (fun p np stage => (same p).thread np stage) ?_ ?_
  · intro p np stage _ living
    exact (same p).phase_eq.trans living
  · intro p np stage _ half
    have embryo := phase_embryo.mpr half.state
    rw [← (same np).phase_eq] at embryo
    exact ⟨phase_embryo.mp embryo, (same np).parent_eq.trans half.parent⟩

theorem Inv.of_same {k k' : Kernel} {e : Event} (inv : Inv k) (cpus : Cpus k')
    (init : k'.initproc = k.initproc) (nextpid : k'.nextpid = k.nextpid)
    (log : k'.log = k.log) (same : ∀ i, Same (k.proc i) (k'.proc i)) (waits : Waits k') :
    Steps k e k' where
  init := init
  cpus := cpus
  forks := inv.forks.of_same same
  waits := waits
  moved := .stays (family_same (fun i => (same i).member) nextpid (by rw [log])) log

theorem Inv.of_quiet {k k' : Kernel} {e : Event} (inv : Inv k) (cpus : Cpus k')
    (init : k'.initproc = k.initproc) (nextpid : k'.nextpid = k.nextpid)
    (log : k'.log = k.log) (quiet : ∀ i, Quiet (k.proc i) (k'.proc i)) : Steps k e k' :=
  inv.of_same cpus init nextpid log (fun i => (quiet i).toSame)
    (inv.waits.of_calm fun i => (quiet i).calm)

/-- A process that was SLEEPING is RUNNABLE. -/
theorem quiet_wake {p p' : Proc} (asleep : p.state = .SLEEPING) (awake : p'.state = .RUNNABLE)
    (pid : p'.pid = p.pid) (parent : p'.parent = p.parent) (thread : p'.thread = p.thread) :
    Quiet p p' where
  member := by
    unfold ExitWait.member
    rw [awake, asleep, pid, parent]
    rfl
  thread := fun _ _ busy => thread ▸ busy
  sleeping := by
    intro still
    rw [awake] at still
    cases still

theorem quiet_wakeup1 (chan : Option Chan) (proc : Slot → Proc) (i : Slot) :
    Quiet (proc i) (wakeup1 chan proc i) := by
  unfold wakeup1
  split
  · rename_i woken
    exact quiet_wake woken.1 rfl rfl rfl rfl
  · exact Quiet.refl _

theorem running_wakeup1 (chan : Option Chan) (proc : Slot → Proc) (i : Slot)
    (running : (proc i).state = .RUNNING) : (wakeup1 chan proc i).state = .RUNNING := by
  unfold wakeup1
  rw [if_neg (by simp [running])]
  exact running

theorem wakeup_steps {k : Kernel} (inv : Inv k) (e : Event) (chan : Option Chan) :
    Steps k e { k with proc := wakeup1 chan k.proc } :=
  inv.of_quiet (inv.cpus.of_same rfl (running_wakeup1 chan k.proc)) rfl rfl rfl
    (quiet_wakeup1 chan k.proc)

/-- What kill() does to the slot it finds. -/
theorem kill_cases (pid : Int) (proc : Slot → Proc) (i : Slot) :
    kill pid proc i = proc i ∨ kill pid proc i = { proc i with killed := true } ∨
      (proc i).state = .SLEEPING ∧
        kill pid proc i = { proc i with killed := true, state := .RUNNABLE } := by
  unfold kill
  cases slots.find? fun i => decide ((proc i).pid = pid) with
  | none => exact Or.inl rfl
  | some j =>
      by_cases here : i = j
      · subst here
        by_cases asleep : (proc i).state = .SLEEPING
        · exact Or.inr (Or.inr ⟨asleep, by simp [asleep]⟩)
        · exact Or.inr (Or.inl (by simp [asleep]))
      · exact Or.inl (Function.update_of_ne here _ _)

theorem kill_steps {k : Kernel} (inv : Inv k) (e : Event) (pid : Int) :
    Steps k e { k with proc := kill pid k.proc } := by
  have quiet : ∀ i, Quiet (k.proc i) (kill pid k.proc i) := by
    intro i
    rcases kill_cases pid k.proc i with same | marked | ⟨asleep, woken⟩
    · rw [same]
      exact Quiet.refl _
    · rw [marked]
      exact ⟨⟨rfl, fun _ _ busy => busy⟩, fun asleep waits => ⟨asleep, waits, rfl⟩⟩
    · rw [woken]
      exact quiet_wake asleep rfl rfl rfl rfl
  have running : ∀ i, (k.proc i).state = .RUNNING → (kill pid k.proc i).state = .RUNNING := by
    intro i before
    rcases kill_cases pid k.proc i with same | marked | ⟨asleep, _⟩
    · rwa [same]
    · rwa [marked]
    · rw [before] at asleep
      cases asleep
  exact inv.of_quiet (inv.cpus.of_same rfl running) rfl rfl rfl quiet

theorem Cpus.sched {k : Kernel} (cpus : Cpus k) {c : Cpu} {slot : Slot}
    (current : k.cpu c = some slot) (p : Proc) : Cpus (sched k c slot p) := by
  refine cpus.leave current rfl fun i away running => ?_
  simp only [ExitWait.sched, Kernel.set, Function.update_of_ne away]
  exact running

/-- The process on CPU `c` leaves it, RUNNABLE or SLEEPING. -/
theorem sched_steps {k : Kernel} (inv : Inv k) (e : Event) {c : Cpu} {slot : Slot} {p : Proc}
    (current : k.cpu c = some slot) (quiet : Quiet (k.proc slot) p) :
    Steps k e (sched k c slot p) :=
  inv.of_quiet (inv.cpus.sched current p) rfl rfl rfl (quiet_update k.proc slot p quiet)

theorem yield_steps {k : Kernel} (inv : Inv k) (e : Event) {c : Cpu} {slot : Slot}
    (current : k.cpu c = some slot) :
    Steps k e (sched k c slot { k.proc slot with state := .RUNNABLE }) := by
  have running := inv.cpus.running c slot current
  refine sched_steps inv e current ⟨⟨?_, fun _ _ busy => busy⟩, ?_⟩
  · simp [member, running, phase]
  · intro asleep
    cases asleep

/-- What sleep() stores leaves a process where it is in its family. -/
theorem same_fallAsleep {p : Proc} (running : p.state = .RUNNING) (chan : Chan)
    {thread : Thread} (idle : ∀ np stage, thread ≠ .forking np stage) :
    Same p (fallAsleep chan thread p) where
  member := by simp [ExitWait.member, fallAsleep, running, phase]
  thread := fun np stage busy => absurd busy (idle np stage)

theorem sleep_steps {k : Kernel} (inv : Inv k) (e : Event) {c : Cpu} {slot : Slot}
    (current : k.cpu c = some slot) (chan : Chan) :
    Steps k e (sched k c slot (fallAsleep chan .asleep (k.proc slot))) := by
  have running := inv.cpus.running c slot current
  refine sched_steps inv e current ⟨same_fallAsleep running chan (by simp), ?_⟩
  intro _ waits
  cases waits

/-! ## wait() -/

theorem quiet_user (p : Proc) : Quiet p (setThread .user p) where
  member := rfl
  thread := fun _ _ busy => by cases busy
  sleeping := fun _ waits => by cases waits

theorem quiet_waitReturn (k : Kernel) (slot : Slot) (ret : Int) (i : Slot) :
    Quiet (k.proc i) ((waitReturn k slot ret).proc i) :=
  quiet_update k.proc slot _ (quiet_user _) i

theorem Cpus.waitReturn {k : Kernel} (cpus : Cpus k) (slot : Slot) (ret : Int) :
    Cpus (waitReturn k slot ret) := by
  refine cpus.of_same rfl fun i running => ?_
  rw [← Lib.Slots.update_observed Proc.state k.proc slot (setThread .user (k.proc slot)) rfl i]
    at running
  exact running

/-- wait() returns `ret`, whatever it has done before. -/
theorem waitReturn_kept {k : Kernel} (cpus : Cpus k) (forks : Forks k) (waits : Waits k)
    (slot : Slot) (ret : Int) : Kept k (waitReturn k slot ret) where
  init := rfl
  cpus := cpus.waitReturn slot ret
  forks := forks.of_same fun i => (quiet_waitReturn k slot ret i).toSame
  waits := waits.of_calm fun i => (quiet_waitReturn k slot ret i).calm

theorem waitReturn_family (k : Kernel) (slot : Slot) : family (waitReturn k slot (-1)) = family k :=
  family_same (fun i => (quiet_waitReturn k slot (-1) i).member) rfl
    (by simp [waitReturn, Kernel.set, report])

/-- The slot at which wait() stops holds a dead child. -/
theorem waitStop_some {proc : Slot → Proc} {cur i : Slot} (found : waitStop proc cur = some i) :
    (proc i).parent = some cur ∧ (proc i).state = .ZOMBIE := by
  have stopped := List.find?_some found
  simpa using stopped

theorem waitStop_none {proc : Slot → Proc} {cur : Slot} (none_found : waitStop proc cur = none)
    (j : Slot) (child : (proc j).parent = some cur) : (proc j).state ≠ .ZOMBIE := by
  intro dead
  have every := List.find?_eq_none.mp none_found j (List.mem_finRange j)
  simp [child, dead] at every

/-- Nobody is dead when the process goes to sleep. -/
theorem waitSleep_steps {k : Kernel} (inv : Inv k) (e : Event) {c : Cpu} {cur : Slot}
    (current : k.cpu c = some cur)
    (alive : ∀ j, (k.proc j).parent = some cur → (k.proc j).state ≠ .ZOMBIE) :
    Steps k e (sched k c cur (fallAsleep (.proc cur) .waiting (k.proc cur))) := by
  have running := inv.cpus.running c cur current
  obtain ⟨p, stored⟩ : ∃ p, p = fallAsleep (.proc cur) .waiting (k.proc cur) := ⟨_, rfl⟩
  have state : p.state = .SLEEPING ∧ p.chan = some (.proc cur) := by
    rw [stored]
    exact ⟨rfl, rfl⟩
  have same : Same (k.proc cur) p := by
    rw [stored]
    exact same_fallAsleep running _ (by simp)
  have every := same_update k.proc cur p same
  have other : ∀ i, i ≠ cur → Function.update k.proc cur p i = k.proc i := fun i away =>
    Function.update_of_ne away _ _
  rw [← stored]
  refine inv.of_same (inv.cpus.sched current p) rfl rfl rfl every ?_
  constructor
  case chan =>
    intro i asleep
    by_cases here : i = cur
    · rw [here]
      simp [sched, Kernel.set, state.2]
    · simp only [InWait, sched, Kernel.set, other i here] at asleep ⊢
      exact inv.waits.chan i asleep
  case children =>
    intro i j asleep child dead
    have child := (every j).parent_eq.symm.trans child
    have dead := (every j).zombie dead
    by_cases here : i = cur
    · exact alive j (here ▸ child) dead
    · simp only [InWait, sched, Kernel.set, other i here] at asleep
      exact inv.waits.children i j asleep child dead

theorem family_reap {k : Kernel} {cur i : Slot} (pid : 0 < (k.proc i).pid) :
    family (waitReturn (k.set i (reap (k.proc i))) cur (k.proc i).pid) =
      (family k).reap cur i := by
  have returned : report (.waited cur (k.proc i).pid) = some (.reaped cur (k.proc i).pid) :=
    if_neg (by omega)
  have log : (waitReturn (k.set i (reap (k.proc i))) cur (k.proc i).pid).log.filterMap report =
      ((family k).reap cur i).log := by
    simp [waitReturn, Kernel.set, returned, Lib.Families.reap_log, family, member]
  have members : ∀ j, member ((waitReturn (k.set i (reap (k.proc i))) cur (k.proc i).pid).proc j) =
      ((family k).reap cur i).member j := by
    intro j
    rw [(quiet_waitReturn (k.set i (reap (k.proc i))) cur _ j).member, Lib.Families.reap_member]
    by_cases here : j = i
    · subst here
      simp [Kernel.set, member, reap, phase]
    · simp [Kernel.set, here, family]
  have next : (waitReturn (k.set i (reap (k.proc i))) cur (k.proc i).pid).nextpid =
      ((family k).reap cur i).nextpid := rfl
  unfold family at *
  rw [log, next]
  congr 1
  exact funext members

theorem reap_kept {k : Kernel} (inv : Inv k) (cur : Slot) {i : Slot}
    (dead : (k.proc i).state = .ZOMBIE) :
    Kept k (waitReturn (k.set i (reap (k.proc i))) cur (k.proc i).pid) := by
  have other : ∀ j, j ≠ i → (k.set i (reap (k.proc i))).proc j = k.proc j := fun j away =>
    Function.update_of_ne away _ _
  have cpus : Cpus (k.set i (reap (k.proc i))) := by
    refine inv.cpus.of_same rfl fun j running => ?_
    rw [other j]
    · exact running
    · rintro rfl
      rw [dead] at running
      cases running
  have forks : Forks (k.set i (reap (k.proc i))) := by
    refine inv.forks.of_kept ?_ ?_ ?_
    · intro p np stage busy
      have thread : ((k.set i (reap (k.proc i))).proc p).thread = (k.proc p).thread :=
        Lib.Slots.update_observed Proc.thread k.proc i (reap (k.proc i)) rfl p
      exact thread.symm.trans busy
    · intro p np stage _ living
      rw [other p]
      · exact living
      · rintro rfl
        rw [dead] at living
        cases living
    · intro p np stage _ half
      rw [other np]
      · exact half
      · rintro rfl
        have embryo := half.state
        rw [dead] at embryo
        cases embryo
  have calm : Calm (k.proc i) (reap (k.proc i)) := by
    constructor
    case sleeping => exact fun asleep => by cases asleep
    case zombie => exact fun dead => by cases dead
    case parent => exact fun _ child => by cases child
  have waits : Waits (k.set i (reap (k.proc i))) :=
    inv.waits.of_calm (Lib.Slots.update_related Calm Calm.refl k.proc i _ calm)
  have kept := waitReturn_kept cpus forks waits cur (k.proc i).pid
  exact ⟨rfl, kept.cpus, kept.forks, kept.waits⟩

theorem havekids_none {proc : Slot → Proc} {cur : Slot} (childless : havekids proc cur = false)
    (i : Slot) : (proc i).parent ≠ some cur := by
  intro child
  have every := List.any_eq_false.mp childless i (List.mem_finRange i)
  simp [child] at every

theorem wait_kept {k : Kernel} (inv : Inv k) {c : Cpu} {cur : Slot}
    (current : k.cpu c = some cur) : Kept k (wait k c cur) := by
  unfold wait
  split
  · rename_i i found
    exact reap_kept inv cur (waitStop_some found).2
  · rename_i none_found
    split
    · exact waitReturn_kept inv.cpus inv.forks inv.waits cur (-1)
    · exact (waitSleep_steps inv (.wait c) current (waitStop_none none_found)).toKept

/-- wait() in `k`, which differs from `k₀` only by what scheduler() has done to start it. -/
theorem wait_moved {k₀ k : Kernel} (inv : Inv k) (e : Event) {c : Cpu} {cur : Slot}
    (current : k.cpu c = some cur) (started : family k = family k₀) (log : k.log = k₀.log)
    (killed : (k.proc cur).killed = (k₀.proc cur).killed) : Moved k₀ e (wait k c cur) := by
  have member : ∀ i, member (k.proc i) = member (k₀.proc i) := fun i =>
    congrArg (fun f => f.member i) started
  have parent : ∀ i, (k.proc i).parent = (k₀.proc i).parent := fun i =>
    congrArg Member.parent (member i)
  have pid : ∀ i, (k.proc i).pid = (k₀.proc i).pid := fun i => congrArg Member.pid (member i)
  have phaseEq : ∀ i, phase (k.proc i).state = phase (k₀.proc i).state := fun i =>
    congrArg Member.phase (member i)
  unfold wait
  split
  · rename_i i found
    obtain ⟨child, dead⟩ := waitStop_some found
    have zombie : ((family k).member i).phase = .zombie := phase_zombie.mpr dead
    have positive : 0 < (k.proc i).pid := (inv.family.pids i (by rw [zombie]; simp)).1
    have dead' : (k₀.proc i).state = .ZOMBIE := by
      rw [← phase_zombie, ← phaseEq, phase_zombie, dead]
    refine .reaps cur i dead' ((parent i).symm.trans child) ?_ ?_
    · rw [family_reap positive, started]
    · rw [← pid i, ← log]
      rfl
  · rename_i none_found
    split
    · rename_i why
      refine .fails cur ((waitReturn_family k cur).trans started) (by rw [← log]; rfl) ?_
      rcases why with childless | marked
      · exact Or.inl fun i => parent i ▸ havekids_none childless i
      · exact Or.inr (killed ▸ marked)
    · have running := inv.cpus.running c cur current
      refine .stays (Eq.trans ?_ started) log
      exact family_same (fun i => (same_update k.proc cur _
        (same_fallAsleep running (.proc cur) (by simp)) i).member) rfl rfl

theorem wait_steps {k : Kernel} (inv : Inv k) (e : Event) {c : Cpu} {cur : Slot}
    (current : k.cpu c = some cur) : Steps k e (wait k c cur) :=
  ⟨wait_kept inv current, wait_moved inv e current rfl rfl rfl⟩

/-! ## scheduler() -/

theorem resume_fields (p : Proc) : (resume p).state = p.state ∧ (resume p).pid = p.pid ∧
    (resume p).parent = p.parent ∧ (resume p).killed = p.killed ∧
    ∀ np stage, (resume p).thread = .forking np stage → p.thread = .forking np stage := by
  unfold resume
  split
  · exact ⟨rfl, rfl, rfl, rfl, by simp⟩
  · exact ⟨rfl, rfl, rfl, rfl, fun _ _ busy => busy⟩
  · exact ⟨rfl, rfl, rfl, rfl, fun _ _ busy => busy⟩
  · exact ⟨rfl, rfl, rfl, rfl, fun _ _ busy => busy⟩

theorem scheduler_steps {k : Kernel} (inv : Inv k) (e : Event) {c : Cpu} {slot : Slot}
    (runnable : (k.proc slot).state = .RUNNABLE) : Steps k e (scheduler k c slot) := by
  obtain ⟨p, resumed⟩ : ∃ p, p = resume { k.proc slot with state := .RUNNING } := ⟨_, rfl⟩
  obtain ⟨state, pid, parent, killed, thread⟩ :=
    resume_fields { k.proc slot with state := .RUNNING }
  rw [← resumed] at state pid parent killed thread
  have quiet : Quiet (k.proc slot) p := by
    refine ⟨⟨?_, thread⟩, ?_⟩
    · simp [member, state, pid, parent, runnable, phase]
    · intro asleep
      rw [state] at asleep
      cases asleep
  have entered : Steps k e { k.set slot p with cpu := Function.update k.cpu c (some slot) } := by
    refine inv.of_quiet ?_ rfl rfl rfl (quiet_update k.proc slot p quiet)
    refine inv.cpus.enter (by simp [runnable]) rfl (by simp [Kernel.set, state]) ?_
    intro i away running
    simp only [Kernel.set, Function.update_of_ne away]
    exact running
  unfold scheduler
  rw [← resumed]
  dsimp only
  split
  · have current : Function.update k.cpu c (some slot) c = some slot := Function.update_self _ _ _
    have same : family { k.set slot p with cpu := Function.update k.cpu c (some slot) } =
        family k :=
      family_same (fun i => (quiet_update k.proc slot p quiet i).member) rfl rfl
    have kept := wait_kept (entered.inv inv) current
    refine ⟨⟨kept.init, kept.cpus, kept.forks, kept.waits⟩, ?_⟩
    exact wait_moved (entered.inv inv) e current same rfl (by simp [Kernel.set, killed])
  · exact entered

end Xv6.Public3.ExitWait
