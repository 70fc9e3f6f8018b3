import Mathlib.Tactic.Common
import Xv6.Lib.Slots
import Xv6.Public2.Kernel
import Xv6.Public2.Scan

/-!
# The invariant of the process table (xv6-public_2)

A slot in a parked state holds a process that was committed by userinit(),
fork() or custom_fork(), has not exited since and is on no CPU; a process on a
CPU is exactly one in state RUNNING; and the slot of an unfinished fork()
belongs to one parent and is built as far as that parent has come.  Every step
keeps this except a key whose handler overwrites the state of a process that
is not parked.
-/

set_option autoImplicit false

namespace Xv6.Public2.TableInv

open Xv6.Lib.Runs
open Xv6.Public2.Signals
open Xv6.Public2.ProcTable
open Xv6.Public2.Kernel
open Xv6.Public2.Scan

/-- A process in one of these states is off the CPU and has its context saved. -/
def parked : ProcState → Bool
  | .SLEEPING | .RUNNABLE | .CUSTOM_WAIT => true
  | .UNUSED | .EMBRYO | .RUNNING | .ZOMBIE => false

def alive (s : ProcState) : Bool := parked s || decide (s = .RUNNING)

structure Built (p : Proc) : Prop where
  stack : ∃ page, p.kstack = some page ∧ p.context = some page
  dir : p.pgdir ≠ none
  frame : p.tfStored = true

/-- How far the slot of an unfinished fork() has been built. -/
structure Half (stage : ForkStage) (np : Proc) : Prop where
  state : np.state = .EMBRYO
  life : np.life = .embryo
  stack : stage ≠ .allocated → ∃ page, np.kstack = some page ∧ np.context = some page
  image : stage = .copied → np.pgdir ≠ none ∧ np.tfStored = true

structure Inv (k : Kernel) : Prop where
  calm : k.panic = none ∨ k.panic = some .initExiting
  running : ∀ p, (k.proc p).state = .RUNNING ↔ ∃ c, k.cpu c = some p
  single : ∀ c d p, k.cpu c = some p → k.cpu d = some p → c = d
  live : ∀ p, (k.proc p).life = .live ↔ alive (k.proc p).state = true
  built : ∀ p, (k.proc p).life = .live → Built (k.proc p)
  forking : ∀ p call, (k.proc p).thread = .forking call →
    (k.proc p).life = .live ∧ Half call.stage (k.proc call.np)
  owner : ∀ p q call call', (k.proc p).thread = .forking call →
    (k.proc q).thread = .forking call' → call.np = call'.np → p = q

/-- The process that a step leaves in a slot is the one that was there, built
as before and in the same stretch of fork(), or out of it. -/
structure Kept (p p' : Proc) : Prop where
  life : p'.life = p.life
  kstack : p'.kstack = p.kstack
  context : p'.context = p.context
  pgdir : p'.pgdir = p.pgdir
  frame : p'.tfStored = p.tfStored
  thread : ∀ call, p'.thread = .forking call → p.thread = .forking call

/-- A change that can move a slot between parked states only. -/
structure Quiet (p p' : Proc) : Prop extends Kept p p' where
  same : p'.thread = p.thread
  state : p'.state = p.state ∨ parked p.state = true ∧ parked p'.state = true

theorem Kept.refl (p : Proc) : Kept p p := ⟨rfl, rfl, rfl, rfl, rfl, fun _ h => h⟩

theorem Kept.built {p p' : Proc} (kept : Kept p p') (built : Built p) : Built p' where
  stack := by
    obtain ⟨page, stack, context⟩ := built.stack
    exact ⟨page, kept.kstack.trans stack, kept.context.trans context⟩
  dir := by rw [kept.pgdir]; exact built.dir
  frame := kept.frame.trans built.frame

theorem Quiet.refl (p : Proc) : Quiet p p :=
  { Kept.refl p with same := rfl, state := Or.inl rfl }

theorem Quiet.trans {p q r : Proc} (first : Quiet p q) (second : Quiet q r) : Quiet p r where
  life := second.life.trans first.life
  kstack := second.kstack.trans first.kstack
  context := second.context.trans first.context
  pgdir := second.pgdir.trans first.pgdir
  frame := second.frame.trans first.frame
  thread := fun call h => first.thread call (second.thread call h)
  same := second.same.trans first.same
  state := by
    have left := first.state
    have right := second.state
    grind

theorem parked_alive {s : ProcState} (h : parked s = true) : alive s = true := by
  simp [alive, h]

theorem parked_ne_running {s : ProcState} (h : parked s = true) : s ≠ .RUNNING := by
  rintro rfl
  simp [parked] at h

theorem Quiet.alive_eq {p p' : Proc} (quiet : Quiet p p') : alive p'.state = alive p.state := by
  rcases quiet.state with same | ⟨before, after⟩
  · rw [same]
  · rw [parked_alive before, parked_alive after]

theorem Quiet.running_iff {p p' : Proc} (quiet : Quiet p p') :
    p'.state = .RUNNING ↔ p.state = .RUNNING := by
  rcases quiet.state with same | ⟨before, after⟩
  · rw [same]
  · exact iff_of_false (parked_ne_running after) (parked_ne_running before)

theorem Quiet.half {p p' : Proc} {stage : ForkStage} (quiet : Quiet p p') (half : Half stage p) :
    Half stage p' where
  state := by
    rcases quiet.state with same | ⟨before, _⟩
    · exact same.trans half.state
    · simp [half.state, parked] at before
  life := quiet.life.trans half.life
  stack := by rw [quiet.kstack, quiet.context]; exact half.stack
  image := by rw [quiet.pgdir, quiet.frame]; exact half.image

/-- Quiet changes in all slots at once keep the invariant. -/
theorem Inv.of_quiet {k k' : Kernel} (inv : Inv k) (cpus : k'.cpu = k.cpu)
    (panics : k'.panic = k.panic) (quiet : ∀ i, Quiet (k.proc i) (k'.proc i)) : Inv k' where
  calm := by rw [panics]; exact inv.calm
  running := fun p => by rw [(quiet p).running_iff, cpus]; exact inv.running p
  single := by rw [cpus]; exact inv.single
  live := fun p => by rw [(quiet p).life, (quiet p).alive_eq]; exact inv.live p
  built := fun p living => (quiet p).built (inv.built p ((quiet p).life ▸ living))
  forking := by
    intro p call busy
    obtain ⟨living, half⟩ := inv.forking p call ((quiet p).thread call busy)
    exact ⟨(quiet p).life.trans living, (quiet call.np).half half⟩
  owner := fun p q call call' left right =>
    inv.owner p q call call' ((quiet p).thread call left) ((quiet q).thread call' right)

theorem withProc_inv {k : Kernel} (inv : Inv k) (proc : Slot → Proc)
    (quiet : ∀ i, Quiet (k.proc i) (proc i)) : Inv { k with proc := proc } :=
  inv.of_quiet rfl rfl quiet

theorem Inv.current_live {k : Kernel} (inv : Inv k) {c : Cpu} {p : Slot}
    (current : k.cpu c = some p) : (k.proc p).life = .live := by
  rw [inv.live, (inv.running p).mpr ⟨c, current⟩]
  rfl

theorem not_half {p : Proc} {stage : ForkStage} (living : p.life = .live) : ¬ Half stage p := by
  intro half
  rw [half.life] at living
  cases living

/-- A slot that holds no live process is in no fork() of its own. -/
theorem Inv.idle_thread {k : Kernel} (inv : Inv k) {p : Slot}
    (dead : (k.proc p).life ≠ .live) (call : ForkCall) : (k.proc p).thread ≠ .forking call :=
  fun busy => dead (inv.forking p call busy).1

/-! ## Steps that leave or enter a CPU -/

/-- A process leaves its CPU, parked or for good. -/
theorem sched_inv {k : Kernel} (inv : Inv k) {c : Cpu} {slot : Slot} {p : Proc}
    (current : k.cpu c = some slot)
    (off : p.state ≠ .RUNNING)
    (live : p.life = .live ↔ alive p.state = true)
    (built : p.life = .live → Built p)
    (forking : ∀ call, p.thread = .forking call →
      (k.proc slot).thread = .forking call ∧ p.life = .live) :
    Inv (sched k c slot p) := by
  have living := inv.current_live current
  have record : (sched k c slot p).proc slot = accountRun k c slot p := by
    simp [sched]
  have others : ∀ q, q ≠ slot → (sched k c slot p).proc q = k.proc q := by
    intro q other
    simp [sched, Kernel.set_other k _ other]
  have cpus : ∀ d q, (sched k c slot p).cpu d = some q ↔ d ≠ c ∧ k.cpu d = some q := by
    intro d q
    by_cases same : d = c
    · simp [sched, same]
    · simp [sched, same]
  have accounted : ∀ call, (accountRun k c slot p).thread = .forking call →
      (k.proc slot).thread = .forking call ∧ p.life = .live := forking
  constructor
  case calm => exact inv.calm
  case running =>
    intro q
    by_cases same : q = slot
    · subst same
      rw [record]
      refine iff_of_false off ?_
      rintro ⟨d, there⟩
      obtain ⟨away, there⟩ := (cpus d q).mp there
      exact away (inv.single d c q there current)
    · rw [others q same, inv.running q]
      refine exists_congr fun d => ?_
      rw [cpus]
      refine ⟨fun there => ⟨?_, there⟩, fun there => there.2⟩
      rintro rfl
      rw [current] at there
      exact same (Option.some.inj there).symm
  case single =>
    intro d d' q left right
    exact inv.single d d' q ((cpus d q).mp left).2 ((cpus d' q).mp right).2
  case live =>
    intro q
    by_cases same : q = slot
    · subst same
      rw [record]
      exact live
    · rw [others q same]
      exact inv.live q
  case built =>
    intro q stays
    by_cases same : q = slot
    · subst same
      rw [record] at stays ⊢
      obtain ⟨stack, dir, frame⟩ := built stays
      exact ⟨stack, dir, frame⟩
    · rw [others q same] at stays ⊢
      exact inv.built q stays
  case forking =>
    intro q call busy
    have old : (k.proc q).thread = .forking call ∧
        ((sched k c slot p).proc q).life = .live := by
      by_cases same : q = slot
      · subst same
        rw [record] at busy ⊢
        exact accounted call busy
      · rw [others q same] at busy ⊢
        exact ⟨busy, (inv.forking q call busy).1⟩
    have half := (inv.forking q call old.1).2
    have away : call.np ≠ slot := by
      rintro rfl
      exact not_half living half
    rw [others call.np away]
    exact ⟨old.2, half⟩
  case owner =>
    intro q r call call' left right
    have back : ∀ q call, ((sched k c slot p).proc q).thread = .forking call →
        (k.proc q).thread = .forking call := by
      intro q call busy
      by_cases same : q = slot
      · subst same
        rw [record] at busy
        exact (accounted call busy).1
      · rwa [others q same] at busy
    exact inv.owner q r call call' (back q call left) (back r call' right)

/-- A parked process goes on an idle CPU. -/
theorem enter_inv {k k' : Kernel} (inv : Inv k) {c : Cpu} {slot : Slot}
    (idle : k.cpu c = none) (waits : parked (k.proc slot).state = true)
    (kept : Kept (k.proc slot) (k'.proc slot))
    (state : (k'.proc slot).state = .RUNNING)
    (others : ∀ q, q ≠ slot → k'.proc q = k.proc q)
    (cpus : k'.cpu = Function.update k.cpu c (some slot))
    (panics : k'.panic = k.panic) : Inv k' := by
  have living : (k.proc slot).life = .live := (inv.live slot).mpr (parked_alive waits)
  have off : ∀ d, k.cpu d ≠ some slot := fun d there =>
    parked_ne_running waits ((inv.running slot).mpr ⟨d, there⟩)
  have back : ∀ q call, (k'.proc q).thread = .forking call → (k.proc q).thread = .forking call := by
    intro q call busy
    by_cases same : q = slot
    · subst same
      exact kept.thread call busy
    · rwa [others q same] at busy
  constructor
  case calm => rw [panics]; exact inv.calm
  case running =>
    intro q
    by_cases same : q = slot
    · subst same
      exact iff_of_true state ⟨c, by simp [cpus]⟩
    · rw [others q same, inv.running q]
      refine exists_congr fun d => ?_
      by_cases here : d = c
      · subst here
        simp [cpus, idle, Ne.symm same]
      · simp [cpus, here]
  case single =>
    intro d d' q left right
    rw [cpus] at left right
    by_cases here : d = c <;> by_cases here' : d' = c <;>
      simp only [here, here', Function.update_self, ne_eq, not_false_eq_true,
        Function.update_of_ne] at left right ⊢
    · rw [← left] at right
      exact absurd right (off d')
    · rw [← right] at left
      exact absurd left (off d)
    · exact inv.single d d' q left right
  case live =>
    intro q
    by_cases same : q = slot
    · subst same
      exact iff_of_true (kept.life.trans living) (by rw [state]; rfl)
    · rw [others q same]
      exact inv.live q
  case built =>
    intro q stays
    by_cases same : q = slot
    · subst same
      exact kept.built (inv.built q living)
    · rw [others q same] at stays ⊢
      exact inv.built q stays
  case forking =>
    intro q call busy
    obtain ⟨parent, half⟩ := inv.forking q call (back q call busy)
    have away : call.np ≠ slot := by
      rintro rfl
      exact not_half living half
    rw [others call.np away]
    refine ⟨?_, half⟩
    by_cases same : q = slot
    · subst same
      exact kept.life.trans parent
    · rw [others q same]
      exact parent
  case owner =>
    intro q r call call' left right
    exact inv.owner q r call call' (back q call left) (back r call' right)

/-- One stretch of fork(): the parent notes in its thread how far it is, and
the child's slot, in nobody else's hands, gets its next record. -/
theorem forkOn_inv {k : Kernel} (inv : Inv k) {c : Cpu} {cur : Slot} {call : ForkCall}
    {np : Proc} {thread : Thread} (current : k.cpu c = some cur)
    (unborn : (k.proc call.np).life ≠ .live)
    (mine : ∀ q call', (k.proc q).thread = .forking call' → call'.np = call.np → q = cur)
    (off : np.state ≠ .RUNNING)
    (live : np.life = .live ↔ alive np.state = true)
    (built : np.life = .live → Built np)
    (idle : ∀ call', np.thread ≠ .forking call')
    (next : ∀ call', thread = .forking call' → call'.np = call.np ∧ Half call'.stage np) :
    Inv (forkOn k cur call np thread) := by
  have living := inv.current_live current
  have apart : call.np ≠ cur := by
    intro same
    rw [same] at unborn
    exact unborn living
  have child : (forkOn k cur call np thread).proc call.np = np := by
    simp [forkOn, Kernel.set_other _ _ apart]
  have parent : (forkOn k cur call np thread).proc cur =
      setThread thread (k.proc cur) := by
    simp [forkOn, Kernel.set_other _ _ apart.symm]
  have others : ∀ q, q ≠ call.np → q ≠ cur →
      (forkOn k cur call np thread).proc q = k.proc q := by
    intro q notChild notParent
    simp [forkOn, Kernel.set_other _ _ notChild, Kernel.set_other _ _ notParent]
  -- who is in a fork afterwards: the parent as `next` says, or somebody else as before
  have back : ∀ q call', ((forkOn k cur call np thread).proc q).thread = .forking call' →
      (q = cur ∧ thread = .forking call') ∨
        (q ≠ cur ∧ q ≠ call.np ∧ (k.proc q).thread = .forking call') := by
    intro q call' busy
    by_cases isChild : q = call.np
    · subst isChild
      rw [child] at busy
      exact absurd busy (idle call')
    · by_cases isParent : q = cur
      · subst isParent
        rw [parent] at busy
        exact Or.inl ⟨rfl, busy⟩
      · rw [others q isChild isParent] at busy
        exact Or.inr ⟨isParent, isChild, busy⟩
  constructor
  case calm => exact inv.calm
  case running =>
    intro q
    change _ ↔ ∃ c, k.cpu c = some q
    by_cases isChild : q = call.np
    · subst isChild
      rw [child]
      refine iff_of_false off ?_
      rintro ⟨d, there⟩
      exact unborn (inv.current_live there)
    · by_cases isParent : q = cur
      · subst isParent
        rw [parent]
        exact inv.running q
      · rw [others q isChild isParent]
        exact inv.running q
  case single => exact inv.single
  case live =>
    intro q
    by_cases isChild : q = call.np
    · subst isChild
      rw [child]
      exact live
    · by_cases isParent : q = cur
      · subst isParent
        rw [parent]
        exact inv.live q
      · rw [others q isChild isParent]
        exact inv.live q
  case built =>
    intro q stays
    by_cases isChild : q = call.np
    · subst isChild
      rw [child] at stays ⊢
      exact built stays
    · by_cases isParent : q = cur
      · subst isParent
        rw [parent]
        obtain ⟨stack, dir, frame⟩ := inv.built q living
        exact ⟨stack, dir, frame⟩
      · rw [others q isChild isParent] at stays ⊢
        exact inv.built q stays
  case forking =>
    intro q call' busy
    rcases back q call' busy with ⟨rfl, started⟩ | ⟨notParent, notChild, old⟩
    · obtain ⟨same, half⟩ := next call' started
      rw [parent, same, child]
      exact ⟨living, half⟩
    · obtain ⟨stays, half⟩ := inv.forking q call' old
      have elsewhere : call'.np ≠ call.np := fun same => notParent (mine q call' old same)
      have notCur : call'.np ≠ cur := by
        intro same
        rw [same] at half
        exact not_half living half
      rw [others q notChild notParent, others call'.np elsewhere notCur]
      exact ⟨stays, half⟩
  case owner =>
    intro q r call' call'' left right sameSlot
    rcases back q call' left with ⟨rfl, started⟩ | ⟨notParent, _, old⟩ <;>
      rcases back r call'' right with ⟨rfl, started'⟩ | ⟨notParent', _, old'⟩
    · rfl
    · obtain ⟨same, _⟩ := next call' started
      exact absurd (mine r call'' old' (sameSlot ▸ same)) notParent'
    · obtain ⟨same, _⟩ := next call'' started'
      exact absurd (mine q call' old (sameSlot ▸ same)) notParent
    · exact inv.owner q r call' call'' old old' sameSlot

/-! ## Quiet operations -/

theorem quiet_wakeup1 (chan : Option Chan) (proc : Slot → Proc) (i : Slot) :
    Quiet (proc i) (wakeup1 chan proc i) := by
  unfold wakeup1
  split
  · rename_i sleeping
    exact ⟨⟨rfl, rfl, rfl, rfl, rfl, fun _ h => h⟩, rfl,
      Or.inr ⟨by rw [sleeping.1]; rfl, rfl⟩⟩
  · exact Quiet.refl _

theorem quiet_reparent (curproc initproc : Slot) (proc : Slot → Proc) (i : Slot) :
    Quiet (proc i) (reparent curproc initproc proc i) := by
  let handed : Slot → Proc := fun i =>
    if (proc i).parent = some curproc then { proc i with parent := some initproc } else proc i
  have adopted : Quiet (proc i) (handed i) := by
    simp only [handed]
    split
    · exact ⟨⟨rfl, rfl, rfl, rfl, rfl, fun _ h => h⟩, rfl, Or.inl rfl⟩
    · exact Quiet.refl _
  unfold reparent
  simp only
  split
  · exact adopted.trans (quiet_wakeup1 _ handed i)
  · exact adopted

theorem quiet_update (proc : Slot → Proc) (slot : Slot) (p : Proc) (quiet : Quiet (proc slot) p)
    (i : Slot) : Quiet (proc i) (Function.update proc slot p i) :=
  Lib.Slots.update_related Quiet Quiet.refl proc slot p quiet i

theorem quiet_exitNotify (k : ProcTable.Kernel) (cur i : Slot) :
    Quiet (k.proc i) (exitNotify k cur i) := by
  unfold exitNotify
  refine Quiet.trans ?_ (quiet_reparent _ _ _ i)
  refine Quiet.trans ?_ (quiet_wakeup1 _ _ i)
  refine quiet_update k.proc cur _ ?_ i
  exact ⟨⟨rfl, rfl, rfl, rfl, rfl, fun _ h => h⟩, rfl, Or.inl rfl⟩

theorem quiet_kill (pid : Int) (proc : Slot → Proc) (i : Slot) :
    Quiet (proc i) (kill pid proc i) := by
  unfold kill
  cases slots.find? fun i => decide ((proc i).pid = pid) with
  | none => exact Quiet.refl _
  | some j =>
    dsimp only
    refine quiet_update proc j _ ?_ i
    refine ⟨⟨rfl, rfl, rfl, rfl, rfl, fun _ h => h⟩, rfl, ?_⟩
    by_cases sleeping : (proc j).state = .SLEEPING
    · exact Or.inr ⟨by rw [sleeping]; rfl, by rw [if_pos sleeping]; rfl⟩
    · exact Or.inl (if_neg sleeping)

theorem quiet_sys_scheduler_start (proc : Slot → Proc) (i : Slot) :
    Quiet (proc i) (sys_scheduler_start proc i) := by
  unfold sys_scheduler_start
  split
  · rename_i waits
    exact ⟨⟨rfl, rfl, rfl, rfl, rfl, fun _ h => h⟩, rfl, Or.inr ⟨by rw [waits]; rfl, rfl⟩⟩
  · exact Quiet.refl _

theorem quiet_setSig (f : SigState → SigState) (p : Proc) : Quiet p (setSig f p) :=
  ⟨⟨rfl, rfl, rfl, rfl, rfl, fun _ h => h⟩, rfl, Or.inl rfl⟩

theorem quiet_ctrlC (proc : Slot → Proc) (i : Slot) : Quiet (proc i) (ctrlC proc i) := by
  unfold ctrlC
  split
  · exact ⟨⟨rfl, rfl, rfl, rfl, rfl, fun _ h => h⟩, rfl, Or.inl rfl⟩
  · exact Quiet.refl _

theorem quiet_ctrlBMark (proc : Slot → Proc) (i : Slot) : Quiet (proc i) (ctrlBMark proc i) := by
  unfold ctrlBMark
  split
  · exact ⟨⟨rfl, rfl, rfl, rfl, rfl, fun _ h => h⟩, rfl, Or.inl rfl⟩
  · exact Quiet.refl _

/-! ## The steps -/

theorem quiet_scan (proc : Slot → Proc) (i : Slot) : Quiet (proc i) ((scan proc).proc i) := by
  rw [(scan_scanned proc).same i]
  exact ⟨⟨rfl, rfl, rfl, rfl, rfl, fun _ h => h⟩, rfl, Or.inl rfl⟩

/-- The condition on a key: what the handler overwrites belongs to a parked
process.  Ctrl-B makes the shell RUNNABLE; Ctrl-F makes every suspended job
RUNNABLE and puts every process with pid 2 to sleep. -/
def KeySafe (k : Kernel) : Event → Prop
  | .ctrlB => ∀ sh, shellSlot k.proc = some sh → parked (k.proc sh).state = true
  | .ctrlF => ∀ p, ((k.proc p).pid > 2 ∧ (k.proc p).b = 1) ∨ (k.proc p).pid = 2 →
      parked (k.proc p).state = true
  | _ => True

instance keySafeDecidable (k : ProcTable.Kernel) (e : Event) : Decidable (KeySafe k e) := by
  cases e <;> unfold KeySafe <;> infer_instance

theorem shellSlot_marked (proc : Slot → Proc) : shellSlot (ctrlBMark proc) = shellSlot proc := by
  have pids : ∀ i, (ctrlBMark proc i).pid = (proc i).pid := by
    intro i
    unfold ctrlBMark
    split <;> rfl
  simp [shellSlot, pids]

theorem ctrlB_inv {k : Kernel} (inv : Inv k) (safe : KeySafe k .ctrlB) : Inv (ctrlB k) := by
  unfold ctrlB
  simp only
  rw [shellSlot_marked]
  cases found : shellSlot k.proc with
  | none => exact inv.of_quiet rfl rfl (quiet_ctrlBMark k.proc)
  | some sh =>
      refine inv.of_quiet rfl rfl fun i => (quiet_ctrlBMark k.proc i).trans ?_
      refine quiet_update (ctrlBMark k.proc) sh _ ?_ i
      have marked : (ctrlBMark k.proc sh).state = (k.proc sh).state := by
        unfold ctrlBMark
        split <;> rfl
      exact ⟨⟨rfl, rfl, rfl, rfl, rfl, fun _ h => h⟩, rfl,
        Or.inr ⟨by rw [marked]; exact safe sh found, rfl⟩⟩

theorem ctrlF_inv {k : Kernel} (inv : Inv k) (safe : KeySafe k .ctrlF) :
    Inv { k with proc := ctrlF k.proc } := by
  refine inv.of_quiet rfl rfl fun i => ?_
  simp only [ctrlF]
  split
  · rename_i suspended
    exact ⟨⟨rfl, rfl, rfl, rfl, rfl, fun _ h => h⟩, rfl, Or.inr ⟨safe i (Or.inl suspended), rfl⟩⟩
  · split
    · rename_i shell
      exact ⟨⟨rfl, rfl, rfl, rfl, rfl, fun _ h => h⟩, rfl, Or.inr ⟨safe i (Or.inr shell), rfl⟩⟩
    · exact Quiet.refl _

/-- A state stored over that of a process that is not parked breaks the
invariant. -/
theorem overwrite_not_inv {k k' : ProcTable.Kernel} (inv : Inv k) {p : Slot}
    (unparked : parked (k.proc p).state = false) (cpus : k'.cpu = k.cpu)
    (life : (k'.proc p).life = (k.proc p).life) (stored : parked (k'.proc p).state = true) :
    ¬ Inv k' := by
  intro broken
  have living : (k.proc p).life = .live :=
    life.symm.trans ((broken.live p).mpr (parked_alive stored))
  have running : (k.proc p).state = .RUNNING := by
    have awake := (inv.live p).mp living
    simpa [alive, unparked] using awake
  obtain ⟨c, current⟩ := (inv.running p).mp running
  rw [← cpus] at current
  exact parked_ne_running stored ((broken.running p).mpr ⟨c, current⟩)

/-- The condition on Ctrl-B is exact: the key keeps the invariant only then. -/
theorem ctrlB_inv_iff {k : ProcTable.Kernel} (inv : Inv k) : Inv (ctrlB k) ↔ KeySafe k .ctrlB := by
  refine ⟨fun after sh found => ?_, ctrlB_inv inv⟩
  by_contra unparked
  refine overwrite_not_inv inv (eq_false_of_ne_true unparked) ?_ ?_ ?_ after
  all_goals
    unfold ctrlB
    simp only [shellSlot_marked, found]
  · unfold ctrlBMark
    rw [Function.update_self]
    split <;> rfl
  · rw [Function.update_self]
    rfl

/-- The condition on Ctrl-F is exact as well. -/
theorem ctrlF_inv_iff {k : ProcTable.Kernel} (inv : Inv k) :
    Inv { k with proc := ctrlF k.proc } ↔ KeySafe k .ctrlF := by
  refine ⟨fun after p written => ?_, ctrlF_inv inv⟩
  by_contra unparked
  refine overwrite_not_inv (p := p) inv (eq_false_of_ne_true unparked) ?_ ?_ ?_ after
  · rfl
  · unfold ctrlF
    dsimp only
    split_ifs <;> rfl
  · unfold ctrlF
    dsimp only
    split_ifs with suspended shell
    · rfl
    · rfl
    · exact absurd written (not_or.mpr ⟨suspended, shell⟩)

theorem kept_setThread {p : Proc} {thread : Thread} (idle : ∀ call, thread ≠ .forking call) :
    Kept p (setThread thread p) :=
  ⟨rfl, rfl, rfl, rfl, rfl, fun call busy => absurd busy (idle call)⟩

/-- The thread of a slot goes back to user code. -/
theorem toUser_inv {k : Kernel} (inv : Inv k) (slot : Slot) :
    Inv (k.set slot (setThread .user (k.proc slot))) := by
  have kept : ∀ i, Kept (k.proc i) ((k.set slot (setThread .user (k.proc slot))).proc i) := by
    intro i
    by_cases same : i = slot
    · subst same
      rw [Kernel.set_same]
      exact kept_setThread (fun _ h => by cases h)
    · rw [Kernel.set_other _ _ same]
      exact Kept.refl _
  have states : ∀ i, ((k.set slot (setThread .user (k.proc slot))).proc i).state =
      (k.proc i).state := by
    intro i
    by_cases same : i = slot
    · subst same
      rw [Kernel.set_same]
      rfl
    · rw [Kernel.set_other _ _ same]
  have halves : ∀ i stage, Half stage (k.proc i) →
      Half stage ((k.set slot (setThread .user (k.proc slot))).proc i) := by
    intro i stage half
    refine ⟨(states i).trans half.state, (kept i).life.trans half.life, ?_, ?_⟩
    · rw [(kept i).kstack, (kept i).context]
      exact half.stack
    · rw [(kept i).pgdir, (kept i).frame]
      exact half.image
  constructor
  case calm => exact inv.calm
  case running => exact fun p => by rw [states p]; exact inv.running p
  case single => exact inv.single
  case live => exact fun p => by rw [states p, (kept p).life]; exact inv.live p
  case built => exact fun p stays => (kept p).built (inv.built p ((kept p).life ▸ stays))
  case forking =>
    intro p call busy
    obtain ⟨living, half⟩ := inv.forking p call ((kept p).thread call busy)
    exact ⟨(kept p).life.trans living, halves call.np call.stage half⟩
  case owner =>
    intro p q call call' left right
    exact inv.owner p q call call' ((kept p).thread call left) ((kept q).thread call' right)

/-- wait() empties the slot of a ZOMBIE child. -/
theorem reap_inv {k : Kernel} (inv : Inv k) {slot : Slot} (zombie : (k.proc slot).state = .ZOMBIE) :
    Inv (k.set slot (reap (k.proc slot))) := by
  have dead : (k.proc slot).life ≠ .live := by
    rw [Ne, inv.live, zombie]
    simp [alive, parked]
  have same : (k.set slot (reap (k.proc slot))).proc slot =
      reap (k.proc slot) := Kernel.set_same ..
  have others : ∀ q, q ≠ slot →
      (k.set slot (reap (k.proc slot))).proc q = k.proc q :=
    fun q other => Kernel.set_other k _ other
  have back : ∀ q call, ((k.set slot (reap (k.proc slot))).proc q).thread = .forking call →
      q ≠ slot ∧ (k.proc q).thread = .forking call := by
    intro q call busy
    by_cases here : q = slot
    · subst here
      rw [same] at busy
      exact absurd busy (inv.idle_thread dead call)
    · rw [others q here] at busy
      exact ⟨here, busy⟩
  constructor
  case calm => exact inv.calm
  case running =>
    intro q
    change _ ↔ ∃ c, k.cpu c = some q
    by_cases here : q = slot
    · subst here
      rw [same]
      refine iff_of_false (by simp [reap]) ?_
      rintro ⟨c, there⟩
      exact dead (inv.current_live there)
    · rw [others q here]
      exact inv.running q
  case single => exact inv.single
  case live =>
    intro q
    by_cases here : q = slot
    · subst here
      rw [same]
      simp [reap, alive, parked]
    · rw [others q here]
      exact inv.live q
  case built =>
    intro q stays
    by_cases here : q = slot
    · subst here
      rw [same] at stays
      cases stays
    · rw [others q here] at stays ⊢
      exact inv.built q stays
  case forking =>
    intro q call busy
    obtain ⟨here, old⟩ := back q call busy
    obtain ⟨stays, half⟩ := inv.forking q call old
    have away : call.np ≠ slot := by
      rintro rfl
      rw [half.state] at zombie
      cases zombie
    rw [others q here, others call.np away]
    exact ⟨stays, half⟩
  case owner =>
    intro q r call call' left right
    exact inv.owner q r call call' (back q call left).2 (back r call' right).2

theorem wait_inv {k : Kernel} (inv : Inv k) {c : Cpu} {cur : Slot} (current : k.cpu c = some cur) :
    Inv (wait k c cur) := by
  have user := toUser_inv inv cur
  unfold wait
  cases waitStop k.proc cur with
  | some i =>
      dsimp only
      split
      · rename_i zombie
        exact reap_inv user zombie
      · exact user
  | none =>
      dsimp only
      split
      · exact user
      · refine sched_inv inv current (by simp [fallAsleep]) ?_ ?_ ?_
        · exact iff_of_true (inv.current_live current) rfl
        · intro stays
          obtain ⟨stack, dir, frame⟩ := inv.built cur stays
          exact ⟨stack, dir, frame⟩
        · intro call busy
          cases busy

theorem exit_inv {k : Kernel} (inv : Inv k) {c : Cpu} {cur : Slot} (current : k.cpu c = some cur)
    (user : (k.proc cur).thread = .user) : Inv (exit k c cur) := by
  unfold exit
  split
  · exact { inv with calm := Or.inr rfl }
  · have told := withProc_inv inv (exitNotify k cur) (quiet_exitNotify k cur)
    refine sched_inv told current (by simp) ?_ ?_ ?_
    · exact iff_of_false (by simp) (by simp [alive, parked])
    · intro stays
      cases stays
    · intro call busy
      have old := (quiet_exitNotify k cur cur).thread call busy
      rw [user] at old
      cases old

theorem switchTo_inv {k : Kernel} (inv : Inv k) {c : Cpu} {slot : Slot}
    (current : k.cpu c = some slot) : Inv (switchTo k slot) := by
  have living := inv.current_live current
  obtain ⟨⟨page, stack, context⟩, dir, frame⟩ := inv.built slot living
  unfold switchTo
  rw [if_neg (by simp [stack]), if_neg dir, if_neg (by simp [living])]
  unfold resume
  split
  · -- sleep() clears its channel, then the thread is back in user code
    have woken : Inv (k.set slot { k.proc slot with chan := none }) :=
      inv.of_quiet rfl rfl (quiet_update k.proc slot _
        ⟨⟨rfl, rfl, rfl, rfl, rfl, fun _ h => h⟩, rfl, Or.inl rfl⟩)
    have user := toUser_inv woken slot
    simpa [Kernel.set, setThread] using user
  · exact inv.of_quiet rfl rfl
      (quiet_update k.proc slot _ ⟨⟨rfl, rfl, rfl, rfl, rfl, fun _ h => h⟩, rfl, Or.inl rfl⟩)
  · simpa [Kernel.set] using inv
  · simpa [Kernel.set] using inv

theorem dispatch_inv {k : ProcTable.Kernel} (inv : Inv k) {c : Cpu} {slot : Slot}
    (idle : k.cpu c = none) (waits : parked (k.proc slot).state = true) :
    Inv (dispatch k c slot) := by
  refine enter_inv inv idle waits ?_ ?_ ?_ rfl rfl
  · simp only [dispatch, Function.update_self]
    exact ⟨rfl, rfl, rfl, rfl, rfl, fun _ h => h⟩
  · simp [dispatch, startRun]
  · intro q other
    simp [dispatch, other]

theorem switchTo_cpu (k : ProcTable.Kernel) (slot : Slot) : (switchTo k slot).cpu = k.cpu := by
  unfold switchTo
  split_ifs <;> rfl

theorem scheduler_inv {k : ProcTable.Kernel} (inv : Inv k) {c : Cpu} (idle : k.cpu c = none) :
    Inv (scheduler k c) := by
  have scanned := scan_scanned k.proc
  have counted := withProc_inv inv (scan k.proc).proc (quiet_scan k.proc)
  unfold scheduler
  cases chosen : (scan k.proc).chosen with
  | none => simpa only [chosen] using counted
  | some slot =>
      simp only [chosen]
      have runnable : ((scan k.proc).proc slot).state = .RUNNABLE := by
        rw [scanned.same slot]
        exact (scanned.chosen slot chosen).1
      generalize entry : ({ k with proc := (scan k.proc).proc } : ProcTable.Kernel) = k₁
        at counted ⊢
      have idle₁ : k₁.cpu c = none := by rw [← entry]; exact idle
      have waits : parked (k₁.proc slot).state = true := by
        rw [← entry]
        dsimp only
        rw [runnable]
        rfl
      have current : (dispatch k₁ c slot).cpu c = some slot := by simp [dispatch]
      have switched := switchTo_inv (dispatch_inv counted idle₁ waits) current
      split
      · exact wait_inv switched ((congrFun (switchTo_cpu _ _) c).trans current)
      · exact switched

/-! ## The stretches of fork() -/

theorem findUnused_unused {proc : Slot → Proc} {np : Slot} (found : findUnused proc = some np) :
    (proc np).state = .UNUSED := by
  simpa using List.find?_some found

theorem forkBegin_inv {k : Kernel} (inv : Inv k) {c : Cpu} {cur : Slot}
    (current : k.cpu c = some cur) (custom : Option (Int × Int)) :
    Inv (forkBegin custom k cur) := by
  unfold forkBegin
  cases found : findUnused k.proc with
  | none => exact inv
  | some np =>
      have unused := findUnused_unused found
      have unborn : (k.proc np).life ≠ .live := by
        rw [Ne, inv.live, unused]
        simp [alive, parked]
      let call : ForkCall := ⟨np, custom, .allocated⟩
      have begun : Inv (forkOn k cur call (embryo k (k.proc np)) (.forking call)) := by
        refine forkOn_inv inv current unborn ?_ (by simp [embryo]) ?_ ?_ ?_ ?_
        · intro q call' busy sameSlot
          have half := (inv.forking q call' busy).2
          rw [sameSlot] at half
          exact absurd (half.state.symm.trans unused) (by simp)
        · exact iff_of_false (by simp [embryo]) (by simp [embryo, alive, parked])
        · intro stays
          cases stays
        · exact fun call' => inv.idle_thread unborn call'
        · rintro call' ⟨⟩
          exact ⟨rfl, rfl, rfl, fun h => absurd rfl h, fun h => by cases h⟩
      exact begun.of_quiet rfl rfl fun i => Quiet.refl _

section Stretch
variable {k : Kernel} {c : Cpu} {cur : Slot} {call : ForkCall}

theorem Inv.half_unborn (inv : Inv k) (busy : (k.proc cur).thread = .forking call) :
    (k.proc call.np).life ≠ .live := by
  rw [(inv.forking cur call busy).2.life]
  simp

theorem Inv.half_mine (inv : Inv k) (busy : (k.proc cur).thread = .forking call) (q : Slot)
    (call' : ForkCall) (other : (k.proc q).thread = .forking call') (same : call'.np = call.np) :
    q = cur :=
  inv.owner q cur call' call other busy same

/-- A fork() that fails gives the slot back. -/
theorem forkFail_inv (inv : Inv k) (current : k.cpu c = some cur)
    (busy : (k.proc cur).thread = .forking call) (np : Proc) (state : np.state = .UNUSED)
    (life : np.life = .free) (thread : np.thread = (k.proc call.np).thread) :
    Inv (forkOn k cur call np .user) := by
  have unborn := inv.half_unborn busy
  refine forkOn_inv inv current unborn (inv.half_mine busy) (by simp [state]) ?_ ?_ ?_ ?_
  · exact iff_of_false (by simp [life]) (by simp [state, alive, parked])
  · intro stays
    rw [life] at stays
    cases stays
  · intro call'
    rw [thread]
    exact inv.idle_thread unborn call'
  · intro call' started
    cases started

/-- A fork() that goes on has built its slot as far as the next stage. -/
theorem forkNext_inv (inv : Inv k) (current : k.cpu c = some cur)
    (busy : (k.proc cur).thread = .forking call) (np : Proc) (stage : ForkStage)
    (half : Half stage np) (thread : np.thread = (k.proc call.np).thread) :
    Inv (forkOn k cur call np (.forking { call with stage := stage })) := by
  have unborn := inv.half_unborn busy
  refine forkOn_inv inv current unborn (inv.half_mine busy) (by simp [half.state]) ?_ ?_ ?_ ?_
  · exact iff_of_false (by simp [half.life]) (by simp [half.state, alive, parked])
  · intro stays
    rw [half.life] at stays
    cases stays
  · intro call'
    rw [thread]
    exact inv.idle_thread unborn call'
  · rintro call' ⟨⟩
    exact ⟨rfl, half⟩

theorem forkStack_inv (inv : Inv k) (current : k.cpu c = some cur)
    (busy : (k.proc cur).thread = .forking call) (page : Option Page) :
    Inv (forkStack page k cur call) := by
  have half := (inv.forking cur call busy).2
  unfold forkStack
  cases page with
  | none => exact forkFail_inv inv current busy _ rfl rfl rfl
  | some page =>
      rw [if_neg (by simp)]
      exact forkNext_inv inv current busy _ .stacked
        ⟨half.state, half.life, fun _ => ⟨page, rfl, rfl⟩, fun h => by cases h⟩ rfl

theorem forkCopy_inv (inv : Inv k) (current : k.cpu c = some cur)
    (busy : (k.proc cur).thread = .forking call) (stage : call.stage = .stacked)
    (page : Option Page) : Inv (forkCopy page k cur call) := by
  have half := (inv.forking cur call busy).2
  unfold forkCopy
  cases page with
  | none => exact forkFail_inv inv current busy _ rfl rfl rfl
  | some page =>
      rw [if_neg (by simp)]
      have stacked := half.stack (by simp [stage])
      refine forkNext_inv inv current busy _ .copied ?_ ?_
      · unfold copyProcess
        cases call.custom with
        | none => exact ⟨half.state, half.life, fun _ => stacked, fun _ => ⟨by simp, rfl⟩⟩
        | some args => exact ⟨half.state, half.life, fun _ => stacked, fun _ => ⟨by simp, rfl⟩⟩
      · unfold copyProcess
        cases call.custom <;> rfl

/-- Nobody sees the child in a parked state before all of it is built. -/
theorem forkCommit_inv (inv : Inv k) (current : k.cpu c = some cur)
    (busy : (k.proc cur).thread = .forking call) (stage : call.stage = .copied) :
    Inv (forkCommit k cur call) := by
  have half := (inv.forking cur call busy).2
  obtain ⟨dir, frame⟩ := half.image stage
  have stacked := half.stack (by simp [stage])
  have committed : ∃ state, parked state = true ∧
      (commitProcess call.custom (k.proc call.np)).state = state ∧
      (commitProcess call.custom (k.proc call.np)).life = .live ∧
      (commitProcess call.custom (k.proc call.np)).thread = .user ∧
      Built (commitProcess call.custom (k.proc call.np)) := by
    unfold commitProcess
    cases call.custom with
    | none => exact ⟨.RUNNABLE, rfl, rfl, rfl, rfl, stacked, dir, frame⟩
    | some args =>
        dsimp only
        split
        · exact ⟨.CUSTOM_WAIT, rfl, rfl, rfl, rfl, stacked, dir, frame⟩
        · exact ⟨.RUNNABLE, rfl, rfl, rfl, rfl, stacked, dir, frame⟩
  obtain ⟨state, waits, stateEq, life, thread, built⟩ := committed
  unfold forkCommit
  refine forkOn_inv inv current (inv.half_unborn busy) (inv.half_mine busy) ?_ ?_ ?_ ?_ ?_
  · rw [stateEq]
    exact parked_ne_running waits
  · rw [stateEq]
    exact iff_of_true life (parked_alive waits)
  · exact fun _ => built
  · intro call'
    rw [thread]
    simp
  · intro call' started
    cases started

end Stretch

/-! ## Every step, every run -/

theorem step_inv (k : Kernel) (e : Event) (next : Kernel) (inv : Inv k) (safe : KeySafe k e)
    (taken : step k e = some next) : Inv next := by
  obtain ⟨_, taken⟩ := step_some taken
  cases e with
  | schedule c =>
      simp only [act, Option.ite_none_right_eq_some, Option.some.injEq] at taken
      obtain ⟨idle, rfl⟩ := taken
      exact scheduler_inv inv idle
  | tick =>
      simp only [act] at taken
      cases Option.some.inj taken
      exact inv.of_quiet rfl rfl (quiet_wakeup1 _ k.proc)
  | yield c =>
      simp only [act] at taken
      obtain ⟨p, current, running, rfl⟩ := onCpu_some taken
      have living := inv.current_live current
      refine sched_inv inv current (by simp) (iff_of_true living rfl) ?_ ?_
      · intro stays
        obtain ⟨stack, dir, frame⟩ := inv.built p living
        exact ⟨stack, dir, frame⟩
      · exact fun call busy => ⟨busy, living⟩
  | fork c custom =>
      simp only [act] at taken
      obtain ⟨p, current, _, rfl⟩ := onCpu_some taken
      exact forkBegin_inv inv current custom
  | forkStack c page =>
      simp only [act] at taken
      obtain ⟨p, call, current, busy, _, rfl⟩ := inFork_some taken
      exact forkStack_inv inv current busy page
  | forkCopy c page =>
      simp only [act] at taken
      obtain ⟨p, call, current, busy, stage, rfl⟩ := inFork_some taken
      exact forkCopy_inv inv current busy stage page
  | forkCommit c =>
      simp only [act] at taken
      obtain ⟨p, call, current, busy, stage, rfl⟩ := inFork_some taken
      exact forkCommit_inv inv current busy stage
  | exit c =>
      simp only [act] at taken
      obtain ⟨p, current, user, rfl⟩ := onCpu_some taken
      exact exit_inv inv current (of_decide_eq_true user)
  | wait c =>
      simp only [act] at taken
      obtain ⟨p, current, _, rfl⟩ := onCpu_some taken
      exact wait_inv inv current
  | sleep c chan =>
      simp only [act] at taken
      obtain ⟨p, current, _, rfl⟩ := onCpu_some taken
      have living := inv.current_live current
      refine sched_inv inv current (by simp [fallAsleep]) (iff_of_true living rfl) ?_ ?_
      · intro stays
        obtain ⟨stack, dir, frame⟩ := inv.built p living
        exact ⟨stack, dir, frame⟩
      · intro call busy
        cases busy
  | wakeup chan =>
      simp only [act] at taken
      cases Option.some.inj taken
      exact withProc_inv inv _ (quiet_wakeup1 chan k.proc)
  | kill c pid =>
      simp only [act] at taken
      obtain ⟨p, _, _, rfl⟩ := onCpu_some taken
      exact withProc_inv inv _ (quiet_kill pid k.proc)
  | schedulerStart c =>
      simp only [act] at taken
      obtain ⟨p, _, _, rfl⟩ := onCpu_some taken
      exact withProc_inv inv _ (quiet_sys_scheduler_start k.proc)
  | signal c handler =>
      simp only [act] at taken
      obtain ⟨p, _, _, rfl⟩ := ownStore_some taken
      exact inv.of_quiet rfl rfl (quiet_update k.proc p _ (quiet_setSig _ _))
  | sigreturn c =>
      simp only [act] at taken
      obtain ⟨p, _, _, rfl⟩ := ownStore_some taken
      exact inv.of_quiet rfl rfl (quiet_update k.proc p _ (quiet_setSig _ _))
  | sigretFault c =>
      simp only [act] at taken
      obtain ⟨p, _, _, rfl⟩ := ownStore_some taken
      exact inv.of_quiet rfl rfl (quiet_update k.proc p _ (quiet_setSig _ _))
  | deliver c kalloc =>
      simp only [act] at taken
      obtain ⟨p, _, _, rfl⟩ := ownStore_some taken
      exact inv.of_quiet rfl rfl (quiet_update k.proc p _ (quiet_setSig _ _))
  | ctrlC =>
      simp only [act] at taken
      cases onKey_some taken
      exact withProc_inv inv _ (quiet_ctrlC k.proc)
  | ctrlB =>
      simp only [act] at taken
      cases onKey_some taken
      exact ctrlB_inv inv safe
  | ctrlBWake =>
      simp only [act] at taken
      cases found : k.shellWake with
      | none => simp [found] at taken
      | some sh =>
          simp only [found, Option.some.injEq] at taken
          subst taken
          exact inv.of_quiet rfl rfl (quiet_wakeup1 _ k.proc)
  | ctrlF =>
      simp only [act] at taken
      cases onKey_some taken
      exact ctrlF_inv inv safe
  | ctrlG c =>
      simp only [act] at taken
      obtain ⟨p, _, _, rfl⟩ := ownStore_some taken
      exact inv.of_quiet rfl rfl (quiet_update k.proc p _ (quiet_setSig _ _))

theorem boot_inv : Inv boot := by
  have first : boot.proc zeroed.initproc = userinit := by simp [boot]
  have others : ∀ p, p ≠ zeroed.initproc → boot.proc p = {} :=
    fun p other => Kernel.set_other zeroed userinit other
  constructor
  case calm => exact Or.inl rfl
  case running =>
    intro p
    refine iff_of_false ?_ (by rintro ⟨c, h⟩; cases h)
    by_cases same : p = zeroed.initproc
    · rw [same, first]
      simp [userinit]
    · rw [others p same]
      simp
  case single => intro c d p h; cases h
  case live =>
    intro p
    by_cases same : p = zeroed.initproc
    · rw [same, first]
      exact iff_of_true rfl rfl
    · rw [others p same]
      exact iff_of_false (by simp) (by simp [alive, parked])
  case built =>
    intro p living
    by_cases same : p = zeroed.initproc
    · rw [same, first]
      exact ⟨⟨1, rfl, rfl⟩, by simp [userinit], rfl⟩
    · rw [others p same] at living
      cases living
  case forking =>
    intro p call busy
    by_cases same : p = zeroed.initproc
    · rw [same, first] at busy
      cases busy
    · rw [others p same] at busy
      cases busy
  case owner =>
    intro p q call call' left
    by_cases same : p = zeroed.initproc
    · rw [same, first] at left
      cases left
    · rw [others p same] at left
      cases left

end Xv6.Public2.TableInv
