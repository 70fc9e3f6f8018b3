import Xv6.Public2.Changes
import Xv6.Public2.Fresh
import Xv6.Public2.TableInv

/-!
# start_later and sys_scheduler_start (xv6-public_2)

A child of custom_fork() with `start_later` is in CUSTOM_WAIT until
sys_scheduler_start().  `gate` and `pressed` are history: which slots hold such a
child, and in which of them Ctrl-B has been pressed since the child got the slot.
Ctrl-F makes a marked child RUNNABLE whatever its state is, and custom_fork() does
not clear a mark that an earlier process has left in the slot.
-/

set_option autoImplicit false

namespace Xv6.Public2.StartLater

open Xv6.Lib.Runs
open Xv6.Public2.ProcTable
open Xv6.Public2.Kernel
open Xv6.Public2.Changes

inductive Gate where
  /-- custom_fork() has the slot and has not returned. -/
  | building
  | waiting
  deriving DecidableEq

structure State where
  kernel : Kernel
  gate : Slot → Option Gate
  pressed : Slot → Bool

/-- custom_fork() with `start_later != 0`. -/
def late : Option (Int × Int) → Bool
  | none => false
  | some (start_later, _) => decide (start_later ≠ 0)

/-- The fork() or custom_fork() that the process on CPU `c` is in. -/
def callOf (k : Kernel) (c : Cpu) : Option ForkCall :=
  match k.cpu c with
  | none => none
  | some p =>
      match (k.proc p).thread with
      | .forking call => some call
      | .user | .asleep | .waiting => none

/-- The call on CPU `c` gives up its slot when there is no page. -/
def giveUp (k : Kernel) (c : Cpu) (page : Option Page) (gate : Slot → Option Gate) :
    Slot → Option Gate :=
  match page, callOf k c with
  | none, some call => Function.update gate call.np none
  | none, none | some _, _ => gate

def gateAfter (k : Kernel) (gate : Slot → Option Gate) : Event → Slot → Option Gate
  | .fork _ custom =>
      match findUnused k.proc with
      | none => gate
      | some np => Function.update gate np (if late custom then some .building else none)
  | .forkStack c page => giveUp k c page gate
  | .forkCopy c page => giveUp k c page gate
  | .forkCommit c =>
      match callOf k c with
      | none => gate
      | some call =>
          Function.update gate call.np ((gate call.np).map fun _ => .waiting)
  | .schedulerStart _ => fun i => if gate i = some .waiting then none else gate i
  | _ => gate

def pressedAfter (k : Kernel) (pressed : Slot → Bool) : Event → Slot → Bool
  | .fork _ _ =>
      match findUnused k.proc with
      | none => pressed
      | some np => Function.update pressed np false
  | .ctrlB => fun _ => true
  | _ => pressed

def step (s : State) (e : Event) : Option State :=
  match Kernel.step s.kernel e with
  | none => none
  | some kernel =>
      some
        { kernel := kernel
          gate := gateAfter s.kernel s.gate e
          pressed := pressedAfter s.kernel s.pressed e }

def boot : State where
  kernel := Kernel.boot
  gate := fun _ => none
  pressed := fun _ => false

/-- A round dispatches no child that is still to be started, and after
sys_scheduler_start() those that were waiting are RUNNABLE and are marked only if
Ctrl-B has been pressed. -/
def Gated (s : State) (e : Event) (next : State) : Prop :=
  match e with
  | .schedule _ => ∀ i, s.gate i ≠ none → (scan s.kernel.proc).chosen ≠ some i
  | .schedulerStart _ => ∀ i, s.gate i = some .waiting →
      (next.kernel.proc i).state = .RUNNABLE ∧
        ((next.kernel.proc i).b = 1 → s.pressed i = true)
  | .tick | .yield _ | .fork _ _ | .forkStack _ _ | .forkCopy _ _ | .forkCommit _ | .exit _
  | .wait _ | .sleep _ _ | .wakeup _ | .kill _ _ | .signal _ _ | .sigreturn _ | .sigretFault _
  | .deliver _ _ | .ctrlC | .ctrlB | .ctrlBWake | .ctrlF | .ctrlG _ => True

instance (s : State) (e : Event) (next : State) : Decidable (Gated s e next) :=
  match e with
  | .schedule _ => inferInstanceAs (Decidable (∀ i, s.gate i ≠ none →
      (scan s.kernel.proc).chosen ≠ some i))
  | .schedulerStart _ => inferInstanceAs (Decidable (∀ i, s.gate i = some .waiting →
      (next.kernel.proc i).state = .RUNNABLE ∧
        ((next.kernel.proc i).b = 1 → s.pressed i = true)))
  | .tick | .yield _ | .fork _ _ | .forkStack _ _ | .forkCopy _ _ | .forkCommit _ | .exit _
  | .wait _ | .sleep _ _ | .wakeup _ | .kill _ _ | .signal _ _ | .sigreturn _ | .sigretFault _
  | .deliver _ _ | .ctrlC | .ctrlB | .ctrlBWake | .ctrlF | .ctrlG _ =>
      inferInstanceAs (Decidable True)

/-- The slot that a custom_fork() with `start_later` gets is not marked, and no CPU
still runs in it. -/
def Fresh (k : Kernel) (np : Slot) : Prop := (k.proc np).b ≠ 1 ∧ ∀ c, k.cpu c ≠ some np

/-- The call on CPU `c` is in no slot of a child that another call has gated. -/
def OwnSlot (s : State) (c : Cpu) : Prop :=
  ∀ call ∈ callOf s.kernel c,
    s.gate call.np = none ∨ s.gate call.np = some .building ∧ late call.custom = true

/-- The keys find no gated child that they write a state to, and the slots of the
gated children are their own. -/
def GateSafe (s : State) : Event → Prop
  | .fork _ custom => late custom = true → ∀ np ∈ findUnused s.kernel.proc, Fresh s.kernel np
  | .forkStack c _ => OwnSlot s c
  | .forkCopy c _ => OwnSlot s c
  | .forkCommit c => OwnSlot s c
  | .ctrlB => ∀ sh ∈ shellSlot s.kernel.proc, s.gate sh = none
  | .ctrlF => ∀ i, s.gate i ≠ none →
      (s.kernel.proc i).pid ≠ 2 ∧ ¬ ((s.kernel.proc i).pid > 2 ∧ (s.kernel.proc i).b = 1)
  | .schedule _ | .schedulerStart _ | .tick | .yield _ | .exit _ | .wait _ | .sleep _ _ | .wakeup _
  | .kill _ _ | .signal _ _ | .sigreturn _ | .sigretFault _ | .deliver _ _ | .ctrlC | .ctrlBWake
  | .ctrlG _ => True

instance (k : Kernel) (np : Slot) : Decidable (Fresh k np) := inferInstanceAs (Decidable (_ ∧ _))

instance (s : State) (c : Cpu) : Decidable (OwnSlot s c) :=
  inferInstanceAs (Decidable (∀ call ∈ callOf s.kernel c, _))

instance (s : State) (e : Event) : Decidable (GateSafe s e) :=
  match e with
  | .fork _ custom => inferInstanceAs (Decidable (late custom = true →
      ∀ np ∈ findUnused s.kernel.proc, Fresh s.kernel np))
  | .forkStack c _ => inferInstanceAs (Decidable (OwnSlot s c))
  | .forkCopy c _ => inferInstanceAs (Decidable (OwnSlot s c))
  | .forkCommit c => inferInstanceAs (Decidable (OwnSlot s c))
  | .ctrlB => inferInstanceAs (Decidable (∀ sh ∈ shellSlot s.kernel.proc, s.gate sh = none))
  | .ctrlF => inferInstanceAs (Decidable (∀ i, s.gate i ≠ none →
      (s.kernel.proc i).pid ≠ 2 ∧ ¬ ((s.kernel.proc i).pid > 2 ∧ (s.kernel.proc i).b = 1)))
  | .schedule _ | .schedulerStart _ | .tick | .yield _ | .exit _ | .wait _ | .sleep _ _ | .wakeup _
  | .kill _ _ | .signal _ _ | .sigreturn _ | .sigretFault _ | .deliver _ _ | .ctrlC | .ctrlBWake
  | .ctrlG _ => inferInstanceAs (Decidable True)

/-! ## What other steps do to a gated child -/

/-- The slot that a stretch of fork() works on. -/
def target (k : Kernel) : Event → Option Slot
  | .forkStack c _ => (callOf k c).map ForkCall.np
  | .forkCopy c _ => (callOf k c).map ForkCall.np
  | .forkCommit c => (callOf k c).map ForkCall.np
  | _ => none

theorem callOf_forking {k : Kernel} {c : Cpu} {cur : Slot} {call : ForkCall} {stage : ForkStage}
    (forking : Forking k c cur call stage) : callOf k c = some call := by
  simp [callOf, forking.current, forking.busy]

/-- The child in the slot is neither being built nor started in this step. -/
structure Apart (k : Kernel) (e : Event) (i : Slot) : Prop where
  parked : (k.proc i).state = .EMBRYO ∨
    (k.proc i).state = .CUSTOM_WAIT ∧ ∀ c, e ≠ .schedulerStart c
  off : ∀ c, k.cpu c ≠ some i
  notTarget : target k e ≠ some i
  notShell : e = .ctrlB → shellSlot k.proc ≠ some i
  notMarked : e = .ctrlF →
    (k.proc i).pid ≠ 2 ∧ ¬ ((k.proc i).pid > 2 ∧ (k.proc i).b = 1)

/-- What stays of the record. -/
structure Held (k : Kernel) (e : Event) (i : Slot) (p : Proc) : Prop where
  state : p.state = (k.proc i).state
  pid : p.pid = (k.proc i).pid
  b : e ≠ .ctrlB → p.b = (k.proc i).b

theorem held_change {k : Kernel} {e : Event} {i : Slot} {p p' : Proc} (apart : Apart k e i)
    (held : Held k e i p) (change : Change k e i p p') : Held k e i p' := by
  have state : p.state = .EMBRYO ∨ p.state = .CUSTOM_WAIT ∧ ∀ c, e ≠ .schedulerStart c := by
    rw [held.state]
    exact apart.parked
  have notIn : ∀ other : ProcState, other ≠ .EMBRYO → other ≠ .CUSTOM_WAIT → p.state ≠ other := by
    intro other notEmbryo notWait same
    rcases state with is | ⟨is, _⟩
    · exact notEmbryo (same.symm.trans is)
    · exact notWait (same.symm.trans is)
  cases change with
  | count runnable => exact absurd runnable (notIn _ (by decide) (by decide))
  | start _ runnable => exact absurd runnable (notIn _ (by decide) (by decide))
  | resume _ running => exact absurd running (notIn _ (by decide) (by decide))
  | resleep _ running => exact absurd running (notIn _ (by decide) (by decide))
  | reap _ zombie => exact absurd zombie (notIn _ (by decide) (by decide))
  | wake _ asleep => exact absurd asleep (notIn _ (by decide) (by decide))
  | allocate _ unused => exact absurd unused (notIn _ (by decide) (by decide))
  | yield current | sleep _ current | waitSleep current | finish current | die current
  | signal _ current | sigreturn current | sigretFault current | deliver _ current
  | ctrlG current => exact absurd current (apart.off _)
  | thread => exact ⟨held.state, held.pid, held.b⟩
  | hand => exact ⟨held.state, held.pid, held.b⟩
  | ctrlC => exact ⟨held.state, held.pid, held.b⟩
  | stack _ forking child =>
      exact absurd (by simp [target, callOf_forking forking, child]) apart.notTarget
  | copy _ forking child =>
      exact absurd (by simp [target, callOf_forking forking, child]) apart.notTarget
  | commit forking child =>
      exact absurd (by simp [target, callOf_forking forking, child]) apart.notTarget
  | kill =>
      refine ⟨?_, held.pid, held.b⟩
      dsimp only
      rw [if_neg (notIn _ (by decide) (by decide))]
      exact held.state
  | release gated =>
      rcases state with embryo | ⟨_, notStart⟩
      · rw [embryo] at gated
        cases gated
      · exact absurd rfl (notStart _)
  | mark => exact ⟨held.state, held.pid, fun key => absurd rfl key⟩
  | shell found =>
      rw [TableInv.shellSlot_marked] at found
      exact absurd found (apart.notShell rfl)
  | foreground job marked =>
      rw [held.pid] at job
      rw [held.b (by simp)] at marked
      exact absurd ⟨job, marked⟩ (apart.notMarked rfl).2
  | background shell =>
      rw [held.pid] at shell
      exact absurd shell (apart.notMarked rfl).1

theorem held_step {k next : Kernel} {e : Event} {i : Slot} (apart : Apart k e i)
    (taken : Kernel.step k e = some next) : Held k e i (next.proc i) := by
  have chain := step_chained taken i
  generalize next.proc i = p at chain
  induction chain with
  | refl => exact ⟨rfl, rfl, fun _ => rfl⟩
  | tail _ change ih => exact held_change apart ih change

/-! ## The CPUs -/

/-- No CPU has begun to run a process. -/
def NoNew (k k' : Kernel) : Prop := ∀ c i, k'.cpu c = some i → k.cpu c = some i

theorem noNew_same {k k' : Kernel} (same : k'.cpu = k.cpu) : NoNew k k' := by
  intro c i current
  rwa [same] at current

theorem noNew_sched (k : Kernel) (c : Cpu) (slot : Slot) (p : Proc) :
    NoNew k (sched k c slot p) := by
  intro d i current
  by_cases here : d = c
  · subst here
    simp [sched] at current
  · simpa [sched, here] using current

theorem noNew_wait (k : Kernel) (c : Cpu) (cur : Slot) : NoNew k (wait k c cur) := by
  unfold wait
  split
  · dsimp only
    split
    all_goals exact noNew_same rfl
  · split
    · exact noNew_same rfl
    · exact noNew_sched _ _ _ _

theorem scheduler_cpu {k : Kernel} {c d : Cpu} {i : Slot}
    (current : (scheduler k c).cpu d = some i) :
    k.cpu d = some i ∨ (scan k.proc).chosen = some i := by
  unfold scheduler at current
  generalize entry : ({ k with proc := (scan k.proc).proc } : Kernel) = k₁ at current
  have cpus : k₁.cpu = k.cpu := by rw [← entry]
  cases chosen : (scan k.proc).chosen with
  | none =>
      simp only [chosen, entry, cpus] at current
      exact Or.inl current
  | some j =>
      simp only [chosen, entry] at current
      have started : (dispatch k₁ c j).cpu d = some i → k.cpu d = some i ∨ some j = some i := by
        intro current
        simp only [dispatch, cpus] at current
        by_cases here : d = c
        · subst here
          rw [Function.update_self] at current
          exact Or.inr current
        · rw [Function.update_of_ne here] at current
          exact Or.inl current
      refine started ?_
      rw [← TableInv.switchTo_cpu (dispatch k₁ c j) j]
      split at current
      · exact noNew_wait _ c j d i current
      · exact current

theorem step_cpu {k next : Kernel} {e : Event} (taken : Kernel.step k e = some next) {c : Cpu}
    {i : Slot} (current : next.cpu c = some i) :
    k.cpu c = some i ∨ (∃ d, e = .schedule d) ∧ (scan k.proc).chosen = some i := by
  have old : ∀ {k' : Kernel}, k' = next → NoNew k k' →
      k.cpu c = some i ∨ (∃ d, e = .schedule d) ∧ (scan k.proc).chosen = some i := by
    rintro k' rfl none
    exact Or.inl (none c i current)
  cases kind : moves e with
  | false => exact old rfl (noNew_same (step_still kind taken).cpu)
  | true =>
      obtain ⟨_, taken⟩ := step_some taken
      cases e with
      | schedule d =>
          simp only [act, Option.ite_none_right_eq_some, Option.some.injEq] at taken
          rw [← taken.2] at current
          exact (scheduler_cpu current).imp_right fun chosen => ⟨⟨d, rfl⟩, chosen⟩
      | tick =>
          simp only [act] at taken
          exact old (Option.some.inj taken) (noNew_same rfl)
      | yield d | sleep d chan =>
          simp only [act] at taken
          obtain ⟨p, _, _, same⟩ := onCpu_some taken
          exact old same (noNew_sched _ _ _ _)
      | exit d =>
          simp only [act] at taken
          obtain ⟨p, _, _, same⟩ := onCpu_some taken
          refine old same ?_
          unfold ProcTable.exit
          split
          · exact noNew_same rfl
          · exact noNew_sched _ _ _ _
      | wait d =>
          simp only [act] at taken
          obtain ⟨p, _, _, same⟩ := onCpu_some taken
          exact old same (noNew_wait _ _ _)
      | _ => cases kind

/-! ## The invariant -/

/-- The state that the child is to be in. -/
def Gate.state : Gate → ProcState
  | .building => .EMBRYO
  | .waiting => .CUSTOM_WAIT

structure Child (k : Kernel) (i : Slot) (g : Gate) (pressed : Bool) : Prop where
  off : ∀ c, k.cpu c ≠ some i
  state : (k.proc i).state = g.state
  marked : (k.proc i).b = 1 → pressed = true

def Inv (s : State) : Prop := ∀ i g, s.gate i = some g → Child s.kernel i g (s.pressed i)

theorem Inv.not_picked {s : State} (inv : Inv s) {i : Slot} (gated : s.gate i ≠ none) :
    (scan s.kernel.proc).chosen ≠ some i := by
  obtain ⟨g, gated⟩ := Option.ne_none_iff_exists'.mp gated
  intro chosen
  have runnable := ((Scan.scan_scanned s.kernel.proc).chosen i chosen).1
  rw [(inv i g gated).state] at runnable
  cases g with
  | building => cases runnable
  | waiting => cases runnable

section Steps
variable {s next : State} {e : Event} {kernel : Kernel} {i : Slot} {g : Gate}

theorem pressedAfter_same {k : Kernel} {pressed : Slot → Bool} (notB : e ≠ .ctrlB)
    (used : (k.proc i).state ≠ .UNUSED) : pressedAfter k pressed e i = pressed i := by
  cases e with
  | fork c custom =>
      simp only [pressedAfter]
      cases found : findUnused k.proc with
      | none => rfl
      | some np =>
          have unused := TableInv.findUnused_unused found
          refine Function.update_of_ne (fun same => used ?_) _ _
          rw [same, unused]
  | ctrlB => exact absurd rfl notB
  | _ => rfl

/-- A child that the step is not about. -/
theorem Inv.keep (inv : Inv s) (gated : s.gate i = some g) (apart : Apart s.kernel e i)
    (taken : Kernel.step s.kernel e = some kernel) :
    Child kernel i g (pressedAfter s.kernel s.pressed e i) := by
  have child := inv i g gated
  have held := held_step apart taken
  constructor
  case off =>
    intro c current
    rcases step_cpu taken current with old | ⟨_, chosen⟩
    · exact child.off c old
    · exact inv.not_picked (by simp [gated]) chosen
  case state => exact held.state.trans child.state
  case marked =>
    intro marked
    by_cases key : e = .ctrlB
    · subst key
      rfl
    · rw [held.b key] at marked
      rw [pressedAfter_same key]
      · exact child.marked marked
      · rw [child.state]
        cases g with
        | building => simp [Gate.state]
        | waiting => simp [Gate.state]

theorem Inv.parked (inv : Inv s) (gated : s.gate i = some g)
    (other : g = .building ∨ ∀ c, e ≠ .schedulerStart c) :
    (s.kernel.proc i).state = .EMBRYO ∨
      (s.kernel.proc i).state = .CUSTOM_WAIT ∧ ∀ c, e ≠ .schedulerStart c := by
  rw [(inv i g gated).state]
  cases g with
  | building => exact Or.inl rfl
  | waiting => exact Or.inr ⟨rfl, other.resolve_left (by simp)⟩

/-- The child is apart from a step that is no stretch of its custom_fork() and does not
start it. -/
theorem Inv.apart (inv : Inv s) (safe : GateSafe s e) (gated : s.gate i = some g)
    (other : g = .building ∨ ∀ c, e ≠ .schedulerStart c) (notTarget : target s.kernel e ≠ some i) :
    Apart s.kernel e i where
  parked := inv.parked gated other
  off := (inv i g gated).off
  notTarget := notTarget
  notShell := by
    rintro rfl found
    have free := safe i found
    rw [gated] at free
    cases free
  notMarked := by
    rintro rfl
    exact safe i (by simp [gated])

/-- The stretch of custom_fork() on CPU `c` that the child is built in. -/
theorem Inv.built (inv : Inv s) {c : Cpu} {cur : Slot} {call : ForkCall} {p : Proc}
    {thread : Thread} (current : s.kernel.cpu c = some cur) (gated : s.gate call.np = some .building)
    {g : Gate} (state : p.state = g.state) (b : p.b = (s.kernel.proc call.np).b) :
    Child (forkOn s.kernel cur call p thread) call.np g (s.pressed call.np) := by
  have child := inv call.np _ gated
  have other : call.np ≠ cur := fun same => child.off c (same ▸ current)
  have proc : (forkOn s.kernel cur call p thread).proc call.np = p :=
    (Fresh.forkOn_child other p thread).1
  constructor
  case off => exact child.off
  case state => rw [proc, state]
  case marked =>
    rw [proc, b]
    exact child.marked

theorem fork_inv (inv : Inv s) {c : Cpu} {custom : Option (Int × Int)}
    (safe : GateSafe s (.fork c custom)) (taken : Kernel.step s.kernel (.fork c custom) = some kernel)
    (gated : gateAfter s.kernel s.gate (.fork c custom) i = some g) :
    Child kernel i g (pressedAfter s.kernel s.pressed (.fork c custom) i) := by
  have keep : s.gate i = some g →
      Child kernel i g (pressedAfter s.kernel s.pressed (.fork c custom) i) := fun gated =>
    inv.keep gated (inv.apart safe gated (Or.inr fun _ => by simp) (by simp [target])) taken
  cases found : findUnused s.kernel.proc with
  | none =>
      simp only [gateAfter, found] at gated
      exact keep gated
  | some np =>
      simp only [gateAfter, found] at gated
      by_cases here : i = np
      · subst here
        rw [Function.update_self] at gated
        split at gated
        case isFalse => cases gated
        case isTrue isLate =>
          cases gated
          obtain ⟨unmarked, off⟩ := safe isLate i found
          have forks := (step_some taken).2
          simp only [act] at forks
          obtain ⟨cur, current, _, _⟩ := onCpu_some forks
          have other : i ≠ cur := fun same => off c (same ▸ current)
          have born := (Fresh.fork_step current found other taken).1
          constructor
          case off =>
            intro d current
            rcases step_cpu taken current with old | ⟨⟨_, round⟩, _⟩
            · exact off d old
            · cases round
          case state =>
            rw [born]
            rfl
          case marked =>
            rw [born]
            exact fun marked => absurd marked unmarked
      · rw [Function.update_of_ne here] at gated
        exact keep gated

theorem commitProcess_late {custom : Option (Int × Int)} (isLate : late custom = true) (p : Proc) :
    (commitProcess custom p).state = .CUSTOM_WAIT ∧ (commitProcess custom p).b = p.b := by
  cases custom with
  | none => cases isLate
  | some limits =>
      have chosen : limits.1 ≠ 0 := of_decide_eq_true isLate
      simp [commitProcess, chosen]

/-- A stretch of custom_fork() that may give its slot back. -/
theorem stretch_inv (inv : Inv s) {c : Cpu} {cur : Slot} {call : ForkCall} {page : Option Page}
    {p : Proc} {thread : Thread} (current : s.kernel.cpu c = some cur)
    (busy : callOf s.kernel c = some call) (own : OwnSlot s c)
    (keep : i ≠ call.np → s.gate i = some g →
      Child (forkOn s.kernel cur call p thread) i g (s.pressed i))
    (works : page ≠ none → p.state = (s.kernel.proc call.np).state ∧
      p.b = (s.kernel.proc call.np).b)
    (gated : giveUp s.kernel c page s.gate i = some g) :
    Child (forkOn s.kernel cur call p thread) i g (s.pressed i) := by
  by_cases here : i = call.np
  · subst here
    cases page with
    | none =>
        simp only [giveUp, busy] at gated
        rw [Function.update_self] at gated
        cases gated
    | some page =>
        simp only [giveUp] at gated
        rcases own call busy with free | ⟨building, _⟩
        · rw [gated] at free
          cases free
        · cases gated.symm.trans building
          obtain ⟨state, b⟩ := works (by simp)
          exact inv.built current building (state.trans (inv call.np _ building).state) b
  · refine keep here ?_
    cases page with
    | none =>
        simp only [giveUp, busy] at gated
        rwa [Function.update_of_ne here] at gated
    | some page => exact gated

theorem step_inv (inv : Inv s) (safe : GateSafe s e) (taken : step s e = some next) :
    Inv next ∧ Gated s e next := by
  unfold step at taken
  cases stepped : Kernel.step s.kernel e with
  | none => simp [stepped] at taken
  | some kernel =>
  simp only [stepped, Option.some.injEq] at taken
  subst taken
  have keep : ∀ {i : Slot} {g : Gate}, s.gate i = some g →
      (g = .building ∨ ∀ c, e ≠ .schedulerStart c) → target s.kernel e ≠ some i →
      Child kernel i g (pressedAfter s.kernel s.pressed e i) :=
    fun gated other notTarget => inv.keep gated (inv.apart safe gated other notTarget) stepped
  have acted := (step_some stepped).2
  cases e with
  | fork c custom => exact ⟨fun i g gated => fork_inv inv safe stepped gated, trivial⟩
  | forkStack c page =>
      simp only [act] at acted
      obtain ⟨cur, call, current, busy, stage, rfl⟩ := inFork_some acted
      have calls := callOf_forking ⟨current, busy, stage⟩
      refine ⟨fun i g gated => ?_, trivial⟩
      refine stretch_inv inv current calls safe (fun other gated => ?_) (fun works => ?_) gated
      · exact keep gated (Or.inr fun _ => by simp) (by simp [target, calls, other.symm])
      · cases page with
        | none => exact absurd rfl works
        | some page => exact ⟨rfl, rfl⟩
  | forkCopy c page =>
      simp only [act] at acted
      obtain ⟨cur, call, current, busy, stage, rfl⟩ := inFork_some acted
      have calls := callOf_forking ⟨current, busy, stage⟩
      refine ⟨fun i g gated => ?_, trivial⟩
      refine stretch_inv inv current calls safe (fun other gated => ?_) (fun works => ?_) gated
      · exact keep gated (Or.inr fun _ => by simp) (by simp [target, calls, other.symm])
      · cases page with
        | none => exact absurd rfl works
        | some page =>
            unfold copyProcess
            dsimp only
            split
            all_goals exact ⟨rfl, rfl⟩
  | forkCommit c =>
      simp only [act] at acted
      obtain ⟨cur, call, current, busy, stage, rfl⟩ := inFork_some acted
      have calls := callOf_forking ⟨current, busy, stage⟩
      refine ⟨fun i g gated => ?_, trivial⟩
      simp only [gateAfter, calls] at gated
      by_cases here : i = call.np
      · subst here
        rw [Function.update_self, Option.map_eq_some_iff] at gated
        obtain ⟨old, gated, rfl⟩ := gated
        rcases safe call calls with free | ⟨building, isLate⟩
        · rw [gated] at free
          cases free
        · obtain ⟨state, b⟩ := commitProcess_late isLate (s.kernel.proc call.np)
          exact inv.built current building state b
      · rw [Function.update_of_ne here] at gated
        exact keep gated (Or.inr fun _ => by simp) (by simp [target, calls, Ne.symm here])
  | schedule c =>
      refine ⟨fun i g gated => ?_, fun i gated => inv.not_picked gated⟩
      exact keep gated (Or.inr fun _ => by simp) (by simp [target])
  | schedulerStart c =>
      refine ⟨fun i g gated => ?_, fun i gated => ?_⟩
      · simp only [gateAfter] at gated
        split at gated
        · cases gated
        · rename_i notWaiting
          refine keep gated (Or.inl ?_) (by simp [target])
          cases g with
          | building => rfl
          | waiting => exact absurd gated notWaiting
      · have child := inv i _ gated
        have waits : (s.kernel.proc i).state = .CUSTOM_WAIT := child.state
        simp only [act] at acted
        obtain ⟨cur, _, _, rfl⟩ := onCpu_some acted
        have started : sys_scheduler_start s.kernel.proc i =
            { s.kernel.proc i with state := .RUNNABLE } := by
          unfold sys_scheduler_start
          rw [if_pos waits]
        dsimp only
        rw [started]
        exact ⟨rfl, child.marked⟩
  | _ =>
      refine ⟨fun i g gated => ?_, trivial⟩
      exact keep gated (Or.inr fun _ => by simp) (by simp [target])

end Steps

theorem boot_inv : Inv boot := by
  intro i g gated
  cases gated

/-- In every run in which the keys find no gated child to write a state to, and the
slots of the gated children are their own, no such child is dispatched before
sys_scheduler_start(), and all are RUNNABLE after it. -/
theorem start_later_gated (es : List Event) (safe : Guarded step GateSafe boot es) :
    Stepwise step Gated boot es := by
  have kept : ∀ s e next, Inv s → GateSafe s e → step s e = some next →
      Inv next ∧ Gated s e next := fun _ _ _ inv safe taken => step_inv inv safe taken
  exact stepwise_of_guarded step kept es boot boot_inv safe

/-- The shell creates a job that waits. -/
def lateRun : List Event :=
  [.schedule cpu0] ++ forkEvents cpu0 none 3 4 ++ [.wait cpu0, .schedule cpu0] ++
    forkEvents cpu0 (some (1, 0)) 5 6

/-- The shell starts the job, and waits for it. -/
def startedRun : List Event := lateRun ++ [.schedulerStart cpu0, .wait cpu0, .schedule cpu0]

theorem startedRun_gated : Stepwise step Gated boot startedRun :=
  start_later_gated startedRun (by decide +kernel)

/-- Ctrl-B and Ctrl-F are pressed before the shell starts the job, and it sleeps. -/
def resumedRun : List Event :=
  lateRun ++ [.ctrlB, .ctrlBWake, .ctrlF, .sleep cpu0 (.addr 1), .schedule cpu0]

theorem resumedRun_ungated : ¬ ∀ es : List Event, Stepwise step Gated boot es := by
  intro gated
  exact absurd (gated resumedRun) (by decide +kernel)

end Xv6.Public2.StartLater
