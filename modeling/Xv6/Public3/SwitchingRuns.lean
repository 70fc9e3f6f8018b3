import Xv6.Lib.Simulation
import Xv6.Public3.SwitchingSteps

/-!
# Runs of the CPUs (proc.c of xv6-public_3)

fork() outside of the lock, and what holds of all runs: nobody but an exiting init
panics, a process runs on one CPU at a time, and the table is one that the events of
exit() and wait() lead to.
-/

set_option autoImplicit false

namespace Xv6.Public3.Switching

open Xv6.Public3.ExitWait
open Xv6.Lib.Runs
open Xv6.Lib.Simulation

/-! ## fork() outside of the lock -/

section Forks

variable {m : Machine} {c : Cpu} {cur np : Slot}

/-- A stretch of fork() by the process on CPU `c`, which is outside of the lock. -/
theorem Inv.forks (inv : Inv m) (point : (m.core c).point = .outside)
    (current : m.kernel.cpu c = some cur) {stage : ForkStage}
    (busy : (m.kernel.proc cur).thread = .forking np stage) {p : Proc} {thread : Thread}
    {context : Slot → Context} (elsewhere : ∀ i, i ≠ np → context i = m.context i)
    (child : Turned (context np) (m.kernel.proc np) p) (awake : Suits thread .yield)
    (fresh : m.context np = .forkret → context np = .forkret)
    (mine : ∀ n stage, thread = .forking n stage → n = np ∧ p.thread = .user ∧
      context np = .forkret) :
    Sits { m.store (forkOn m.kernel cur np p thread) with context := context } := by
  have apart := inv.apart current busy
  obtain ⟨here, there⟩ := @forkOn_here m.kernel cur np apart p thread
  have embryo := (inv.table.forks.forking cur np stage busy).2.state
  refine ⟨inv.quiet, fun d => ?_, ?_⟩
  · refine (inv.places d).kept Iff.rfl rfl rfl fun inside => ⟨rfl, fun q on => ?_⟩
    have other : q ≠ cur := by
      rintro rfl
      rw [inv.single on current] at inside
      exact inside point
    have other' : q ≠ np := (inv.apart on busy).symm
    show (forkOn m.kernel cur np p thread).proc q = _
    simp [forkOn, Kernel.set, other, other']
  · refine (inv.threads.others cur).turned current rfl (fun i away off => ?_)
      (fun i away => ?_) (fun _ => ?_) (fun n stage born => ?_) fun q n stage away born => ?_
    · refine elsewhere i ?_
      rintro rfl
      rcases off with off | off
      · exact ProcState.noConfusion (embryo.symm.trans off)
      · exact ProcState.noConfusion (embryo.symm.trans off)
    · exact forkOn_turned apart child i away
    · show Suits ((forkOn m.kernel cur np p thread).proc cur).thread .yield
      rw [here]
      exact awake
    · have born' : ((forkOn m.kernel cur np p thread).proc cur).thread = .forking n stage := born
      rw [here] at born'
      obtain ⟨rfl, user, ready⟩ := mine n stage born'
      refine ⟨?_, fun _ => ready⟩
      show ((forkOn m.kernel cur n p thread).proc n).thread = .user
      rw [there]
      exact user
    · refine ⟨inv.apart current born, fun ready => ?_⟩
      by_cases same : n = np
      · subst same
        exact fresh ready
      · exact (elsewhere n same).trans ready

theorem Inv.dead (inv : Inv m) {stage : ForkStage}
    (busy : (m.kernel.proc cur).thread = .forking np stage) :
    phase (m.kernel.proc np).state ≠ .living := by
  have embryo : (m.kernel.proc np).state = .EMBRYO :=
    (inv.table.forks.forking cur np stage busy).2.state
  rw [embryo]
  exact Lib.Families.Phase.noConfusion

theorem Inv.forkStack (inv : Inv m) (point : (m.core c).point = .outside)
    (current : m.kernel.cpu c = some cur)
    (busy : (m.kernel.proc cur).thread = .forking np .allocated) (kalloc : Bool) :
    Sits (Switching.forkStack m kalloc cur np) := by
  obtain ⟨user, _⟩ := inv.threads.embryo cur np .allocated busy
  cases kalloc with
  | true =>
      have ready : Function.update m.context np .forkret np = .forkret := Function.update_self ..
      refine inv.forks point current busy (fun i away => Function.update_of_ne away _ _)
        (.refl _ _) ⟨Thread.noConfusion, Thread.noConfusion⟩ (fun _ => ready) fun n stage born => ?_
      cases born
      exact ⟨rfl, user, ready⟩
  | false =>
      refine inv.forks point current busy (fun i away => rfl)
        (.gone rfl rfl (inv.dead busy)) (suits_user rfl) id fun n stage born => ?_
      cases born

theorem Inv.forkCopy (inv : Inv m) (point : (m.core c).point = .outside)
    (current : m.kernel.cpu c = some cur)
    (busy : (m.kernel.proc cur).thread = .forking np .stacked) (copyuvm : Bool) :
    Sits (m.store (ExitWait.forkCopy copyuvm m.kernel cur np)) := by
  obtain ⟨user, ready⟩ := inv.threads.embryo cur np .stacked busy
  cases copyuvm with
  | true =>
      refine inv.forks point current busy (fun i away => rfl) (.of_state rfl id id id)
        ⟨Thread.noConfusion, Thread.noConfusion⟩ id fun n stage born => ?_
      cases born
      exact ⟨rfl, user, ready ForkStage.noConfusion⟩
  | false =>
      refine inv.forks point current busy (fun i away => rfl)
        (.gone rfl rfl (inv.dead busy)) (suits_user rfl) id fun n stage born => ?_
      cases born

theorem view_forks (point : (m.core c).point = .outside)
    (current : m.kernel.cpu c = some cur) {stage : ForkStage}
    (busy : (m.kernel.proc cur).thread = .forking np stage) (act : Slot → Slot → Kernel) :
    inFork (view m) c stage act = some (act cur np) := by
  have on : (view m).cpu c = some cur := (view_cpu m c (by rw [point]; rfl)).trans current
  exact @inFork_eq c (view m) cur np stage on busy _

end Forks

/-! ## A step -/

section Step

variable {m m' : Machine} {c : Cpu}

/-- What the table sees of a step: nothing, or an event. -/
def Seen (m m' : Machine) : Prop :=
  view m' = view m ∨ ∃ e, ExitWait.step (view m) e = some (view m')

/-- A step, unless init exits. -/
def Goes (m' : Machine) : Prop := m'.panicked = some .initExiting ∨ Sits m'

theorem goes_of_same (same : Sits m' ∧ view m' = view m) : Goes m' ∧ Seen m m' :=
  ⟨Or.inr same.1, Or.inl same.2⟩

/-- A turn of the loop of scheduler(). -/
theorem Inv.goes_turn (inv : Inv m) {n : Nat} (point : (m.core c).point = .scan n) (p : Slot) :
    Goes (turn m c p) ∧ Seen m (turn m c p) := by
  unfold turn
  split
  · have level := (inv.places c).level
    unfold Level at level
    rw [point] at level
    refine goes_of_same ?_
    rw [Machine.goto, setCore_lock]
    refine inv.core (fun d _ => Iff.rfl) ?_ level (inv.none_here point) (point ▸ rfl)
    exact iff_of_true (inv.held point Point.noConfusion) Point.noConfusion
  · rename_i runnable
    have runnable := not_not.mp runnable
    exact ⟨Or.inr (inv.chooses point runnable).2.1, Or.inr ⟨_, inv.view_chooses point runnable⟩⟩

theorem Inv.goes_go (inv : Inv m) (taken : go m c = some m') : Goes m' ∧ Seen m m' := by
  unfold go at taken
  have level := (inv.places c).level
  unfold Level at level
  cases point : (m.core c).point with
  | outside => simp [point] at taken
  | inside call =>
      cases current : m.kernel.cpu c with
      | none => simp [point, current] at taken
      | some p =>
          simp only [point, current, Option.some.injEq] at taken
          subst taken
          exact ⟨Or.inr (inv.calls point current).2.1, Or.inr ⟨_, inv.view_calls point current⟩⟩
  | waking chan =>
      simp only [point, Option.some.injEq] at taken
      subst taken
      refine ⟨Or.inr (inv.wakes point), Or.inr ⟨.wakeup chan, inv.taken ?_⟩⟩
      have held := inv.held point Point.noConfusion
      rw [inv.view_here point Point.noConfusion rfl, Machine.goto,
        view_store (fun d away => inv.outside held away) inv.quiet]
      rfl
  | leaving caller =>
      cases current : m.kernel.cpu c with
      | none => simp [point, current] at taken
      | some p =>
          simp only [point, current, Option.some.injEq] at taken
          subst taken
          exact goes_of_same (inv.leaves point current)
  | done =>
      simp only [point, Option.some.injEq] at taken
      subst taken
      rw [point] at level
      exact goes_of_same (inv.released (inv.held point Point.noConfusion) level (point ▸ rfl))
  | scan n =>
      have none_here := inv.none_here point
      rw [point] at level
      simp only [point, none_here, Option.some.injEq] at taken
      subst taken
      split
      · exact inv.goes_turn point _
      · exact goes_of_same (inv.released (inv.held point Point.noConfusion)
          ⟨level.1, level.2 ▸ Nat.one_pos⟩ (point ▸ rfl))

/-- A process asks for the lock. -/
theorem Inv.goes_acquire (inv : Inv m) {call : Call} {p : Slot}
    (point : (m.core c).point = .outside) (current : m.kernel.cpu c = some p)
    (allowed : call.allowed (m.core c).ncli (m.kernel.proc p).thread = true)
    (other : ¬(call = .exit ∧ p = m.kernel.initproc))
    (taken : acquire m c (.inside call) = some m') : Sits m' ∧ view m' = view m := by
  refine inv.acquired point taken Point.noConfusion rfl ?_ ⟨p, current, ?_⟩
  · cases call
    all_goals simp [Call.allowed] at allowed
    case fork =>
      cases thread : (m.kernel.proc p).thread <;> simp [thread] at allowed
      rename_i np stage
      cases stage <;> simp at allowed
      exact ⟨rfl, congrArg (· + 1) allowed⟩
    case sleep => exact ⟨rfl, congrArg (· + 1) allowed.1⟩
    case yield => exact ⟨rfl, congrArg (· + 1) allowed⟩
    all_goals exact ⟨rfl, congrArg (· + 1) allowed.1⟩
  · cases call
    all_goals simp [Call.allowed] at allowed
    case fork =>
      cases thread : (m.kernel.proc p).thread <;> simp [thread] at allowed
      rename_i np stage
      cases stage <;> simp at allowed
      exact ⟨np, thread⟩
    case exit => exact ⟨allowed.2, fun same => other ⟨rfl, same⟩⟩
    case yield => trivial
    all_goals exact allowed.2

/-- init exits. -/
theorem Inv.exits (inv : Inv m) (point : (m.core c).point = .outside)
    (current : m.kernel.cpu c = some m.kernel.initproc)
    (user : (m.kernel.proc m.kernel.initproc).thread = .user) :
    ExitWait.step (view m) (.exit c) = some (view (m.fail .initExiting)) := by
  have on : (view m).cpu c = some m.kernel.initproc :=
    (view_cpu m c (by rw [point]; rfl)).trans current
  have allowed : inUser ((view m).proc m.kernel.initproc) = true := decide_eq_true user
  refine inv.taken ((onCpu_eq on allowed _).trans ?_)
  exact congrArg some (if_pos rfl)

theorem Inv.goes_act (inv : Inv m) {e : Event} (taken : act m e = some m') :
    Goes m' ∧ Seen m m' := by
  cases e with
  | interrupt c =>
      simp only [act, Option.ite_none_right_eq_some, Option.some.injEq] at taken
      obtain ⟨on, rfl⟩ := taken
      have point := (inv.interrupt on).1
      exact goes_of_same (inv.outer point point fun off => absurd off Bool.false_ne_true)
  | sti c =>
      simp only [act, Option.ite_none_right_eq_some, Option.some.injEq] at taken
      obtain ⟨⟨point, depth⟩, rfl⟩ := taken
      exact goes_of_same (inv.outer point point fun _ => depth)
  | pushcli c =>
      simp only [act, Option.ite_none_right_eq_some, Option.some.injEq] at taken
      obtain ⟨point, rfl⟩ := taken
      exact goes_of_same (inv.outer point point fun off => absurd off Bool.false_ne_true)
  | popcli c =>
      simp only [act, Option.ite_none_right_eq_some, Option.some.injEq] at taken
      obtain ⟨⟨point, deep⟩, rfl⟩ := taken
      obtain ⟨n, depth⟩ := Nat.exists_eq_succ_of_ne_zero (Nat.ne_of_gt deep)
      have off : (m.core c).interrupts = false := by
        by_contra on
        exact absurd (inv.interrupt (Bool.not_eq_false _ ▸ on)).2 (Nat.ne_of_gt deep)
      rw [popcli_eq off depth]
      refine goes_of_same (inv.outer point point fun on => ?_)
      simp only [Bool.and_eq_true, decide_eq_true_eq] at on
      exact on.1
  | acquire c call =>
      cases current : m.kernel.cpu c with
      | none => simp [act, current] at taken
      | some p =>
          simp only [act, current, Option.ite_none_right_eq_some] at taken
          obtain ⟨⟨point, allowed⟩, taken⟩ := taken
          split at taken
          · rename_i exits
            obtain ⟨rfl, rfl⟩ := exits
            cases taken
            simp only [Call.allowed, decide_eq_true_eq] at allowed
            exact ⟨Or.inl rfl, Or.inr ⟨_, inv.exits point current allowed.2⟩⟩
          · rename_i other
            exact goes_of_same (inv.goes_acquire point current allowed other taken)
  | wakeup c chan =>
      simp only [act, Option.ite_none_right_eq_some] at taken
      obtain ⟨point, taken⟩ := taken
      exact goes_of_same (inv.acquired point taken Point.noConfusion rfl
        ⟨rfl, Nat.succ_pos _⟩ trivial)
  | schedule c =>
      simp only [act, Option.ite_none_right_eq_some] at taken
      obtain ⟨⟨point, nobody, on⟩, taken⟩ := taken
      exact goes_of_same (inv.acquired point taken Point.noConfusion rfl
        ⟨rfl, congrArg (· + 1) (inv.interrupt on).2⟩ nobody)
  | go c => exact inv.goes_go taken
  | forkStack c kalloc =>
      cases current : m.kernel.cpu c with
      | none => simp [act, current] at taken
      | some p =>
          simp only [act, current] at taken
          split at taken
          · rename_i np point busy
            cases taken
            refine ⟨Or.inr (inv.forkStack point current busy kalloc),
              Or.inr ⟨.forkStack c kalloc, inv.taken ?_⟩⟩
            refine (view_forks point current busy _).trans ?_
            cases kalloc <;> rfl
          · cases taken
  | forkCopy c copyuvm =>
      cases current : m.kernel.cpu c with
      | none => simp [act, current] at taken
      | some p =>
          simp only [act, current] at taken
          split at taken
          · rename_i np point busy
            cases taken
            refine ⟨Or.inr (inv.forkCopy point current busy copyuvm),
              Or.inr ⟨.forkCopy c copyuvm, inv.taken ?_⟩⟩
            refine (view_forks point current busy _).trans ?_
            cases copyuvm <;> rfl
          · cases taken

theorem Inv.goes (inv : Inv m) {e : Event} (taken : step m e = some m') :
    (m'.panicked = some .initExiting ∨ Inv m') ∧ Seen m m' := by
  unfold step at taken
  rw [if_pos inv.quiet] at taken
  obtain ⟨goes, seen⟩ := inv.goes_act taken
  refine ⟨goes.imp_right fun sits => ⟨?_, sits.quiet, sits.places, sits.threads⟩, seen⟩
  rcases seen with same | ⟨e, event⟩
  · rw [same]
    exact inv.table
  · exact ExitWait.step_inv (view m) e (view m') inv.table event

end Step

/-! ## Runs -/

/-- init has exited, or nothing has gone wrong. -/
def Stands (m : Machine) : Prop := m.panicked = some .initExiting ∨ Inv m

theorem step_panicked {m m' : Machine} {e : Event} (taken : step m e = some m') :
    m.panicked = none := by
  unfold step at taken
  split at taken
  · assumption
  · cases taken

theorem step_stands (m : Machine) (e : Event) (m' : Machine) (stands : Stands m)
    (taken : step m e = some m') : Stands m' ∧ Seen m m' := by
  rcases stands with panicked | inv
  · rw [step_panicked taken] at panicked
    cases panicked
  · exact inv.goes taken

theorem boot_table : view boot = ExitWait.boot := rfl

theorem boot_stands : Stands boot := by
  refine Or.inr ⟨boot_table ▸ ExitWait.boot_inv, rfl, fun c => ?_, ?_⟩
  · exact ⟨iff_of_false (Option.some_ne_none c).symm fun inside => inside rfl,
      fun on => absurd on Bool.false_ne_true, trivial⟩
  · have thread : ∀ p, (boot.kernel.proc p).thread = .user := by
      intro p
      by_cases first : p = firstSlot
      · rw [first]
        exact congrArg Proc.thread boot_first
      · exact congrArg Proc.thread (boot_other p first)
    constructor
    case running =>
      intro p running
      by_cases first : p = firstSlot
      · rw [first] at running
        exact absurd ((congrArg Proc.state boot_first).symm.trans running) ProcState.noConfusion
      · exact absurd ((congrArg Proc.state (boot_other p first)).symm.trans running)
          ProcState.noConfusion
    case saved => exact fun p _ _ => suits_user (thread p)
    case embryo =>
      intro p np stage busy
      rw [thread p] at busy
      cases busy

/-- What holds of the CPUs, the processes and ptable.lock. -/
structure Sound (m : Machine) : Prop where
  quiet : m.panicked = none
  single : ∀ c d p, m.kernel.cpu c = some p → m.kernel.cpu d = some p → c = d
  running : ∀ p, (m.kernel.proc p).state = .RUNNING → ∃ c, m.kernel.cpu c = some p
  current : ∀ c p, m.kernel.cpu c = some p → (m.kernel.proc p).state = .RUNNING ∨
    ∃ caller, (m.core c).point = .leaving caller
  held : ∀ c, m.lock = some c ↔ (m.core c).point ≠ .outside
  off : ∀ c, m.lock = some c → (m.core c).interrupts = false

theorem Inv.sound {m : Machine} (inv : Inv m) : Sound m where
  quiet := inv.quiet
  single := fun _ _ _ here there => inv.single here there
  running := fun p running => (inv.threads.running p running).1
  current := fun _ _ on => (inv.state on).imp_right fun ⟨caller, point, _⟩ => ⟨caller, point⟩
  held := fun c => (inv.places c).held
  off := by
    intro c held
    have inside := (inv.places c).held.mp held
    cases on : (m.core c).interrupts with
    | false => rfl
    | true => exact absurd (inv.interrupt on).1 inside

/-- In every run of the CPUs nothing panics but exit() of init, and up to there every process
that is RUNNING is on one CPU and the critical sections exclude each other. -/
theorem switching_sound (es : List Event) :
    Always step (fun m => m.panicked = some .initExiting ∨ Sound m) boot es :=
  always_of_invariant step (fun _ stands => stands.imp_right Inv.sound)
    (fun m e m' stands taken => (step_stands m e m' stands taken).1) es boot boot_stands

theorem step_simulates : Simulates step ExitWait.step fun m k => Stands m ∧ view m = k := by
  rintro m _ e m' ⟨stands, rfl⟩ taken
  obtain ⟨after, seen⟩ := step_stands m e m' stands taken
  obtain ⟨es, ran⟩ := @seen_of_cases _ _ ExitWait.step _ _ seen
  exact ⟨es, view m', ran, after, rfl⟩

/-- The table under the lock is the table of exit() and wait() without it. -/
theorem switching_refines (es : List Event) :
    Always step (fun m => Reachable ExitWait.step ExitWait.boot (view m)) boot es := by
  have simulated := always_simulated step_simulates ⟨[], rfl⟩ ⟨boot_stands, boot_table⟩ es
  refine always_mono step ?_ es boot simulated
  rintro m ⟨k, reached, _, rfl⟩
  exact reached

end Xv6.Public3.Switching
