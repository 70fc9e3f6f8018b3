import Xv6.Public3.SwitchingRuns

/-!
# The interrupt flag of a thread (proc.c of xv6-public_3)

sched() saves `intena` on the stack of the process and stores it on the CPU that resumes
it.  A process that gives up its CPU and goes on, perhaps on another one, finds its
interrupts as they were.
-/

set_option autoImplicit false

namespace Xv6.Public3.Switching

open Xv6.Public3.ExitWait
open Xv6.Lib.Runs

/-- What the flag will be when all locks are released. -/
def Core.flag (r : Core) : Bool := if r.ncli = 0 then r.interrupts else r.intena

/-- The process itself changes its flag, or exits. -/
def Sets (m : Machine) (p : Slot) : Event → Prop
  | .interrupt c | .sti c => m.kernel.cpu c = some p
  | .go c => m.kernel.cpu c = some p ∧ (m.core c).point = .inside .exit
  | _ => False

/-- Where the flag of a process is kept. -/
structure Keeps (m : Machine) (p : Slot) (flag : Bool) : Prop where
  living : phase (m.kernel.proc p).state = .living
  here : ∀ c, m.kernel.cpu c = some p → (m.core c).flag = flag
  saved : (∀ c, m.kernel.cpu c ≠ some p) → ∃ caller, m.context p = .sched flag caller

/-! ## One CPU -/

theorem pushcli_flag (r : Core) : r.pushcli.flag = r.flag := by
  unfold Core.flag Core.pushcli
  simp

theorem pop_flag {r : Core} {n : Nat} (depth : r.ncli = n + 1) (point : Point) :
    Core.flag { r with
      point := point
      ncli := n
      interrupts := decide (n = 0) && r.intena } = r.flag := by
  unfold Core.flag
  rw [depth]
  by_cases last : n = 0
  · simp [last]
  · simp [last]

theorem Level.flag {r : Core} (level : Level r) (inside : r.point ≠ .outside) :
    r.flag = r.intena := by
  have deep : r.ncli ≠ 0 := by
    unfold Level at level
    split at level
    · contradiction
    all_goals omega
  exact if_neg deep

section Steps

variable {m m' : Machine} {c : Cpu} {p : Slot} {flag : Bool}

/-- A step that leaves the table and the stacks alone. -/
theorem Keeps.core (keeps : Keeps m p flag) (kernel : m'.kernel = m.kernel)
    (context : m'.context = m.context) (others : ∀ d, d ≠ c → m'.core d = m.core d)
    (same : m.kernel.cpu c = some p → (m'.core c).flag = (m.core c).flag) : Keeps m' p flag := by
  constructor
  all_goals rw [kernel]
  case living => exact keeps.living
  case here =>
    intro d on
    by_cases away : d = c
    · subst away
      rw [same on]
      exact keeps.here d on
    · rw [others d away]
      exact keeps.here d on
  case saved => rw [context]; exact keeps.saved

theorem Keeps.setCore (keeps : Keeps m p flag) {r : Core} {lock : Option Cpu}
    (same : m.kernel.cpu c = some p → r.flag = (m.core c).flag) :
    Keeps { m.setCore c r with lock := lock } p flag := by
  have core : (m.setCore c r).core c = r := Function.update_self ..
  refine keeps.core rfl rfl (fun d away => Function.update_of_ne away _ _) fun on => ?_
  exact (congrArg Core.flag core).trans (same on)

/-- A stretch under the lock by `cur`. -/
theorem Keeps.did {cur : Slot} (keeps : Keeps m p flag) (did : Did m c cur m')
    (same : (m'.core c).flag = (m.core c).flag)
    (living : p = cur → phase (m'.kernel.proc p).state = .living) : Keeps m' p flag := by
  constructor
  case living =>
    by_cases here : p = cur
    · exact living here
    · exact (did.turned p here).living keeps.living
  case here =>
    rw [did.cpu]
    intro d on
    by_cases away : d = c
    · subst away
      rw [same]
      exact keeps.here d on
    · rw [did.others d away]
      exact keeps.here d on
  case saved => rw [did.cpu, did.context]; exact keeps.saved

/-! ## The lock -/

theorem wait_core (m : Machine) (c : Cpu) (cur : Slot) : ∃ point,
    (wait m c cur).core c = { m.core c with point := point } ∧ point ≠ .leaving .exit := by
  unfold wait
  dsimp only
  cases waitStop m.kernel.proc cur with
  | some i => exact ⟨.done, Function.update_self .., Point.noConfusion⟩
  | none =>
      dsimp only
      split
      · exact ⟨.done, Function.update_self .., Point.noConfusion⟩
      · exact ⟨.leaving .wait, Function.update_self .., by simp⟩

theorem body_core {cur : Slot} {call : Call} (point : (m.core c).point = .inside call)
    (level : Level (m.core c)) : ((body m c cur call).core c).intena = (m.core c).intena ∧
      (call ≠ .exit → ((body m c cur call).core c).point ≠ .leaving .exit) := by
  unfold Level at level
  rw [point] at level
  have moved : ∀ (k : Kernel) (next : Point), next ≠ .leaving .exit →
      (((m.store k).goto c next).core c).intena = (m.core c).intena ∧
        (call ≠ .exit → (((m.store k).goto c next).core c).point ≠ .leaving .exit) := by
    intro k next other
    rw [goto_core]
    exact ⟨rfl, fun _ => other⟩
  cases call with
  | yield => exact moved _ _ (by simp)
  | exit =>
      rw [body, goto_core]
      exact ⟨rfl, fun other => absurd rfl other⟩
  | wait =>
      obtain ⟨next, core, other⟩ := wait_core m c cur
      rw [body, core]
      exact ⟨rfl, fun _ => other⟩
  | sleep chan =>
      have core : ∀ (k : Kernel) (r : Core), ((m.store k).setCore c r).core c = r :=
        fun k r => Function.update_self ..
      rw [sleep_eq chan level, core]
      exact ⟨rfl, fun _ => by simp⟩
  | kill pid => exact moved _ _ Point.noConfusion
  | allocproc => exact moved _ _ Point.noConfusion
  | fork => exact moved _ _ Point.noConfusion

theorem Keeps.calls {cur : Slot} {call : Call} (keeps : Keeps m p flag) (inv : Inv m)
    (point : (m.core c).point = .inside call) (current : m.kernel.cpu c = some cur)
    (own : ¬ Sets m p (.go c)) : Keeps (body m c cur call) p flag := by
  have did := (inv.calls point current).1
  have level := (inv.places c).level
  obtain ⟨intena, stays⟩ := @body_core m c cur call point level
  have inside : ((body m c cur call).core c).point ≠ .outside := by
    rcases did.ends with ⟨point, _, _⟩ | ⟨caller, point, _⟩
    all_goals rw [point]; exact Point.noConfusion
  refine keeps.did did ?_ fun here => ?_
  · rw [did.level.flag inside, level.flag (point ▸ Point.noConfusion), intena]
  · subst here
    have other : call ≠ .exit := by
      rintro rfl
      exact own ⟨current, point⟩
    rcases did.ends with ⟨_, running, _⟩ | ⟨caller, leaving, left⟩
    · rw [running]
      rfl
    · cases caller with
      | exit => exact absurd leaving (stays other)
      | yield => rw [left.1]; rfl
      | sleep => rw [left.1]; rfl
      | wait => rw [left.1]; rfl

theorem Keeps.leaves {cur : Slot} {caller : Caller} (keeps : Keeps m p flag) (inv : Inv m)
    (point : (m.core c).point = .leaving caller) (current : m.kernel.cpu c = some cur) :
    Keeps (sched m c cur caller) p flag := by
  have held := inv.held point Point.noConfusion
  have level := (inv.places c).level
  have who := (inv.places c).who
  have kept := level.flag (point ▸ Point.noConfusion)
  unfold Level at level
  rw [point] at level who
  obtain ⟨q, same, left⟩ := who
  rw [current] at same
  cases same
  obtain ⟨_, gone, others⟩ := swtched_core m c cur caller
  rw [sched_eq held level left]
  constructor
  case living => exact keeps.living
  case here =>
    intro d on
    have away : d ≠ c := by
      rintro rfl
      rw [gone] at on
      cases on
    rw [(others d away).1]
    exact keeps.here d ((others d away).2.symm.trans on)
  case saved =>
    intro away
    by_cases here : p = cur
    · subst here
      have saved : (swtched m c p caller).context p = .sched (m.core c).intena caller :=
        Function.update_self ..
      rw [saved, ← keeps.here c current, kept]
      exact ⟨caller, rfl⟩
    · have same : (swtched m c cur caller).context p = m.context p :=
        Function.update_of_ne here _ _
      rw [same]
      refine keeps.saved fun d on => ?_
      by_cases same : d = c
      · rw [same, current] at on
        exact here (Option.some.inj on).symm
      · exact away d ((others d same).2.trans on)

theorem resumed_core (start : (m.core c).point ≠ .leaving .exit) :
    ((resumed m c p).core c).point ≠ .leaving .exit ∧
      ∀ intena caller, m.context p = .sched intena caller →
        ((resumed m c p).core c).intena = intena := by
  unfold resumed
  cases context : m.context p with
  | forkret =>
      dsimp only
      rw [goto_core]
      exact ⟨Point.noConfusion, fun _ _ saved => Context.noConfusion saved⟩
  | sched intena caller =>
      have core : (m.setCore c { m.core c with intena := intena }).core c =
          { m.core c with intena := intena } := Function.update_self ..
      have here : ∀ i caller', Context.sched intena caller = .sched i caller' → intena = i := by
        intro i caller' same
        cases same
        rfl
      dsimp only
      cases caller with
      | yield =>
          dsimp only
          rw [goto_core, core]
          exact ⟨Point.noConfusion, here⟩
      | sleep =>
          dsimp only
          rw [goto_core]
          exact ⟨Point.noConfusion, fun i caller' same =>
            (congrArg Core.intena core).trans (here i caller' same)⟩
      | wait =>
          obtain ⟨next, same, other⟩ := wait_core ((m.setCore c
            { m.core c with intena := intena }).store
              (m.kernel.set p { m.kernel.proc p with chan := none })) c p
          refine ⟨fun leaving => ?_, fun i caller' saved => ?_⟩
          · exact other ((congrArg Core.point same).symm.trans leaving)
          · have kept : ((m.setCore c { m.core c with intena := intena }).core c).intena = intena :=
              congrArg Core.intena core
            exact (congrArg Core.intena same).trans (kept.trans (here i caller' saved))
      | exit =>
          refine ⟨fun leaving => ?_, fun i caller' saved => ?_⟩
          · exact start ((congrArg Core.point core).symm.trans leaving)
          · exact (congrArg Core.intena core).trans (here i caller' saved)

theorem Keeps.chooses {q : Slot} {n : Nat} (keeps : Keeps m p flag) (inv : Inv m)
    (point : (m.core c).point = .scan n) (runnable : (m.kernel.proc q).state = .RUNNABLE) :
    Keeps (resumed (chosen m c q) c q) p flag := by
  obtain ⟨did, _, _⟩ := inv.chooses point runnable
  have core : (chosen m c q).core c = { m.core c with slot := q } := Function.update_self ..
  have start : ((chosen m c q).core c).point ≠ .leaving .exit := by
    rw [core, point]
    exact Point.noConfusion
  obtain ⟨stays, intena⟩ := @resumed_core (chosen m c q) c q start
  have inside : ((resumed (chosen m c q) c q).core c).point ≠ .outside := by
    rcases did.ends with ⟨point, _, _⟩ | ⟨caller, point, _⟩
    all_goals rw [point]; exact Point.noConfusion
  have here : (chosen m c q).kernel.cpu c = some q := Function.update_self ..
  have there : ∀ d, d ≠ c → (chosen m c q).kernel.cpu d = m.kernel.cpu d :=
    fun d away => Function.update_of_ne away _ _
  constructor
  case living =>
    by_cases same : p = q
    · subst same
      rcases did.ends with ⟨_, running, _⟩ | ⟨caller, leaving, left⟩
      · rw [running]
        rfl
      · cases caller with
        | exit => exact absurd leaving stays
        | yield => rw [left.1]; rfl
        | sleep => rw [left.1]; rfl
        | wait => rw [left.1]; rfl
    · have other : (chosen m c q).kernel.proc p = m.kernel.proc p :=
        Function.update_of_ne same _ _
      exact (did.turned p same).living (other ▸ keeps.living)
  case here =>
    rw [did.cpu]
    intro d on
    by_cases away : d = c
    · subst away
      rw [here] at on
      cases on
      obtain ⟨caller, saved⟩ := keeps.saved (inv.off_cpu point runnable)
      rw [did.level.flag inside]
      exact intena flag caller saved
    · have same : (chosen m c q).core d = m.core d := Function.update_of_ne away _ _
      rw [did.others d away, same]
      exact keeps.here d ((there d away).symm.trans on)
  case saved =>
    rw [did.cpu, did.context]
    intro away
    refine keeps.saved fun d on => ?_
    by_cases same : d = c
    · rw [same, inv.none_here point] at on
      cases on
    · exact away d ((there d same).trans on)

/-- A stretch of fork() outside of the lock. -/
theorem Keeps.forks {cur np : Slot} {stage : ForkStage} (keeps : Keeps m p flag) (inv : Inv m)
    (current : m.kernel.cpu c = some cur)
    (busy : (m.kernel.proc cur).thread = .forking np stage) {child : Proc} {thread : Thread}
    {context : Slot → Context} (elsewhere : ∀ i, i ≠ np → context i = m.context i) :
    Keeps { m.store (forkOn m.kernel cur np child thread) with context := context } p flag := by
  have other : p ≠ np := by
    rintro rfl
    exact inv.dead busy keeps.living
  constructor
  case living =>
    show phase ((forkOn m.kernel cur np child thread).proc p).state = .living
    by_cases here : p = cur
    · subst here
      rw [(forkOn_here (inv.apart current busy) child thread).1]
      exact keeps.living
    · simp [forkOn, Kernel.set, here, other, keeps.living]
  case here => exact keeps.here
  case saved =>
    intro away
    show ∃ caller, context p = _
    rw [elsewhere p other]
    exact keeps.saved away

theorem Keeps.goes_go (keeps : Keeps m p flag) (inv : Inv m) (own : ¬ Sets m p (.go c))
    (taken : go m c = some m') : Keeps m' p flag := by
  unfold go at taken
  have level := (inv.places c).level
  unfold Level at level
  have released : (m.core c).point ≠ .outside →
      (m.core c).interrupts = false ∧ 0 < (m.core c).ncli → Keeps (release m c) p flag := by
    intro inside level
    obtain ⟨n, depth⟩ := Nat.exists_eq_succ_of_ne_zero (Nat.ne_of_gt level.2)
    rw [release_eq ((inv.places c).held.mpr inside) level.1 depth]
    exact keeps.setCore fun _ => pop_flag depth .outside
  cases point : (m.core c).point with
  | outside => simp [point] at taken
  | inside call =>
      cases current : m.kernel.cpu c with
      | none => simp [point, current] at taken
      | some cur =>
          simp only [point, current, Option.some.injEq] at taken
          subst taken
          exact keeps.calls inv point current own
  | waking chan =>
      simp only [point, Option.some.injEq] at taken
      subst taken
      have turned := turned_wakeup1 (m.context p) (some chan) m.kernel.proc p
      have core : Keeps (m.goto c .done) p flag := keeps.core rfl rfl
        (fun d away => Function.update_of_ne away _ _) fun _ => by rw [goto_core]; rfl
      exact ⟨turned.living keeps.living, core.here, core.saved⟩
  | leaving caller =>
      cases current : m.kernel.cpu c with
      | none => simp [point, current] at taken
      | some cur =>
          simp only [point, current, Option.some.injEq] at taken
          subst taken
          exact keeps.leaves inv point current
  | done =>
      simp only [point, Option.some.injEq] at taken
      subst taken
      rw [point] at level
      exact released (point ▸ Point.noConfusion) level
  | scan n =>
      have none_here := inv.none_here point
      rw [point] at level
      simp only [point, none_here, Option.some.injEq] at taken
      subst taken
      split
      · unfold turn
        split
        · exact keeps.core rfl rfl (fun d away => Function.update_of_ne away _ _) fun _ => by
            rw [goto_core]; rfl
        · rename_i runnable
          exact keeps.chooses inv point (not_not.mp runnable)
      · exact released (point ▸ Point.noConfusion) ⟨level.1, level.2 ▸ Nat.one_pos⟩

theorem Keeps.acquired {next : Point} (keeps : Keeps m p flag) (inv : Inv m)
    (point : (m.core c).point = .outside) (taken : acquire m c next = some m') :
    Keeps m' p flag := by
  obtain ⟨_, rfl⟩ := acquire_some inv point taken
  exact keeps.setCore fun _ => pushcli_flag (m.core c)

theorem Keeps.goes_act {e : Event} (keeps : Keeps m p flag) (inv : Inv m) (own : ¬ Sets m p e)
    (taken : act m e = some m') : Keeps m' p flag := by
  cases e with
  | interrupt c =>
      simp only [act, Option.ite_none_right_eq_some, Option.some.injEq] at taken
      obtain ⟨_, rfl⟩ := taken
      exact keeps.setCore fun on => absurd on own
  | sti c =>
      simp only [act, Option.ite_none_right_eq_some, Option.some.injEq] at taken
      obtain ⟨_, rfl⟩ := taken
      exact keeps.setCore fun on => absurd on own
  | pushcli c =>
      simp only [act, Option.ite_none_right_eq_some, Option.some.injEq] at taken
      obtain ⟨_, rfl⟩ := taken
      exact keeps.setCore fun _ => pushcli_flag (m.core c)
  | popcli c =>
      simp only [act, Option.ite_none_right_eq_some, Option.some.injEq] at taken
      obtain ⟨⟨point, deep⟩, rfl⟩ := taken
      obtain ⟨n, depth⟩ := Nat.exists_eq_succ_of_ne_zero (Nat.ne_of_gt deep)
      have off : (m.core c).interrupts = false := by
        by_contra on
        exact absurd (inv.interrupt (Bool.not_eq_false _ ▸ on)).2 (Nat.ne_of_gt deep)
      rw [popcli_eq off depth]
      exact keeps.setCore fun _ => pop_flag depth (m.core c).point
  | acquire c call =>
      cases current : m.kernel.cpu c with
      | none => simp [act, current] at taken
      | some cur =>
          simp only [act, current, Option.ite_none_right_eq_some] at taken
          obtain ⟨⟨point, _⟩, taken⟩ := taken
          split at taken
          · cases taken
            exact ⟨keeps.living, keeps.here, keeps.saved⟩
          · exact keeps.acquired inv point taken
  | wakeup c chan =>
      simp only [act, Option.ite_none_right_eq_some] at taken
      exact keeps.acquired inv taken.1 taken.2
  | schedule c =>
      simp only [act, Option.ite_none_right_eq_some] at taken
      exact keeps.acquired inv taken.1.1 taken.2
  | go c => exact keeps.goes_go inv own taken
  | forkStack c kalloc =>
      cases current : m.kernel.cpu c with
      | none => simp [act, current] at taken
      | some cur =>
          simp only [act, current] at taken
          split at taken
          · rename_i np _ busy
            cases taken
            cases kalloc with
            | true =>
                exact keeps.forks inv current busy fun i away => Function.update_of_ne away _ _
            | false => exact keeps.forks inv current busy fun _ _ => rfl
          · cases taken
  | forkCopy c copyuvm =>
      cases current : m.kernel.cpu c with
      | none => simp [act, current] at taken
      | some cur =>
          simp only [act, current] at taken
          split at taken
          · rename_i np _ busy
            cases taken
            cases copyuvm with
            | true => exact keeps.forks inv current busy fun _ _ => rfl
            | false => exact keeps.forks inv current busy fun _ _ => rfl
          · cases taken

end Steps

/-! ## Runs -/

/-- The thread of `p` runs on CPU `c`, in no lock. -/
structure Outside (m : Machine) (c : Cpu) (p : Slot) : Prop where
  current : m.kernel.cpu c = some p
  outside : (m.core c).point = .outside
  depth : (m.core c).ncli = 0

theorem Outside.flag {m : Machine} {c : Cpu} {p : Slot} (out : Outside m c p) :
    (m.core c).flag = (m.core c).interrupts := if_pos out.depth

theorem Inv.keeps {m : Machine} {c : Cpu} {p : Slot} (inv : Inv m) (out : Outside m c p) :
    Keeps m p (m.core c).interrupts := by
  constructor
  case living =>
    have stays : (m.core c).point.left = false := by
      rw [out.outside]
      rfl
    rw [inv.on out.current stays]
    rfl
  case here =>
    intro d on
    rw [inv.single on out.current, out.flag]
  case saved => exact fun away => absurd out.current (away c)

/-- Until it changes its flag or exits, a process that is outside of all locks has its
interrupts as they were, whatever CPU it is on. -/
theorem interrupts_kept {es es' : List Event} {m m' : Machine} {c d : Cpu} {p : Slot}
    (reached : run step boot es = some m) (quiet : m.panicked = none) (before : Outside m c p)
    (own : Guarded step (fun s e => ¬ Sets s p e) m es') (ran : run step m es' = some m')
    (after : Outside m' d p) : (m'.core d).interrupts = (m.core c).interrupts := by
  have stands : Stands m := reachable_invariant step boot_stands
    (fun s e next stands taken => (step_stands s e next stands taken).1) ⟨es, reached⟩
  have inv : Inv m := by
    rcases stands with panicked | inv
    · rw [quiet] at panicked
      cases panicked
    · exact inv
  have start : Stands m ∧ Keeps m p (m.core c).interrupts := ⟨stands, inv.keeps before⟩
  have kept : Stands m' ∧ Keeps m' p (m.core c).interrupts := by
    refine @run_invariant _ _ step _ (fun s => Stands s ∧ Keeps s p (m.core c).interrupts) ?_
      es' m m' start own ran
    rintro s e next ⟨stands, keeps⟩ own taken
    refine ⟨(step_stands s e next stands taken).1, ?_⟩
    rcases stands with panicked | inv
    · rw [step_panicked taken] at panicked
      cases panicked
    · unfold step at taken
      rw [if_pos inv.quiet] at taken
      exact keeps.goes_act inv own taken
  rw [← after.flag]
  exact kept.2.here d after.current

instance setsDecidable (m : Machine) (p : Slot) : ∀ e : Event, Decidable (Sets m p e)
  | .interrupt c | .sti c => inferInstanceAs (Decidable (m.kernel.cpu c = some p))
  | .go c => inferInstanceAs
      (Decidable (m.kernel.cpu c = some p ∧ (m.core c).point = .inside .exit))
  | .pushcli _ | .popcli _ | .acquire _ _ | .wakeup _ _ | .schedule _ | .forkStack _ _
  | .forkCopy _ _ => inferInstanceAs (Decidable False)

def cpu1 : ExitWait.Cpu := ⟨1, Nat.one_lt_succ_succ 6⟩

/-- The first process runs on CPU 0, where an interrupt comes. -/
def interrupted : List Event :=
  [.sti cpu0, .schedule cpu0, .go cpu0, .go cpu0, .sti cpu0, .interrupt cpu0]

/-- It yields, and goes on on CPU 1. -/
def moved : List Event :=
  [.acquire cpu0 .yield, .go cpu0, .go cpu0] ++ List.replicate 64 (.go cpu0) ++
    [.sti cpu1, .schedule cpu1, .go cpu1, .go cpu1]

/-- The interrupts of CPU 1 were on before the process came. -/
theorem interrupts_kept_moved : ∃ m m', run step boot interrupted = some m ∧
    m.panicked = none ∧ Outside m cpu0 firstSlot ∧
    Guarded step (fun s e => ¬ Sets s firstSlot e) m moved ∧ run step m moved = some m' ∧
    Outside m' cpu1 firstSlot ∧ (m'.core cpu1).interrupts = (m.core cpu0).interrupts := by
  have found : ∃ m ∈ run step boot interrupted, m.panicked = none ∧
      (m.kernel.cpu cpu0 = some firstSlot ∧ (m.core cpu0).point = .outside ∧
        (m.core cpu0).ncli = 0) ∧
      Guarded step (fun s e => ¬ Sets s firstSlot e) m moved ∧
      ∃ m' ∈ run step m moved, m'.kernel.cpu cpu1 = some firstSlot ∧
        (m'.core cpu1).point = .outside ∧ (m'.core cpu1).ncli = 0 := by
    decide +kernel
  obtain ⟨m, reached, quiet, ⟨on, point, depth⟩, own, m', ran, on', point', depth'⟩ := found
  have before : Outside m cpu0 firstSlot := ⟨on, point, depth⟩
  have after : Outside m' cpu1 firstSlot := ⟨on', point', depth'⟩
  exact ⟨m, m', reached, quiet, before, own, ran, after,
    interrupts_kept reached quiet before own ran after⟩

end Xv6.Public3.Switching
