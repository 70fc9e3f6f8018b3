import Xv6.Public3.SwitchingInv

/-!
# A step of a CPU (proc.c of xv6-public_3)

What each step keeps, and what it is for the table without the lock: nothing, or one
event of it.
-/

set_option autoImplicit false

namespace Xv6.Public3.Switching

open Xv6.Public3.ExitWait

/-! ## The other CPUs -/

/-- What a step keeps besides the table. -/
structure Sits (m : Machine) : Prop where
  quiet : m.panicked = none
  places : ∀ c, At m c
  threads : Threads m

section Holder

variable {m m' : Machine} {c d : Cpu} {p : Slot}

theorem Inv.sits (inv : Inv m) : Sits m := ⟨inv.quiet, inv.places, inv.threads⟩

theorem Inv.outside (inv : Inv m) (held : m.lock = some c) (away : d ≠ c) :
    (m.core d).point = .outside := by
  by_contra inside
  have other := (inv.places d).held.mpr inside
  rw [held] at other
  exact away (Option.some.inj other).symm

theorem left_iff {point : Point} : point.left = true ↔ ∃ caller, point = .leaving caller := by
  cases point <;> simp [Point.left]

theorem view_cpu (m : Machine) (c : Cpu) (stays : (m.core c).point.left = false) :
    (view m).cpu c = m.kernel.cpu c := by
  show (if (m.core c).point.left = true then none else m.kernel.cpu c) = _
  rw [stays]
  rfl

theorem Inv.on (inv : Inv m) (current : m.kernel.cpu c = some p)
    (stays : (m.core c).point.left = false) : (m.kernel.proc p).state = .RUNNING :=
  inv.table.cpus.running c p ((view_cpu m c stays).trans current)

theorem Left.not_running {p : Proc} {caller : Caller} (left : Left p caller) :
    p.state ≠ .RUNNING ∧ p.state ≠ .EMBRYO := by
  cases caller with
  | exit =>
      have state : p.state = .ZOMBIE := left
      simp [state]
  | yield => simp [left.1]
  | sleep => simp [left.1]
  | wait => simp [left.1]

/-- Where the process on a CPU stands. -/
theorem Inv.state (inv : Inv m) (current : m.kernel.cpu c = some p) :
    (m.kernel.proc p).state = .RUNNING ∨
      ∃ caller, (m.core c).point = .leaving caller ∧ Left (m.kernel.proc p) caller := by
  cases stays : (m.core c).point.left with
  | false => exact Or.inl (inv.on current stays)
  | true =>
      obtain ⟨caller, point⟩ := left_iff.mp stays
      have who := (inv.places c).who
      rw [point] at who
      obtain ⟨q, same, left⟩ := who
      rw [current] at same
      cases same
      exact Or.inr ⟨caller, point, left⟩

theorem Inv.not_embryo (inv : Inv m) (current : m.kernel.cpu c = some p) :
    (m.kernel.proc p).state ≠ .EMBRYO := by
  rcases inv.state current with running | ⟨caller, _, left⟩
  · rw [running]
    exact ProcState.noConfusion
  · exact left.not_running.2

/-- No process is on two CPUs. -/
theorem Inv.single (inv : Inv m) (here : m.kernel.cpu c = some p)
    (there : m.kernel.cpu d = some p) : c = d := by
  by_contra apart
  have stays : ∀ {a b : Cpu}, m.kernel.cpu a = some p → m.kernel.cpu b = some p → a ≠ b →
      (m.core a).point.left = false := by
    intro a b ona onb apart
    by_contra left
    obtain ⟨caller, point⟩ := left_iff.mp (Bool.not_eq_false _ ▸ left)
    have who := (inv.places a).who
    rw [point] at who
    obtain ⟨q, same, left⟩ := who
    rw [ona] at same
    cases same
    have held := (inv.places a).held.mpr (point ▸ Point.noConfusion)
    have other := inv.outside held apart.symm
    exact left.not_running.1 (inv.on onb (other ▸ rfl))
  have first := (view_cpu m c (stays here there apart)).trans here
  have second := (view_cpu m d (stays there here (Ne.symm apart))).trans there
  exact apart (inv.table.cpus.single c d p first second)

theorem At.kept (at_ : At m d) (lock : m'.lock = some d ↔ m.lock = some d)
    (core : m'.core d = m.core d) (cpu : m'.kernel.cpu d = m.kernel.cpu d)
    (same : (m.core d).point ≠ .outside → m'.kernel.initproc = m.kernel.initproc ∧
      ∀ p, m.kernel.cpu d = some p → m'.kernel.proc p = m.kernel.proc p) : At m' d := by
  constructor
  case held => rw [lock, core, at_.held]
  case level => rw [core]; exact at_.level
  case who =>
    have who := at_.who
    rw [core, cpu]
    cases point : (m.core d).point with
    | outside => trivial
    | waking chan => trivial
    | done => trivial
    | scan n =>
        rw [point] at who
        exact who
    | leaving caller =>
        rw [point] at who
        obtain ⟨p, current, left⟩ := who
        refine ⟨p, current, ?_⟩
        rw [(same (point ▸ Point.noConfusion)).2 p current]
        exact left
    | inside call =>
        rw [point] at who
        obtain ⟨p, current, ready⟩ := who
        refine ⟨p, current, ?_⟩
        obtain ⟨init, kept⟩ := same (point ▸ Point.noConfusion)
        have kept := kept p current
        cases call <;> simp only [Ready, kept, init] at ready ⊢ <;> exact ready

/-- The slot of an unfinished fork() is on no CPU. -/
theorem Inv.apart (inv : Inv m) (current : m.kernel.cpu c = some p) {q np : Slot}
    {stage : ForkStage} (busy : (m.kernel.proc q).thread = .forking np stage) : np ≠ p := by
  rintro rfl
  exact inv.not_embryo current (inv.table.forks.forking q np stage busy).2.state

end Holder

/-! ## Steps that leave the table alone -/

section Quiet

variable {m : Machine} {c : Cpu}

theorem Threads.same {m m' : Machine} (threads : Threads m) (kernel : m'.kernel = m.kernel)
    (context : m'.context = m.context) : Threads m' := by
  constructor
  all_goals rw [kernel]
  case running => exact threads.running
  case saved => rw [context]; exact threads.saved
  case embryo => rw [context]; exact threads.embryo

theorem view_same {m m' : Machine} (kernel : m'.kernel = m.kernel)
    (quiet : m'.panicked = m.panicked)
    (left : ∀ d, (m'.core d).point.left = (m.core d).point.left) : view m' = view m := by
  unfold view
  simp only [kernel, quiet, left]

/-- A step that changes only one CPU, and the lock if that CPU takes or leaves it. -/
theorem Inv.core (inv : Inv m) {r : Core} {lock : Option Cpu}
    (others : ∀ d, d ≠ c → (lock = some d ↔ m.lock = some d))
    (held : lock = some c ↔ r.point ≠ .outside) (level : Level r)
    (who : Who m.kernel (m.kernel.cpu c) r.point)
    (left : r.point.left = (m.core c).point.left) :
    Sits { m.setCore c r with lock := lock } ∧
      view { m.setCore c r with lock := lock } = view m := by
  have here : (m.setCore c r).core c = r := Function.update_self ..
  have there : ∀ d, d ≠ c → (m.setCore c r).core d = m.core d :=
    fun d away => Function.update_of_ne away _ _
  refine ⟨⟨inv.quiet, fun d => ?_, inv.threads.same rfl rfl⟩, view_same rfl rfl fun d => ?_⟩
  · by_cases away : d = c
    · subst away
      constructor
      case held => dsimp only; rw [here]; exact held
      case level => dsimp only; rw [here]; exact level
      case who => dsimp only; rw [here]; exact who
    · exact (inv.places d).kept (others d away) (there d away) rfl fun _ => ⟨rfl, fun _ _ => rfl⟩
  · by_cases away : d = c
    · subst away
      rw [← left]
      exact congrArg (fun r => r.point.left) here
    · exact congrArg (fun r => r.point.left) (there d away)

theorem setCore_lock (m : Machine) (c : Cpu) (r : Core) :
    m.setCore c r = { m.setCore c r with lock := m.lock } := rfl

/-- A step outside of the lock. -/
theorem Inv.outer (inv : Inv m) (point : (m.core c).point = .outside) {r : Core}
    (stays : r.point = .outside) (level : r.interrupts = true → r.ncli = 0) :
    Sits (m.setCore c r) ∧ view (m.setCore c r) = view m := by
  rw [setCore_lock]
  refine inv.core (fun d _ => Iff.rfl) ?_ ?_ ?_ ?_
  · rw [(inv.places c).held, point, stays]
  · unfold Level
    rw [stays]
    exact level
  · rw [stays]
    trivial
  · rw [stays, point]

theorem Inv.interrupt (inv : Inv m) (on : (m.core c).interrupts = true) :
    (m.core c).point = .outside ∧ (m.core c).ncli = 0 := by
  have level := (inv.places c).level
  unfold Level at level
  split at level
  · rename_i point
    exact ⟨point, level on⟩
  all_goals
    rw [on] at level
    cases level.1

theorem acquire_some {m' : Machine} {next : Point} (inv : Inv m)
    (point : (m.core c).point = .outside) (taken : acquire m c next = some m') :
    m.lock = none ∧
      m' = { m.setCore c { (m.core c).pushcli with point := next } with lock := some c } := by
  have free : m.lock ≠ some c := fun held => (inv.places c).held.mp held point
  unfold acquire at taken
  rw [if_neg free] at taken
  split at taken
  · rename_i none
    exact ⟨none, (Option.some.inj taken).symm⟩
  · cases taken

/-- ptable.lock is taken. -/
theorem Inv.acquired {m' : Machine} {next : Point} (inv : Inv m)
    (point : (m.core c).point = .outside) (taken : acquire m c next = some m')
    (inside : next ≠ .outside) (stays : next.left = false)
    (level : Level { (m.core c).pushcli with point := next })
    (who : Who m.kernel (m.kernel.cpu c) next) : Sits m' ∧ view m' = view m := by
  obtain ⟨free, rfl⟩ := acquire_some inv point taken
  refine inv.core (fun d away => ?_) ?_ level who ?_
  · rw [free]
    exact ⟨fun same => absurd (Option.some.inj same).symm away, fun none => by cases none⟩
  · exact ⟨fun _ => inside, fun _ => rfl⟩
  · rw [stays, point]
    rfl

/-- release() finds the lock held. -/
theorem release_eq {n : Nat} (held : m.lock = some c) (off : (m.core c).interrupts = false)
    (depth : (m.core c).ncli = n + 1) :
    release m c = { m.setCore c { m.core c with
      point := .outside
      ncli := n
      interrupts := decide (n = 0) && (m.core c).intena } with lock := none } := by
  have core := goto_core m c .outside
  have popped := @popcli_eq { m.goto c .outside with lock := none } c n
    ((congrArg Core.interrupts core).trans off) ((congrArg Core.ncli core).trans depth)
  rw [release, if_pos held, popped]
  simp [Machine.setCore, Machine.goto]

theorem Inv.released (inv : Inv m) (held : m.lock = some c)
    (level : (m.core c).interrupts = false ∧ 0 < (m.core c).ncli)
    (stays : (m.core c).point.left = false) :
    Sits (release m c) ∧ view (release m c) = view m := by
  obtain ⟨n, depth⟩ : ∃ n, (m.core c).ncli = n + 1 := Nat.exists_eq_succ_of_ne_zero
    (Nat.ne_of_gt level.2)
  rw [release_eq held level.1 depth]
  refine inv.core (fun d away => ?_) ?_ ?_ ?_ ?_
  · rw [held]
    exact ⟨fun none => absurd none (Option.some_ne_none d).symm,
      fun same => absurd (Option.some.inj same).symm away⟩
  · exact ⟨fun none => absurd none (Option.some_ne_none c).symm, fun inside => absurd rfl inside⟩
  · intro on
    simp only [Bool.and_eq_true, decide_eq_true_eq] at on
    exact on.1
  · trivial
  · rw [stays]
    rfl

end Quiet

/-! ## Steps under the lock -/

section Locked

variable {m m' : Machine} {c : Cpu} {cur : Slot}

theorem Did.sits (did : Did m c cur m') (held : m.lock = some c) (others : Others m cur)
    (current : m.kernel.cpu c = some cur) (quiet : m.panicked = none)
    (places : ∀ d, d ≠ c → At m d ∧ (m.core d).point = .outside)
    (apart : ∀ q np stage, (m.kernel.proc q).thread = .forking np stage → np ≠ cur) :
    Sits m' := by
  refine ⟨did.quiet.trans quiet, fun d => ?_, ?_⟩
  · by_cases here : d = c
    · subst here
      have lock := did.lock.trans held
      have cpu := (congrFun did.cpu d).trans current
      constructor
      case held =>
        refine iff_of_true lock ?_
        rcases did.ends with ⟨point, _, _⟩ | ⟨caller, point, _⟩
        · exact point ▸ Point.noConfusion
        · exact point ▸ Point.noConfusion
      case level => exact did.level
      case who =>
        rcases did.ends with ⟨point, _, _⟩ | ⟨caller, point, left⟩
        · rw [point]
          trivial
        · rw [point]
          exact ⟨cur, cpu, left⟩
    · obtain ⟨at_, outside⟩ := places d here
      refine at_.kept (by rw [did.lock]) (did.others d here) (congrFun did.cpu d) fun inside => ?_
      exact absurd outside inside
  · refine others.turned current did.cpu (fun i _ _ => by rw [did.context]) (fun i away => ?_)
      (fun running => ?_) (fun np stage busy => ?_) fun q np stage away busy => ?_
    · rw [did.context]
      exact did.turned i away
    · rcases did.ends with ⟨_, _, awake⟩ | ⟨caller, _, left⟩
      · exact awake
      · exact absurd running left.not_running.1
    · rw [did.context]
      exact did.mine np stage busy
    · exact ⟨apart q np stage busy, fun fresh => by rw [did.context]; exact fresh⟩

theorem Inv.places' (inv : Inv m) (held : m.lock = some c) (d : Cpu) (away : d ≠ c) :
    At m d ∧ (m.core d).point = .outside := ⟨inv.places d, inv.outside held away⟩

theorem Inv.held (inv : Inv m) {point : Point} (there : (m.core c).point = point)
    (inside : point ≠ .outside) : m.lock = some c :=
  (inv.places c).held.mpr (there ▸ inside)

/-- The process in a call does what it has taken the lock for. -/
theorem Inv.calls (inv : Inv m) {call : Call} (point : (m.core c).point = .inside call)
    (current : m.kernel.cpu c = some cur) :
    Did m c cur (body m c cur call) ∧ Sits (body m c cur call) ∧
      (m.kernel.proc cur).state = .RUNNING ∧ Ready m.kernel cur call := by
  have who := (inv.places c).who
  rw [point] at who
  obtain ⟨p, same, ready⟩ := who
  rw [current] at same
  cases same
  have running := inv.on current (point ▸ rfl)
  have did := did_body inv.threads point (inv.places c).level ready running
  have held := inv.held point Point.noConfusion
  exact ⟨did, did.sits held (inv.threads.others cur) current inv.quiet (inv.places' held)
    (fun _ _ _ busy => inv.apart current busy), running, ready⟩

theorem Inv.wakes (inv : Inv m) {chan : Chan} (point : (m.core c).point = .waking chan) :
    Sits ((m.store { m.kernel with proc := wakeup1 (some chan) m.kernel.proc }).goto c .done) := by
  have held := inv.held point Point.noConfusion
  have level := (inv.places c).level
  unfold Level at level
  rw [point] at level
  have turned := fun i => turned_wakeup1 (m.context i) (some chan) m.kernel.proc i
  refine ⟨inv.quiet, fun d => ?_, ?_⟩
  · by_cases here : d = c
    · subst here
      have core := goto_core
        (m.store { m.kernel with proc := wakeup1 (some chan) m.kernel.proc }) d .done
      constructor
      case held =>
        rw [core]
        exact iff_of_true held Point.noConfusion
      case level => rw [core]; exact level
      case who => rw [core]; trivial
    · have core : ((m.store { m.kernel with
          proc := wakeup1 (some chan) m.kernel.proc }).goto c .done).core d = m.core d :=
        Function.update_of_ne here _ _
      exact (inv.places d).kept Iff.rfl core rfl fun inside =>
        absurd (inv.outside held here) inside
  · constructor
    case running =>
      intro p running
      obtain ⟨before, same⟩ := (turned p).running running
      obtain ⟨on, awake⟩ := inv.threads.running p before
      exact ⟨on, same ▸ awake⟩
    case saved =>
      intro p off away
      rcases (turned p).off off with ⟨off, same⟩ | ⟨fresh, user⟩
      · have saved := inv.threads.saved p off away
        rw [← same] at saved
        exact saved
      · show Resumes _ (m.context p)
        rw [fresh]
        exact suits_user user
    case embryo =>
      intro p np stage busy
      obtain ⟨user, fresh⟩ := inv.threads.embryo p np stage ((turned p).forking np stage busy)
      exact ⟨(turned np).user user, fresh⟩

/-- The machine when `cur` has left CPU `c`. -/
def swtched (m : Machine) (c : Cpu) (cur : Slot) (caller : Caller) : Machine :=
  { (m.store { m.kernel with cpu := Function.update m.kernel.cpu c none }).goto c
      (.scan ((m.core c).slot + 1)) with
    context := Function.update m.context cur (.sched (m.core c).intena caller) }

theorem sched_eq {caller : Caller} (held : m.lock = some c)
    (level : (m.core c).interrupts = false ∧ (m.core c).ncli = 1)
    (left : Left (m.kernel.proc cur) caller) : sched m c cur caller = swtched m c cur caller := by
  rw [sched]
  simp [held, level.1, level.2, left.not_running.1, swtched]

theorem swtched_core (m : Machine) (c : Cpu) (cur : Slot) (caller : Caller) :
    (swtched m c cur caller).core c =
        { m.core c with point := .scan ((m.core c).slot + 1) } ∧
      (swtched m c cur caller).kernel.cpu c = none ∧
      ∀ d, d ≠ c → (swtched m c cur caller).core d = m.core d ∧
        (swtched m c cur caller).kernel.cpu d = m.kernel.cpu d :=
  ⟨Function.update_self .., Function.update_self .., fun _ away =>
    ⟨Function.update_of_ne away _ _, Function.update_of_ne away _ _⟩⟩

theorem Resumes.of_left {p : Proc} {caller : Caller} (left : Left p caller) (off : Off p)
    (intena : Bool) : Resumes p.thread (.sched intena caller) := by
  cases caller with
  | exit =>
      have dead : p.state = .ZOMBIE := left
      rcases off with off | off <;> rw [dead] at off <;> cases off
  | yield => exact left.2
  | sleep => exact left.2
  | wait => exact left.2

theorem Inv.leave_threads (inv : Inv m) {caller : Caller} (current : m.kernel.cpu c = some cur)
    (left : Left (m.kernel.proc cur) caller) : Threads (swtched m c cur caller) := by
  obtain ⟨_, gone, others⟩ := swtched_core m c cur caller
  constructor
  case running =>
    intro p running
    obtain ⟨⟨d, on⟩, awake⟩ := inv.threads.running p running
    refine ⟨⟨d, ?_⟩, awake⟩
    have away : d ≠ c := by
      rintro rfl
      rw [current] at on
      cases on
      exact left.not_running.1 running
    rw [(others d away).2, on]
  case saved =>
    intro p off away
    by_cases here : p = cur
    · subst here
      have context : (swtched m c p caller).context p = .sched (m.core c).intena caller :=
        Function.update_self ..
      rw [context]
      exact .of_left left off _
    · have context : (swtched m c cur caller).context p = m.context p :=
        Function.update_of_ne here _ _
      rw [context]
      refine inv.threads.saved p off fun d on => ?_
      by_cases same : d = c
      · rw [same, current] at on
        exact here (Option.some.inj on).symm
      · exact away d ((others d same).2.trans on)
  case embryo =>
    intro q np stage busy
    obtain ⟨user, fresh⟩ := inv.threads.embryo q np stage busy
    have context : (swtched m c cur caller).context np = m.context np :=
      Function.update_of_ne (inv.apart current busy) _ _
    exact ⟨user, fun later => context.trans (fresh later)⟩

/-- sched() finds what it checks, and the process leaves the CPU. -/
theorem Inv.leaves (inv : Inv m) {caller : Caller} (point : (m.core c).point = .leaving caller)
    (current : m.kernel.cpu c = some cur) :
    Sits (sched m c cur caller) ∧ view (sched m c cur caller) = view m := by
  have held := inv.held point Point.noConfusion
  have level := (inv.places c).level
  have who := (inv.places c).who
  unfold Level at level
  rw [point] at level who
  obtain ⟨p, same, left⟩ := who
  rw [current] at same
  cases same
  obtain ⟨core, gone, others⟩ := swtched_core m c cur caller
  rw [sched_eq held level left]
  refine ⟨⟨inv.quiet, fun d => ?_, inv.leave_threads current left⟩, ?_⟩
  · by_cases here : d = c
    · subst here
      constructor
      case held =>
        rw [core]
        exact iff_of_true held Point.noConfusion
      case level => rw [core]; exact level
      case who => rw [core]; exact gone
    · exact (inv.places d).kept Iff.rfl (others d here).1 (others d here).2 fun inside =>
        absurd (inv.outside held here) inside
  · have cpus : (view (swtched m c cur caller)).cpu = (view m).cpu := by
      funext d
      by_cases here : d = c
      · subst here
        rw [view_cpu _ d (congrArg (fun r => r.point.left) core), gone]
        show none = if (m.core d).point.left = true then none else m.kernel.cpu d
        rw [point]
        rfl
      · show (if _ then none else _) = if _ then none else _
        rw [(others d here).1, (others d here).2]
    exact congrArg (fun cpu => { view m with cpu := cpu }) cpus

/-! ## What the table sees -/

theorem view_store (away : ∀ d, d ≠ c → (m.core d).point = .outside) (quiet : m.panicked = none)
    (k : Kernel) (r : Core) : view ((m.store k).setCore c r) =
      { k with
        cpu := if r.point.left = true then Function.update k.cpu c none else k.cpu
        panicked := false } := by
  have cpus : (view ((m.store k).setCore c r)).cpu =
      if r.point.left = true then Function.update k.cpu c none else k.cpu := by
    funext d
    by_cases here : d = c
    · subst here
      have core : ((m.store k).setCore d r).core d = r := Function.update_self ..
      show (if _ then none else k.cpu d) = _
      rw [core]
      split
      · exact (Function.update_self d none k.cpu).symm
      · rfl
    · have core : ((m.store k).setCore c r).core d = m.core d := Function.update_of_ne here _ _
      rw [view_cpu _ d (by rw [core, away d here]; rfl)]
      split
      · exact (Function.update_of_ne here none k.cpu).symm
      · rfl
  have calm : (view ((m.store k).setCore c r)).panicked = false := by
    show Option.isSome m.panicked = false
    rw [quiet]
    rfl
  calc view ((m.store k).setCore c r)
      = { k with
          cpu := (view ((m.store k).setCore c r)).cpu
          panicked := (view ((m.store k).setCore c r)).panicked } := rfl
    _ = _ := by rw [cpus, calm]

/-- The table of the CPU that has the lock. -/
theorem Inv.view_here (inv : Inv m) {point : Point} (there : (m.core c).point = point)
    (inside : point ≠ .outside) (stays : point.left = false) :
    view m = { m.kernel with panicked := false } := by
  have held := inv.held there inside
  have same := @view_store m c (fun d away => inv.outside held away) inv.quiet m.kernel (m.core c)
  have back : (m.store m.kernel).setCore c (m.core c) = m := by
    simp [Machine.setCore, Machine.store]
  rw [back, there, stays] at same
  exact same

/-- The event of the table for a call. -/
def event (c : Cpu) : Call → ExitWait.Event
  | .yield => .yield c
  | .exit => .exit c
  | .wait => .wait c
  | .sleep chan => .sleep c chan
  | .kill pid => .kill c pid
  | .allocproc => .fork c
  | .fork => .forkCommit c

theorem view_wait (away : ∀ d, d ≠ c → (m.core d).point = .outside) (quiet : m.panicked = none) :
    view (wait m c cur) = ExitWait.wait { m.kernel with panicked := false } c cur := by
  unfold wait ExitWait.wait
  dsimp only
  cases found : waitStop m.kernel.proc cur with
  | some i => exact view_store away quiet _ _
  | none =>
      dsimp only
      split
      · exact view_store away quiet _ _
      · exact view_store away quiet _ _

theorem Inv.taken (inv : Inv m) {e : ExitWait.Event} {k : Kernel}
    (taken : ExitWait.act (view m) e = some k) : ExitWait.step (view m) e = some k := by
  have calm : (view m).panicked = false := by
    show Option.isSome m.panicked = false
    rw [inv.quiet]
    rfl
  rw [ExitWait.step, if_pos calm, taken]

theorem onCpu_eq {k : Kernel} {p : Slot} (current : k.cpu c = some p) {allowed : Proc → Bool}
    (ready : allowed (k.proc p) = true) (act : Slot → Kernel) :
    onCpu k c allowed act = some (act p) := by
  rw [onCpu, current]
  exact if_pos ready

theorem inFork_eq {k : Kernel} {p np : Slot} {stage : ForkStage} (current : k.cpu c = some p)
    (busy : (k.proc p).thread = .forking np stage) (act : Slot → Slot → Kernel) :
    inFork k c stage act = some (act p np) := by
  rw [inFork, current]
  dsimp only
  rw [busy]
  exact if_pos rfl

/-- A call is one event of the table. -/
theorem Inv.view_calls (inv : Inv m) {call : Call} (point : (m.core c).point = .inside call)
    (current : m.kernel.cpu c = some cur) :
    ExitWait.step (view m) (event c call) = some (view (body m c cur call)) := by
  obtain ⟨_, _, running, ready⟩ := inv.calls point current
  have held := inv.held point Point.noConfusion
  have away : ∀ d, d ≠ c → (m.core d).point = .outside := fun d => inv.outside held
  have level := (inv.places c).level
  refine inv.taken ?_
  rw [inv.view_here point Point.noConfusion rfl]
  let k : Kernel := { m.kernel with panicked := false }
  have on : k.cpu c = some cur := current
  unfold Level at level
  rw [point] at level
  cases call with
  | yield =>
      rw [body, Machine.goto, view_store away inv.quiet]
      exact @onCpu_eq c k cur on (fun _ => true) rfl _
  | exit =>
      obtain ⟨user, other⟩ := ready
      rw [body, Machine.goto, view_store away inv.quiet]
      have allowed : inUser (k.proc cur) = true := decide_eq_true user
      refine (onCpu_eq on allowed _).trans ?_
      rw [ExitWait.exit, if_neg other]
      rfl
  | wait =>
      have user : (k.proc cur).thread = .user := ready
      rw [body, view_wait away inv.quiet]
      have allowed : inUser (k.proc cur) = true := decide_eq_true user
      exact onCpu_eq on allowed _
  | sleep chan =>
      have user : (k.proc cur).thread = .user := ready
      rw [sleep_eq chan level, view_store away inv.quiet]
      have allowed : inUser (k.proc cur) = true := decide_eq_true user
      exact onCpu_eq on allowed _
  | kill pid =>
      have user : (k.proc cur).thread = .user := ready
      rw [body, Machine.goto, view_store away inv.quiet]
      have allowed : inUser (k.proc cur) = true := decide_eq_true user
      exact onCpu_eq on allowed _
  | allocproc =>
      have user : (k.proc cur).thread = .user := ready
      rw [body, Machine.goto, view_store away inv.quiet]
      have allowed : inUser (k.proc cur) = true := decide_eq_true user
      refine (onCpu_eq on allowed _).trans ?_
      unfold allocproc
      cases findUnused m.kernel.proc <;> rfl
  | fork =>
      obtain ⟨np, busy⟩ := ready
      have commits : commit m.kernel cur = forkCommit m.kernel cur np := by
        rw [commit, busy]
      rw [body, commits, Machine.goto, view_store away inv.quiet]
      exact @inFork_eq c k cur np .copied on busy _

/-! ## scheduler() -/

/-- CPU `c` has come to the stack of `p`. -/
def chosen (m : Machine) (c : Cpu) (p : Slot) : Machine :=
  (m.store { m.kernel.set p { m.kernel.proc p with state := .RUNNING } with
    cpu := Function.update m.kernel.cpu c (some p) }).setCore c { m.core c with slot := p }

theorem chosen_thread (m : Machine) (c : Cpu) (p i : Slot) :
    ((chosen m c p).kernel.proc i).thread = (m.kernel.proc i).thread :=
  Lib.Slots.update_observed Proc.thread m.kernel.proc p
    { m.kernel.proc p with state := .RUNNING } rfl i

theorem Inv.off_cpu (inv : Inv m) {n : Nat} {p : Slot} (point : (m.core c).point = .scan n)
    (runnable : (m.kernel.proc p).state = .RUNNABLE) (d : Cpu) : m.kernel.cpu d ≠ some p := by
  intro on
  rcases inv.state on with running | ⟨caller, leaving, left⟩
  · rw [runnable] at running
    cases running
  · have here : d = c := by
      by_contra away
      rw [inv.outside (inv.held point Point.noConfusion) away] at leaving
      cases leaving
    subst here
    rw [point] at leaving
    cases leaving

theorem Inv.none_here (inv : Inv m) {n : Nat} (point : (m.core c).point = .scan n) :
    m.kernel.cpu c = none := by
  have who := (inv.places c).who
  rw [point] at who
  exact who

theorem Inv.chosen_others (inv : Inv m) {n : Nat} {p : Slot}
    (point : (m.core c).point = .scan n) : Others (chosen m c p) p := by
  have there : ∀ q, q ≠ p → (chosen m c p).kernel.proc q = m.kernel.proc q :=
    fun q away => Function.update_of_ne away _ _
  have still : ∀ d q, q ≠ p → (m.kernel.cpu d = some q ↔ (chosen m c p).kernel.cpu d = some q) := by
    intro d q away
    by_cases here : d = c
    · subst here
      have now : (chosen m d p).kernel.cpu d = some p := Function.update_self ..
      rw [now, inv.none_here point]
      exact ⟨fun none => absurd none (Option.some_ne_none q).symm,
        fun same => absurd (Option.some.inj same).symm away⟩
    · have same : (chosen m c p).kernel.cpu d = m.kernel.cpu d := Function.update_of_ne here _ _
      rw [same]
  constructor
  case running =>
    intro q away running
    rw [there q away] at running ⊢
    obtain ⟨⟨d, on⟩, awake⟩ := inv.threads.running q running
    exact ⟨⟨d, (still d q away).mp on⟩, awake⟩
  case saved =>
    intro q away off nowhere
    rw [there q away] at off ⊢
    exact inv.threads.saved q off fun d on => nowhere d ((still d q away).mp on)
  case embryo =>
    intro q np stage busy
    rw [chosen_thread] at busy ⊢
    exact inv.threads.embryo q np stage busy

/-- scheduler() has found a process. -/
theorem Inv.chooses (inv : Inv m) {n : Nat} {p : Slot} (point : (m.core c).point = .scan n)
    (runnable : (m.kernel.proc p).state = .RUNNABLE) :
    Did (chosen m c p) c p (resumed (chosen m c p) c p) ∧ Sits (resumed (chosen m c p) c p) ∧
      Resumes (m.kernel.proc p).thread (m.context p) := by
  have held := inv.held point Point.noConfusion
  have level := (inv.places c).level
  unfold Level at level
  rw [point] at level
  have core : (chosen m c p).core c = { m.core c with slot := p } := Function.update_self ..
  have level' : ((chosen m c p).core c).interrupts = false ∧ ((chosen m c p).core c).ncli = 1 := by
    rw [core]
    exact level
  have running : ((chosen m c p).kernel.proc p).state = .RUNNING := by
    show (Function.update m.kernel.proc p _ p).state = _
    rw [Function.update_self]
  have saved := inv.threads.saved p (Or.inr runnable) (inv.off_cpu point runnable)
  have others := inv.chosen_others (p := p) point
  have suits : Resumes ((chosen m c p).kernel.proc p).thread ((chosen m c p).context p) := by
    rw [chosen_thread]
    exact saved
  have did := did_resumed level' running suits fun np stage => others.embryo p np stage
  have current : (chosen m c p).kernel.cpu c = some p := Function.update_self ..
  refine ⟨did, did.sits held others current inv.quiet (fun d away => ?_)
    fun q np stage busy => ?_, saved⟩
  · have same : (chosen m c p).core d = m.core d := Function.update_of_ne away _ _
    have cpu : (chosen m c p).kernel.cpu d = m.kernel.cpu d := Function.update_of_ne away _ _
    have outside := inv.outside held away
    exact ⟨(inv.places d).kept Iff.rfl same cpu fun inside => absurd outside inside,
      same ▸ outside⟩
  · rw [chosen_thread] at busy
    rintro rfl
    have embryo := (inv.table.forks.forking q np stage busy).2.state
    have state : ((view m).proc np).state = .RUNNABLE := runnable
    rw [state] at embryo
    cases embryo

theorem resume_idle {p : Proc} (idle : Suits p.thread .yield) : resume p = p := by
  unfold resume
  cases thread : p.thread with
  | user => rfl
  | forking np stage => rfl
  | asleep => exact absurd thread idle.1
  | waiting => exact absurd thread idle.2

theorem resume_asleep {p : Proc} (asleep : p.thread = .asleep) :
    resume p = { p with chan := none, thread := .user } := by
  unfold resume
  rw [asleep]

theorem resume_waiting {p : Proc} (waiting : p.thread = .waiting) :
    resume p = { p with chan := none } := by
  cases p
  cases waiting
  rfl

theorem resume_waits (p : Proc) : (resume p).thread = .waiting ↔ p.thread = .waiting := by
  unfold resume
  cases thread : p.thread <;> simp [thread]

/-- What the table sees of a process that goes on. -/
theorem view_resumed (away : ∀ d, d ≠ c → (m.core d).point = .outside) (quiet : m.panicked = none)
    (suits : Resumes (m.kernel.proc cur).thread (m.context cur)) :
    view (resumed m c cur) =
      let k : Kernel := { m.kernel.set cur (resume (m.kernel.proc cur)) with panicked := false }
      if (m.kernel.proc cur).thread = .waiting then ExitWait.wait k c cur else k := by
  have unchanged : m.kernel.set cur (m.kernel.proc cur) = m.kernel := by
    simp [Kernel.set]
  unfold resumed
  cases context : m.context cur with
  | forkret =>
      rw [context] at suits
      have idle : Suits (m.kernel.proc cur).thread .yield := suits
      dsimp only
      rw [if_neg idle.2, resume_idle idle, unchanged]
      exact view_store away quiet m.kernel _
  | sched intena caller =>
      rw [context] at suits
      dsimp only
      have away' : ∀ d, d ≠ c →
          ((m.setCore c { m.core c with intena := intena }).core d).point = .outside := by
        intro d other
        have same : (m.setCore c { m.core c with intena := intena }).core d = m.core d :=
          Function.update_of_ne other _ _
        rw [same]
        exact away d other
      cases caller with
      | yield =>
          have idle : Suits (m.kernel.proc cur).thread .yield := suits
          rw [if_neg idle.2, resume_idle idle, unchanged]
          exact view_store away' quiet m.kernel _
      | sleep =>
          have asleep : (m.kernel.proc cur).thread = .asleep := suits
          rw [resume_asleep asleep, asleep, if_neg Thread.noConfusion]
          exact view_store away' quiet _ _
      | wait =>
          have waiting : (m.kernel.proc cur).thread = .waiting := suits
          rw [if_pos waiting, resume_waiting waiting]
          exact view_wait away' quiet
      | exit => exact suits.elim

/-- A turn of scheduler() that finds a process is one event of the table. -/
theorem Inv.view_chooses (inv : Inv m) {n : Nat} {p : Slot} (point : (m.core c).point = .scan n)
    (runnable : (m.kernel.proc p).state = .RUNNABLE) :
    ExitWait.step (view m) (.schedule c p) = some (view (resumed (chosen m c p) c p)) := by
  have held := inv.held point Point.noConfusion
  have saved := (inv.chooses point runnable).2.2
  have core : ∀ d, d ≠ c → ((chosen m c p).core d).point = .outside := by
    intro d away
    have same : (chosen m c p).core d = m.core d := Function.update_of_ne away _ _
    rw [same]
    exact inv.outside held away
  have suits : Resumes ((chosen m c p).kernel.proc p).thread ((chosen m c p).context p) := by
    rw [chosen_thread]
    exact saved
  have here : (chosen m c p).kernel.proc p = { m.kernel.proc p with state := .RUNNING } :=
    Function.update_self ..
  refine inv.taken ?_
  rw [inv.view_here point Point.noConfusion rfl, view_resumed core inv.quiet suits, here]
  have free : m.kernel.cpu c = none ∧ (m.kernel.proc p).state = .RUNNABLE :=
    ⟨inv.none_here point, runnable⟩
  refine (if_pos free).trans (congrArg some ?_)
  have twice : (chosen m c p).kernel.set p (resume { m.kernel.proc p with state := .RUNNING }) =
      { m.kernel.set p (resume { m.kernel.proc p with state := .RUNNING }) with
        cpu := Function.update m.kernel.cpu c (some p) } := by
    simp [chosen, Kernel.set, Machine.store, Machine.setCore]
  rw [twice, scheduler]
  have self : (Function.update m.kernel.proc p
      (resume { m.kernel.proc p with state := .RUNNING })) p =
        resume { m.kernel.proc p with state := .RUNNING } := Function.update_self ..
  simp only [Kernel.set, self, resume_waits]

end Locked

end Xv6.Public3.Switching
