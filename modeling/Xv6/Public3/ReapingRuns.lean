import Xv6.Public3.Reaping

/-!
# Every exit is waited for (proc.c of xv6-public_3)

fork() and exit() as steps of the family, and the protocol of exit() and wait()
over all runs.
-/

set_option autoImplicit false

namespace Xv6.Public3.ExitWait

open Xv6.Lib.Families (Family Member Phase)
open Xv6.Lib.Runs

/-! ## fork() -/

theorem forkOn_family (k : Kernel) (cur np : Slot) (p : Proc) (thread : Thread) :
    family (forkOn k cur np p thread) = (family k).set np (member p) := by
  have members : ∀ i, member ((forkOn k cur np p thread).proc i) =
      ((family k).set np (member p)).member i := by
    intro i
    have outer : member ((forkOn k cur np p thread).proc i) =
        member (Function.update k.proc np p i) :=
      Lib.Slots.update_observed member (Function.update k.proc np p) cur
        (setThread thread (Function.update k.proc np p cur)) rfl i
    rw [outer, Lib.Families.set_member]
    by_cases here : i = np
    · rw [here, Function.update_self, if_pos rfl]
    · rw [Function.update_of_ne here, if_neg here]
      rfl
  unfold family at *
  simp only [Lib.Families.Family.set] at members ⊢
  congr 1
  exact funext members

theorem forkOn_cpus {k : Kernel} (cpus : Cpus k) {cur np : Slot} {p : Proc} {thread : Thread}
    (off : (k.proc np).state ≠ .RUNNING) : Cpus (forkOn k cur np p thread) := by
  refine cpus.of_same rfl fun i running => ?_
  have outer : ((forkOn k cur np p thread).proc i).state = (Function.update k.proc np p i).state :=
    Lib.Slots.update_observed Proc.state (Function.update k.proc np p) cur
      (setThread thread (Function.update k.proc np p cur)) rfl i
  have away : i ≠ np := by
    rintro rfl
    exact off running
  rw [outer, Function.update_of_ne away]
  exact running

/-- The child's slot is not that of a process that sleeps in wait(), and its parent does not. -/
theorem forkOn_waits {k : Kernel} (waits : Waits k) {cur np : Slot} {p : Proc} {thread : Thread}
    (running : (k.proc cur).state = .RUNNING) (awake : p.state ≠ .SLEEPING)
    (fresh : p.state ≠ .ZOMBIE) (apart : np ≠ cur) : Waits (forkOn k cur np p thread) := by
  have back : ∀ i, InWait (forkOn k cur np p thread) i →
      i ≠ np ∧ i ≠ cur ∧ (forkOn k cur np p thread).proc i = k.proc i := by
    intro i asleep
    by_cases first : i = cur
    · subst first
      simp [InWait, forkOn, Kernel.set, setThread, apart.symm, running] at asleep
    · by_cases second : i = np
      · subst second
        simp [InWait, forkOn, Kernel.set, first, awake] at asleep
      · exact ⟨second, first, by simp [forkOn, Kernel.set, first, second]⟩
  constructor
  case chan =>
    intro i asleep
    obtain ⟨_, _, same⟩ := back i asleep
    rw [same]
    exact waits.chan i (by rw [InWait, ← same]; exact asleep)
  case children =>
    intro i j asleep child dead
    obtain ⟨_, _, same⟩ := back i asleep
    have before : InWait k i := by rw [InWait, ← same]; exact asleep
    by_cases first : j = np
    · subst first
      simp [forkOn, Kernel.set, apart, fresh] at dead
    · by_cases second : j = cur
      · subst second
        simp [forkOn, Kernel.set, setThread, apart.symm, running] at dead
      · simp only [forkOn, Kernel.set, Function.update_of_ne first,
          Function.update_of_ne second] at child dead
        exact waits.children i j before child dead

/-- A stretch of fork() by `cur`, when the child's slot is in nobody else's hands. -/
structure Mine (k : Kernel) (cur np : Slot) : Prop where
  running : (k.proc cur).state = .RUNNING
  fresh : phase (k.proc np).state = .free ∨ phase (k.proc np).state = .embryo
  owned : ∀ q stage, (k.proc q).thread = .forking np stage → q = cur

theorem Mine.apart {k : Kernel} {cur np : Slot} (mine : Mine k cur np) : np ≠ cur := by
  rintro rfl
  have fresh := mine.fresh
  rw [mine.running] at fresh
  simp [phase] at fresh

/-- What a stretch of fork() keeps whatever it does to the family. -/
theorem Mine.kept {k : Kernel} {cur np : Slot} (mine : Mine k cur np) (inv : Inv k) {p : Proc}
    {thread : Thread} (fresh : p.state = .UNUSED ∨ p.state = .EMBRYO ∨ p.state = .RUNNABLE)
    (idle : ∀ n stage, p.thread = .forking n stage → p.thread = (k.proc np).thread)
    (next : ∀ n stage, thread = .forking n stage → n = np ∧ Half cur stage p) :
    Kept k (forkOn k cur np p thread) := by
  have off : (k.proc np).state ≠ .RUNNING := by
    intro running
    have fresh := mine.fresh
    rw [running] at fresh
    simp [phase] at fresh
  have busy : ∀ n stage, (k.proc np).thread ≠ .forking n stage := by
    intro n stage forking
    have living := (inv.forks.forking np n stage forking).1
    have fresh := mine.fresh
    rw [living] at fresh
    simp at fresh
  have unborn : ∀ n stage, p.thread ≠ .forking n stage := fun n stage forking =>
    busy n stage (idle n stage forking ▸ forking)
  have awake : p.state ≠ .SLEEPING ∧ p.state ≠ .ZOMBIE := by
    rcases fresh with state | state | state
    all_goals simp [state]
  have living : phase (k.proc cur).state = .living := by
    rw [mine.running]
    rfl
  exact ⟨rfl, forkOn_cpus inv.cpus off,
    inv.forks.stretch mine.owned living mine.apart busy unborn next,
    forkOn_waits inv.waits mine.running awake.1 awake.2 mine.apart⟩

theorem findUnused_some {proc : Slot → Proc} {np : Slot} (found : findUnused proc = some np) :
    (proc np).state = .UNUSED := by
  have unused := List.find?_some found
  exact of_decide_eq_true unused

theorem allocproc_steps {k : Kernel} (inv : Inv k) (e : Event) {c : Cpu} {cur : Slot}
    (current : k.cpu c = some cur) : Steps k e (allocproc k cur) := by
  unfold allocproc
  cases found : findUnused k.proc with
  | none => exact ⟨⟨rfl, inv.cpus, inv.forks, inv.waits⟩, .stays rfl rfl⟩
  | some np =>
      have unused := findUnused_some found
      have free : ((family k).member np).phase = .free := phase_free.mpr unused
      have mine : Mine k cur np := by
        refine ⟨inv.cpus.running c cur current, Or.inl free, ?_⟩
        intro q stage busy
        have embryo := (inv.forks.forking q np stage busy).2.state
        rw [unused] at embryo
        cases embryo
      obtain ⟨p, entry⟩ : ∃ p, p = { k.proc np with
          state := .EMBRYO, pid := k.nextpid, thread := .user } := ⟨_, rfl⟩
      have half : Half cur .allocated p := by
        rw [entry]
        exact ⟨rfl, inv.family.free np free⟩
      have memberEq : member p =
          { (family k).member np with phase := .embryo, pid := k.nextpid } := by
        rw [entry]
        rfl
      have thread : p.thread = .user := by rw [entry]
      dsimp only
      rw [← entry]
      have next : ∀ n stage, Thread.forking np .allocated = .forking n stage →
          n = np ∧ Half cur stage p := by
        rintro _ _ ⟨⟩
        exact ⟨rfl, half⟩
      obtain ⟨_, cpus, forks, waits⟩ :=
        mine.kept inv (Or.inr (Or.inl half.state)) (by simp [thread]) next
      refine ⟨⟨rfl, ⟨cpus.running, cpus.single⟩, ⟨forks.forking, forks.owner⟩,
        ⟨waits.chan, waits.children⟩⟩, .allocates np unused ?_ rfl⟩
      have counted : family { forkOn k cur np p (.forking np .allocated) with
            nextpid := k.nextpid + 1 } =
          { family (forkOn k cur np p (.forking np .allocated)) with
            nextpid := k.nextpid + 1 } := rfl
      rw [counted, forkOn_family, memberEq]
      rfl

section Stretches
variable {k : Kernel} {c : Cpu} {cur np : Slot} {stage : ForkStage}

theorem Inv.mine (inv : Inv k) (current : k.cpu c = some cur)
    (busy : (k.proc cur).thread = .forking np stage) : Mine k cur np where
  running := inv.cpus.running c cur current
  fresh := Or.inr (phase_embryo.mpr (inv.forks.forking cur np stage busy).2.state)
  owned := fun q stage' other => inv.forks.owner q cur np stage' stage other busy

/-- A fork() that fails gives its slot back. -/
theorem forkFails_steps (inv : Inv k) (e : Event) (current : k.cpu c = some cur)
    (busy : (k.proc cur).thread = .forking np stage) (early : stage ≠ .copied)
    (failed : FailedFork k e np) :
    Steps k e (forkOn k cur np { k.proc np with state := .UNUSED } .user) := by
  have half := (inv.forks.forking cur np stage busy).2
  have orphan : (k.proc np).parent = none := by rw [half.parent, if_neg early]
  exact ⟨(inv.mine current busy).kept inv (Or.inl rfl) (fun _ _ _ => rfl) (by simp),
    .abandons np failed half.state orphan (forkOn_family k cur np _ .user) rfl⟩

theorem allocprocStack_steps (inv : Inv k) (current : k.cpu c = some cur)
    (busy : (k.proc cur).thread = .forking np .allocated) (kalloc : Bool) :
    Steps k (.forkStack c kalloc) (allocprocStack kalloc k cur np) := by
  have half := (inv.forks.forking cur np .allocated busy).2
  unfold allocprocStack
  cases kalloc with
  | false =>
      exact forkFails_steps inv _ current busy (by simp) ⟨c, cur, current, Or.inl ⟨busy, rfl⟩⟩
  | true =>
      rw [if_pos rfl]
      have same : (family k).set np (member (k.proc np)) = family k := by
        unfold Lib.Families.Family.set
        exact congrArg (fun m => { family k with member := m }) (Function.update_eq_self _ _)
      have next : ∀ n stage, Thread.forking np .stacked = .forking n stage →
          n = np ∧ Half cur stage (k.proc np) := by
        rintro _ _ ⟨⟩
        exact ⟨rfl, half.state, half.parent⟩
      exact ⟨(inv.mine current busy).kept inv (Or.inr (Or.inl half.state)) (fun _ _ _ => rfl) next,
        .stays ((forkOn_family k cur np _ _).trans same) rfl⟩

theorem forkCopy_steps (inv : Inv k) (current : k.cpu c = some cur)
    (busy : (k.proc cur).thread = .forking np .stacked) (copyuvm : Bool) :
    Steps k (.forkCopy c copyuvm) (forkCopy copyuvm k cur np) := by
  have half := (inv.forks.forking cur np .stacked busy).2
  have mine := inv.mine current busy
  have orphan : (k.proc np).parent = none := by rw [half.parent, if_neg (by simp)]
  unfold forkCopy
  cases copyuvm with
  | false =>
      exact forkFails_steps inv _ current busy (by simp) ⟨c, cur, current, Or.inr ⟨busy, rfl⟩⟩
  | true =>
      rw [if_pos rfl]
      have living : phase (k.proc cur).state = .living := by
        rw [mine.running]
        rfl
      have next : ∀ n stage, Thread.forking np .copied = .forking n stage →
          n = np ∧ Half cur stage { k.proc np with parent := some cur } := by
        rintro _ _ ⟨⟩
        exact ⟨rfl, half.state, rfl⟩
      exact ⟨mine.kept inv (Or.inr (Or.inl half.state)) (fun _ _ _ => rfl) next,
        .adopts np cur half.state orphan living (forkOn_family k cur np _ _) rfl⟩

theorem forkCommit_steps (inv : Inv k) (e : Event) (current : k.cpu c = some cur)
    (busy : (k.proc cur).thread = .forking np .copied) : Steps k e (forkCommit k cur np) := by
  have half := (inv.forks.forking cur np .copied busy).2
  have child : (k.proc np).parent ≠ none := by simp [half.parent]
  exact ⟨(inv.mine current busy).kept inv (Or.inr (Or.inr rfl)) (fun _ _ _ => rfl) (by simp),
    .commits np half.state child (forkOn_family k cur np _ .user) rfl⟩

end Stretches

/-! ## exit() -/

def DeadChild (proc : Slot → Proc) (cur : Slot) : Prop :=
  ∃ j, (proc j).parent = some cur ∧ (proc j).state = .ZOMBIE

/-- What a wakeup on `chan` does to a slot. -/
structure Wakes (chan : Option Chan) (p p' : Proc) : Prop where
  sleeping : p'.state = .SLEEPING → p.state = .SLEEPING ∧ p.chan ≠ chan
  running : p.state = .RUNNING → p'.state = .RUNNING
  phase : phase p'.state = phase p.state
  chan : p'.chan = p.chan
  thread : p'.thread = p.thread
  pid : p'.pid = p.pid
  parent : p'.parent = p.parent

theorem wakeup1_wakes (chan : Option Chan) (proc : Slot → Proc) (i : Slot) :
    Wakes chan (proc i) (wakeup1 chan proc i) := by
  have running := running_wakeup1 chan proc i
  unfold wakeup1 at running ⊢
  split
  · rename_i woken
    exact ⟨by simp, by simp [woken.1], by rw [woken.1]; rfl, rfl, rfl, rfl, rfl⟩
  · rename_i stays
    exact ⟨fun asleep => ⟨asleep, fun same => stays ⟨asleep, same⟩⟩, id, rfl, rfl, rfl, rfl, rfl⟩

/-- What exit() has done to a slot when curproc becomes a ZOMBIE. -/
structure Notified (k : Kernel) (cur : Slot) (p p' : Proc) : Prop where
  sleeping : p'.state = .SLEEPING → p.state = .SLEEPING ∧
    p.chan ≠ (k.proc cur).parent.map .proc ∧
    (DeadChild k.proc cur → p.chan ≠ some (.proc k.initproc))
  running : p.state = .RUNNING → p'.state = .RUNNING
  phase : phase p'.state = phase p.state
  chan : p'.chan = p.chan
  thread : p'.thread = p.thread
  pid : p'.pid = p.pid
  parent : p'.parent = if p.parent = some cur then some k.initproc else p.parent

def exitNotify (k : Kernel) (cur : Slot) : Slot → Proc :=
  reparent cur k.initproc (wakeup1 ((k.proc cur).parent.map .proc) k.proc)

theorem exitNotify_notified (k : Kernel) (cur i : Slot) :
    Notified k cur (k.proc i) (exitNotify k cur i) := by
  obtain ⟨woken, entry⟩ : ∃ woken, woken = wakeup1 ((k.proc cur).parent.map .proc) k.proc :=
    ⟨_, rfl⟩
  have first : ∀ i, Wakes ((k.proc cur).parent.map .proc) (k.proc i) (woken i) := by
    rw [entry]
    exact wakeup1_wakes _ k.proc
  obtain ⟨handed, given⟩ : ∃ handed : Slot → Proc, handed = fun i =>
      if (woken i).parent = some cur then { woken i with parent := some k.initproc }
      else woken i := ⟨_, rfl⟩
  have second : (handed i).state = (woken i).state ∧ (handed i).chan = (woken i).chan ∧
      (handed i).thread = (woken i).thread ∧ (handed i).pid = (woken i).pid ∧
      (handed i).parent =
        if (woken i).parent = some cur then some k.initproc else (woken i).parent := by
    rw [given]
    dsimp only
    split
    all_goals exact ⟨rfl, rfl, rfl, rfl, rfl⟩
  have dead : (slots.any fun j => decide ((woken j).parent = some cur) &&
      decide ((woken j).state = .ZOMBIE)) = true ↔ DeadChild k.proc cur := by
    have zombie : ∀ j, (woken j).state = .ZOMBIE ↔ (k.proc j).state = .ZOMBIE := fun j => by
      rw [← phase_zombie, (first j).phase, phase_zombie]
    simp [DeadChild, slots, (first _).parent, zombie]
  obtain ⟨state, chan, thread, pid, parent⟩ := second
  unfold exitNotify reparent
  dsimp only
  rw [← entry, ← given]
  split
  · rename_i any
    have third := wakeup1_wakes (some (.proc k.initproc)) handed i
    constructor
    case sleeping =>
      intro asleep
      obtain ⟨asleep, elsewhere⟩ := third.sleeping asleep
      rw [state] at asleep
      rw [chan, (first i).chan] at elsewhere
      exact ⟨((first i).sleeping asleep).1, ((first i).sleeping asleep).2, fun _ => elsewhere⟩
    case running => exact fun running => third.running (state.trans ((first i).running running))
    case phase => rw [third.phase, state, (first i).phase]
    case chan => rw [third.chan, chan, (first i).chan]
    case thread => rw [third.thread, thread, (first i).thread]
    case pid => rw [third.pid, pid, (first i).pid]
    case parent => rw [third.parent, parent, (first i).parent]
  · rename_i none_dead
    constructor
    case sleeping =>
      intro asleep
      rw [state] at asleep
      exact ⟨((first i).sleeping asleep).1, ((first i).sleeping asleep).2,
        fun has => absurd (dead.mpr has) none_dead⟩
    case running => exact fun running => state.trans ((first i).running running)
    case phase => rw [state, (first i).phase]
    case chan => rw [chan, (first i).chan]
    case thread => rw [thread, (first i).thread]
    case pid => rw [pid, (first i).pid]
    case parent => rw [parent, (first i).parent]

theorem exit_eq (k : Kernel) (c : Cpu) {cur : Slot} (leaves : cur ≠ k.initproc) :
    exit k c cur = { sched { k with proc := exitNotify k cur } c cur
        { exitNotify k cur cur with state := .ZOMBIE } with
      log := k.log ++ [.exited (k.proc cur).pid] } := by
  unfold exit
  rw [if_neg leaves]
  rfl

/-- The table when the process in `cur` has left its CPU for good. -/
structure Left (k k' : Kernel) (cur : Slot) : Prop where
  self : (k'.proc cur).state = .ZOMBIE ∧ (k'.proc cur).thread = (k.proc cur).thread ∧
    (k'.proc cur).pid = (k.proc cur).pid
  parent : ∀ i, (k'.proc i).parent =
    if (k.proc i).parent = some cur then some k.initproc else (k.proc i).parent
  other : ∀ i, i ≠ cur → Notified k cur (k.proc i) (k'.proc i)

theorem exit_left (k : Kernel) (c : Cpu) {cur : Slot} (leaves : cur ≠ k.initproc) :
    Left k (exit k c cur) cur := by
  have notified := exitNotify_notified k cur
  have proc : (exit k c cur).proc = Function.update (exitNotify k cur) cur
      { exitNotify k cur cur with state := .ZOMBIE } := by
    rw [exit_eq k c leaves]
    rfl
  have other : ∀ i, i ≠ cur → (exit k c cur).proc i = exitNotify k cur i := fun i away => by
    rw [proc, Function.update_of_ne away]
  constructor
  case self =>
    rw [proc, Function.update_self]
    exact ⟨rfl, (notified cur).thread, (notified cur).pid⟩
  case parent =>
    intro i
    rw [← (notified i).parent]
    exact (congrArg (fun proc => (proc i).parent) proc).trans
      (Lib.Slots.update_observed Proc.parent (exitNotify k cur) cur
        { exitNotify k cur cur with state := .ZOMBIE } rfl i)
  case other =>
    intro i away
    rw [other i away]
    exact notified i

theorem exit_family (k : Kernel) (c : Cpu) {cur : Slot} (leaves : cur ≠ k.initproc) :
    family (exit k c cur) = (family k).leave k.initproc cur := by
  have left := exit_left k c leaves
  have members : ∀ i, member ((exit k c cur).proc i) =
      ((family k).leave k.initproc cur).member i := by
    intro i
    rw [Lib.Families.leave_member]
    unfold member
    rw [left.parent i]
    by_cases here : i = cur
    · subst here
      rw [left.self.1, left.self.2.2]
      simp only [family, member, phase, if_true]
      exact congrArg (Member.mk .zombie (k.proc i).pid) (if_congr Iff.rfl rfl rfl)
    · rw [(left.other i here).phase, (left.other i here).pid]
      simp only [family, member, if_neg here]
      exact congrArg (Member.mk _ (k.proc i).pid) (if_congr Iff.rfl rfl rfl)
  have log : (exit k c cur).log.filterMap report = ((family k).leave k.initproc cur).log := by
    rw [exit_eq k c leaves, Lib.Families.leave_log]
    simp [report, family, member]
  have next : (exit k c cur).nextpid = ((family k).leave k.initproc cur).nextpid := by
    rw [exit_eq k c leaves]
    rfl
  unfold family at *
  rw [log, next]
  congr 1
  exact funext members

theorem exit_steps {k : Kernel} (inv : Inv k) (e : Event) {c : Cpu} {cur : Slot}
    (current : k.cpu c = some cur) (user : (k.proc cur).thread = .user) :
    Steps k e (exit k c cur) := by
  by_cases leaves : cur = k.initproc
  · have panicked : exit k c cur = { k with panicked := true } := by
      unfold exit
      rw [if_pos leaves]
    rw [panicked]
    exact inv.of_quiet ⟨inv.cpus.running, inv.cpus.single⟩ rfl rfl rfl fun i => Quiet.refl _
  have left := exit_left k c leaves
  have running := inv.cpus.running c cur current
  have living : phase (k.proc cur).state = .living := by
    rw [running]
    rfl
  have threads : ∀ i, ((exit k c cur).proc i).thread = (k.proc i).thread := by
    intro i
    by_cases here : i = cur
    · subst here
      exact left.self.2.1
    · exact (left.other i here).thread
  refine { init := ?init, cpus := ?cpus, forks := ?forks, waits := ?waits, moved := ?moved }
  case init =>
    rw [exit_eq k c leaves]
    rfl
  case moved =>
    refine .exits cur living leaves (exit_family k c leaves) ?_
    rw [exit_eq k c leaves]
  case cpus =>
    refine inv.cpus.leave current (by rw [exit_eq k c leaves]; rfl) fun i away => ?_
    exact (left.other i away).running
  case forks =>
    refine inv.forks.of_kept (fun p np stage busy => (threads p).symm.trans busy) ?_ ?_
    · intro p np stage busy alive
      have away : p ≠ cur := by
        rintro rfl
        rw [user] at busy
        cases busy
      exact (left.other p away).phase.trans alive
    · intro p np stage busy half
      have away : np ≠ cur := by
        rintro rfl
        have embryo := half.state
        rw [running] at embryo
        cases embryo
      have mine : (k.proc np).parent ≠ some cur := by
        rw [half.parent]
        split
        · intro own
          rw [Option.some.inj own, user] at busy
          cases busy
        · simp
      have embryo := phase_embryo.mpr half.state
      rw [← (left.other np away).phase] at embryo
      exact ⟨phase_embryo.mp embryo, by rw [left.parent, if_neg mine, half.parent]⟩
  case waits =>
    have back : ∀ i, InWait (exit k c cur) i → i ≠ cur ∧ InWait k i ∧
        (k.proc cur).parent ≠ some i ∧ (i = k.initproc → ¬ DeadChild k.proc cur) := by
      intro i asleep
      have away : i ≠ cur := by
        rintro rfl
        have state := asleep.1
        rw [left.self.1] at state
        cases state
      obtain ⟨before, parent, orphans⟩ := (left.other i away).sleeping asleep.1
      have waited : InWait k i := ⟨before, (threads i).symm.trans asleep.2⟩
      rw [inv.waits.chan i waited] at parent orphans
      refine ⟨away, waited, ?_, ?_⟩
      · intro own
        rw [own] at parent
        exact parent rfl
      · rintro rfl has
        exact orphans has rfl
    constructor
    case chan =>
      intro i asleep
      obtain ⟨away, waited, _⟩ := back i asleep
      rw [(left.other i away).chan]
      exact inv.waits.chan i waited
    case children =>
      intro i j asleep child dead
      obtain ⟨_, waited, stranger, spared⟩ := back i asleep
      rw [left.parent] at child
      -- The child is curproc, or it was handed over, or it was a child before.
      by_cases here : j = cur
      · subst here
        have own : (k.proc j).parent ≠ some j := inv.family.own j
        rw [if_neg own] at child
        exact stranger child
      · have zombie := phase_zombie.mpr dead
        rw [(left.other j here).phase, phase_zombie] at zombie
        split at child
        · rename_i orphan
          exact spared (Option.some.inj child).symm ⟨j, orphan, zombie⟩
        · exact inv.waits.children i j waited child zombie

/-! ## Every step -/

theorem step_steps {k next : Kernel} {e : Event} (inv : Inv k) (taken : step k e = some next) :
    Steps k e next := by
  have taken := step_some taken
  cases e with
  | schedule c slot =>
      simp only [act, Option.ite_none_right_eq_some, Option.some.injEq] at taken
      obtain ⟨⟨_, runnable⟩, rfl⟩ := taken
      exact scheduler_steps inv _ runnable
  | yield c =>
      simp only [act] at taken
      obtain ⟨p, current, _, rfl⟩ := onCpu_some taken
      exact yield_steps inv _ current
  | fork c =>
      simp only [act] at taken
      obtain ⟨p, current, _, rfl⟩ := onCpu_some taken
      exact allocproc_steps inv _ current
  | forkStack c kalloc =>
      simp only [act] at taken
      obtain ⟨p, np, current, busy, rfl⟩ := inFork_some taken
      exact allocprocStack_steps inv current busy kalloc
  | forkCopy c copyuvm =>
      simp only [act] at taken
      obtain ⟨p, np, current, busy, rfl⟩ := inFork_some taken
      exact forkCopy_steps inv current busy copyuvm
  | forkCommit c =>
      simp only [act] at taken
      obtain ⟨p, np, current, busy, rfl⟩ := inFork_some taken
      exact forkCommit_steps inv _ current busy
  | exit c =>
      simp only [act] at taken
      obtain ⟨p, current, user, rfl⟩ := onCpu_some taken
      exact exit_steps inv _ current (of_decide_eq_true user)
  | wait c =>
      simp only [act] at taken
      obtain ⟨p, current, _, rfl⟩ := onCpu_some taken
      exact wait_steps inv _ current
  | sleep c chan =>
      simp only [act] at taken
      obtain ⟨p, current, _, rfl⟩ := onCpu_some taken
      exact sleep_steps inv _ current chan
  | wakeup chan =>
      simp only [act] at taken
      cases Option.some.inj taken
      exact wakeup_steps inv _ (some chan)
  | kill c pid =>
      simp only [act] at taken
      obtain ⟨p, _, _, rfl⟩ := onCpu_some taken
      exact kill_steps inv _ pid

theorem step_inv (k : Kernel) (e : Event) (next : Kernel) (inv : Inv k)
    (taken : step k e = some next) : Inv next :=
  (step_steps inv taken).inv inv

/-! ## The protocol -/

/-- The process has not exited. -/
def Living (p : Proc) : Prop := p.state = .SLEEPING ∨ p.state = .RUNNABLE ∨ p.state = .RUNNING

/-- The pids that wait() has returned, in order. -/
def returned (k : Kernel) : List Int :=
  k.log.filterMap fun
    | .exited _ => none
    | .waited _ ret => if ret = -1 then none else some ret

/-- Where the processes that have exited are, and who sleeps in wait(). -/
structure Sound (k : Kernel) : Prop where
  zombie : ∀ pid, .exited pid ∈ k.log → pid ∉ returned k → ∃ i j, (k.proc i).pid = pid ∧
    (k.proc i).state = .ZOMBIE ∧ (k.proc i).parent = some j ∧ Living (k.proc j)
  once : (returned k).Nodup
  exited : ∀ pid ∈ returned k, .exited pid ∈ k.log
  asleep : ∀ i j, InWait k i → (k.proc j).parent = some i → (k.proc j).state ≠ .ZOMBIE

/-- What a step may do to the processes that have exited, to their parents and to the slots. -/
structure Allowed (k : Kernel) (e : Event) (k' : Kernel) : Prop where
  stays : ∀ i, (k.proc i).state = .ZOMBIE →
    (k'.proc i).state = .ZOMBIE ∧ (k'.proc i).pid = (k.proc i).pid ∨
    ∃ cur, (k.proc i).parent = some cur ∧ k'.log = k.log ++ [.waited cur (k.proc i).pid]
  parent : ∀ i j, (k.proc i).parent = some j → (k'.proc i).parent = some j ∨
    (k'.proc i).parent = some k.initproc ∧ k'.log = k.log ++ [.exited (k.proc j).pid] ∨
    k'.log = k.log ++ [.waited j (k.proc i).pid]
  fails : ∀ cur, k'.log = k.log ++ [.waited cur (-1)] →
    (∀ i, (k.proc i).parent ≠ some cur) ∨ (k.proc cur).killed = true
  reaps : ∀ cur pid, k'.log = k.log ++ [.waited cur pid] → pid ≠ -1 →
    ∃ i, (k.proc i).pid = pid ∧ (k.proc i).state = .ZOMBIE ∧ (k.proc i).parent = some cur ∧
      (k'.proc i).state = .UNUSED
  freed : ∀ i, (k.proc i).state ≠ .UNUSED → (k'.proc i).state = .UNUSED →
    (∃ cur, k'.log = k.log ++ [.waited cur (k.proc i).pid]) ∨ FailedFork k e i
  dies : ∀ i, (k.proc i).state ≠ .ZOMBIE → (k'.proc i).state = .ZOMBIE →
    k'.log = k.log ++ [.exited (k.proc i).pid]

theorem living_of_phase {p : Proc} (living : phase p.state = .living) : Living p := by
  unfold Living
  cases state : p.state
  all_goals simp_all [phase]

theorem exited_family (k : Kernel) (pid : Int) :
    .exited pid ∈ (family k).log ↔ Report.exited pid ∈ k.log := by
  unfold family
  rw [List.mem_filterMap]
  constructor
  · rintro ⟨entry, logged, same⟩
    cases entry with
    | exited n =>
        obtain rfl : n = pid := by simpa [report] using same
        exact logged
    | waited cur ret =>
        by_cases failed : ret = -1
        all_goals simp [report, failed] at same
  · exact fun logged => ⟨_, logged, rfl⟩

theorem returned_family (k : Kernel) : returned k = (family k).reaped := by
  unfold returned Lib.Families.Family.reaped family
  rw [List.filterMap_filterMap]
  refine congrArg (fun f => k.log.filterMap f) (funext fun entry => ?_)
  cases entry with
  | exited n => rfl
  | waited cur ret =>
      by_cases failed : ret = -1
      · simp [report, failed]
      · simp [report, failed, Lib.Families.reapedPid]

theorem Inv.sound {k : Kernel} (inv : Inv k) : Sound k where
  zombie := by
    intro pid exited waits
    rw [← exited_family] at exited
    rw [returned_family] at waits
    obtain ⟨i, pidEq, dead⟩ := inv.family.exits pid exited waits
    have other : i ≠ k.initproc := by
      rintro rfl
      rw [inv.family.top.1] at dead
      cases dead
    obtain ⟨j, parent⟩ := Option.ne_none_iff_exists'.mp
      (inv.family.orphans i other (Or.inr dead))
    exact ⟨i, j, pidEq, phase_zombie.mp dead, parent, living_of_phase (inv.family.parents i j parent)⟩
  once := by
    rw [returned_family]
    exact inv.family.once
  exited := by
    intro pid gone
    rw [returned_family] at gone
    exact (exited_family k pid).mp (inv.family.reapings pid gone).1
  asleep := inv.waits.children

/-! ## What one step may do -/

section Moves
variable {k k' : Kernel} {e : Event}

/-- A step that writes nothing into the log. -/
theorem allowed_silent (log : k'.log = k.log)
    (zombie : ∀ i, (k.proc i).state = .ZOMBIE ↔ (k'.proc i).state = .ZOMBIE)
    (pid : ∀ i, (k.proc i).state = .ZOMBIE → (k'.proc i).pid = (k.proc i).pid)
    (parent : ∀ i j, (k.proc i).parent = some j → (k'.proc i).parent = some j)
    (freed : ∀ i, (k.proc i).state ≠ .UNUSED → (k'.proc i).state = .UNUSED → FailedFork k e i) :
    Allowed k e k' where
  stays := fun i dead => Or.inl ⟨(zombie i).mp dead, pid i dead⟩
  parent := fun i j child => Or.inl (parent i j child)
  fails := fun cur logged => by simp [log] at logged
  reaps := fun cur pid logged => by simp [log] at logged
  freed := fun i used unused => Or.inr (freed i used unused)
  dies := fun i alive dead => absurd ((zombie i).mpr dead) alive

/-- A store into the slot of a child that has not been started. -/
theorem allowed_set {np : Slot} {m : Member Slot} (log : k'.log = k.log)
    (stored : ∀ i, member (k'.proc i) = if i = np then m else member (k.proc i))
    (before : (k.proc np).state ≠ .ZOMBIE) (after : m.phase ≠ .zombie)
    (parent : ∀ j, (k.proc np).parent = some j → m.parent = some j)
    (freed : (k.proc np).state ≠ .UNUSED → m.phase = .free → FailedFork k e np) :
    Allowed k e k' := by
  have other : ∀ i, i ≠ np → member (k'.proc i) = member (k.proc i) := fun i away => by
    rw [stored i, if_neg away]
  have here : member (k'.proc np) = m := by rw [stored np, if_pos rfl]
  have phases : ∀ i, i ≠ np → phase (k'.proc i).state = phase (k.proc i).state := fun i away =>
    congrArg Member.phase (other i away)
  have phaseHere : phase (k'.proc np).state = m.phase := congrArg Member.phase here
  refine allowed_silent log ?_ ?_ ?_ ?_
  · intro i
    by_cases same : i = np
    · subst same
      refine iff_of_false before fun dead => after ?_
      rw [← phaseHere, dead]
      rfl
    · rw [← phase_zombie, ← phase_zombie, phases i same]
  · intro i dead
    have away : i ≠ np := by
      rintro rfl
      exact before dead
    exact congrArg Member.pid (other i away)
  · intro i j child
    by_cases same : i = np
    · subst same
      exact (congrArg Member.parent here).trans (parent j child)
    · exact (congrArg Member.parent (other i same)).trans child
  · intro i used unused
    by_cases same : i = np
    · subst same
      refine freed used ?_
      rw [← phaseHere, unused]
      rfl
    · rw [← phase_free, phases i same, phase_free] at unused
      exact absurd unused used

/-- A wait() that returns -1. -/
theorem allowed_fails {cur : Slot} (same : ∀ i, member (k'.proc i) = member (k.proc i))
    (log : k'.log = k.log ++ [.waited cur (-1)])
    (why : (∀ i, (k.proc i).parent ≠ some cur) ∨ (k.proc cur).killed = true) :
    Allowed k e k' := by
  have phases : ∀ i, phase (k'.proc i).state = phase (k.proc i).state := fun i =>
    congrArg Member.phase (same i)
  constructor
  case stays =>
    intro i dead
    refine Or.inl ⟨?_, congrArg Member.pid (same i)⟩
    rw [← phase_zombie, phases i, phase_zombie, dead]
  case parent => exact fun i j child => Or.inl ((congrArg Member.parent (same i)).trans child)
  case fails =>
    intro caller logged
    obtain rfl : cur = caller := by simpa [log] using logged
    exact why
  case reaps =>
    intro caller pid logged positive
    have ret : -1 = pid := by
      have both : cur = caller ∧ -1 = pid := by simpa [log] using logged
      exact both.2
    exact absurd ret.symm positive
  case freed =>
    intro i used unused
    rw [← phase_free, phases i, phase_free] at unused
    exact absurd unused used
  case dies =>
    intro i alive dead
    rw [← phase_zombie, phases i, phase_zombie] at dead
    exact absurd dead alive

theorem allowed_exits {cur : Slot}
    (left : ∀ i, member (k'.proc i) = { member (k.proc i) with
      phase := if i = cur then .zombie else (member (k.proc i)).phase
      parent := if (k.proc i).parent = some cur then some k.initproc else (k.proc i).parent })
    (log : k'.log = k.log ++ [.exited (k.proc cur).pid]) : Allowed k e k' := by
  have phases : ∀ i, i ≠ cur → phase (k'.proc i).state = phase (k.proc i).state := fun i away =>
    (congrArg Member.phase (left i)).trans (if_neg away)
  have phaseHere : phase (k'.proc cur).state = .zombie :=
    (congrArg Member.phase (left cur)).trans (if_pos rfl)
  constructor
  case stays =>
    intro i dead
    refine Or.inl ⟨?_, congrArg Member.pid (left i)⟩
    by_cases here : i = cur
    · exact phase_zombie.mp (here ▸ phaseHere)
    · rw [← phase_zombie, phases i here, phase_zombie, dead]
  case parent =>
    intro i j child
    have parent : (k'.proc i).parent = if (k.proc i).parent = some cur then some k.initproc
        else (k.proc i).parent := congrArg Member.parent (left i)
    by_cases orphan : (k.proc i).parent = some cur
    · obtain rfl : cur = j := Option.some.inj (orphan.symm.trans child)
      exact Or.inr (Or.inl ⟨parent.trans (if_pos orphan), log⟩)
    · exact Or.inl ((parent.trans (if_neg orphan)).trans child)
  case fails => exact fun caller logged => by simp [log] at logged
  case reaps => exact fun caller pid logged => by simp [log] at logged
  case freed =>
    intro i used unused
    rw [← phase_free] at unused
    by_cases here : i = cur
    · rw [here, phaseHere] at unused
      cases unused
    · rw [phases i here, phase_free] at unused
      exact absurd unused used
  case dies =>
    intro i alive dead
    rw [← phase_zombie] at dead
    by_cases here : i = cur
    · rw [here]
      exact log
    · rw [phases i here, phase_zombie] at dead
      exact absurd dead alive

theorem allowed_reaps {cur i : Slot} (dead : (k.proc i).state = .ZOMBIE)
    (child : (k.proc i).parent = some cur)
    (gone : ∀ j, member (k'.proc j) =
      if j = i then { phase := .free, pid := 0, parent := none } else member (k.proc j))
    (log : k'.log = k.log ++ [.waited cur (k.proc i).pid]) (positive : 0 < (k.proc i).pid) :
    Allowed k e k' := by
  have other : ∀ j, j ≠ i → member (k'.proc j) = member (k.proc j) := fun j away => by
    rw [gone j, if_neg away]
  have phases : ∀ j, j ≠ i → phase (k'.proc j).state = phase (k.proc j).state := fun j away =>
    congrArg Member.phase (other j away)
  have unused : (k'.proc i).state = .UNUSED := by
    have free : member (k'.proc i) = { phase := .free, pid := 0, parent := none } := by
      rw [gone i, if_pos rfl]
    exact phase_free.mp (congrArg Member.phase free)
  constructor
  case stays =>
    intro j zombie
    by_cases here : j = i
    · subst here
      exact Or.inr ⟨cur, child, log⟩
    · refine Or.inl ⟨?_, congrArg Member.pid (other j here)⟩
      rw [← phase_zombie, phases j here, phase_zombie, zombie]
  case parent =>
    intro j p son
    by_cases here : j = i
    · subst here
      obtain rfl : cur = p := Option.some.inj (child.symm.trans son)
      exact Or.inr (Or.inr log)
    · exact Or.inl ((congrArg Member.parent (other j here)).trans son)
  case fails =>
    intro caller logged
    have both : cur = caller ∧ (k.proc i).pid = -1 := by simpa [log] using logged
    omega
  case reaps =>
    intro caller pid logged _
    obtain ⟨rfl, rfl⟩ : cur = caller ∧ (k.proc i).pid = pid := by simpa [log] using logged
    exact ⟨i, rfl, dead, child, unused⟩
  case freed =>
    intro j used free
    by_cases here : j = i
    · subst here
      exact Or.inl ⟨cur, log⟩
    · rw [← phase_free, phases j here, phase_free] at free
      exact absurd free used
  case dies =>
    intro j alive zombie
    have away : j ≠ i := by
      rintro rfl
      exact alive dead
    rw [← phase_zombie, phases j away, phase_zombie] at zombie
    exact absurd zombie alive

theorem Moved.allowed (moved : Moved k e k') (inv : Inv k) : Allowed k e k' := by
  have stored : ∀ {np : Slot} {m : Member Slot}, (ExitWait.family k').member =
      ((ExitWait.family k).set np m).member → ∀ i, member (k'.proc i) =
        if i = np then m else member (k.proc i) := fun same i =>
    (congrFun same i).trans (Lib.Families.set_member _ _ _ i)
  cases moved with
  | stays same log =>
      have members : ∀ i, member (k'.proc i) = member (k.proc i) := fun i =>
        congrArg (fun f => f.member i) same
      have phases : ∀ i, phase (k'.proc i).state = phase (k.proc i).state := fun i =>
        congrArg Member.phase (members i)
      refine allowed_silent log ?_ (fun i _ => congrArg Member.pid (members i)) ?_ ?_
      · intro i
        rw [← phase_zombie, ← phase_zombie, phases i]
      · exact fun i j child => (congrArg Member.parent (members i)).trans child
      · intro i used unused
        rw [← phase_free, phases i, phase_free] at unused
        exact absurd unused used
  | fails cur same log why =>
      exact allowed_fails (fun i => congrArg (fun f => f.member i) same) log why
  | allocates np free grows log =>
      have members : ∀ i, member (k'.proc i) = if i = np then _ else member (k.proc i) := fun i =>
        (congrArg (fun f => f.member i) grows).trans (Lib.Families.allocate_member _ np i)
      refine allowed_set log members ?_ (by simp) ?_ ?_
      · rw [free]
        simp
      · exact fun j child => child
      · exact fun used => absurd free used
  | abandons np failed embryo orphan shrinks log =>
      refine allowed_set log (stored (congrArg Family.member shrinks)) ?_ (by simp) ?_ ?_
      · rw [embryo]
        simp
      · exact fun j child => child
      · exact fun _ _ => failed
  | adopts np cur embryo orphan living adopted log =>
      have phaseEq : ((ExitWait.family k).member np).phase = .embryo := phase_embryo.mpr embryo
      refine allowed_set log (stored (congrArg Family.member adopted)) ?_ ?_ ?_ ?_
      · rw [embryo]
        simp
      · simp [phaseEq]
      · intro j child
        rw [orphan] at child
        cases child
      · simp [phaseEq]
  | commits np embryo child born log =>
      refine allowed_set log (stored (congrArg Family.member born)) ?_ (by simp) ?_ (by simp)
      · rw [embryo]
        simp
      · exact fun j parent => parent
  | exits cur living other leaves log =>
      refine allowed_exits (fun i => ?_) log
      have member := (congrArg (fun f => f.member i) leaves).trans
        (Lib.Families.leave_member (ExitWait.family k) k.initproc cur i)
      exact member.trans (congrArg (Member.mk _ _) (if_congr Iff.rfl rfl rfl))
  | reaps cur i zombie child gone log =>
      have phaseEq : ((ExitWait.family k).member i).phase = .zombie := phase_zombie.mpr zombie
      refine allowed_reaps zombie child (fun j => ?_) log (inv.family.pids i (by simp [phaseEq])).1
      exact (congrArg (fun f => f.member j) gone).trans (Lib.Families.reap_member _ cur i j)

end Moves

/-! ## Boot -/

theorem boot_other (i : Slot) (other : i ≠ firstSlot) : boot.proc i = {} := by
  simp [boot, other]

theorem boot_first : boot.proc firstSlot = { state := .RUNNABLE, pid := 1 } := by
  simp [boot]

theorem boot_inv : Inv boot := by
  have idle : ∀ i, (boot.proc i).thread = .user ∧ (boot.proc i).parent = none ∧
      (boot.proc i).state ≠ .ZOMBIE ∧ (i ≠ firstSlot → (boot.proc i).state = .UNUSED) := by
    intro i
    by_cases here : i = firstSlot
    · rw [here, boot_first]
      exact ⟨rfl, rfl, by simp, fun away => absurd rfl away⟩
    · rw [boot_other i here]
      exact ⟨rfl, rfl, by simp, fun _ => rfl⟩
  have parent : ∀ i, ((family boot).member i).parent = none := fun i => (idle i).2.1
  have zombie : ∀ i, ((family boot).member i).phase ≠ .zombie := fun i dead =>
    (idle i).2.2.1 (phase_zombie.mp dead)
  have used : ∀ i, ((family boot).member i).phase ≠ .free → i = firstSlot := by
    intro i taken
    by_contra other
    exact taken (phase_free.mpr ((idle i).2.2.2 other))
  have first : ((family boot).member firstSlot) =
      { phase := .living, pid := 1, parent := none } := by
    unfold family member
    simp only [boot_first]
    rfl
  refine ⟨?_, ⟨?_, ?_⟩, ⟨?_, ?_⟩, ⟨?_, ?_⟩⟩
  · constructor
    case parents => exact fun i j child => by simp [parent i] at child
    case free => exact fun i _ => parent i
    case own => exact fun i => by simp [parent i]
    case top => exact ⟨congrArg Member.phase first, parent _⟩
    case orphans =>
      intro i other grown
      rcases grown with living | dead
      · exact absurd (used i (by simp [living])) other
      · exact absurd dead (zombie i)
    case next => decide
    case pids =>
      intro i taken
      rw [used i taken, first]
      decide
    case distinct => exact fun i j left right _ => (used i left).trans (used j right).symm
    case zombies => exact fun i dead => absurd dead (zombie i)
    case exits => exact fun pid exited => by simp [family, boot] at exited
    case reapings => exact fun pid gone => by simp [Family.reaped, family, boot] at gone
    case once => exact List.nodup_nil
  · exact fun c p on => by cases on
  · exact fun c d p on => by cases on
  · exact fun p np stage busy => by rw [(idle p).1] at busy; cases busy
  · exact fun p q np stage stage' busy => by rw [(idle p).1] at busy; cases busy
  · exact fun i asleep => by have waits := asleep.2; rw [(idle i).1] at waits; cases waits
  · exact fun i j _ _ => (idle j).2.2.1

/-- In every run, every process that has exited stays a ZOMBIE with a living parent until one
wait() of that parent returns its pid; and every step does to the others what it may. -/
theorem exit_wait (es : List Event) : Always step Sound boot es ∧ Stepwise step Allowed boot es :=
  ⟨always_of_invariant step (fun _ inv => inv.sound) step_inv es boot boot_inv,
    stepwise_of_invariant step step_inv
      (fun _ _ _ inv taken => (step_steps inv taken).moved.allowed inv) es boot boot_inv⟩

/-- The CPU that boots. -/
def cpu0 : Cpu := ⟨0, Nat.zero_lt_succ 7⟩

def secondSlot : Slot := ⟨1, Nat.succ_lt_succ (Nat.zero_lt_succ 62)⟩

/-- init forks, sleeps in wait() and is woken by its child's exit(). -/
example : (run step boot [.schedule cpu0 firstSlot, .fork cpu0, .forkStack cpu0 true,
    .forkCopy cpu0 true, .forkCommit cpu0, .wait cpu0, .schedule cpu0 secondSlot, .exit cpu0,
    .schedule cpu0 firstSlot]).map (fun k => k.log) =
      some [.exited 2, .waited firstSlot 2] := by decide +kernel

end Xv6.Public3.ExitWait
