import Xv6.Public2.Ageing
import Xv6.Public2.TableInv

/-!
# The profile that exit() prints (xv6-public_2)

`creation_time`, `first_cpu_time` and `rtime` are in ticks, `waiting_time` counts the rounds
of scheduler() in which another process was picked, and allocproc() does not clear it.
`passed` is history: the tick of the last round that has passed over the process in a slot
since it was created.
-/

set_option autoImplicit false

namespace Xv6.Public2.Profile

open Xv6.Lib.Runs
open Xv6.Public2.ProcTable
open Xv6.Public2.Kernel
open Xv6.Public2.Changes
open Xv6.Public2.Ageing

/-! ## The property -/

/-- "Compute profiling metrics" of exit(), without the count of the switches. -/
structure Metrics where
  tat : Int
  rt : Int
  wt : Int

def metrics (ticks : Int) (p : Proc) : Metrics where
  tat := ticks - p.creation_time
  rt := if p.first_cpu_time < 0 then 0 else p.first_cpu_time - p.creation_time
  wt := if p.waiting_time < 0 then 0 else p.waiting_time

/-- The response is within the turnaround. -/
def Responsive (m : Metrics) : Prop := 0 ≤ m.rt ∧ m.rt ≤ m.tat ∧ 0 ≤ m.wt

def Consistent (m : Metrics) (rtime : Int) : Prop := Responsive m ∧ m.wt + rtime ≤ m.tat

structure State where
  kernel : Kernel
  passed : Slot → Option Int

/-- exit() on the CPU; that of init prints nothing. -/
def exits : Event → Option Cpu
  | .exit c => some c
  | _ => none

def PrintsConsistent (s : State) (e : Event) (_ : State) : Prop :=
  ∀ cur ∈ (exits e).bind s.kernel.cpu, cur ≠ s.kernel.initproc →
    Consistent (metrics s.kernel.ticks (s.kernel.proc cur)) (s.kernel.proc cur).rtime

def passedAfter (k : Kernel) (passed : Slot → Option Int) : Event → Slot → Option Int
  | .schedule _ => fun i =>
      if Eligible (k.proc i) ∧ (scan k.proc).chosen ≠ some i then some k.ticks else passed i
  | .fork _ _ =>
      match findUnused k.proc with
      | none => passed
      | some np => Function.update passed np none
  | _ => passed

def step (s : State) (e : Event) : Option State :=
  match Kernel.step s.kernel e with
  | none => none
  | some kernel => some ⟨kernel, passedAfter s.kernel s.passed e⟩

def boot : State := ⟨Kernel.boot, fun _ => none⟩

def isFork : Event → Bool
  | .fork _ _ => true
  | _ => false

/-- No CPU runs the process in the slot. -/
def Off (k : Kernel) (i : Slot) : Prop := ∀ c, k.cpu c ≠ some i

/-- A round meets a process only off the CPUs, and in a later tick than the last round
that passed it over; a new process gets a slot off the CPUs in which no waiting time is left. -/
def TickPerRound (s : State) (e : Event) : Prop :=
  (isRound e = true → ∀ i, Eligible (s.kernel.proc i) →
      Off s.kernel i ∧ ∀ t ∈ s.passed i, t < s.kernel.ticks) ∧
    (isFork e = true → ∀ np ∈ findUnused s.kernel.proc,
      Off s.kernel np ∧ (s.kernel.proc np).waiting_time ≤ 0)

instance (m : Metrics) (rtime : Int) : Decidable (Consistent m rtime) :=
  inferInstanceAs (Decidable ((_ ∧ _ ∧ _) ∧ _))

instance (s : State) (e : Event) (next : State) : Decidable (PrintsConsistent s e next) :=
  inferInstanceAs (Decidable (∀ cur ∈ (exits e).bind s.kernel.cpu, _))

instance (k : Kernel) (i : Slot) : Decidable (Off k i) := inferInstanceAs (Decidable (∀ _, _))

instance (s : State) (e : Event) : Decidable (TickPerRound s e) :=
  inferInstanceAs (Decidable (_ ∧ _))

/-! ## The times of a process -/

structure Times where
  waiting_time : Int
  rtime : Int
  creation_time : Int
  first_cpu_time : Int

def times (p : Proc) : Times where
  waiting_time := p.waiting_time
  rtime := p.rtime
  creation_time := p.creation_time
  first_cpu_time := p.first_cpu_time

/-- custom_fork() clears `rtime` once more. -/
def Kept (t t' : Times) : Prop := t' = t ∨ t' = { t with rtime := 0 }

theorem Kept.trans {t t' t'' : Times} (first : Kept t t') (second : Kept t' t'') :
    Kept t t'' := by
  rcases first with rfl | rfl
  · exact second
  · rcases second with rfl | rfl
    · exact Or.inr rfl
    · exact Or.inr rfl

/-- The record when the burst on CPU `c` ends. -/
def burst (k : Kernel) (c : Cpu) (t : Times) : Times :=
  { t with rtime := t.rtime + (k.ticks - k.start_run c) }

/-- The record when the process is created. -/
def created (ticks : Int) (t : Times) : Times :=
  { t with rtime := 0, creation_time := ticks, first_cpu_time := -1 }

def started (ticks : Int) (t : Times) : Times :=
  { t with first_cpu_time := if t.first_cpu_time < 0 then ticks else t.first_cpu_time }

def waited (t : Times) : Times := { t with waiting_time := t.waiting_time + 1 }

/-- What a step does to the clock, the CPUs and the times. -/
inductive Effect (k : Kernel) (e : Event) (next : Kernel) : Prop where
  | calm (ticks : next.ticks = k.ticks ∨ next.ticks = k.ticks + 1)
      (start_run : next.start_run = k.start_run) (cpu : next.cpu = k.cpu)
      (quiet : ∀ passed, passedAfter k passed e = passed)
      (kept : ∀ i, Kept (times (k.proc i)) (times (next.proc i)))
  | leave (c : Cpu) (cur : Slot) (current : k.cpu c = some cur) (ticks : next.ticks = k.ticks)
      (start_run : next.start_run = k.start_run) (cpu : next.cpu = Function.update k.cpu c none)
      (quiet : ∀ passed, passedAfter k passed e = passed)
      (own : times (next.proc cur) = burst k c (times (k.proc cur)))
      (others : ∀ i, i ≠ cur → times (next.proc i) = times (k.proc i))
  | create (np : Slot) (fork : isFork e = true) (found : findUnused k.proc = some np)
      (same : SameCpus k next)
      (history : ∀ passed, passedAfter k passed e = Function.update passed np none)
      (own : times (next.proc np) = created k.ticks (times (k.proc np)))
      (others : ∀ i, i ≠ np → times (next.proc i) = times (k.proc i))
  | round (c : Cpu) (round : isRound e = true) (idle : k.cpu c = none)
      (ticks : next.ticks = k.ticks)
      (others : ∀ d, d ≠ c → next.cpu d = k.cpu d ∧ next.start_run d = k.start_run d)
      (own : ∀ i, next.cpu c = some i →
        (scan k.proc).chosen = some i ∧ next.start_run c = k.ticks)
      (times : ∀ i, times (next.proc i) =
        if (scan k.proc).chosen = some i then started k.ticks (times (k.proc i))
        else if Eligible (k.proc i) then waited (times (k.proc i))
        else times (k.proc i))

/-! ## Steps between the rounds -/

section Steps
variable {k next : Kernel} {e : Event}

/-- What neither is a round nor gives up a CPU nor creates a process. -/
theorem kept_change {i : Slot} {p p' : Proc} (still : moves e = false ∨ e = .tick)
    (old : isFork e = false) (change : Change k e i p p') : Kept (times p) (times p') := by
  cases change with
  | count | start | resume | resleep | yield | sleep | waitSleep | finish | hand | die =>
      rcases still with still | still
      all_goals cases still
  | allocate => cases old
  | @copy _ _ _ call _ page =>
      cases page with
      | none => exact Or.inl rfl
      | some page =>
          unfold copyProcess
          dsimp only
          split
          · exact Or.inl rfl
          · exact Or.inr rfl
  | @commit _ _ _ call =>
      unfold commitProcess
      split
      · exact Or.inl rfl
      · split
        all_goals exact Or.inl rfl
  | stack page =>
      cases page
      all_goals exact Or.inl rfl
  | reap | thread | wake | kill | release | signal | sigreturn | sigretFault | deliver | ctrlG
  | ctrlC | mark | shell | foreground | background => exact Or.inl rfl

theorem kept_step (still : moves e = false ∨ e = .tick) (old : isFork e = false)
    (taken : Kernel.step k e = some next) (i : Slot) :
    Kept (times (k.proc i)) (times (next.proc i)) := by
  have chain := step_chained taken i
  generalize next.proc i = p at chain
  induction chain with
  | refl => exact Or.inl rfl
  | tail _ change ih => exact ih.trans (kept_change still old change)

theorem times_update (proc : Slot → Proc) (j : Slot) (p : Proc)
    (same : times p = times (proc j)) (i : Slot) :
    times (Function.update proc j p i) = times (proc i) :=
  Lib.Slots.update_observed times proc j p same i

theorem times_wakeup1 (chan : Option Chan) (proc : Slot → Proc) (i : Slot) :
    times (wakeup1 chan proc i) = times (proc i) := by
  unfold wakeup1
  split
  all_goals rfl

theorem times_exitNotify (k : Kernel) (cur i : Slot) :
    times (exitNotify k cur i) = times (k.proc i) := by
  have handed : ∀ (init : Slot) (proc : Slot → Proc) (j : Slot),
      times (reparent cur init proc j) = times (proc j) := by
    intro init proc j
    unfold reparent
    dsimp only
    split
    · rw [times_wakeup1]
      split
      all_goals rfl
    · dsimp only
      split
      all_goals rfl
  unfold exitNotify
  rw [handed, times_wakeup1]
  refine times_update k.proc cur _ ?_ i
  rfl

/-- sched() by a process that is on the CPU. -/
theorem sched_effect {k' : Kernel} {c : Cpu} {cur : Slot} {p : Proc} (current : k.cpu c = some cur)
    (same : SameCpus k k') (kept : ∀ i, times (k'.proc i) = times (k.proc i))
    (own : times p = times (k.proc cur)) (quiet : ∀ passed, passedAfter k passed e = passed) :
    Effect k e (sched k' c cur p) := by
  refine .leave c cur current same.ticks same.start_run ?_ quiet ?_ ?_
  · simp only [sched, same.cpu]
  · simp only [sched, Kernel.set_same]
    rw [← own]
    simp only [times, accountRun, burst, same.ticks, same.start_run]
  · intro i other
    simp only [sched, Kernel.set_other _ _ other]
    exact kept i

theorem calm_effect (same : SameCpus k next) (quiet : ∀ passed, passedAfter k passed e = passed)
    (kept : ∀ i, times (next.proc i) = times (k.proc i)) : Effect k e next :=
  .calm (Or.inl same.ticks) same.start_run same.cpu quiet fun i => Or.inl (kept i)

theorem wait_effect {c : Cpu} {cur : Slot} (current : k.cpu c = some cur)
    (quiet : ∀ passed, passedAfter k passed e = passed) : Effect k e (wait k c cur) := by
  have user : ∀ i, times ((k.set cur (setThread .user (k.proc cur))).proc i) =
      times (k.proc i) := times_update k.proc cur _ rfl
  unfold wait
  cases waitStop k.proc cur with
  | some j =>
      dsimp only
      split
      · exact calm_effect ⟨rfl, rfl, rfl⟩ quiet
          fun i => (times_update _ j (reap _) rfl i).trans (user i)
      · exact calm_effect ⟨rfl, rfl, rfl⟩ quiet user
  | none =>
      dsimp only
      split
      · exact calm_effect ⟨rfl, rfl, rfl⟩ quiet user
      · exact sched_effect current ⟨rfl, rfl, rfl⟩ (fun _ => rfl) rfl quiet

theorem fork_effect {c : Cpu} {custom : Option (Int × Int)} {cur : Slot} :
    Effect k (.fork c custom) (forkBegin custom k cur) := by
  unfold forkBegin
  cases found : findUnused k.proc with
  | none =>
      refine calm_effect ⟨rfl, rfl, rfl⟩ (fun passed => ?_) fun _ => rfl
      simp only [passedAfter, found]
  | some np =>
      have parent : ∀ i, times (((allocproc k np).set cur (setThread
          (.forking ⟨np, custom, .allocated⟩) ((allocproc k np).proc cur))).proc i) =
          times ((allocproc k np).proc i) := times_update _ cur _ rfl
      refine .create np rfl found ⟨rfl, rfl, rfl⟩ (fun passed => ?_) ?_ ?_
      · simp only [passedAfter, found]
      · rw [parent]
        simp [allocproc, times, embryo, created]
      · intro i other
        rw [parent]
        simp [allocproc, Kernel.set_other _ _ other]

/-! ## A round -/

theorem times_scan (proc : Slot → Proc) (i : Slot) :
    times ((scan proc).proc i) =
      if Eligible (proc i) then waited (times (proc i)) else times (proc i) := by
  have member : i ∈ slots.reverse := by simp [slots]
  rw [(scan_seen proc).counts i]
  by_cases eligible : Eligible (proc i)
  · rw [if_pos ⟨member, eligible⟩, if_pos eligible]
    rfl
  · rw [if_neg fun both => eligible both.2, if_neg eligible]

theorem times_switchTo (k : Kernel) (j i : Slot) :
    times ((switchTo k j).proc i) = times (k.proc i) := by
  have resumed : times (resume (k.proc j)) = times (k.proc j) := by
    unfold resume
    split
    all_goals rfl
  unfold switchTo
  split_ifs
  · rfl
  · rfl
  · rfl
  · exact times_update k.proc j _ resumed i

/-- wait() by a process whose burst is of no ticks. -/
theorem times_wait {k : Kernel} {c : Cpu} (fresh : k.start_run c = k.ticks) (cur i : Slot) :
    times ((wait k c cur).proc i) = times (k.proc i) := by
  have user : ∀ i, times ((k.set cur (setThread .user (k.proc cur))).proc i) =
      times (k.proc i) := times_update k.proc cur _ rfl
  unfold wait
  cases waitStop k.proc cur with
  | some j =>
      dsimp only
      split
      · exact (times_update _ j (reap _) rfl i).trans (user i)
      · exact user i
  | none =>
      dsimp only
      split
      · exact user i
      · refine times_update k.proc cur _ ?_ i
        simp [times, accountRun, fallAsleep, fresh]

theorem wait_cpus (k : Kernel) (c : Cpu) (cur : Slot) :
    (wait k c cur).start_run = k.start_run ∧
      ((wait k c cur).cpu = k.cpu ∨ (wait k c cur).cpu = Function.update k.cpu c none) := by
  unfold wait
  split
  · dsimp only
    split
    all_goals exact ⟨rfl, Or.inl rfl⟩
  · split
    · exact ⟨rfl, Or.inl rfl⟩
    · exact ⟨rfl, Or.inr rfl⟩

theorem scheduler_effect {c : Cpu} (idle : k.cpu c = none) :
    Effect k (.schedule c) (scheduler k c) := by
  have counted := times_scan k.proc
  unfold scheduler
  generalize entry : ({ k with proc := (scan k.proc).proc } : Kernel) = k₁
  have proc : (scan k.proc).proc = k₁.proc := by rw [← entry]
  have same : SameCpus k k₁ := by
    rw [← entry]
    exact ⟨rfl, rfl, rfl⟩
  rw [proc] at counted
  cases chosen : (scan k.proc).chosen with
  | none =>
      simp only [chosen, entry]
      refine .round c rfl idle same.ticks ?_ ?_ ?_
      · exact fun d _ => ⟨by rw [same.cpu], by rw [same.start_run]⟩
      · intro i current
        rw [same.cpu, idle] at current
        cases current
      · intro i
        rw [chosen, if_neg (by simp)]
        exact counted i
  | some j =>
      simp only [chosen, entry]
      obtain ⟨k₂, whole⟩ : ∃ k₂, k₂ = dispatch k₁ c j := ⟨_, rfl⟩
      have run : ∀ i, times (k₂.proc i) =
          if some j = some i then started k.ticks (times (k.proc i))
          else if Eligible (k.proc i) then waited (times (k.proc i))
          else times (k.proc i) := by
        intro i
        rw [whole]
        by_cases here : i = j
        · subst here
          have eligible : Eligible (k.proc i) := (scan_chosen chosen).1
          have own := counted i
          rw [if_pos eligible] at own
          have stored : times ((dispatch k₁ c i).proc i) =
              started k₁.ticks { times (k₁.proc i) with
                waiting_time := (times (k₁.proc i)).waiting_time - 1 } := by
            simp only [dispatch, Function.update_self]
            rfl
          rw [if_pos rfl, stored, own, same.ticks]
          simp [waited]
        · have other : ¬ some j = some i := fun same => here (Option.some.inj same).symm
          rw [if_neg other, ← counted i]
          simp [dispatch, here]
      obtain ⟨ticks, start, _⟩ := switchTo_fields k₂ j
      have cpu := TableInv.switchTo_cpu k₂ j
      have clock : k₂.ticks = k.ticks := by
        rw [whole]
        exact same.ticks
      have fresh : (switchTo k₂ j).start_run c = (switchTo k₂ j).ticks := by
        rw [ticks, start, whole]
        simp [dispatch]
      have switched := times_switchTo k₂ j
      rw [← whole]
      generalize switchTo k₂ j = k₃ at ticks start cpu fresh switched
      have others : ∀ d, d ≠ c → k₃.cpu d = k.cpu d ∧ k₃.start_run d = k.start_run d := by
        intro d other
        rw [cpu, start, whole]
        simp [dispatch, other, same.cpu, same.start_run]
      have own : ∀ i, k₃.cpu c = some i → some j = some i ∧ k₃.start_run c = k.ticks := by
        intro i current
        refine ⟨?_, fresh.trans (ticks.trans clock)⟩
        rw [cpu, whole] at current
        simpa [dispatch] using current
      split
      · obtain ⟨starts, cpus⟩ := wait_cpus k₃ c j
        have sleeps : ∀ d, (wait k₃ c j).cpu d = k₃.cpu d ∨
            d = c ∧ (wait k₃ c j).cpu d = none := by
          intro d
          rcases cpus with cpus | cpus
          · exact Or.inl (by rw [cpus])
          · by_cases here : d = c
            · subst here
              exact Or.inr ⟨rfl, by rw [cpus, Function.update_self]⟩
            · exact Or.inl (by rw [cpus, Function.update_of_ne here])
        refine .round c rfl idle ?_ ?_ ?_ ?_
        · exact (wait_clock k₃ c j).1.trans (ticks.trans clock)
        · intro d other
          rw [starts]
          rcases sleeps d with same | ⟨here, _⟩
          · rw [same]
            exact others d other
          · exact absurd here other
        · intro i current
          rw [starts, chosen]
          rcases sleeps c with same | ⟨_, off⟩
          · rw [same] at current
            exact own i current
          · rw [off] at current
            cases current
        · intro i
          rw [times_wait fresh, switched, run, chosen]
      · refine .round c rfl idle (ticks.trans clock) others ?_ ?_
        · intro i current
          rw [chosen]
          exact own i current
        · intro i
          rw [switched, run, chosen]

theorem step_effect (taken : Kernel.step k e = some next) : Effect k e next := by
  cases kind : moves e with
  | false =>
      cases fork : isFork e with
      | false =>
          have still := step_still kind taken
          refine .calm (Or.inl still.ticks) still.start_run still.cpu (fun passed => ?_)
            (kept_step (Or.inl kind) fork taken)
          cases e with
          | schedule => cases kind
          | fork => cases fork
          | _ => rfl
      | true =>
          cases e with
          | fork c custom =>
              obtain ⟨_, taken⟩ := step_some taken
              simp only [act] at taken
              obtain ⟨cur, _, _, rfl⟩ := onCpu_some taken
              exact fork_effect
          | _ => cases fork
  | true =>
      cases e with
      | schedule c =>
          obtain ⟨_, taken⟩ := step_some taken
          simp only [act, Option.ite_none_right_eq_some, Option.some.injEq] at taken
          obtain ⟨idle, rfl⟩ := taken
          exact scheduler_effect idle
      | tick =>
          have kept := kept_step (Or.inr rfl) rfl taken
          obtain ⟨_, taken⟩ := step_some taken
          simp only [act] at taken
          cases Option.some.inj taken
          exact .calm (Or.inr rfl) rfl rfl (fun _ => rfl) kept
      | yield c | sleep c chan =>
          obtain ⟨_, taken⟩ := step_some taken
          simp only [act] at taken
          obtain ⟨cur, current, _, rfl⟩ := onCpu_some taken
          exact sched_effect current ⟨rfl, rfl, rfl⟩ (fun _ => rfl) rfl fun _ => rfl
      | exit c =>
          obtain ⟨_, taken⟩ := step_some taken
          simp only [act] at taken
          obtain ⟨cur, current, _, rfl⟩ := onCpu_some taken
          unfold ProcTable.exit
          split
          · exact calm_effect ⟨rfl, rfl, rfl⟩ (fun _ => rfl) fun _ => rfl
          · have kept := times_exitNotify k cur
            exact sched_effect current ⟨rfl, rfl, rfl⟩ kept (kept cur) fun _ => rfl
      | wait c =>
          obtain ⟨_, taken⟩ := step_some taken
          simp only [act] at taken
          obtain ⟨cur, current, _, rfl⟩ := onCpu_some taken
          exact wait_effect current fun _ => rfl
      | _ => cases kind

end Steps

/-! ## The response -/

/-- Nothing has happened later than now. -/
structure TimelyAt (ticks : Int) (t : Times) : Prop where
  born : t.creation_time ≤ ticks
  first : t.first_cpu_time < 0 ∨ t.creation_time ≤ t.first_cpu_time ∧ t.first_cpu_time ≤ ticks
  ran : 0 ≤ t.rtime

def Timely (k : Kernel) : Prop := Clock k ∧ ∀ i, TimelyAt k.ticks (times (k.proc i))

section Response
variable {k next : Kernel} {e : Event} {ticks : Int} {t t' : Times}

theorem TimelyAt.kept (timely : TimelyAt ticks t) (kept : Kept t t') : TimelyAt ticks t' := by
  rcases kept with rfl | rfl
  · exact timely
  · exact ⟨timely.born, timely.first, le_refl _⟩

theorem TimelyAt.later {ticks' : Int} (timely : TimelyAt ticks t) (later : ticks ≤ ticks') :
    TimelyAt ticks' t where
  born := timely.born.trans later
  first := timely.first.imp_right fun both => ⟨both.1, both.2.trans later⟩
  ran := timely.ran

theorem TimelyAt.burst (timely : TimelyAt k.ticks t) (clock : Clock k) (c : Cpu) :
    TimelyAt k.ticks (burst k c t) where
  born := timely.born
  first := timely.first
  ran := by
    have ran := timely.ran
    have start := clock c
    simp only [Profile.burst]
    omega

theorem timely_created (ticks : Int) (t : Times) : TimelyAt ticks (created ticks t) where
  born := le_refl _
  first := Or.inl (Int.negSucc_lt_zero 0)
  ran := le_refl _

theorem TimelyAt.started (timely : TimelyAt ticks t) : TimelyAt ticks (started ticks t) where
  born := timely.born
  first := by
    simp only [Profile.started]
    split
    case isTrue => exact Or.inr ⟨timely.born, le_refl _⟩
    case isFalse => exact timely.first
  ran := timely.ran

theorem TimelyAt.waited (timely : TimelyAt ticks t) : TimelyAt ticks (waited t) :=
  ⟨timely.born, timely.first, timely.ran⟩

theorem timely_step (timely : Timely k) (taken : Kernel.step k e = some next) : Timely next := by
  obtain ⟨clock, at_⟩ := timely
  refine ⟨step_clock clock taken, fun i => ?_⟩
  cases step_effect taken with
  | calm ticks _ _ _ kept =>
      refine ((at_ i).kept (kept i)).later ?_
      rcases ticks with ticks | ticks
      all_goals omega
  | leave c cur _ ticks _ _ _ own others =>
      rw [ticks]
      by_cases here : i = cur
      · rw [here, own]
        exact (at_ cur).burst clock c
      · rw [others i here]
        exact at_ i
  | create np _ _ same _ own others =>
      rw [same.ticks]
      by_cases here : i = np
      · rw [here, own]
        exact timely_created _ _
      · rw [others i here]
        exact at_ i
  | round c _ _ ticks _ _ times =>
      rw [ticks, times i]
      split
      · exact (at_ i).started
      · split
        · exact (at_ i).waited
        · exact at_ i

theorem timely_responsive {p : Proc} (timely : TimelyAt ticks (times p)) :
    Responsive (metrics ticks p) := by
  obtain ⟨born, first, _⟩ := timely
  simp only [times] at born first
  simp only [Responsive, metrics]
  refine ⟨?_, ?_, ?_⟩
  · split
    · exact le_refl _
    · omega
  · split
    · omega
    · omega
  · split
    · exact le_refl _
    · omega

theorem boot_timely : Timely Kernel.boot := by
  refine ⟨fun _ => le_refl _, fun i => ?_⟩
  show TimelyAt 0 (times ((zeroed.set zeroed.initproc userinit).proc i))
  by_cases here : i = zeroed.initproc
  · rw [here, Kernel.set_same]
    exact timely_created 0 (times {})
  · rw [Kernel.set_other _ _ here]
    exact ⟨le_refl _, Or.inr ⟨le_refl _, le_refl _⟩, le_refl _⟩

/-- In every run, whoever exits: `0 <= RT <= TAT` and `WT >= 0`. -/
theorem exits_responsive (es : List Event) :
    Stepwise Kernel.step (fun k e _ => ∀ cur ∈ (exits e).bind k.cpu, cur ≠ k.initproc →
      Responsive (metrics k.ticks (k.proc cur))) Kernel.boot es :=
  stepwise_of_invariant Kernel.step (fun _ _ _ timely taken => timely_step timely taken)
    (fun _ _ _ timely _ cur _ _ => timely_responsive (timely.2 cur)) es _ boot_timely

end Response

/-! ## The ticks that are accounted for -/

/-- The tick up to which waiting and running account for the life of the process. -/
def accounted (t : Times) : Int := t.creation_time + max 0 t.waiting_time + t.rtime

/-- The last round has counted the tick that is still to come. -/
def ahead (s : State) (i : Slot) : Int := if s.passed i = some s.kernel.ticks then 1 else 0

structure Charged (s : State) : Prop where
  timely : Timely s.kernel
  alone : ∀ c d i, s.kernel.cpu c = some i → s.kernel.cpu d = some i → c = d
  on : ∀ c i, s.kernel.cpu c = some i → accounted (times (s.kernel.proc i)) ≤ s.kernel.start_run c
  off : ∀ i, Off s.kernel i →
    accounted (times (s.kernel.proc i)) ≤ s.kernel.ticks + ahead s i
  passed : ∀ i, ∀ t ∈ s.passed i, t ≤ s.kernel.ticks

section Accounts
variable {s next : State} {e : Event} {t t' : Times}

theorem accounted_kept (kept : Kept t t') (ran : 0 ≤ t.rtime) : accounted t' ≤ accounted t := by
  rcases kept with rfl | rfl
  · exact le_refl _
  · simp only [accounted]
    omega

theorem accounted_burst (k : Kernel) (c : Cpu) (t : Times) :
    accounted (burst k c t) = accounted t + (k.ticks - k.start_run c) := by
  simp only [accounted, burst]
  omega

theorem accounted_created {ticks : Int} (none : t.waiting_time ≤ 0) :
    accounted (created ticks t) = ticks := by
  simp only [accounted, created]
  omega

theorem accounted_waited (t : Times) : accounted (waited t) ≤ accounted t + 1 := by
  simp only [accounted, waited]
  omega

theorem ahead_range (s : State) (i : Slot) : 0 ≤ ahead s i ∧ ahead s i ≤ 1 := by
  unfold ahead
  split
  all_goals decide

theorem ahead_none {i : Slot} (past : ∀ t ∈ s.passed i, t < s.kernel.ticks) : ahead s i = 0 := by
  unfold ahead
  rw [if_neg]
  intro now
  exact lt_irrefl _ (past _ now)

theorem step_parts (taken : step s e = some next) :
    Kernel.step s.kernel e = some next.kernel ∧ next.passed = passedAfter s.kernel s.passed e := by
  unfold step at taken
  cases moved : Kernel.step s.kernel e with
  | none => simp [moved] at taken
  | some kernel =>
      simp only [moved, Option.some.injEq] at taken
      subst taken
      exact ⟨rfl, rfl⟩

/-- A step that leaves the CPUs alone. -/
theorem charged_calm (charged : Charged s) (timely : Timely next.kernel)
    (ticks : next.kernel.ticks = s.kernel.ticks ∨ next.kernel.ticks = s.kernel.ticks + 1)
    (start_run : next.kernel.start_run = s.kernel.start_run)
    (cpu : next.kernel.cpu = s.kernel.cpu) (passed : next.passed = s.passed)
    (kept : ∀ i, Kept (times (s.kernel.proc i)) (times (next.kernel.proc i))) :
    Charged next := by
  have less : ∀ i, accounted (times (next.kernel.proc i)) ≤
      accounted (times (s.kernel.proc i)) := fun i =>
    accounted_kept (kept i) (charged.timely.2 i).ran
  constructor
  case timely => exact timely
  case alone =>
    rw [cpu]
    exact charged.alone
  case on =>
    intro c i current
    rw [cpu] at current
    rw [start_run]
    exact (less i).trans (charged.on c i current)
  case off =>
    intro i off
    have before := charged.off i fun c => cpu ▸ off c
    have now := less i
    rcases ticks with ticks | ticks
    · have same : ahead next i = ahead s i := by rw [ahead, ahead, passed, ticks]
      omega
    · have upper := ahead_range s i
      have lower := ahead_range next i
      omega
  case passed =>
    intro i t past
    rw [passed] at past
    have before := charged.passed i t past
    rcases ticks with ticks | ticks
    all_goals omega

theorem charged_leave (charged : Charged s) (timely : Timely next.kernel) {c : Cpu} {cur : Slot}
    (current : s.kernel.cpu c = some cur) (ticks : next.kernel.ticks = s.kernel.ticks)
    (start_run : next.kernel.start_run = s.kernel.start_run)
    (cpu : next.kernel.cpu = Function.update s.kernel.cpu c none) (passed : next.passed = s.passed)
    (own : times (next.kernel.proc cur) = burst s.kernel c (times (s.kernel.proc cur)))
    (others : ∀ i, i ≠ cur → times (next.kernel.proc i) = times (s.kernel.proc i)) :
    Charged next := by
  have still : ∀ {d i}, next.kernel.cpu d = some i → d ≠ c ∧ s.kernel.cpu d = some i := by
    intro d i runs
    by_cases here : d = c
    · rw [cpu, here, Function.update_self] at runs
      cases runs
    · rw [cpu, Function.update_of_ne here] at runs
      exact ⟨here, runs⟩
  constructor
  case timely => exact timely
  case alone => exact fun d d' i runs runs' => charged.alone d d' i (still runs).2 (still runs').2
  case on =>
    intro d i runs
    obtain ⟨elsewhere, runs⟩ := still runs
    have other : i ≠ cur := fun same => elsewhere (charged.alone d c i runs (same ▸ current))
    rw [others i other, start_run]
    exact charged.on d i runs
  case off =>
    intro i off
    have lower := ahead_range next i
    by_cases here : i = cur
    · rw [here, own, accounted_burst, ticks]
      have before := charged.on c cur current
      rw [here] at lower
      omega
    · have offBefore : Off s.kernel i := by
        intro d runs
        by_cases same : d = c
        · rw [same, current] at runs
          exact here (Option.some.inj runs).symm
        · refine off d ?_
          rw [cpu, Function.update_of_ne same]
          exact runs
      rw [others i here, ahead, passed, ticks]
      exact charged.off i offBefore
  case passed =>
    rw [passed, ticks]
    exact charged.passed

theorem charged_create (charged : Charged s) (timely : Timely next.kernel) {np : Slot}
    (same : SameCpus s.kernel next.kernel) (passed : next.passed = Function.update s.passed np none)
    (off : Off s.kernel np) (none : (times (s.kernel.proc np)).waiting_time ≤ 0)
    (own : times (next.kernel.proc np) = created s.kernel.ticks (times (s.kernel.proc np)))
    (others : ∀ i, i ≠ np → times (next.kernel.proc i) = times (s.kernel.proc i)) :
    Charged next := by
  constructor
  case timely => exact timely
  case alone =>
    rw [same.cpu]
    exact charged.alone
  case on =>
    intro c i runs
    rw [same.cpu] at runs
    have other : i ≠ np := fun here => off c (here ▸ runs)
    rw [others i other, same.start_run]
    exact charged.on c i runs
  case off =>
    intro i offNow
    by_cases here : i = np
    · have lower := ahead_range next i
      rw [here] at lower ⊢
      rw [own, accounted_created none, same.ticks]
      omega
    · rw [others i here, ahead, passed, Function.update_of_ne here, same.ticks]
      exact charged.off i fun c => same.cpu ▸ offNow c
  case passed =>
    intro i t past
    rw [passed] at past
    rw [same.ticks]
    by_cases here : i = np
    · rw [here, Function.update_self] at past
      cases past
    · rw [Function.update_of_ne here] at past
      exact charged.passed i t past

theorem charged_round (charged : Charged s) (timely : Timely next.kernel) (safe : TickPerRound s e)
    (round : isRound e = true) {c : Cpu} (idle : s.kernel.cpu c = none)
    (ticks : next.kernel.ticks = s.kernel.ticks)
    (others : ∀ d, d ≠ c → next.kernel.cpu d = s.kernel.cpu d ∧
      next.kernel.start_run d = s.kernel.start_run d)
    (own : ∀ i, next.kernel.cpu c = some i →
      (scan s.kernel.proc).chosen = some i ∧ next.kernel.start_run c = s.kernel.ticks)
    (timesOf : ∀ i, times (next.kernel.proc i) =
      if (scan s.kernel.proc).chosen = some i then
        started s.kernel.ticks (times (s.kernel.proc i))
      else if Eligible (s.kernel.proc i) then waited (times (s.kernel.proc i))
      else times (s.kernel.proc i))
    (passed : next.passed = fun i =>
      if Eligible (s.kernel.proc i) ∧ (scan s.kernel.proc).chosen ≠ some i then
        some s.kernel.ticks
      else s.passed i) : Charged next := by
  have meets := safe.1 round
  have fit : ∀ {i}, (scan s.kernel.proc).chosen = some i → Eligible (s.kernel.proc i) :=
    fun chosen => (scan_chosen chosen).1
  -- The eligible are accounted for up to now.
  have due : ∀ i, Eligible (s.kernel.proc i) →
      accounted (times (s.kernel.proc i)) ≤ s.kernel.ticks := by
    intro i eligible
    have before := charged.off i (meets i eligible).1
    rw [ahead_none (meets i eligible).2] at before
    omega
  have offBefore : ∀ i, Off next.kernel i → Off s.kernel i := by
    intro i off d runs
    have other : d ≠ c := by
      intro same
      rw [same, idle] at runs
      cases runs
    exact off d ((others d other).1.trans runs)
  constructor
  case timely => exact timely
  case alone =>
    have apart : ∀ {d i}, d ≠ c → next.kernel.cpu d = some i → next.kernel.cpu c ≠ some i := by
      intro d i other runs runs'
      rw [(others d other).1] at runs
      exact (meets i (fit (own i runs').1)).1 d runs
    intro d d' i runs runs'
    by_cases here : d = c
    · by_cases here' : d' = c
      · rw [here, here']
      · exact absurd (here ▸ runs) (apart here' runs')
    · by_cases here' : d' = c
      · exact absurd (here' ▸ runs') (apart here runs)
      · rw [(others d here).1] at runs
        rw [(others d' here').1] at runs'
        exact charged.alone d d' i runs runs'
  case on =>
    intro d i runs
    by_cases here : d = c
    · rw [here] at runs ⊢
      obtain ⟨chosen, start⟩ := own i runs
      rw [timesOf i, if_pos chosen, start]
      exact due i (fit chosen)
    · rw [(others d here).1] at runs
      have skipped : ¬ Eligible (s.kernel.proc i) := fun eligible => (meets i eligible).1 d runs
      rw [timesOf i, if_neg fun chosen => skipped (fit chosen), if_neg skipped, (others d here).2]
      exact charged.on d i runs
  case off =>
    intro i off
    have lower := ahead_range next i
    rw [timesOf i, ticks]
    by_cases chosen : (scan s.kernel.proc).chosen = some i
    · rw [if_pos chosen]
      have before : accounted (started s.kernel.ticks (times (s.kernel.proc i))) ≤
          s.kernel.ticks := due i (fit chosen)
      omega
    · rw [if_neg chosen]
      by_cases eligible : Eligible (s.kernel.proc i)
      · have pending : ahead next i = 1 := by
          rw [ahead, passed, ticks]
          simp only [if_pos (show Eligible (s.kernel.proc i) ∧ _ from ⟨eligible, chosen⟩), if_true]
        have before := due i eligible
        have more := accounted_waited (times (s.kernel.proc i))
        rw [if_pos eligible, pending]
        omega
      · have same : ahead next i = ahead s i := by
          rw [ahead, ahead, passed, ticks]
          simp only [eligible, false_and, if_false]
        rw [if_neg eligible, same]
        exact charged.off i (offBefore i off)
  case passed =>
    intro i t past
    rw [passed] at past
    rw [ticks]
    dsimp only at past
    split at past
    · cases past
      exact le_refl _
    · exact charged.passed i t past

theorem charged_step (s : State) (e : Event) (next : State) (charged : Charged s)
    (safe : TickPerRound s e) (taken : step s e = some next) : Charged next := by
  obtain ⟨moved, passed⟩ := step_parts taken
  have timely := timely_step charged.timely moved
  cases step_effect moved with
  | calm ticks start_run cpu quiet kept =>
      exact charged_calm charged timely ticks start_run cpu (passed.trans (quiet _)) kept
  | leave c cur current ticks start_run cpu quiet own others =>
      exact charged_leave charged timely current ticks start_run cpu (passed.trans (quiet _)) own
        others
  | create np fork found same history own others =>
      obtain ⟨off, none⟩ := safe.2 fork np found
      exact charged_create charged timely same (passed.trans (history _)) off none own others
  | round c round idle ticks others own timesOf =>
      refine charged_round charged timely safe round idle ticks others own timesOf ?_
      rw [passed]
      cases e with
      | schedule => rfl
      | _ => cases round

theorem charged_consistent (s : State) (e : Event) (next : State) (charged : Charged s) :
    PrintsConsistent s e next := by
  intro cur found _
  obtain ⟨c, _, current⟩ := Option.bind_eq_some_iff.mp (Option.mem_def.mp found)
  refine ⟨timely_responsive (charged.timely.2 cur), ?_⟩
  have upTo := charged.on c cur current
  have start := charged.timely.1 c
  simp only [accounted, times] at upTo
  simp only [metrics]
  split
  all_goals omega

theorem boot_charged : Charged boot where
  timely := boot_timely
  alone := fun _ _ _ runs => by cases runs
  on := fun _ _ runs => by cases runs
  off := by
    intro i _
    show accounted (times ((zeroed.set zeroed.initproc userinit).proc i)) ≤ 0 + ahead boot i
    have lower := ahead_range boot i
    have zero : accounted (times ((zeroed.set zeroed.initproc userinit).proc i)) = 0 := by
      by_cases here : i = zeroed.initproc
      · rw [here, Kernel.set_same]
        rfl
      · rw [Kernel.set_other _ _ here]
        rfl
    omega
  passed := fun _ _ past => by cases past

end Accounts

/-- In a run in which the rounds count ticks, every exit() prints a consistent profile. -/
theorem profile_consistent (es : List Event) (safe : Guarded step TickPerRound boot es) :
    Stepwise step PrintsConsistent boot es :=
  stepwise_of_guarded step (fun s e next charged safe taken =>
    ⟨charged_step s e next charged safe taken, charged_consistent s e next charged⟩) es boot
    boot_charged safe

/-- A child that is passed over once before it runs for a tick. -/
def tickRun : List Event :=
  .schedule 1 :: forkEvents 1 none 3 4 ++
    [.yield 1, .schedule 1, .tick, .wait 1, .schedule 1, .tick, .exit 1]

theorem tickRun_consistent : Stepwise step PrintsConsistent boot tickRun :=
  profile_consistent tickRun (by decide +kernel)

/-- The same without the ticks: CPU 1 yields on its own timer, which does not count. -/
def roundRun : List Event :=
  .schedule 1 :: forkEvents 1 none 3 4 ++ [.yield 1, .schedule 1, .wait 1, .schedule 1]

theorem roundRun_inconsistent : ¬ ∀ es : List Event, Stepwise step PrintsConsistent boot es := by
  intro all
  exact absurd (all (roundRun ++ [.exit 1])) (by decide +kernel)

end Xv6.Public2.Profile
