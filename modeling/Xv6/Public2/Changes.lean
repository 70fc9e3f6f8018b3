import Mathlib.Logic.Relation
import Mathlib.Tactic.Common
import Xv6.Lib.Slots
import Xv6.Public2.Kernel
import Xv6.Public2.Scan

/-!
# What a step can do to one slot (xv6-public_2)

Every step of the kernel changes the record of a slot by a chain of the changes
below, each of them one store or a few stores of proc.c or console.c that belong
together.  What holds for every change of a slot is proved from this list.
-/

set_option autoImplicit false

namespace Xv6.Public2.Changes

open Relation
open Xv6.Lib.Words
open Xv6.Machine
open Xv6.Public2.Signals
open Xv6.Public2.ProcTable
open Xv6.Public2.Kernel
open Xv6.Public2.Scan

/-- The process in `cur` has a child that is a ZOMBIE. -/
def DeadChild (k : ProcTable.Kernel) (cur : Slot) : Prop :=
  ∃ j, (k.proc j).parent = some cur ∧ (k.proc j).state = .ZOMBIE

/-- The wakeups of exit(): of the parent, and of init for a ZOMBIE child. -/
def Notifies (k : ProcTable.Kernel) (cur : Slot) (chan : Option Chan) : Prop :=
  chan = (k.proc cur).parent.map .proc ∨ DeadChild k cur ∧ chan = some (.proc k.initproc)

/-- The step wakes up who sleeps on `chan`. -/
def Wakes (k : ProcTable.Kernel) (e : Event) (chan : Option Chan) : Prop :=
  match e with
  | .tick => chan = some ticksChan
  | .wakeup on => chan = on
  | .exit c => ∃ cur, k.cpu c = some cur ∧ cur ≠ k.initproc ∧ Notifies k cur chan
  | .ctrlBWake => ∃ sh, k.shellWake = some sh ∧ chan = (k.proc sh).chan
  | .schedule _ | .yield _ | .fork _ _ | .forkStack _ _ | .forkCopy _ _ | .forkCommit _ | .wait _
  | .sleep _ _ | .kill _ _ | .schedulerStart _ | .signal _ _ | .sigreturn _ | .sigretFault _
  | .deliver _ _ | .ctrlC | .ctrlB | .ctrlF | .ctrlG _ => False

instance deadChildDecidable (k : ProcTable.Kernel) (cur : Slot) : Decidable (DeadChild k cur) :=
  inferInstanceAs (Decidable (∃ j, (k.proc j).parent = some cur ∧ (k.proc j).state = .ZOMBIE))

instance notifiesDecidable (k : ProcTable.Kernel) (cur : Slot) (chan : Option Chan) :
    Decidable (Notifies k cur chan) :=
  inferInstanceAs (Decidable (chan = (k.proc cur).parent.map .proc ∨
    DeadChild k cur ∧ chan = some (.proc k.initproc)))

instance wakesDecidable (k : ProcTable.Kernel) (e : Event) (chan : Option Chan) :
    Decidable (Wakes k e chan) :=
  match e with
  | .tick => inferInstanceAs (Decidable (chan = some ticksChan))
  | .wakeup on => inferInstanceAs (Decidable (chan = on))
  | .exit c => inferInstanceAs (Decidable (∃ cur, k.cpu c = some cur ∧ cur ≠ k.initproc ∧
      Notifies k cur chan))
  | .ctrlBWake => inferInstanceAs (Decidable (∃ sh, k.shellWake = some sh ∧
      chan = (k.proc sh).chan))
  | .schedule _ | .yield _ | .fork _ _ | .forkStack _ _ | .forkCopy _ _ | .forkCommit _ | .wait _
  | .sleep _ _ | .kill _ _ | .schedulerStart _ | .signal _ _ | .sigreturn _ | .sigretFault _
  | .deliver _ _ | .ctrlC | .ctrlB | .ctrlF | .ctrlG _ => inferInstanceAs (Decidable False)

/-- The process in `cur` is in the stretch `stage` of a fork() on CPU `c`. -/
structure Forking (k : ProcTable.Kernel) (c : Cpu) (cur : Slot) (call : ForkCall)
    (stage : ForkStage) : Prop where
  current : k.cpu c = some cur
  busy : (k.proc cur).thread = .forking call
  stage : call.stage = stage

inductive Change (k : ProcTable.Kernel) : Event → Slot → Proc → Proc → Prop
  /-- scheduler() sees the slot. -/
  | count {c : Cpu} {i : Slot} {p : Proc} (runnable : p.state = .RUNNABLE) (unmarked : p.b ≠ 1) :
      Change k (.schedule c) i p { p with waiting_time := p.waiting_time + 1 }
  | start {c : Cpu} {i : Slot} {p : Proc} (chosen : (scan k.proc).chosen = some i)
      (runnable : p.state = .RUNNABLE) (unmarked : p.b ≠ 1) :
      Change k (.schedule c) i p (startRun k.ticks p)
  | resume {c : Cpu} {i : Slot} {p : Proc} (chosen : (scan k.proc).chosen = some i)
      (running : p.state = .RUNNING) :
      Change k (.schedule c) i p (resume p)
  /-- A wait() goes to sleep again in the round in which it was started. -/
  | resleep {c : Cpu} {i : Slot} {p : Proc} (chosen : (scan k.proc).chosen = some i)
      (running : p.state = .RUNNING) (k' : ProcTable.Kernel)
      (started : k'.ticks = k.ticks ∧ k'.start_run c = k.ticks ∧ k'.prev_proc = k.prev_proc) :
      Change k (.schedule c) i p (accountRun k' c i (fallAsleep (.proc i) .waiting p))
  | yield {c : Cpu} {i : Slot} {p : Proc} (current : k.cpu c = some i) :
      Change k (.yield c) i p (accountRun k c i { p with state := .RUNNABLE })
  | sleep {c : Cpu} {i : Slot} {p : Proc} (chan : Chan) (current : k.cpu c = some i) :
      Change k (.sleep c chan) i p (accountRun k c i (fallAsleep chan .asleep p))
  | waitSleep {c : Cpu} {i : Slot} {p : Proc} (current : k.cpu c = some i) :
      Change k (.wait c) i p (accountRun k c i (fallAsleep (.proc i) .waiting p))
  | reap {e : Event} {i : Slot} {p : Proc} (event : ∃ c, e = .wait c ∨ e = .schedule c)
      (zombie : p.state = .ZOMBIE) : Change k e i p (reap p)
  /-- The process in the slot goes on elsewhere in the kernel, or returns from it. -/
  | thread {e : Event} {i : Slot} {p : Proc} (thread : Thread) (moves : thread ≠ .waiting) :
      Change k e i p (setThread thread p)
  | finish {c : Cpu} {i : Slot} {p : Proc} (current : k.cpu c = some i) :
      Change k (.exit c) i p { p with finish_time := k.ticks }
  | hand {c : Cpu} {cur i : Slot} {p : Proc} (current : k.cpu c = some cur)
      (child : p.parent = some cur) :
      Change k (.exit c) i p { p with parent := some k.initproc }
  | die {c : Cpu} {i : Slot} {p : Proc} (current : k.cpu c = some i) :
      Change k (.exit c) i p (accountRun k c i { p with state := .ZOMBIE, life := .exited })
  | wake {e : Event} {i : Slot} {p : Proc} (wakes : Wakes k e p.chan)
      (asleep : p.state = .SLEEPING) : Change k e i p { p with state := .RUNNABLE }
  | allocate {c : Cpu} {custom : Option (Int × Int)} {i : Slot} {p : Proc}
      (found : findUnused k.proc = some i) (unused : p.state = .UNUSED) :
      Change k (.fork c custom) i p (embryo k p)
  | stack {c : Cpu} {cur i : Slot} {call : ForkCall} {p : Proc} (page : Option Page)
      (forking : Forking k c cur call .allocated) (child : call.np = i) :
      Change k (.forkStack c page) i p (allocprocStack page p)
  | copy {c : Cpu} {cur i : Slot} {call : ForkCall} {p : Proc} (page : Option Page)
      (forking : Forking k c cur call .stacked) (child : call.np = i) :
      Change k (.forkCopy c page) i p
        (copyProcess call.custom page cur (k.proc cur).tf p)
  | commit {c : Cpu} {cur i : Slot} {call : ForkCall} {p : Proc}
      (forking : Forking k c cur call .copied) (child : call.np = i) :
      Change k (.forkCommit c) i p (commitProcess call.custom p)
  | kill {c : Cpu} {i : Slot} {p : Proc} (pid : Int)
      (found : (slots.find? fun j => decide ((k.proc j).pid = pid)) = some i) :
      Change k (.kill c pid) i p
        { p with killed := 1, state := if p.state = .SLEEPING then .RUNNABLE else p.state }
  | release {c : Cpu} {i : Slot} {p : Proc} (gated : p.state = .CUSTOM_WAIT) :
      Change k (.schedulerStart c) i p { p with state := .RUNNABLE }
  | signal {c : Cpu} {i : Slot} {p : Proc} (handler : Option Word) (current : k.cpu c = some i) :
      Change k (.signal c handler) i p (setSig (fun s => (sys_signal handler s).2) p)
  | sigreturn {c : Cpu} {i : Slot} {p : Proc} (current : k.cpu c = some i) :
      Change k (.sigreturn c) i p (setSig (fun s => (sys_sigreturn s).2) p)
  | sigretFault {c : Cpu} {i : Slot} {p : Proc} (current : k.cpu c = some i) :
      Change k (.sigretFault c) i p (setSig (fun s => (restoreOnFault s).getD s) p)
  | deliver {c : Cpu} {i : Slot} {p : Proc} (kalloc : Bool) (current : k.cpu c = some i)
      (wants : wantsDelivery p.toSigState = true) :
      Change k (.deliver c kalloc) i p (setSig (deliver kalloc) p)
  | ctrlG {c : Cpu} {i : Slot} {p : Proc} (current : k.cpu c = some i) :
      Change k (.ctrlG c) i p (setSig send_sigcustom p)
  | ctrlC {i : Slot} {p : Proc} (job : p.pid ≥ 3) : Change k .ctrlC i p { p with killed := 1 }
  | mark {i : Slot} {p : Proc} (job : p.pid > 2) (alive : p.state ≠ .ZOMBIE) :
      Change k .ctrlB i p { p with b := 1 }
  | shell {i : Slot} {p : Proc} (found : shellSlot (ctrlBMark k.proc) = some i)
      (shell : p.pid = 2) :
      Change k .ctrlB i p { p with state := .RUNNABLE }
  | foreground {i : Slot} {p : Proc} (job : p.pid > 2) (marked : p.b = 1) :
      Change k .ctrlF i p { p with b := 0, state := .RUNNABLE }
  | background {i : Slot} {p : Proc} (shell : p.pid = 2) :
      Change k .ctrlF i p { p with state := .SLEEPING }

/-- The changes that the step `e` may make to the slot `i`, one after the other. -/
abbrev Chain (k : ProcTable.Kernel) (e : Event) (i : Slot) : Proc → Proc → Prop :=
  ReflTransGen (Change k e i)

/-! ## Chains over a whole table -/

section Tables
variable {k : ProcTable.Kernel} {e : Event}

/-- Every slot has gone through changes of the step. -/
def Chained (k : ProcTable.Kernel) (e : Event) (proc proc' : Slot → Proc) : Prop :=
  ∀ i, Chain k e i (proc i) (proc' i)

theorem Chained.refl (proc : Slot → Proc) : Chained k e proc proc := fun _ => .refl

theorem Chained.trans {proc proc' proc'' : Slot → Proc} (first : Chained k e proc proc')
    (second : Chained k e proc' proc'') : Chained k e proc proc'' :=
  fun i => (first i).trans (second i)

/-- A store into one slot, after what has been done already. -/
theorem Chained.update {proc proc' : Slot → Proc} (before : Chained k e proc proc') {j : Slot}
    {p : Proc} (more : Chain k e j (proc' j) p) :
    Chained k e proc (Function.update proc' j p) := by
  intro i
  by_cases here : i = j
  · subst here
    rw [Function.update_self]
    exact (before i).trans more
  · rw [Function.update_of_ne here]
    exact before i

theorem Chained.single {proc proc' : Slot → Proc}
    (change : ∀ i, proc' i = proc i ∨ Change k e i (proc i) (proc' i)) :
    Chained k e proc proc' := by
  intro i
  rcases change i with same | change
  · rw [same]
  · exact .single change

theorem chained_wakeup1 {chan : Option Chan} (wakes : Wakes k e chan) (proc : Slot → Proc) :
    Chained k e proc (wakeup1 chan proc) := by
  refine Chained.single fun i => ?_
  unfold wakeup1
  split
  · rename_i woken
    exact Or.inr (.wake (woken.2 ▸ wakes) woken.1)
  · exact Or.inl rfl

theorem chained_sched {proc : Slot → Proc} (before : Chained k e k.proc proc)
    {k' : ProcTable.Kernel} (same : k'.proc = proc) {c : Cpu} {slot : Slot} {p : Proc}
    (change : Change k e slot (proc slot) (accountRun k' c slot p)) :
    Chained k e k.proc (sched k' c slot p).proc := by
  subst same
  exact before.update (.single change)

/-! ## wait() and scheduler() -/

/-- wait() on top of what scheduler() has done to start it; `sleeps` is the change when it goes
to sleep. -/
theorem chained_wait {k' : ProcTable.Kernel} (before : Chained k e k.proc k'.proc) {c : Cpu}
    (event : ∃ c, e = .wait c ∨ e = .schedule c) {cur : Slot}
    (sleeps : Change k e cur (k'.proc cur)
      (accountRun k' c cur (fallAsleep (.proc cur) .waiting (k'.proc cur)))) :
    Chained k e k.proc (wait k' c cur).proc := by
  have returned : Chained k e k.proc (k'.set cur (setThread .user (k'.proc cur))).proc :=
    before.update (.single (.thread .user (by simp)))
  unfold wait
  split
  · rename_i i found
    dsimp only
    split
    · rename_i zombie
      exact returned.update (.single (.reap event zombie))
    · exact returned
  · split
    · exact returned
    · exact before.update (.single sleeps)

theorem chained_scan (c : Cpu) (proc : Slot → Proc) :
    Chained k (.schedule c) proc (scan proc).proc := by
  have loop : ∀ (rest : List Slot) (s : Scan), Chained k (.schedule c) proc s.proc →
      Chained k (.schedule c) proc (rest.foldl scanSlot s).proc := by
    intro rest
    induction rest with
    | nil => exact fun s before => before
    | cons i rest ih =>
        intro s before
        refine ih _ ?_
        unfold scanSlot
        split
        · exact before
        · rename_i runnable
          split
          · exact before
          · rename_i unmarked
            have counted := before.update (.single (.count (not_not.mp runnable) unmarked))
            dsimp only
            split
            · exact counted
            · split
              · exact counted
              · split
                · split
                  · exact counted
                  · exact counted
                · exact counted
  exact loop slots _ (Chained.refl proc)

theorem chained_switchTo {proc : Slot → Proc} {k' : ProcTable.Kernel} {slot : Slot}
    (before : Chained k e proc k'.proc)
    (change : Change k e slot (k'.proc slot) (resume (k'.proc slot))) :
    Chained k e proc (switchTo k' slot).proc := by
  unfold switchTo
  split
  · exact before
  · split
    · exact before
    · split
      · exact before
      · exact before.update (.single change)

/-- What switchTo() leaves alone. -/
theorem switchTo_fields (k' : ProcTable.Kernel) (slot : Slot) :
    (switchTo k' slot).ticks = k'.ticks ∧ (switchTo k' slot).start_run = k'.start_run ∧
      (switchTo k' slot).prev_proc = k'.prev_proc ∧
      ((switchTo k' slot).panic = none → k'.panic = none →
        ((switchTo k' slot).proc slot).state = (k'.proc slot).state) := by
  have state : (resume (k'.proc slot)).state = (k'.proc slot).state := by
    unfold resume
    split
    all_goals rfl
  unfold switchTo
  split
  · exact ⟨rfl, rfl, rfl, fun calm => by cases calm⟩
  · split
    · exact ⟨rfl, rfl, rfl, fun calm => by cases calm⟩
    · split
      · exact ⟨rfl, rfl, rfl, fun calm => by cases calm⟩
      · exact ⟨rfl, rfl, rfl, fun _ _ => by simp [state]⟩

theorem chained_scheduler (calm : k.panic = none) (c : Cpu) :
    Chained k (.schedule c) k.proc (scheduler k c).proc := by
  have scanned := chained_scan (k := k) c k.proc
  have fields := scan_scanned k.proc
  unfold scheduler
  cases chosen : (scan k.proc).chosen with
  | none => simpa only [chosen] using scanned
  | some slot =>
      simp only [chosen]
      have fit : ((scan k.proc).proc slot).state = .RUNNABLE ∧ ((scan k.proc).proc slot).b ≠ 1 := by
        rw [fields.same slot]
        exact fields.chosen slot chosen
      generalize entry : ({ k with proc := (scan k.proc).proc } : ProcTable.Kernel) = k₁
      have proc : k₁.proc = (scan k.proc).proc := by rw [← entry]
      have ticks : k₁.ticks = k.ticks ∧ k₁.prev_proc = k.prev_proc ∧ k₁.panic = none := by
        rw [← entry]
        exact ⟨rfl, rfl, calm⟩
      rw [← proc] at scanned fit
      have started : Chained k (.schedule c) k.proc (dispatch k₁ c slot).proc := by
        refine scanned.update (.single ?_)
        rw [ticks.1]
        exact .start chosen fit.1 fit.2
      have running : ((dispatch k₁ c slot).proc slot).state = .RUNNING := by
        simp [dispatch, startRun]
      have switched := chained_switchTo started (.resume chosen running)
      obtain ⟨ticksEq, startEq, prevEq, state⟩ := switchTo_fields (dispatch k₁ c slot) slot
      split
      · rename_i waits
        refine chained_wait switched ⟨c, Or.inr rfl⟩ (.resleep chosen ?_ _ ⟨?_, ?_, ?_⟩)
        · exact (state waits.1 ticks.2.2).trans running
        · exact ticksEq.trans ticks.1
        · rw [startEq]
          simp [dispatch, ticks.1]
        · exact prevEq.trans ticks.2.1
      · exact switched

/-! ## exit() -/

theorem chained_reparent {c : Cpu} {cur : Slot} (current : k.cpu c = some cur)
    (leaves : cur ≠ k.initproc) {proc : Slot → Proc}
    (dead : (slots.any fun i => decide ((proc i).parent = some cur) &&
      decide ((proc i).state = .ZOMBIE)) = true → DeadChild k cur) :
    Chained k (.exit c) proc (reparent cur k.initproc proc) := by
  obtain ⟨handed, entry⟩ : ∃ handed : Slot → Proc, handed = fun i =>
      if (proc i).parent = some cur then { proc i with parent := some k.initproc }
      else proc i := ⟨_, rfl⟩
  have given : Chained k (.exit c) proc handed := by
    rw [entry]
    refine Chained.single fun i => ?_
    dsimp only
    split
    · rename_i child
      exact Or.inr (.hand current child)
    · exact Or.inl rfl
  unfold reparent
  dsimp only
  rw [← entry]
  split
  · rename_i any
    have wakes : Wakes k (.exit c) (some (.proc k.initproc)) :=
      ⟨cur, current, leaves, Or.inr ⟨dead any, rfl⟩⟩
    exact given.trans (chained_wakeup1 wakes handed)
  · exact given

theorem chained_exit {c : Cpu} {cur : Slot} (current : k.cpu c = some cur) :
    Chained k (.exit c) k.proc (exit k c cur).proc := by
  by_cases init : cur = k.initproc
  · unfold ProcTable.exit
    rw [if_pos init]
    exact Chained.refl k.proc
  have finished : Chained k (.exit c) k.proc
      (Function.update k.proc cur { k.proc cur with finish_time := k.ticks }) :=
    (Chained.refl k.proc).update (.single (.finish current))
  obtain ⟨first, entry⟩ : ∃ first, first =
      Function.update k.proc cur { k.proc cur with finish_time := k.ticks } := ⟨_, rfl⟩
  have parent : ∀ i, (first i).parent = (k.proc i).parent := by
    rw [entry]
    exact Lib.Slots.update_observed Proc.parent k.proc cur _ rfl
  have state : ∀ i, (first i).state = (k.proc i).state := by
    rw [entry]
    exact Lib.Slots.update_observed Proc.state k.proc cur _ rfl
  rw [← entry] at finished
  have wakes : Wakes k (.exit c) ((k.proc cur).parent.map .proc) :=
    ⟨cur, current, init, Or.inl rfl⟩
  have woken := finished.trans (chained_wakeup1 wakes first)
  have dead : (slots.any fun i =>
      decide ((wakeup1 ((k.proc cur).parent.map .proc) first i).parent = some cur) &&
        decide ((wakeup1 ((k.proc cur).parent.map .proc) first i).state = .ZOMBIE)) = true →
      DeadChild k cur := by
    intro any
    obtain ⟨i, _, found⟩ := List.any_eq_true.mp any
    simp only [Bool.and_eq_true, decide_eq_true_eq] at found
    refine ⟨i, ?_, ?_⟩
    · rw [← parent i, ← found.1]
      unfold wakeup1
      split
      all_goals rfl
    · rw [← state i]
      have zombie := found.2
      unfold wakeup1 at zombie
      split at zombie
      · cases zombie
      · exact zombie
  have notified := woken.trans (chained_reparent current init dead)
  have proc : exitNotify k cur =
      reparent cur k.initproc (wakeup1 ((k.proc cur).parent.map .proc) first) := by
    unfold exitNotify
    rw [entry]
  rw [← proc] at notified
  unfold ProcTable.exit
  rw [if_neg init]
  exact notified.update (.single (.die current))

/-! ## fork() and the rest -/

theorem chained_forkOn {cur : Slot} {call : ForkCall} {np : Proc} {thread : Thread}
    (change : Change k e call.np (k.proc call.np) np) (moves : thread ≠ .waiting) :
    Chained k e k.proc (forkOn k cur call np thread).proc :=
  ((Chained.refl k.proc).update (.single change)).update (.single (.thread thread moves))

theorem chained_forkBegin {c : Cpu} (custom : Option (Int × Int)) (cur : Slot) :
    Chained k (.fork c custom) k.proc (forkBegin custom k cur).proc := by
  unfold forkBegin
  cases found : findUnused k.proc with
  | none => exact Chained.refl k.proc
  | some np =>
      have free := List.find?_some found
      have unused : (k.proc np).state = .UNUSED := of_decide_eq_true free
      have allocated : Chained k (.fork c custom) k.proc (allocproc k np).proc :=
        (Chained.refl k.proc).update (.single (.allocate found unused))
      exact allocated.update (.single (.thread _ (by simp)))

theorem chained_kill {c : Cpu} (pid : Int) : Chained k (.kill c pid) k.proc (kill pid k.proc) := by
  unfold kill
  cases found : slots.find? fun i => decide ((k.proc i).pid = pid) with
  | none => exact Chained.refl k.proc
  | some i => exact (Chained.refl k.proc).update (.single (.kill pid found))

theorem chained_ctrlB : Chained k .ctrlB k.proc (ctrlB k).proc := by
  have marked : Chained k .ctrlB k.proc (ctrlBMark k.proc) := by
    refine Chained.single fun i => ?_
    unfold ctrlBMark
    split
    · rename_i job
      exact Or.inr (.mark job.1 job.2)
    · exact Or.inl rfl
  unfold ctrlB
  dsimp only
  split
  · exact marked
  · rename_i sh found
    have shell := List.find?_some found
    exact marked.update (.single (.shell found (of_decide_eq_true shell)))

theorem chained_ctrlF : Chained k .ctrlF k.proc (ctrlF k.proc) := by
  refine Chained.single fun i => ?_
  unfold ctrlF
  split
  · rename_i job
    exact Or.inr (.foreground job.1 job.2)
  · split
    · rename_i shell
      exact Or.inr (.background shell)
    · exact Or.inl rfl

/-- Every step is a chain of changes in every slot. -/
theorem step_chained {next : ProcTable.Kernel} (taken : step k e = some next) :
    Chained k e k.proc next.proc := by
  obtain ⟨calm, taken⟩ := step_some taken
  cases e with
  | schedule c =>
      simp only [act, Option.ite_none_right_eq_some, Option.some.injEq] at taken
      obtain ⟨_, rfl⟩ := taken
      exact chained_scheduler calm c
  | tick =>
      simp only [act] at taken
      cases Option.some.inj taken
      exact chained_wakeup1 (by rfl) k.proc
  | yield c =>
      simp only [act] at taken
      obtain ⟨p, current, _, rfl⟩ := onCpu_some taken
      exact (Chained.refl k.proc).update (.single (.yield current))
  | fork c custom =>
      simp only [act] at taken
      obtain ⟨p, current, _, rfl⟩ := onCpu_some taken
      exact chained_forkBegin custom p
  | forkStack c page =>
      simp only [act] at taken
      obtain ⟨p, call, current, busy, stage, rfl⟩ := inFork_some taken
      exact chained_forkOn (.stack page ⟨current, busy, stage⟩ rfl) (by split <;> simp)
  | forkCopy c page =>
      simp only [act] at taken
      obtain ⟨p, call, current, busy, stage, rfl⟩ := inFork_some taken
      exact chained_forkOn (.copy page ⟨current, busy, stage⟩ rfl) (by split <;> simp)
  | forkCommit c =>
      simp only [act] at taken
      obtain ⟨p, call, current, busy, stage, rfl⟩ := inFork_some taken
      exact chained_forkOn (.commit ⟨current, busy, stage⟩ rfl) (by simp)
  | exit c =>
      simp only [act] at taken
      obtain ⟨p, current, _, rfl⟩ := onCpu_some taken
      exact chained_exit current
  | wait c =>
      simp only [act] at taken
      obtain ⟨p, current, _, rfl⟩ := onCpu_some taken
      exact chained_wait (Chained.refl k.proc) ⟨c, Or.inl rfl⟩ (.waitSleep current)
  | sleep c chan =>
      simp only [act] at taken
      obtain ⟨p, current, _, rfl⟩ := onCpu_some taken
      exact (Chained.refl k.proc).update (.single (.sleep chan current))
  | wakeup chan =>
      simp only [act] at taken
      cases Option.some.inj taken
      exact chained_wakeup1 (by rfl) k.proc
  | kill c pid =>
      simp only [act] at taken
      obtain ⟨p, _, _, rfl⟩ := onCpu_some taken
      exact chained_kill pid
  | schedulerStart c =>
      simp only [act] at taken
      obtain ⟨p, _, _, rfl⟩ := onCpu_some taken
      refine Chained.single fun i => ?_
      dsimp only
      unfold sys_scheduler_start
      split
      · rename_i gated
        exact Or.inr (.release gated)
      · exact Or.inl rfl
  | signal c handler =>
      simp only [act] at taken
      obtain ⟨p, current, _, rfl⟩ := ownStore_some taken
      exact (Chained.refl k.proc).update (.single (.signal handler current))
  | sigreturn c =>
      simp only [act] at taken
      obtain ⟨p, current, _, rfl⟩ := ownStore_some taken
      exact (Chained.refl k.proc).update (.single (.sigreturn current))
  | sigretFault c =>
      simp only [act] at taken
      obtain ⟨p, current, _, rfl⟩ := ownStore_some taken
      exact (Chained.refl k.proc).update (.single (.sigretFault current))
  | deliver c kalloc =>
      simp only [act] at taken
      obtain ⟨p, current, wants, rfl⟩ := ownStore_some taken
      exact (Chained.refl k.proc).update (.single (.deliver kalloc current wants))
  | ctrlC =>
      simp only [act] at taken
      cases onKey_some taken
      refine Chained.single fun i => ?_
      dsimp only
      unfold ctrlC
      split
      · rename_i job
        exact Or.inr (.ctrlC job)
      · exact Or.inl rfl
  | ctrlB =>
      simp only [act] at taken
      cases onKey_some taken
      exact chained_ctrlB
  | ctrlBWake =>
      simp only [act] at taken
      cases found : k.shellWake with
      | none => simp [found] at taken
      | some sh =>
          simp only [found, Option.some.injEq] at taken
          subst taken
          have wakes : Wakes k .ctrlBWake (k.proc sh).chan := ⟨sh, found, rfl⟩
          exact chained_wakeup1 wakes k.proc
  | ctrlF =>
      simp only [act] at taken
      cases onKey_some taken
      exact chained_ctrlF
  | ctrlG c =>
      simp only [act] at taken
      obtain ⟨p, current, _, rfl⟩ := ownStore_some taken
      exact (Chained.refl k.proc).update (.single (.ctrlG current))

end Tables

/-! ## The clock and the CPUs -/

/-- The timer, and what gives or takes a CPU. -/
def moves : Event → Bool
  | .schedule _ | .tick | .yield _ | .exit _ | .wait _ | .sleep _ _ => true
  | _ => false

/-- Same ticks, same bursts on the same CPUs. -/
structure SameCpus (k k' : ProcTable.Kernel) : Prop where
  ticks : k'.ticks = k.ticks
  start_run : k'.start_run = k.start_run
  cpu : k'.cpu = k.cpu

theorem step_still {k next : ProcTable.Kernel} {e : Event} (still : moves e = false)
    (taken : step k e = some next) : SameCpus k next := by
  obtain ⟨_, taken⟩ := step_some taken
  cases e with
  | schedule | tick | yield | exit | wait | sleep => cases still
  | fork c custom =>
      simp only [act] at taken
      obtain ⟨p, _, _, rfl⟩ := onCpu_some taken
      unfold forkBegin
      split
      all_goals exact ⟨rfl, rfl, rfl⟩
  | forkStack c page | forkCopy c page | forkCommit c =>
      simp only [act] at taken
      obtain ⟨p, call, _, _, _, rfl⟩ := inFork_some taken
      exact ⟨rfl, rfl, rfl⟩
  | wakeup chan =>
      simp only [act] at taken
      cases Option.some.inj taken
      exact ⟨rfl, rfl, rfl⟩
  | kill c pid | schedulerStart c =>
      simp only [act] at taken
      obtain ⟨p, _, _, rfl⟩ := onCpu_some taken
      exact ⟨rfl, rfl, rfl⟩
  | signal c handler | sigreturn c | sigretFault c | deliver c kalloc | ctrlG c =>
      simp only [act] at taken
      obtain ⟨p, _, _, rfl⟩ := ownStore_some taken
      exact ⟨rfl, rfl, rfl⟩
  | ctrlC | ctrlF =>
      simp only [act] at taken
      cases onKey_some taken
      exact ⟨rfl, rfl, rfl⟩
  | ctrlB =>
      simp only [act] at taken
      cases onKey_some taken
      unfold ctrlB
      dsimp only
      split
      all_goals exact ⟨rfl, rfl, rfl⟩
  | ctrlBWake =>
      simp only [act] at taken
      split at taken
      · cases taken
      · cases Option.some.inj taken
        exact ⟨rfl, rfl, rfl⟩

end Xv6.Public2.Changes
