import Mathlib.Tactic.Common
import Xv6.Lib.Slots
import Xv6.Public2.Kernel
import Xv6.Public2.Scan

/-!
# What a new process inherits from its slot (xv6-public_2)

allocproc() clears the profiler fields of a slot, fork() clears `b`, and
custom_fork() stores its own three fields; nobody clears the rest.  A child is
therefore born with whatever the earlier occupants left in the fields that its
call does not store.  `ForkExec` is one completed call, with anything the
other processes and the interrupts do in the meantime outside the child.
-/

set_option autoImplicit false

namespace Xv6.Public2.Fresh

open Xv6.Lib.Words
open Xv6.Lib.Runs
open Xv6.Machine
open Xv6.Public2.ProcTable
open Xv6.Public2.Kernel
open Xv6.Public2.Scan

/-- The fields in which one occupant of a slot must not show to the next. -/
structure Birth where
  killed : Int
  b : Int
  waiting_time : Int
  rtime : Int
  exec_time : Int
  custom : Int
  start_later : Int
  pending_signal : Int
  signal_handler : Word
  saved_tf : Option TrapFrame
  deriving DecidableEq

def birth (p : Proc) : Birth where
  killed := p.killed
  b := p.b
  waiting_time := p.waiting_time
  rtime := p.rtime
  exec_time := p.exec_time
  custom := p.custom
  start_later := p.start_later
  pending_signal := p.pending_signal
  signal_handler := p.signal_handler
  saved_tf := p.saved_tf

/-- The two records agree on the fields that a call of fork() (`none`) or of
custom_fork(start_later, exec_time) leaves alone. -/
structure StaleAgree (custom : Option (Int × Int)) (p q : Proc) : Prop where
  killed : p.killed = q.killed
  waiting_time : p.waiting_time = q.waiting_time
  pending_signal : p.pending_signal = q.pending_signal
  signal_handler : p.signal_handler = q.signal_handler
  saved_tf : p.saved_tf = q.saved_tf
  limits : custom = none →
    p.exec_time = q.exec_time ∧ p.custom = q.custom ∧ p.start_later = q.start_later
  suspended : ∀ start_later exec_time, custom = some (start_later, exec_time) →
    start_later ≠ 0 → p.b = q.b

/-! ## One call of fork() -/

/-- Steps of anybody that leave the child's slot and the place of the parent
in its fork() alone. -/
inductive Meanwhile (np parent : Slot) : ProcTable.Kernel → ProcTable.Kernel → Prop where
  | refl (k : ProcTable.Kernel) : Meanwhile np parent k k
  | step {k middle next : ProcTable.Kernel} {e : Event} (before : Meanwhile np parent k middle)
      (taken : step middle e = some next) (child : next.proc np = middle.proc np)
      (place : (next.proc parent).thread = (middle.proc parent).thread) :
      Meanwhile np parent k next

theorem Meanwhile.child {np parent : Slot} {k next : ProcTable.Kernel}
    (while_ : Meanwhile np parent k next) : next.proc np = k.proc np := by
  induction while_ with
  | refl => rfl
  | step _ _ child _ ih => exact child.trans ih

theorem Meanwhile.place {np parent : Slot} {k next : ProcTable.Kernel}
    (while_ : Meanwhile np parent k next) :
    (next.proc parent).thread = (k.proc parent).thread := by
  induction while_ with
  | refl => rfl
  | step _ _ _ place ih => exact place.trans ih

/-- `parent` calls fork() or custom_fork() in `k` and gets slot `np`; in
`final` the child has just been committed.  The parent may change its CPU. -/
structure ForkExec (custom : Option (Int × Int)) (parent np : Slot)
    (k final : ProcTable.Kernel) : Prop where
  slot : findUnused k.proc = some np
  other : np ≠ parent
  stretches : ∃ (c₁ c₂ c₃ c₄ : Cpu) (stack dir : Page)
      (k₁ k₁' k₂ k₂' k₃ k₃' : ProcTable.Kernel),
    (k.cpu c₁ = some parent ∧ step k (.fork c₁ custom) = some k₁ ∧ Meanwhile np parent k₁ k₁') ∧
    (k₁'.cpu c₂ = some parent ∧ step k₁' (.forkStack c₂ (some stack)) = some k₂ ∧
      Meanwhile np parent k₂ k₂') ∧
    (k₂'.cpu c₃ = some parent ∧ step k₂' (.forkCopy c₃ (some dir)) = some k₃ ∧
      Meanwhile np parent k₃ k₃') ∧
    k₃'.cpu c₄ = some parent ∧ step k₃' (.forkCommit c₄) = some final

section Stretches
variable {k next : ProcTable.Kernel} {c : Cpu} {parent np : Slot}

theorem fork_step {custom : Option (Int × Int)} (current : k.cpu c = some parent)
    (slot : findUnused k.proc = some np) (other : np ≠ parent)
    (taken : step k (.fork c custom) = some next) :
    next.proc np = embryo k (k.proc np) ∧
      (next.proc parent).thread = .forking ⟨np, custom, .allocated⟩ := by
  obtain ⟨_, taken⟩ := step_some taken
  simp only [act] at taken
  obtain ⟨p, current', _, rfl⟩ := onCpu_some taken
  cases Option.some.inj (current.symm.trans current')
  simp only [forkBegin, slot, Kernel.set_same, Kernel.set_other _ _ other, allocproc]
  exact ⟨trivial, rfl⟩

theorem forkOn_child {call : ForkCall} (other : call.np ≠ parent) (p : Proc) (thread : Thread) :
    (forkOn k parent call p thread).proc call.np = p ∧
      ((forkOn k parent call p thread).proc parent).thread = thread := by
  simp [forkOn, Kernel.set_other _ _ other, setThread]

theorem forkStack_step {call : ForkCall} {page : Page} (current : k.cpu c = some parent)
    (busy : (k.proc parent).thread = .forking call) (other : call.np ≠ parent)
    (taken : step k (.forkStack c (some page)) = some next) :
    next.proc call.np = allocprocStack (some page) (k.proc call.np) ∧
      (next.proc parent).thread = .forking { call with stage := .stacked } := by
  obtain ⟨_, taken⟩ := step_some taken
  simp only [act] at taken
  obtain ⟨p, call', current', busy', _, rfl⟩ := inFork_some taken
  cases Option.some.inj (current.symm.trans current')
  cases busy.symm.trans busy'
  simpa [forkStack] using forkOn_child other _ _

theorem forkCopy_step {call : ForkCall} {page : Page} (current : k.cpu c = some parent)
    (busy : (k.proc parent).thread = .forking call) (other : call.np ≠ parent)
    (taken : step k (.forkCopy c (some page)) = some next) :
    next.proc call.np =
        copyProcess call.custom (some page) parent (k.proc parent).tf (k.proc call.np) ∧
      (next.proc parent).thread = .forking { call with stage := .copied } := by
  obtain ⟨_, taken⟩ := step_some taken
  simp only [act] at taken
  obtain ⟨p, call', current', busy', _, rfl⟩ := inFork_some taken
  cases Option.some.inj (current.symm.trans current')
  cases busy.symm.trans busy'
  simpa [forkCopy] using forkOn_child other _ _

theorem forkCommit_step {call : ForkCall} (current : k.cpu c = some parent)
    (busy : (k.proc parent).thread = .forking call) (other : call.np ≠ parent)
    (taken : step k (.forkCommit c) = some next) :
    next.proc call.np = commitProcess call.custom (k.proc call.np) := by
  obtain ⟨_, taken⟩ := step_some taken
  simp only [act] at taken
  obtain ⟨p, call', current', busy', _, rfl⟩ := inFork_some taken
  cases Option.some.inj (current.symm.trans current')
  cases busy.symm.trans busy'
  exact (forkOn_child other _ _).1

end Stretches

section Uninterrupted
variable {k next : ProcTable.Kernel} {c : Cpu}

theorem fork_cpu {custom : Option (Int × Int)} (taken : step k (.fork c custom) = some next) :
    next.cpu = k.cpu := by
  obtain ⟨_, taken⟩ := step_some taken
  simp only [act] at taken
  obtain ⟨p, _, _, rfl⟩ := onCpu_some taken
  unfold forkBegin
  split <;> rfl

theorem forkStack_cpu {page : Option Page} (taken : step k (.forkStack c page) = some next) :
    next.cpu = k.cpu := by
  obtain ⟨_, taken⟩ := step_some taken
  simp only [act] at taken
  obtain ⟨p, call, _, _, _, rfl⟩ := inFork_some taken
  rfl

theorem forkCopy_cpu {page : Option Page} (taken : step k (.forkCopy c page) = some next) :
    next.cpu = k.cpu := by
  obtain ⟨_, taken⟩ := step_some taken
  simp only [act] at taken
  obtain ⟨p, call, _, _, _, rfl⟩ := inFork_some taken
  rfl

/-- A fork() that nothing comes in between. -/
theorem forkEvents_exec {custom : Option (Int × Int)} {stack dir : Page} {parent np : Slot}
    {final : ProcTable.Kernel} (current : k.cpu c = some parent)
    (slot : findUnused k.proc = some np) (other : np ≠ parent)
    (ran : run step k (forkEvents c custom stack dir) = some final) :
    ForkExec custom parent np k final := by
  simp only [forkEvents, run_cons_some, run_nil, Option.some.injEq] at ran
  obtain ⟨k₁, taken₁, k₂, taken₂, k₃, taken₃, k₄, taken₄, rfl⟩ := ran
  have current₁ : k₁.cpu c = some parent := by rw [fork_cpu taken₁, current]
  have current₂ : k₂.cpu c = some parent := by rw [forkStack_cpu taken₂, current₁]
  have current₃ : k₃.cpu c = some parent := by rw [forkCopy_cpu taken₃, current₂]
  exact ⟨slot, other, c, c, c, c, stack, dir, k₁, k₁, k₂, k₂, k₃, k₃,
    ⟨current, taken₁, .refl k₁⟩, ⟨current₁, taken₂, .refl k₂⟩, ⟨current₂, taken₃, .refl k₃⟩,
    current₃, taken₄⟩

end Uninterrupted

/-- What the child is born with, from the call and the stale record. -/
def bornWith (custom : Option (Int × Int)) (stale : Proc) : Birth :=
  match custom with
  | none => { birth stale with rtime := 0, b := 0 }
  | some (start_later, exec_time) =>
      { birth stale with
        rtime := 0
        custom := 1
        start_later := start_later
        exec_time := exec_time
        b := if start_later ≠ 0 then stale.b else 0 }

theorem ForkExec.born {custom : Option (Int × Int)} {parent np : Slot}
    {k final : ProcTable.Kernel} (exec : ForkExec custom parent np k final) :
    birth (final.proc np) = bornWith custom (k.proc np) := by
  obtain ⟨c₁, c₂, c₃, c₄, stack, dir, k₁, k₁', k₂, k₂', k₃, k₃',
    ⟨cur₁, taken₁, while₁⟩, ⟨cur₂, taken₂, while₂⟩, ⟨cur₃, taken₃, while₃⟩, cur₄, taken₄⟩ :=
    exec.stretches
  obtain ⟨child₁, place₁⟩ := fork_step cur₁ exec.slot exec.other taken₁
  rw [← while₁.place] at place₁
  obtain ⟨child₂, place₂⟩ := forkStack_step cur₂ place₁ exec.other taken₂
  rw [← while₂.place] at place₂
  obtain ⟨child₃, place₃⟩ := forkCopy_step cur₃ place₂ exec.other taken₃
  rw [← while₃.place] at place₃
  have child₄ := forkCommit_step cur₄ place₃ exec.other taken₄
  simp only at child₂ child₃ child₄
  rw [child₄, while₃.child, child₃, while₂.child, child₂, while₁.child, child₁]
  cases custom with
  | none => rfl
  | some args =>
      obtain ⟨start_later, exec_time⟩ := args
      simp only [commitProcess, copyProcess, bornWith]
      split <;> rfl

theorem bornWith_eq_iff (custom : Option (Int × Int)) (p q : Proc) :
    bornWith custom p = bornWith custom q ↔ StaleAgree custom p q := by
  constructor
  · intro same
    cases custom with
    | none =>
        simp only [bornWith, birth, Birth.mk.injEq] at same
        obtain ⟨killed, _, waiting, _, exec, cust, later, pending, handler, saved⟩ := same
        exact ⟨killed, waiting, pending, handler, saved, fun _ => ⟨exec, cust, later⟩,
          fun _ _ h => by cases h⟩
    | some args =>
        obtain ⟨start_later, exec_time⟩ := args
        simp only [bornWith, birth, Birth.mk.injEq] at same
        obtain ⟨killed, b, waiting, _, _, _, _, pending, handler, saved⟩ := same
        refine ⟨killed, waiting, pending, handler, saved, (fun h => by cases h), ?_⟩
        rintro _ _ ⟨⟩ nonzero
        simpa [nonzero] using b
  · intro agree
    obtain ⟨killed, waiting, pending, handler, saved, limits, suspended⟩ := agree
    cases custom with
    | none =>
        obtain ⟨exec, cust, later⟩ := limits rfl
        simp [bornWith, birth, killed, waiting, pending, handler, saved, exec, cust, later]
    | some args =>
        obtain ⟨start_later, exec_time⟩ := args
        have flag := suspended start_later exec_time rfl
        simp only [bornWith, birth, Birth.mk.injEq, killed, waiting, pending, handler, saved,
          true_and, and_true]
        split
        · rename_i nonzero
          exact flag nonzero
        · rfl

/-! ## The execution limit over the life of a process -/

/-- The step does not fork into the slot again. -/
def KeepsSlot (i : Slot) (k : ProcTable.Kernel) : Event → Prop
  | .fork _ _ => findUnused k.proc ≠ some i
  | .forkCopy c _ => ∀ p call, k.cpu c = some p → (k.proc p).thread = .forking call → call.np ≠ i
  | _ => True

def limits (p : Proc) : Int × Int × Int := (p.custom, p.start_later, p.exec_time)

theorem limits_update (proc : Slot → Proc) (j : Slot) (p : Proc)
    (same : limits p = limits (proc j)) (i : Slot) :
    limits (Function.update proc j p i) = limits (proc i) :=
  Lib.Slots.update_observed limits proc j p same i

theorem limits_wakeup1 (chan : Option Chan) (proc : Slot → Proc) (i : Slot) :
    limits (wakeup1 chan proc i) = limits (proc i) := by
  unfold wakeup1
  split <;> rfl

theorem limits_reparent (curproc initproc : Slot) (proc : Slot → Proc) (i : Slot) :
    limits (reparent curproc initproc proc i) = limits (proc i) := by
  have handed : limits (if (proc i).parent = some curproc then
      { proc i with parent := some initproc } else proc i) = limits (proc i) := by
    split <;> rfl
  unfold reparent
  dsimp only
  split
  · exact (limits_wakeup1 _ _ i).trans handed
  · exact handed

theorem limits_sched (k : ProcTable.Kernel) (c : Cpu) (j : Slot) (p : Proc)
    (same : limits p = limits (k.proc j)) (i : Slot) :
    limits ((sched k c j p).proc i) = limits (k.proc i) :=
  limits_update k.proc j (accountRun k c j p) same i

theorem limits_forkOn (k : ProcTable.Kernel) (parent : Slot) (call : ForkCall) (p : Proc)
    (thread : Thread) (i : Slot) (same : call.np = i → limits p = limits (k.proc i)) :
    limits ((forkOn k parent call p thread).proc i) = limits (k.proc i) := by
  have first : limits ((k.set call.np p).proc i) = limits (k.proc i) := by
    by_cases here : i = call.np
    · rw [here, Kernel.set_same]
      exact here ▸ same here.symm
    · rw [Kernel.set_other _ _ here]
  refine Eq.trans ?_ first
  refine limits_update _ parent _ ?_ i
  rfl

theorem limits_wait (k : ProcTable.Kernel) (c : Cpu) (cur i : Slot) :
    limits ((wait k c cur).proc i) = limits (k.proc i) := by
  have user : ∀ i, limits ((k.set cur (setThread .user (k.proc cur))).proc i) =
      limits (k.proc i) := by
    refine limits_update k.proc cur _ ?_
    rfl
  unfold wait
  cases waitStop k.proc cur with
  | some j =>
      dsimp only
      split
      · refine Eq.trans ?_ (user i)
        refine limits_update _ j _ ?_ i
        rfl
      · exact user i
  | none =>
      dsimp only
      split
      · exact user i
      · refine limits_sched k c cur _ ?_ i
        rfl

theorem limits_exit (k : ProcTable.Kernel) (c : Cpu) (cur i : Slot) :
    limits ((exit k c cur).proc i) = limits (k.proc i) := by
  unfold exit
  split
  · rfl
  · have told : ∀ i, limits (exitNotify k cur i) = limits (k.proc i) := by
      intro i
      unfold exitNotify
      rw [limits_reparent, limits_wakeup1]
      refine limits_update _ cur _ ?_ i
      rfl
    refine Eq.trans ?_ (told i)
    refine limits_sched _ c cur _ ?_ i
    rfl

theorem limits_switchTo (k : ProcTable.Kernel) (j i : Slot) :
    limits ((switchTo k j).proc i) = limits (k.proc i) := by
  have resumed : limits (resume (k.proc j)) = limits (k.proc j) := by
    unfold resume
    split <;> rfl
  unfold switchTo
  split_ifs
  · rfl
  · rfl
  · rfl
  · exact limits_update _ j _ resumed i

theorem limits_waiting (p : Proc) (time : Int) :
    limits { p with waiting_time := time } = limits p :=
  rfl

/-- The part of scheduler() from `if(chosen)` on. -/
theorem limits_run (k : ProcTable.Kernel) (c : Cpu) (j i : Slot) :
    limits ((switchTo (dispatch k c j) j).proc i) = limits (k.proc i) := by
  rw [limits_switchTo]
  refine limits_update k.proc j _ ?_ i
  rfl

theorem limits_scheduler (k : ProcTable.Kernel) (c : Cpu) (i : Slot) :
    limits ((scheduler k c).proc i) = limits (k.proc i) := by
  unfold scheduler
  generalize entry : ({ k with proc := (scan k.proc).proc } : ProcTable.Kernel) = scanned
  have same : limits (scanned.proc i) = limits (k.proc i) := by
    rw [← entry]
    dsimp only
    rw [(scan_scanned k.proc).same i, limits_waiting]
  cases chosen : (scan k.proc).chosen with
  | none => simpa only [chosen, entry] using same
  | some j =>
      simp only [chosen, entry]
      split
      · rw [limits_wait, limits_run, same]
      · rw [limits_run, same]

/-- Only the copying stretch of custom_fork() writes the limits of a slot. -/
theorem step_limits (i : Slot) (k : ProcTable.Kernel) (e : Event) (next : ProcTable.Kernel)
    (keeps : KeepsSlot i k e) (taken : step k e = some next) :
    limits (next.proc i) = limits (k.proc i) := by
  obtain ⟨_, taken⟩ := step_some taken
  cases e with
  | schedule c =>
      simp only [act, Option.ite_none_right_eq_some, Option.some.injEq] at taken
      obtain ⟨_, rfl⟩ := taken
      exact limits_scheduler k c i
  | tick =>
      cases Option.some.inj taken
      exact limits_wakeup1 _ _ i
  | yield c =>
      simp only [act] at taken
      obtain ⟨p, _, _, rfl⟩ := onCpu_some taken
      refine limits_sched k c p _ ?_ i
      rfl
  | fork c custom =>
      simp only [act] at taken
      obtain ⟨p, _, _, rfl⟩ := onCpu_some taken
      unfold forkBegin
      cases found : findUnused k.proc with
      | none => rfl
      | some np =>
          have away : i ≠ np := by
            rintro rfl
            exact keeps found
          dsimp only
          refine (limits_update _ p _ ?_ i).trans ?_
          · rfl
          · simp only [allocproc, Kernel.set_other _ _ away]
  | forkStack c page =>
      simp only [act] at taken
      obtain ⟨p, call, _, _, _, rfl⟩ := inFork_some taken
      refine limits_forkOn k p call _ _ i ?_
      rintro rfl
      cases page <;> rfl
  | forkCopy c page =>
      simp only [act] at taken
      obtain ⟨p, call, current, busy, _, rfl⟩ := inFork_some taken
      refine limits_forkOn k p call _ _ i ?_
      exact fun here => absurd here (keeps p call current busy)
  | forkCommit c =>
      simp only [act] at taken
      obtain ⟨p, call, _, _, _, rfl⟩ := inFork_some taken
      refine limits_forkOn k p call _ _ i ?_
      rintro rfl
      unfold commitProcess
      cases call.custom with
      | none => rfl
      | some args =>
          dsimp only
          split <;> rfl
  | exit c =>
      simp only [act] at taken
      obtain ⟨p, _, _, rfl⟩ := onCpu_some taken
      exact limits_exit k c p i
  | wait c =>
      simp only [act] at taken
      obtain ⟨p, _, _, rfl⟩ := onCpu_some taken
      exact limits_wait k c p i
  | sleep c chan =>
      simp only [act] at taken
      obtain ⟨p, _, _, rfl⟩ := onCpu_some taken
      refine limits_sched k c p _ ?_ i
      rfl
  | wakeup chan =>
      cases Option.some.inj taken
      exact limits_wakeup1 _ _ i
  | kill c pid =>
      simp only [act] at taken
      obtain ⟨p, _, _, rfl⟩ := onCpu_some taken
      unfold kill
      cases slots.find? fun i => decide ((k.proc i).pid = pid) with
      | none => rfl
      | some j =>
          dsimp only
          refine limits_update _ j _ ?_ i
          rfl
  | schedulerStart c =>
      simp only [act] at taken
      obtain ⟨p, _, _, rfl⟩ := onCpu_some taken
      unfold sys_scheduler_start
      dsimp only
      split <;> rfl
  | signal c handler =>
      simp only [act] at taken
      obtain ⟨p, _, _, rfl⟩ := ownStore_some taken
      refine limits_update _ p _ ?_ i
      rfl
  | sigreturn c =>
      simp only [act] at taken
      obtain ⟨p, _, _, rfl⟩ := ownStore_some taken
      refine limits_update _ p _ ?_ i
      rfl
  | sigretFault c =>
      simp only [act] at taken
      obtain ⟨p, _, _, rfl⟩ := ownStore_some taken
      refine limits_update _ p _ ?_ i
      rfl
  | deliver c kalloc =>
      simp only [act] at taken
      obtain ⟨p, _, _, rfl⟩ := ownStore_some taken
      refine limits_update _ p _ ?_ i
      rfl
  | ctrlC =>
      cases onKey_some taken
      unfold ctrlC
      dsimp only
      split <;> rfl
  | ctrlB =>
      cases onKey_some taken
      have marked : ∀ i, limits (ctrlBMark k.proc i) = limits (k.proc i) := by
        intro i
        unfold ctrlBMark
        split <;> rfl
      unfold ctrlB
      dsimp only
      cases shellSlot (ctrlBMark k.proc) with
      | none => exact marked i
      | some sh =>
          dsimp only
          refine (limits_update _ sh _ ?_ i).trans (marked i)
          rfl
  | ctrlBWake =>
      simp only [act] at taken
      cases found : k.shellWake with
      | none => simp [found] at taken
      | some sh =>
          simp only [found, Option.some.injEq] at taken
          subst taken
          exact limits_wakeup1 _ _ i
  | ctrlF =>
      cases onKey_some taken
      unfold ctrlF
      dsimp only
      split_ifs <;> rfl
  | ctrlG c =>
      simp only [act] at taken
      obtain ⟨p, _, _, rfl⟩ := ownStore_some taken
      refine limits_update _ p _ ?_ i
      rfl

/-! ## Freshness -/

/-- A child that shows nothing of the dead: not killed, not suspended, no
signal state, and no limit for the exec_time rule to find it over, ever. -/
structure Clean (np : Slot) (k : ProcTable.Kernel) : Prop where
  killed : (k.proc np).killed = 0
  b : (k.proc np).b = 0
  pending_signal : (k.proc np).pending_signal = 0
  signal_handler : (k.proc np).signal_handler = 0
  unlimited : ∀ (es : List Event) (later : ProcTable.Kernel),
    Guarded step (KeepsSlot np) k es → run step k es = some later →
    ∀ rtime, ¬ overdue (later.proc np) rtime

theorem not_overdue_iff (p : Proc) : (∀ rtime, ¬ overdue p rtime) ↔ p.exec_time ≤ 0 := by
  constructor
  · intro never
    by_contra positive
    exact never p.exec_time ⟨by omega, le_refl _⟩
  · intro bounded rtime late
    exact absurd late.1 (by omega)

theorem run_limits (np : Slot) (es : List Event) (k later : ProcTable.Kernel)
    (keeps : Guarded step (KeepsSlot np) k es) (ran : run step k es = some later) :
    limits (later.proc np) = limits (k.proc np) := by
  have kept : ∀ now e next, limits (now.proc np) = limits (k.proc np) → KeepsSlot np now e →
      step now e = some next → limits (next.proc np) = limits (k.proc np) :=
    fun now e next same keeps taken => (step_limits np now e next keeps taken).trans same
  exact run_invariant step kept es k later rfl keeps ran

theorem clean_iff {parent np : Slot} {k final : ProcTable.Kernel}
    (exec : ForkExec none parent np k final) :
    Clean np final ↔ (k.proc np).killed = 0 ∧ (k.proc np).pending_signal = 0 ∧
      (k.proc np).signal_handler = 0 ∧ (k.proc np).exec_time ≤ 0 := by
  have born := exec.born
  simp only [birth, bornWith, Birth.mk.injEq] at born
  obtain ⟨killed, b, _, _, exec_time, _, _, pending, handler, _⟩ := born
  rw [← killed, ← pending, ← handler, ← exec_time]
  constructor
  · intro clean
    exact ⟨clean.killed, clean.pending_signal, clean.signal_handler,
      (not_overdue_iff _).mp (clean.unlimited [] final trivial rfl)⟩
  · rintro ⟨alive, quiet, unset, bounded⟩
    refine ⟨alive, b, quiet, unset, fun es later keeps ran => ?_⟩
    have same := run_limits np es final later keeps ran
    simp only [limits, Prod.mk.injEq] at same
    exact (not_overdue_iff _).mpr (same.2.2 ▸ bounded)

/-- Two calls that get the same slot make children that are born alike exactly
if the dead agree on every field the call leaves alone; and a child of plain
fork() is clean exactly if the dead left nothing in four of them. -/
theorem child_fresh_iff {custom : Option (Int × Int)} {parent parent' np : Slot}
    {k k' final final' : ProcTable.Kernel} (exec : ForkExec custom parent np k final)
    (exec' : ForkExec custom parent' np k' final') :
    (birth (final.proc np) = birth (final'.proc np) ↔
      StaleAgree custom (k.proc np) (k'.proc np)) ∧
    (custom = none → (Clean np final ↔ (k.proc np).killed = 0 ∧ (k.proc np).pending_signal = 0 ∧
      (k.proc np).signal_handler = 0 ∧ (k.proc np).exec_time ≤ 0)) := by
  constructor
  · rw [exec.born, exec'.born]
    exact bornWith_eq_iff custom _ _
  · rintro rfl
    exact clean_iff exec

/-- The first child of init may call signal(), exits and is reaped. -/
def occupantRun (calls : List Event) : List Event :=
  [.schedule cpu0] ++ forkEvents cpu0 none 3 4 ++ [.wait cpu0, .schedule cpu0] ++ calls ++
    [.exit cpu0, .schedule cpu0]

/-- The occupant registers a handler. -/
def registers : List Event := [.signal cpu0 (some 64)]

theorem registers_completes : (run step boot (occupantRun registers)).isSome = true := by
  decide +kernel

theorem silent_completes : (run step boot (occupantRun [])).isSome = true := by
  decide +kernel

/-- init again, with its first child reaped. -/
def afterRegisters : ProcTable.Kernel :=
  (run step boot (occupantRun registers)).get registers_completes

def afterSilent : ProcTable.Kernel := (run step boot (occupantRun [])).get silent_completes

theorem forkAfterRegisters_completes :
    (run step afterRegisters (forkEvents cpu0 none 5 6)).isSome = true := by
  decide +kernel

theorem forkAfterSilent_completes :
    (run step afterSilent (forkEvents cpu0 none 5 6)).isSome = true := by
  decide +kernel

theorem forkAfterRegisters :
    ForkExec none 0 1 afterRegisters
      ((run step afterRegisters (forkEvents cpu0 none 5 6)).get forkAfterRegisters_completes) :=
  forkEvents_exec (by decide +kernel) (by decide +kernel) (by decide) (Option.some_get _).symm

theorem forkAfterSilent :
    ForkExec none 0 1 afterSilent
      ((run step afterSilent (forkEvents cpu0 none 5 6)).get forkAfterSilent_completes) :=
  forkEvents_exec (by decide +kernel) (by decide +kernel) (by decide) (Option.some_get _).symm

theorem child_fresh_iff_afterOccupant :
    (birth (((run step afterRegisters (forkEvents cpu0 none 5 6)).get
          forkAfterRegisters_completes).proc 1) =
        birth (((run step afterSilent (forkEvents cpu0 none 5 6)).get
          forkAfterSilent_completes).proc 1) ↔
      StaleAgree none (afterRegisters.proc 1) (afterSilent.proc 1)) ∧
    (Clean 1 ((run step afterRegisters (forkEvents cpu0 none 5 6)).get
        forkAfterRegisters_completes) ↔
      (afterRegisters.proc 1).killed = 0 ∧ (afterRegisters.proc 1).pending_signal = 0 ∧
        (afterRegisters.proc 1).signal_handler = 0 ∧ (afterRegisters.proc 1).exec_time ≤ 0) :=
  have fresh := child_fresh_iff forkAfterRegisters forkAfterSilent
  ⟨fresh.1, fresh.2 rfl⟩

/-- The two machines differ at most in what one slot holds. -/
structure SameElsewhere (i : Slot) (k k' : ProcTable.Kernel) : Prop where
  proc : ∀ j, j ≠ i → k.proc j = k'.proc j
  cpu : ∀ c, k.cpu c = k'.cpu c
  start_run : ∀ c, k.start_run c = k'.start_run c
  prev_proc : k.prev_proc = k'.prev_proc
  initproc : k.initproc = k'.initproc
  nextpid : k.nextpid = k'.nextpid
  ticks : k.ticks = k'.ticks
  shellWake : k.shellWake = k'.shellWake
  panic : k.panic = k'.panic

/-- A child of plain fork() is born with the handler of the occupant before it. -/
theorem afterOccupant_handler_inherited :
    ¬ (∀ (custom : Option (Int × Int)) (parent np : Slot) (k k' final final' : ProcTable.Kernel),
      Reachable step boot k → Reachable step boot k' → SameElsewhere np k k' →
      ForkExec custom parent np k final → ForkExec custom parent np k' final' →
      birth (final.proc np) = birth (final'.proc np)) := by
  intro fresh
  have elsewhere : SameElsewhere 1 afterRegisters afterSilent :=
    ⟨by decide +kernel, by decide +kernel, by decide +kernel, by decide +kernel,
      by decide +kernel, by decide +kernel, by decide +kernel, by decide +kernel,
      by decide +kernel⟩
  have alike := fresh none 0 1 _ _ _ _ ⟨_, (Option.some_get registers_completes).symm⟩
    ⟨_, (Option.some_get silent_completes).symm⟩ elsewhere forkAfterRegisters forkAfterSilent
  revert alike
  decide +kernel

end Xv6.Public2.Fresh
