import Xv6.Lib.Inheritance
import Xv6.Public1.Lifecycle

/-!
# Blocked sets over the life of a process (xv6-public_1)

allocproc() and wait() leave `blocked_syscalls` alone and fork() copies it from
the parent before the child can run, so a slot is always a member that has
inherited its value.  Every step of the kernel is a move of such members.
-/

set_option autoImplicit false

namespace Xv6.Public1.BlockSets

open Xv6.Lib.Runs
open Xv6.Lib.Words
open Xv6.Lib.Inheritance
open Xv6.Machine
open Xv6.Public1.Syscall hiding syscall
open Xv6.Public1.BlockCalls hiding step
open Xv6.Public1.Process
open Xv6.Public1.Lifecycle

abbrev BlockedSet := Fin 32 → Int

def phase : ProcState → Phase
  | .UNUSED => .free
  | .EMBRYO => .embryo
  | .SLEEPING | .RUNNABLE | .RUNNING => .live
  | .ZOMBIE => .dead

def forkOf : Thread → Option (Slot × Bool)
  | .forking call => some (call.np, decide (call.stage = .copied))
  | .user | .asleep | .waiting => none

def member (p : Proc) : Member Slot BlockedSet :=
  { phase := phase p.state, value := p.blocked_syscalls, fork := forkOf p.thread }

def members (k : Kernel) (i : Slot) : Member Slot BlockedSet := member (k.proc i)

def book (g : Ledger) : Book Slot BlockedSet (Which × Fin 32) :=
  { inherited := g.inherited, calls := g.calls }

/-- What a successful call does to a set. -/
def applyCall (set : BlockedSet) (op : Which × Fin 32) : BlockedSet :=
  Function.update set op.2 (match op.1 with
    | .block => 1
    | .unblock => 0)

/-- The process has been created and has not exited. -/
def Live (p : Proc) : Prop := phase p.state = .live

theorem members_set (k : Kernel) (i : Slot) (p : Proc) :
    members (k.set i p) = Function.update (members k) i (member p) := by
  funext j
  by_cases here : j = i
  · subst here
    simp [members, Kernel.set]
  · simp [members, Kernel.set, here]

theorem members_set_same {k : Kernel} {i : Slot} {p : Proc} (same : member p = member (k.proc i)) :
    members (k.set i p) = members k := by
  rw [members_set, same]
  exact Function.update_eq_self i (members k)

theorem members_congr {k : Kernel} {proc : Slot → Proc}
    (same : ∀ i, member (proc i) = member (k.proc i)) :
    members { k with proc := proc } = members k :=
  funext same

theorem member_blind : Blind member where
  woken := by
    intro p asleep
    simp [member, phase, asleep]
  parent := fun _ _ => rfl
  killed := fun _ _ => rfl

/-! ## Every step is a move -/

section Steps
variable {k : Kernel} {i : Slot} (g : Ledger)

/-- The step `taken` is a move by `who`, entered in the ledger. -/
def Moves (who : Option Slot) (k : Kernel) (g : Ledger) (taken : Note × Kernel) : Prop :=
  Move applyCall who (members k) (book g) (members taken.2) (book (g.record k taken.1))

theorem moves_stay {who : Option Slot} {taken : Note × Kernel}
    (same : members taken.2 = members k) (quiet : book (g.record k taken.1) = book g) :
    Moves who k g taken := by
  rw [Moves, same, quiet]
  exact .stay who (members k) (book g)

theorem wait_moves (live : Live (k.proc i)) (idle : forkOf (k.proc i).thread = none) :
    Moves (some i) k g (wait k i) := by
  have awake : ∀ eax, member (result eax (setThread .user (k.proc i))) = member (k.proc i) := by
    intro eax
    simp only [member, idle]
    rfl
  unfold wait
  cases found : zombieChild k.proc i with
  | some j =>
      have zombie : (k.proc j).state = .ZOMBIE := by
        have test := List.find?_some found
        simp only [Bool.and_eq_true, decide_eq_true_eq] at test
        exact test.2
      dsimp only
      generalize woken : k.set i (result (BitVec.ofInt 32 (k.proc j).pid)
        (setThread .user (k.proc i))) = k'
      have same : members k' = members k := by
        rw [← woken]
        exact members_set_same (awake _)
      have dead : (members k j).phase = .dead := by
        simp [members, member, zombie, phase]
      have reaped : member (reap (k'.proc j)) = { members k j with phase := .free } := by
        rw [← same]
        rfl
      rw [Moves, members_set, same, reaped]
      exact .reap (some i) j (members k) (book g) dead
  | none =>
      dsimp only
      split
      · exact moves_stay g (members_set_same (awake _)) rfl
      · refine moves_stay g (members_set_same ?_) rfl
        simp only [member, idle, show phase (k.proc i).state = .live from live]
        rfl

theorem switchTo_moves (runnable : (k.proc i).state = .RUNNABLE) :
    Moves (some i) k g (switchTo k i) := by
  unfold switchTo
  cases thread : (k.proc i).thread with
  | user =>
      simp only [thread]
      refine moves_stay g (members_set_same ?_) rfl
      simp [member, runnable, phase, thread]
  | forking call =>
      simp only [thread]
      refine moves_stay g (members_set_same ?_) rfl
      simp [member, runnable, phase, thread]
  | asleep =>
      simp only [thread]
      refine moves_stay g (members_set_same ?_) rfl
      simp [member, runnable, phase, thread, forkOf]
  | waiting =>
      simp only [thread]
      generalize entry : ({ k.proc i with
        state := .RUNNING, chan := none, thread := .waiting } : Proc) = p
      have same : members (k.set i p) = members k := by
        refine members_set_same ?_
        simp [← entry, member, runnable, phase, thread]
      have record : (k.set i p).proc i = p := by simp [Kernel.set]
      have waited : Moves (some i) (k.set i p) g (wait (k.set i p) i) :=
        wait_moves g (by rw [record, ← entry]; rfl) (by rw [record, ← entry]; rfl)
      rw [Moves, same, record_wait] at waited
      rw [Moves, record_wait]
      exact waited

/-- A process on a CPU is live, and so it can start a child or call for itself. -/
theorem forkBegin_moves (live : Live (k.proc i)) (idle : forkOf (k.proc i).thread = none) :
    Moves (some i) k g (forkBegin k i) := by
  unfold forkBegin
  cases found : findUnused k.proc with
  | none => exact moves_stay g (members_set_same rfl) rfl
  | some np =>
      have unused : (k.proc np).state = .UNUSED := by simpa using List.find?_some found
      have free : (members k np).phase = .free := by simp [members, member, unused, phase]
      have apart : i ≠ np := by
        rintro rfl
        rw [Live, unused] at live
        cases live
      have began := @Move.start _ _ _ _ applyCall i np (members k) (book g) live idle free
      dsimp only
      have record : Function.update k.proc np (embryo k (k.proc np)) i = k.proc i :=
        Function.update_of_ne apart _ _
      unfold Moves
      rw [members_set]
      simp only [Kernel.set, record]
      refine Eq.mp ?_ began
      congr 2
      funext j
      by_cases here : j = np
      · subst here
        simp [members, member, embryo, phase]
      · simp [members, here]

/-- The end of a stretch of fork(): stores into the child and the parent. -/
theorem fork_members (np : Slot) (child parent : Proc) :
    members ((k.set np child).set i parent) =
      Function.update (Function.update (members k) np (member child)) i (member parent) := by
  rw [members_set, members_set]

theorem forkFail_moves {call : ForkCall} {copied : Bool} (apart : call.np ≠ i)
    (busy : (members k i).fork = some (call.np, copied)) :
    Moves (some i) k g (forkFail k i call) := by
  have failed := @Move.fail _ _ _ _ applyCall i call.np copied (members k) (book g) busy
  unfold Moves forkFail
  dsimp only
  rw [fork_members]
  have record : (k.set call.np { k.proc call.np with state := .UNUSED }).proc i = k.proc i := by
    simp [Kernel.set, apart.symm]
  rw [record]
  exact failed

theorem forkStack_moves {call : ForkCall} (apart : call.np ≠ i)
    (thread : (k.proc i).thread = .forking call) (stage : call.stage = .allocated)
    (found : Bool) : Moves (some i) k g (forkStack found k i call) := by
  have busy : (members k i).fork = some (call.np, false) := by
    simp [members, member, thread, forkOf, stage]
  unfold forkStack
  split
  · refine moves_stay g (members_set_same ?_) rfl
    simp [member, setThread, thread, forkOf, stage]
  · exact forkFail_moves g apart busy

theorem forkCopy_moves {call : ForkCall} (apart : call.np ≠ i)
    (thread : (k.proc i).thread = .forking call) (stage : call.stage = .stacked)
    (found : Bool) : Moves (some i) k g (forkCopy found k i call) := by
  have busy : (members k i).fork = some (call.np, false) := by
    simp [members, member, thread, forkOf, stage]
  unfold forkCopy
  split
  · have copied := @Move.copy _ _ _ _ applyCall i call.np false (members k) (book g) busy
    unfold Moves
    dsimp only
    rw [fork_members]
    have record : (k.set call.np (copyProcess i (k.proc i) (k.proc call.np))).proc i =
        k.proc i := by
      simp [Kernel.set, apart.symm]
    rw [record]
    exact copied
  · exact forkFail_moves g apart busy

theorem forkCommit_moves {call : ForkCall} (apart : call.np ≠ i)
    (thread : (k.proc i).thread = .forking call) (stage : call.stage = .copied) :
    Moves (some i) k g (forkCommit k i call) := by
  have busy : (members k i).fork = some (call.np, true) := by
    simp [members, member, thread, forkOf, stage]
  have committed := @Move.commit _ _ _ _ applyCall i call.np (members k) (book g) busy
  unfold Moves forkCommit
  dsimp only
  rw [fork_members]
  have record : (k.set call.np { k.proc call.np with state := .RUNNABLE, thread := .user }).proc i =
      k.proc i := by
    simp [Kernel.set, apart.symm]
  rw [record]
  exact committed

theorem exit_moves (live : Live (k.proc i)) (idle : forkOf (k.proc i).thread = none) :
    Moves (some i) k g (exit k i) := by
  unfold exit
  split
  · exact moves_stay g rfl rfl
  · have died := @Move.die _ _ _ _ applyCall i (members k) (book g) live idle
    have quiet : book (g.record k (.exits i)) = book g := by
      simp only [Ledger.record]
      split <;> rfl
    unfold Moves
    dsimp only
    rw [quiet]
    refine Eq.mp ?_ died
    congr 1
    funext j
    by_cases here : j = i
    · subst here
      have told := member_blind.exitNotify k j j
      simp only [member, Member.mk.injEq] at told
      simp [members, member, told.2, phase]
    · simp [members, here, member_blind.exitNotify]

/-- A handler that changes neither the set nor the state of its caller. -/
theorem ownCall_stay (call : Call) (called : Word × Proc) (log : Log)
    (same : member called.2 = member (k.proc i))
    (quiet : book (g.record k (.returned i call called.1)) = book g) :
    Moves (some i) k g (ownCall { k with log := log } i call called) := by
  have kept : members { k with log := log } = members k := rfl
  have stored : member (result called.1 called.2) = member (k.proc i) := same
  refine moves_stay g ?_ quiet
  exact (members_set_same (k := { k with log := log }) stored).trans kept

/-- A successful block() or unblock(). -/
theorem ownCall_call (call : Call) (which : Which) (id : Word) (set : BlockedSet) (eax : Word)
    (live : Live (k.proc i)) (idle : forkOf (k.proc i).thread = none)
    (asked : argint (k.proc i).toCaller 0 = some id)
    (sets : set = applyCall (k.proc i).blocked_syscalls (which, Fin.ofNat 32 id.toNat))
    (written : g.record k (.returned i call eax) = g.call k i which)
    (p : Proc) (record : member p = { member (k.proc i) with value := set }) :
    Moves (some i) k g (.returned i call eax, k.set i p) := by
  have called := @Move.call _ _ _ _ applyCall i (which, Fin.ofNat 32 id.toNat) (members k) (book g)
    live idle
  unfold Moves
  dsimp only
  rw [written, members_set, record, sets]
  have entered : book (g.call k i which) =
      { book g with
        calls := Function.update (book g).calls i
          ((book g).calls i ++ [(which, Fin.ofNat 32 id.toNat)]) } := by
    simp only [Ledger.call, asked, book]
  rw [entered]
  exact called

theorem sys_exec_member (image : Option Image) (p : Proc) :
    member (sys_exec image p).2 = member p := by
  unfold sys_exec
  split <;> rfl

theorem sys_sbrk_member (grown : Option (Word × UserSpace)) (p : Proc) :
    member (sys_sbrk grown p).2 = member p := by
  unfold sys_sbrk
  split <;> rfl

theorem sys_gethistory_member (log : Log) (p : Proc) :
    member (sys_gethistory log p).2.1 = member p := by
  unfold sys_gethistory
  split <;> rfl

theorem block_moves (live : Live (k.proc i)) (idle : forkOf (k.proc i).thread = none) :
    Moves (some i) k g (ownCall k i .sys_block (onCaller sys_block (k.proc i))) := by
  unfold ownCall onCaller
  rcases sys_block_cases (k.proc i).toCaller with refused | ⟨id, asked, done⟩
  · rw [refused]
    exact ownCall_stay g .sys_block (-1, k.proc i) k.log rfl rfl
  · rw [done]
    exact ownCall_call g .sys_block .block id _ 0 live idle asked rfl rfl _ rfl

theorem unblock_moves (live : Live (k.proc i)) (idle : forkOf (k.proc i).thread = none) :
    Moves (some i) k g (ownCall k i .sys_unblock (onCaller sys_unblock (k.proc i))) := by
  unfold ownCall onCaller
  rcases sys_unblock_cases (k.proc i).toCaller with refused | ⟨id, asked, done⟩
  · rw [refused]
    exact ownCall_stay g .sys_unblock (-1, k.proc i) k.log rfl rfl
  · rw [done]
    exact ownCall_call g .sys_unblock .unblock id _ 0 live idle asked rfl rfl _ rfl

theorem handle_moves (answers : Answers) (call : Call) (live : Live (k.proc i))
    (idle : forkOf (k.proc i).thread = none) : Moves (some i) k g (handle answers k i call) := by
  cases call with
  | sys_fork => exact forkBegin_moves g live idle
  | sys_exit => exact exit_moves g live idle
  | sys_wait => exact wait_moves g live idle
  | sys_block => exact block_moves g live idle
  | sys_unblock => exact unblock_moves g live idle
  | sys_exec =>
      refine ownCall_stay g .sys_exec _ k.log (sys_exec_member _ _) ?_
      simp only [Ledger.record]
      split <;> rfl
  | sys_sbrk => exact ownCall_stay g .sys_sbrk _ k.log (sys_sbrk_member _ _) rfl
  | sys_gethistory =>
      exact ownCall_stay g .sys_gethistory _ _ (sys_gethistory_member k.log (k.proc i)) rfl
  | _ => exact ownCall_stay g _ (answers.other, { k.proc i with mem := answers.mem }) k.log rfl rfl

theorem syscall_moves (answers : Answers) (live : Live (k.proc i))
    (idle : forkOf (k.proc i).thread = none) : Moves (some i) k g (syscall answers k i) := by
  unfold syscall
  split
  · exact handle_moves g answers _ live idle
  · exact moves_stay g (members_set_same rfl) rfl

end Steps

/-- The faithful step refines the abstract one. -/
theorem act_moves (k : Kernel) (e : Event) (taken : Note × Kernel) (g : Ledger)
    (inv : Inv applyCall (members k) (book g)) (step : act k e = some taken) :
    Moves e.actor k g taken := by
  have onCpuLive : ∀ i, (k.proc i).state = .RUNNING → Live (k.proc i) := by
    intro i running
    rw [Live, running]
    rfl
  have userIdle : ∀ i, inUser k i = true → forkOf (k.proc i).thread = none := by
    intro i user
    rw [of_decide_eq_true user]
    rfl
  have apart : ∀ i call, (k.proc i).thread = .forking call → call.np ≠ i := by
    intro i call thread
    have busy : (members k i).fork = some (call.np, decide (call.stage = .copied)) := by
      simp [members, member, thread, forkOf]
    exact inv.apart busy
  cases e with
  | run i =>
      simp only [act, Option.ite_none_right_eq_some, Option.some.injEq] at step
      obtain ⟨runnable, rfl⟩ := step
      exact switchTo_moves g runnable
  | yield i =>
      simp only [act] at step
      obtain ⟨running, _, rfl⟩ := onCpu_some step
      refine moves_stay g (members_set_same ?_) rfl
      simp [member, running, phase]
  | user i tf mem =>
      simp only [act] at step
      obtain ⟨_, _, rfl⟩ := onCpu_some step
      exact moves_stay g (members_set_same rfl) rfl
  | syscall i answers =>
      simp only [act] at step
      obtain ⟨running, user, rfl⟩ := onCpu_some step
      exact syscall_moves g answers (onCpuLive i running) (userIdle i user)
  | forkStack i found =>
      simp only [act] at step
      obtain ⟨call, thread, stage, rfl⟩ := inFork_some step
      exact forkStack_moves g (apart i call thread) thread stage found
  | forkCopy i found =>
      simp only [act] at step
      obtain ⟨call, thread, stage, rfl⟩ := inFork_some step
      exact forkCopy_moves g (apart i call thread) thread stage found
  | forkCommit i =>
      simp only [act] at step
      obtain ⟨call, thread, stage, rfl⟩ := inFork_some step
      exact forkCommit_moves g (apart i call thread) thread stage
  | sleep i chan =>
      simp only [act] at step
      obtain ⟨running, user, rfl⟩ := onCpu_some step
      refine moves_stay g (members_set_same ?_) rfl
      have idle := userIdle i user
      simp only [member, running, idle]
      rfl
  | wakeup chan =>
      cases Option.some.inj step
      exact moves_stay g (members_congr (member_blind.wakeup1 chan k.proc)) rfl
  | kill pid =>
      cases Option.some.inj step
      exact moves_stay g (members_congr (member_blind.kill pid k.proc)) rfl
  | killed i =>
      simp only [act] at step
      obtain ⟨running, allowed, rfl⟩ := onCpu_some step
      rw [Bool.and_eq_true] at allowed
      exact exit_moves g (onCpuLive i running) (userIdle i allowed.1)

/-! ## Every run -/

theorem tracked_inv (s : Kernel × Ledger) (e : Event) (next : Kernel × Ledger)
    (inv : Inv applyCall (members s.1) (book s.2)) (stepped : tracked s e = some next) :
    Inv applyCall (members next.1) (book next.2) := by
  obtain ⟨taken, step, rfl⟩ := Option.map_eq_some_iff.mp stepped
  exact (act_moves s.1 e taken s.2 inv (step_some step)).inv inv

theorem boot_inv : Inv applyCall (members boot) (book Ledger.start) := by
  have idle : ∀ i, (members boot i).fork = none := by
    intro i
    by_cases first : i = 0
    · subst first
      rfl
    · simp [members, boot, first, member, unused, forkOf]
  have clear : ∀ i, (members boot i).value = fun _ => 0 := by
    intro i
    by_cases first : i = 0
    · subst first
      rfl
    · simp [members, boot, first, member, unused]
  constructor
  case kept => exact fun i _ => clear i
  case busy =>
    intro i np copied forking
    rw [idle] at forking
    cases forking
  case owner =>
    intro i j np copied copied' forking
    rw [idle] at forking
    cases forking

theorem exec_keeps {k next : Kernel} {i : Slot} {answers : Answers} {eax : Word}
    (stepped : step k (.syscall i answers) = some (.returned i .sys_exec eax, next)) :
    (next.proc i).blocked_syscalls = (k.proc i).blocked_syscalls := by
  have taken := step_some stepped
  simp only [act] at taken
  obtain ⟨_, _, taken⟩ := onCpu_some taken
  simp only [Lifecycle.syscall] at taken
  split at taken
  · have named := handle_returned taken
    subst named
    cases taken
    have kept := sys_exec_member answers.image (k.proc i)
    simp only [member, Member.mk.injEq] at kept
    simpa [Kernel.set, result, setEax] using kept.2.1
  · cases taken

/-- In every run the blocked set of a live process is its parent's at the fork
that created it, changed by its own successful calls in order; a step of
anybody else leaves it alone, and so does its own exec. -/
theorem blocked_sets_isolated (es : List Event) (k : Kernel) (g : Ledger)
    (ran : run tracked (boot, Ledger.start) es = some (k, g)) :
    (∀ i, Live (k.proc i) →
      (k.proc i).blocked_syscalls = (g.calls i).foldl applyCall (g.inherited i)) ∧
    (∀ e note next i, step k e = some (note, next) → Live (k.proc i) → e.actor ≠ some i →
      (next.proc i).blocked_syscalls = (k.proc i).blocked_syscalls) ∧
    (∀ i answers eax next, step k (.syscall i answers) = some (.returned i .sys_exec eax, next) →
      (next.proc i).blocked_syscalls = (k.proc i).blocked_syscalls) := by
  have inv : Inv applyCall (members k) (book g) :=
    reachable_invariant tracked boot_inv tracked_inv ⟨es, ran⟩
  refine ⟨fun i live => inv.kept i live, fun e note next i stepped live other => ?_,
    fun i answers eax next stepped => exec_keeps stepped⟩
  exact (act_moves k e (note, next) g inv (step_some stepped)).other inv live other

/-- Answers that load, grow and change nothing. -/
def noAnswers (p : Proc) : Answers where
  beyond := fun _ => 0
  image := none
  grown := none
  other := 0
  mem := p.mem

/-- Registers for a system call with its argument at address 8. -/
def callFrame (call : Call) : TrapFrame := { eax := BitVec.ofInt 32 call.number, esp := 4 }

/-- init blocks sleep(), forks, and blocks read(); the child blocks write(). -/
def blockingRun : List Event :=
  [.run 0, .user 0 (callFrame .sys_block) (overlay (fun _ => 0) 8 (wordBytes 13)),
    .syscall 0 (noAnswers unused), .user 0 (callFrame .sys_fork) (fun _ => 0),
    .syscall 0 (noAnswers unused), .forkStack 0 true, .forkCopy 0 true, .forkCommit 0,
    .user 0 (callFrame .sys_block) (overlay (fun _ => 0) 8 (wordBytes 5)),
    .syscall 0 (noAnswers unused), .run 1,
    .user 1 (callFrame .sys_block) (overlay (fun _ => 0) 8 (wordBytes 16)),
    .syscall 1 (noAnswers unused)]

theorem blockingRun_completes : (run tracked (boot, Ledger.start) blockingRun).isSome = true := by
  decide +kernel

def blockingFinal : Kernel × Ledger :=
  (run tracked (boot, Ledger.start) blockingRun).get blockingRun_completes

theorem blocked_sets_isolated_blockingRun :
    (∀ i, Live (blockingFinal.1.proc i) → (blockingFinal.1.proc i).blocked_syscalls =
      (blockingFinal.2.calls i).foldl applyCall (blockingFinal.2.inherited i)) ∧
    (∀ e note next i, step blockingFinal.1 e = some (note, next) → Live (blockingFinal.1.proc i) →
      e.actor ≠ some i →
      (next.proc i).blocked_syscalls = (blockingFinal.1.proc i).blocked_syscalls) ∧
    (∀ i answers eax next,
      step blockingFinal.1 (.syscall i answers) = some (.returned i .sys_exec eax, next) →
      (next.proc i).blocked_syscalls = (blockingFinal.1.proc i).blocked_syscalls) :=
  blocked_sets_isolated blockingRun blockingFinal.1 blockingFinal.2
    (Option.some_get blockingRun_completes).symm

/-- The child has its parent's sleep() and its own write() blocked, not read(). -/
example : [13, 5, 16].map (blockingFinal.1.proc 1).blocked_syscalls = [1, 0, 1] := by
  decide +kernel

end Xv6.Public1.BlockSets
