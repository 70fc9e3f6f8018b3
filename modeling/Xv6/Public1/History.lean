import Xv6.Public1.Lifecycle

/-!
# The history log (xv6-public_1)

`hist_arr` is appended to by exit() and sorted in place by gethistory().  Along
every run its used part is a permutation of what the first `MAX_LIMIT` exits of
processes with a successful exec() left behind.
-/

set_option autoImplicit false

namespace Xv6.Public1.History

open Xv6.Lib
open Xv6.Lib.Runs
open Xv6.Lib.Words
open Xv6.Lib.CString
open Xv6.Machine
open Xv6.Public1.Syscall hiding syscall
open Xv6.Public1.BlockCalls hiding step
open Xv6.Public1.Process
open Xv6.Public1.Lifecycle

/-- What a record says. -/
def entry (h : Process.History) : Entry := ⟨h.pid, h.name.text, h.totalMemory⟩

/-! ## The log on its own -/

theorem Name.copy_text (dst src : Name) : (dst.copy src.bytes).text = src.text := by
  have short : (text src.bytes).length ≤ 15 := by
    have bound := text_length_lt src.ends
    rw [src.size] at bound
    omega
  rw [Name.text, Name.copy, safestrcpy_text _ _ 15 (by rw [dst.size]), Name.text]
  exact List.take_of_length_le short

theorem take_set_succ {α : Type} (xs : List α) (n : Nat) (x : α) (inside : n < xs.length) :
    (xs.set n x).take (n + 1) = xs.take n ++ [x] := by
  rw [List.take_add_one, List.take_set_of_le (Nat.le_refl n), List.getElem?_set_self inside]
  rfl

theorem append_unlogged (log : Log) (p : Proc) (off : p.check = 0) : log.append p = log := by
  rw [Log.append, dif_neg (fun room => room.2 off)]

theorem append_full (log : Log) (p : Proc) (full : ¬ log.hist_count < MAX_LIMIT) :
    log.append p = log := by
  rw [Log.append, dif_neg (fun room => full room.1)]

theorem append_logged (log : Log) (p : Proc) (room : log.hist_count < MAX_LIMIT)
    (on : p.check ≠ 0) :
    (log.append p).hist_count = log.hist_count + 1 ∧
      (log.append p).used.map entry = log.used.map entry ++ [entryOf p] := by
  rw [Log.append, dif_pos ⟨room, on⟩]
  refine ⟨rfl, ?_⟩
  rw [Log.used, take_set_succ _ _ _ (by rw [log.size]; exact room), List.map_append]
  simp only [List.map_cons, List.map_nil, entry, entryOf, Name.copy_text]
  rfl

theorem sort_used (log : Log) :
    log.sort.used.Perm log.used ∧ log.sort.used.Pairwise fun x y => x.pid ≤ y.pid := by
  have spec := BubbleSort.sort_spec Process.History.pid log.hist_count log.hist_arr (by
    rw [log.size]
    exact log.bound)
  exact ⟨spec.1, spec.2.2.1⟩

theorem bytes_length (h : Process.History) : h.bytes.length = 28 := by
  simp [Process.History.bytes, h.name.size]

theorem flatMap_bytes_length (hs : List Process.History) :
    (hs.flatMap Process.History.bytes).length = 28 * hs.length := by
  induction hs with
  | nil => rfl
  | cons h hs ih =>
      rw [List.flatMap_cons, List.length_append, bytes_length, ih, List.length_cons]
      omega

theorem used_bytes_length (log : Log) :
    (log.used.flatMap Process.History.bytes).length = 28 * log.hist_count := by
  rw [flatMap_bytes_length, Log.used, List.length_take, log.size, Nat.min_eq_left log.bound]

/-! ## gethistory() -/

/-- What a gethistory() that returns a count has done. -/
structure Told (log : Log) (p : Proc) (taken : Word × Proc × Log) (buf : Word) : Prop where
  asked : argptr p.toCaller 0 (28 * MAX_LIMIT) = some buf
  count : taken.1 = BitVec.ofNat 32 log.hist_count
  sorted : taken.2.2 = log.sort
  written : taken.2.1.mem = overlay p.mem buf (log.sort.used.flatMap Process.History.bytes)
  there : load taken.2.1.mem buf (28 * log.hist_count) =
    log.sort.used.flatMap Process.History.bytes

theorem sys_gethistory_told (log : Log) (p : Proc) (done : (sys_gethistory log p).1 ≠ -1) :
    ∃ buf, Told log p (sys_gethistory log p) buf := by
  unfold sys_gethistory at done ⊢
  cases asked : argptr p.toCaller 0 (28 * MAX_LIMIT) with
  | none =>
      rw [asked] at done
      exact absurd rfl done
  | some buf =>
      simp only [asked, gethistory_actual] at done ⊢
      have length := used_bytes_length log.sort
      have small : (log.sort.used.flatMap Process.History.bytes).length ≤ 2 ^ 32 := by
        have bound : log.hist_count ≤ 64 := log.bound
        have same : log.sort.hist_count = log.hist_count := rfl
        rw [length, same]
        omega
      have ok : (copyout ⟨p.mem, p.user⟩ buf
          (log.sort.used.flatMap Process.History.bytes)).1 = true := by
        by_contra failed
        rw [if_neg failed] at done
        exact done rfl
      have written := copyout_ok ⟨p.mem, p.user⟩ buf _ small ok
      refine ⟨buf, asked, by rw [if_pos ok]; rfl, rfl, written, ?_⟩
      dsimp only
      have loaded := load_overlay p.mem buf _ small
      rw [length] at loaded
      rw [written]
      exact loaded

/-! ## Steps that leave the log alone -/

/-- What exit() goes by when it writes a record. -/
def identity (p : Proc) : Entry × Int := (entryOf p, p.check)

theorem identity_blind : Blind identity where
  woken := fun _ _ => rfl
  parent := fun _ _ => rfl
  killed := fun _ _ => rfl

theorem check_update (proc : Slot → Proc) (i : Slot) (p : Proc) (same : p.check = (proc i).check)
    (j : Slot) : (Function.update proc i p j).check = (proc j).check :=
  Slots.update_observed Proc.check proc i p same j

/-- The log says of the exits so far what it should, and `check` tells whose
exit is to be logged. -/
structure Recorded (k : Kernel) (g : Ledger) : Prop where
  count : k.log.hist_count = min MAX_LIMIT g.exits.length
  records : (k.log.used.map entry).Perm (g.exits.take MAX_LIMIT)
  checks : ∀ i, (k.proc i).check ≠ 0 ↔ g.execd i = true

/-- A step that has nothing to do with the history. -/
structure Still (k : Kernel) (g : Ledger) (taken : Note × Kernel) : Prop where
  log : taken.2.log = k.log
  check : ∀ i, (taken.2.proc i).check = (k.proc i).check
  execd : (g.record k taken.1).execd = g.execd
  exits : (g.record k taken.1).exits = g.exits

theorem Still.recorded {k : Kernel} {g : Ledger} {taken : Note × Kernel} (still : Still k g taken)
    (recorded : Recorded k g) : Recorded taken.2 (g.record k taken.1) where
  count := by rw [still.log, still.exits]; exact recorded.count
  records := by rw [still.log, still.exits]; exact recorded.records
  checks := fun i => by rw [still.check, still.execd]; exact recorded.checks i

section Stills
variable {k : Kernel} {i : Slot} {g : Ledger}

/-- A silent store into the process that moves. -/
theorem set_still (p : Proc) (same : p.check = (k.proc i).check) :
    Still k g (.silent, k.set i p) :=
  ⟨rfl, check_update k.proc i p same, rfl, rfl⟩

theorem wait_still : Still k g (wait k i) := by
  have woken : ∀ eax, (result eax (setThread .user (k.proc i))).check = (k.proc i).check :=
    fun _ => rfl
  unfold wait
  cases zombieChild k.proc i with
  | some j =>
      refine ⟨rfl, fun l => ?_, rfl, rfl⟩
      refine (check_update _ j _ ?_ l).trans (check_update k.proc i _ (woken _) l)
      rfl
  | none =>
      dsimp only
      split
      · exact ⟨rfl, check_update k.proc i _ (woken _), rfl, rfl⟩
      · refine ⟨rfl, check_update k.proc i _ ?_, rfl, rfl⟩
        rfl

theorem switchTo_still : Still k g (switchTo k i) := by
  unfold switchTo
  cases thread : (k.proc i).thread with
  | user =>
      simp only [thread]
      refine set_still _ ?_
      rfl
  | forking call =>
      simp only [thread]
      refine set_still _ ?_
      rfl
  | asleep =>
      simp only [thread]
      refine set_still _ ?_
      rfl
  | waiting =>
      simp only [thread]
      generalize entry : ({ k.proc i with
        state := .RUNNING, chan := none, thread := .waiting } : Proc) = p
      have same : p.check = (k.proc i).check := by rw [← entry]
      have waited := wait_still (k := k.set i p) (i := i) (g := g)
      refine ⟨waited.log, fun j => ?_, by rw [record_wait], by rw [record_wait]⟩
      exact (waited.check j).trans (check_update k.proc i p same j)

/-- The stores at the end of a stretch of fork(). -/
theorem fork_still (call : ForkCall) (child parent : Proc) (note : Note)
    (kid : child.check = (k.proc call.np).check)
    (self : parent.check = ((k.set call.np child).proc i).check)
    (execd : (g.record k note).execd = g.execd) (exits : (g.record k note).exits = g.exits) :
    Still k g (note, (k.set call.np child).set i parent) := by
  refine ⟨rfl, fun j => ?_, execd, exits⟩
  exact (check_update _ i parent self j).trans (check_update k.proc call.np child kid j)

theorem forkFail_still (call : ForkCall) : Still k g (forkFail k i call) := by
  unfold forkFail
  refine fork_still call _ _ _ ?_ ?_ rfl rfl
  · rfl
  · rfl

theorem forkStack_still (found : Bool) (call : ForkCall) :
    Still k g (forkStack found k i call) := by
  unfold forkStack
  split
  · refine set_still _ ?_
    rfl
  · exact forkFail_still call

theorem forkCopy_still (found : Bool) (call : ForkCall) :
    Still k g (forkCopy found k i call) := by
  unfold forkCopy
  split
  · refine fork_still call _ _ _ ?_ ?_ rfl rfl
    · rfl
    · rfl
  · exact forkFail_still call

theorem forkCommit_still (call : ForkCall) : Still k g (forkCommit k i call) := by
  unfold forkCommit
  refine fork_still call _ _ _ ?_ ?_ rfl rfl
  · rfl
  · rfl

theorem ownCall_still (call : Call) (called : Word × Proc)
    (same : called.2.check = (k.proc i).check)
    (execd : (g.record k (.returned i call called.1)).execd = g.execd)
    (exits : (g.record k (.returned i call called.1)).exits = g.exits) :
    Still k g (ownCall k i call called) :=
  ⟨rfl, check_update k.proc i _ same, execd, exits⟩

end Stills

/-! ## Steps that do not -/

theorem forkBegin_recorded {k : Kernel} {g : Ledger} (recorded : Recorded k g) (i : Slot) :
    Recorded (forkBegin k i).2 (g.record k (forkBegin k i).1) := by
  unfold forkBegin
  cases found : findUnused k.proc with
  | none =>
      have still : Still k g (.returned i .sys_fork (-1), k.set i (result (-1) (k.proc i))) := by
        refine ⟨rfl, check_update k.proc i _ ?_, rfl, rfl⟩
        rfl
      exact still.recorded recorded
  | some np =>
      refine ⟨recorded.count, recorded.records, fun j => ?_⟩
      dsimp only [Ledger.record, Kernel.set]
      rw [check_update _ i _ (by rfl) j]
      by_cases here : j = np
      · subst here
        simp [embryo]
      · rw [Function.update_of_ne here, Function.update_of_ne here]
        exact recorded.checks j

theorem take_concat {α : Type} (xs : List α) (n : Nat) (x : α) :
    (xs ++ [x]).take n = if xs.length < n then xs.take n ++ [x] else xs.take n := by
  split
  · rename_i room
    have whole : (xs ++ [x]).length ≤ n := by
      rw [List.length_append, List.length_singleton]
      exact room
    rw [List.take_of_length_le whole, List.take_of_length_le (Nat.le_of_lt room)]
  · rename_i full
    exact List.take_append_of_le_length (Nat.not_lt.mp full)

theorem exit_recorded {k : Kernel} {g : Ledger} (recorded : Recorded k g) (i : Slot) :
    Recorded (exit k i).2 (g.record k (exit k i).1) := by
  unfold exit
  split
  · exact ⟨recorded.count, recorded.records, recorded.checks⟩
  · have told := identity_blind.exitNotify k i i
    simp only [identity, Prod.mk.injEq] at told
    obtain ⟨same, check⟩ := told
    have checks : ∀ j, (Function.update (exitNotify k i) i
        { exitNotify k i i with state := .ZOMBIE } j).check = (k.proc j).check := by
      intro j
      refine (check_update _ i _ ?_ j).trans (congrArg Prod.snd (identity_blind.exitNotify k i j))
      rfl
    by_cases logged : g.execd i = true
    · have on : (exitNotify k i i).check ≠ 0 := by
        rw [check]
        exact (recorded.checks i).mpr logged
      have ledger : g.record k (.exits i) =
          { g with exits := g.exits ++ [entryOf (k.proc i)] } := by
        simp only [Ledger.record, logged, if_true]
      dsimp only
      rw [ledger]
      by_cases room : k.log.hist_count < MAX_LIMIT
      · obtain ⟨count, records⟩ := append_logged k.log (exitNotify k i i) room on
        have short : g.exits.length < MAX_LIMIT := by
          have counted := recorded.count
          omega
        refine ⟨?_, ?_, fun j => ?_⟩
        · have counted := recorded.count
          simp only [count, List.length_append, List.length_singleton]
          omega
        · simp only [records, take_concat, short, if_true, same]
          exact recorded.records.append_right _
        · rw [checks]
          exact recorded.checks j
      · have full : ¬ g.exits.length < MAX_LIMIT := by
          have counted := recorded.count
          have bound := k.log.bound
          omega
        refine ⟨?_, ?_, fun j => ?_⟩
        · have counted := recorded.count
          simp only [append_full _ _ room, List.length_append, List.length_singleton]
          omega
        · simp only [append_full _ _ room, take_concat, full, if_false]
          exact recorded.records
        · rw [checks]
          exact recorded.checks j
    · have off : (exitNotify k i i).check = 0 := by
        rw [check]
        by_contra on
        exact logged ((recorded.checks i).mp on)
      have ledger : g.record k (.exits i) = g := by
        rw [Ledger.record, if_neg logged]
      dsimp only
      rw [ledger, append_unlogged _ _ off]
      refine ⟨recorded.count, recorded.records, fun j => ?_⟩
      rw [checks]
      exact recorded.checks j

theorem exec_recorded {k : Kernel} {g : Ledger} (recorded : Recorded k g) (i : Slot)
    (image : Option Image) :
    Recorded (ownCall k i .sys_exec (sys_exec image (k.proc i))).2
      (g.record k (ownCall k i .sys_exec (sys_exec image (k.proc i))).1) := by
  have refused : Recorded (ownCall k i .sys_exec (-1, k.proc i)).2
      (g.record k (ownCall k i .sys_exec (-1, k.proc i)).1) := by
    have still : Still k g (ownCall k i .sys_exec (-1, k.proc i)) := ownCall_still _ _ rfl rfl rfl
    exact still.recorded recorded
  unfold sys_exec
  split
  · refine ⟨recorded.count, recorded.records, fun j => ?_⟩
    dsimp only [ownCall, Kernel.set, Ledger.record]
    simp only [if_true]
    by_cases here : j = i
    · subst here
      rw [Function.update_self, Function.update_self]
      simp [result, exec]
    · rw [Function.update_of_ne here, Function.update_of_ne here]
      exact recorded.checks j
  · exact refused

theorem gethistory_recorded {k : Kernel} {g : Ledger} (recorded : Recorded k g) (i : Slot) :
    Recorded
      (ownCall { k with log := (sys_gethistory k.log (k.proc i)).2.2 } i .sys_gethistory
        ((sys_gethistory k.log (k.proc i)).1, (sys_gethistory k.log (k.proc i)).2.1)).2 g := by
  have check : (sys_gethistory k.log (k.proc i)).2.1.check = (k.proc i).check := by
    unfold sys_gethistory
    split <;> rfl
  have log : (sys_gethistory k.log (k.proc i)).2.2 = k.log ∨
      (sys_gethistory k.log (k.proc i)).2.2 = k.log.sort := by
    unfold sys_gethistory
    split
    · exact Or.inl rfl
    · exact Or.inr rfl
  have checks : ∀ j, (Function.update k.proc i (result (sys_gethistory k.log (k.proc i)).1
      (sys_gethistory k.log (k.proc i)).2.1) j).check = (k.proc j).check :=
    check_update k.proc i _ check
  constructor
  case count =>
    dsimp only [ownCall, Kernel.set]
    rcases log with kept | sorted
    · rw [kept]
      exact recorded.count
    · rw [sorted]
      exact recorded.count
  case records =>
    dsimp only [ownCall, Kernel.set]
    rcases log with kept | sorted
    · rw [kept]
      exact recorded.records
    · rw [sorted]
      exact ((sort_used k.log).1.map entry).trans recorded.records
  case checks =>
    intro j
    dsimp only [ownCall, Kernel.set]
    rw [checks]
    exact recorded.checks j

theorem handle_recorded {k : Kernel} {g : Ledger} (recorded : Recorded k g) (i : Slot)
    (answers : Answers) (call : Call) :
    Recorded (handle answers k i call).2 (g.record k (handle answers k i call).1) := by
  have other : ∀ (call : Call) (called : Word × Proc),
      called.2.check = (k.proc i).check →
      (g.record k (.returned i call called.1)).execd = g.execd →
      (g.record k (.returned i call called.1)).exits = g.exits →
      Recorded (ownCall k i call called).2 (g.record k (ownCall k i call called).1) :=
    fun call called same execd exits =>
      (ownCall_still call called same execd exits).recorded recorded
  cases call with
  | sys_fork => exact forkBegin_recorded recorded i
  | sys_exit => exact exit_recorded recorded i
  | sys_wait => exact wait_still.recorded recorded
  | sys_exec => exact exec_recorded recorded i answers.image
  | sys_gethistory => exact gethistory_recorded recorded i
  | sys_sbrk =>
      refine other .sys_sbrk _ ?_ rfl rfl
      unfold sys_sbrk
      split <;> rfl
  | sys_block =>
      refine other .sys_block _ rfl ?_ ?_
      · simp only [Ledger.record, Ledger.call]
        split
        · split <;> rfl
        · rfl
      · simp only [Ledger.record, Ledger.call]
        split
        · split <;> rfl
        · rfl
  | sys_unblock =>
      refine other .sys_unblock _ rfl ?_ ?_
      · simp only [Ledger.record, Ledger.call]
        split
        · split <;> rfl
        · rfl
      · simp only [Ledger.record, Ledger.call]
        split
        · split <;> rfl
        · rfl
  | _ => exact other _ _ rfl rfl rfl

theorem act_recorded {k : Kernel} {g : Ledger} (recorded : Recorded k g) (e : Event)
    (taken : Note × Kernel) (stepped : act k e = some taken) :
    Recorded taken.2 (g.record k taken.1) := by
  cases e with
  | run i =>
      simp only [act, Option.ite_none_right_eq_some, Option.some.injEq] at stepped
      obtain ⟨_, rfl⟩ := stepped
      exact switchTo_still.recorded recorded
  | yield i =>
      simp only [act] at stepped
      obtain ⟨_, _, rfl⟩ := onCpu_some stepped
      exact (set_still (g := g) { k.proc i with state := .RUNNABLE } rfl).recorded recorded
  | user i tf mem =>
      simp only [act] at stepped
      obtain ⟨_, _, rfl⟩ := onCpu_some stepped
      exact (set_still (g := g) { k.proc i with tf := tf, mem := mem } rfl).recorded recorded
  | syscall i answers =>
      simp only [act] at stepped
      obtain ⟨_, _, rfl⟩ := onCpu_some stepped
      unfold Lifecycle.syscall
      split
      · exact handle_recorded recorded i answers _
      · exact (set_still (g := g) (result (-1) (k.proc i)) rfl).recorded recorded
  | forkStack i found =>
      simp only [act] at stepped
      obtain ⟨call, _, _, rfl⟩ := inFork_some stepped
      exact (forkStack_still found call).recorded recorded
  | forkCopy i found =>
      simp only [act] at stepped
      obtain ⟨call, _, _, rfl⟩ := inFork_some stepped
      exact (forkCopy_still found call).recorded recorded
  | forkCommit i =>
      simp only [act] at stepped
      obtain ⟨call, _, _, rfl⟩ := inFork_some stepped
      exact (forkCommit_still call).recorded recorded
  | sleep i chan =>
      simp only [act] at stepped
      obtain ⟨_, _, rfl⟩ := onCpu_some stepped
      refine (set_still (g := g) _ ?_).recorded recorded
      rfl
  | wakeup chan =>
      cases Option.some.inj stepped
      have still : Still k g (.silent, { k with proc := wakeup1 chan k.proc }) :=
        ⟨rfl, fun i => congrArg Prod.snd (identity_blind.wakeup1 chan k.proc i), rfl, rfl⟩
      exact still.recorded recorded
  | kill pid =>
      cases Option.some.inj stepped
      have still : Still k g (.silent, { k with proc := kill pid k.proc }) :=
        ⟨rfl, fun i => congrArg Prod.snd (identity_blind.kill pid k.proc i), rfl, rfl⟩
      exact still.recorded recorded
  | killed i =>
      simp only [act] at stepped
      obtain ⟨_, _, rfl⟩ := onCpu_some stepped
      exact exit_recorded recorded i

theorem tracked_recorded (s : Kernel × Ledger) (e : Event) (next : Kernel × Ledger)
    (recorded : Recorded s.1 s.2) (stepped : tracked s e = some next) :
    Recorded next.1 next.2 := by
  obtain ⟨taken, step, rfl⟩ := Option.map_eq_some_iff.mp stepped
  exact act_recorded recorded e taken (step_some step)

theorem boot_recorded : Recorded boot Ledger.start where
  count := rfl
  records := .refl _
  checks := by
    intro i
    by_cases first : i = 0
    · subst first
      simp [boot, userinit, unused, Ledger.start]
    · simp [boot, first, unused, Ledger.start]

/-! ## Every run -/

/-- `hist_arr[0..hist_count)` holds the first `MAX_LIMIT` of these exits, each
once. -/
structure Holds (log : Log) (exits : List Entry) : Prop where
  count : log.hist_count = min MAX_LIMIT exits.length
  records : (log.used.map entry).Perm (exits.take MAX_LIMIT)

theorem gethistory_returned {k next : Kernel} {i : Slot} {answers : Answers} {eax : Word}
    (stepped : step k (.syscall i answers) = some (.returned i .sys_gethistory eax, next))
    (done : eax ≠ -1) : ∃ buf, Told k.log (k.proc i) (eax, next.proc i, next.log) buf := by
  have taken := step_some stepped
  simp only [act] at taken
  obtain ⟨_, _, taken⟩ := onCpu_some taken
  simp only [Lifecycle.syscall] at taken
  split at taken
  · have named := handle_returned taken
    subst named
    cases taken
    obtain ⟨buf, told⟩ := sys_gethistory_told k.log (k.proc i) done
    have mem : ((k.set i (result (sys_gethistory k.log (k.proc i)).1
        (sys_gethistory k.log (k.proc i)).2.1)).proc i).mem =
        (sys_gethistory k.log (k.proc i)).2.1.mem := by
      simp [Kernel.set, result, setEax]
    refine ⟨buf, told.asked, told.count, told.sorted, mem.trans told.written, ?_⟩
    refine Eq.trans ?_ told.there
    exact congrArg (load · buf (28 * k.log.hist_count)) mem
  · cases taken

/-- In every run the log holds the first `MAX_LIMIT` exits of processes with a
successful exec() in their life, and a gethistory() that returns a count returns
that of the log and copies out just its records, sorted by pid. -/
theorem history_log (es : List Event) (k : Kernel) (g : Ledger)
    (ran : run tracked (boot, Ledger.start) es = some (k, g)) :
    Holds k.log g.exits ∧
    ∀ i answers eax next,
      step k (.syscall i answers) = some (.returned i .sys_gethistory eax, next) → eax ≠ -1 →
      (∃ buf, Told k.log (k.proc i) (eax, next.proc i, next.log) buf) ∧
        Holds next.log g.exits ∧ next.log.used.Pairwise fun x y => x.pid ≤ y.pid := by
  have recorded : Recorded k g := reachable_invariant tracked boot_recorded tracked_recorded
    ⟨es, ran⟩
  refine ⟨⟨recorded.count, recorded.records⟩, fun i answers eax next stepped done => ?_⟩
  obtain ⟨buf, told⟩ := gethistory_returned stepped done
  have sorted : next.log = k.log.sort := told.sorted
  obtain ⟨perm, ordered⟩ := sort_used k.log
  refine ⟨⟨buf, told⟩, ⟨?_, ?_⟩, ?_⟩
  · rw [sorted]
    exact recorded.count
  · rw [sorted]
    exact (perm.map entry).trans recorded.records
  · rw [sorted]
    exact ordered

/-- An image with one page of memory. -/
def smallImage : Image where
  sz := 4096
  entry := 0
  sp := 4096
  space := ⟨fun _ => 0, fun page => decide (page = 0)⟩

/-- The process makes a system call with these bytes from its argument on. -/
def trap (i : Slot) (call : Call) (args : List Byte) (image : Option Image) : List Event :=
  let mem := overlay (fun _ => 0) 8 args
  [.user i { eax := BitVec.ofInt 32 call.number, esp := 4 } mem,
    .syscall i ⟨fun _ => 0, image, none, 0, mem⟩]

def forkWhole (i : Slot) : List Event :=
  trap i .sys_fork [] none ++ [.forkStack i true, .forkCopy i true, .forkCommit i]

/-- init forks twice; the second child goes first, both call exec(), and init is
about to ask for the history. -/
def historyRun : List Event :=
  [.run 0] ++ forkWhole 0 ++ forkWhole 0 ++
    [.run 2] ++ trap 2 .sys_exec (wordBytes 12 ++ bytes "/ls") (some smallImage) ++
    trap 2 .sys_exit [] none ++
    [.run 1] ++ trap 1 .sys_exec (wordBytes 12 ++ bytes "sh") (some smallImage) ++
    trap 1 .sys_exit [] none ++
    (trap 0 .sys_gethistory (wordBytes 16) none).take 1

theorem historyRun_completes : (run tracked (boot, Ledger.start) historyRun).isSome = true := by
  decide +kernel

def historyFinal : Kernel × Ledger :=
  (run tracked (boot, Ledger.start) historyRun).get historyRun_completes

def noChange : Answers := ⟨fun _ => 0, none, none, 0, fun _ => 0⟩

theorem asks_completes : (step historyFinal.1 (.syscall 0 noChange)).isSome = true := by
  decide +kernel

def historyAsked : Note × Kernel :=
  (step historyFinal.1 (.syscall 0 noChange)).get asks_completes

theorem historyAsked_note : historyAsked.1 = .returned 0 .sys_gethistory 2 := by
  decide +kernel

theorem history_log_historyRun :
    Holds historyFinal.1.log historyFinal.2.exits ∧
    (∃ buf, Told historyFinal.1.log (historyFinal.1.proc 0)
      (2, historyAsked.2.proc 0, historyAsked.2.log) buf) ∧
    Holds historyAsked.2.log historyFinal.2.exits ∧
    historyAsked.2.log.used.Pairwise fun x y => x.pid ≤ y.pid := by
  obtain ⟨held, asks⟩ := history_log historyRun historyFinal.1 historyFinal.2
    (Option.some_get historyRun_completes).symm
  have stepped : step historyFinal.1 (.syscall 0 noChange) =
      some (.returned 0 .sys_gethistory 2, historyAsked.2) := by
    rw [← historyAsked_note]
    exact (Option.some_get asks_completes).symm
  exact ⟨held, asks 0 noChange 2 historyAsked.2 stepped (by decide)⟩

/-- The second child exits first and is told second. -/
example : historyFinal.2.exits = [⟨3, bytes "ls", 4096⟩, ⟨2, bytes "sh", 4096⟩] ∧
    historyAsked.2.log.used.map entry = [⟨2, bytes "sh", 4096⟩, ⟨3, bytes "ls", 4096⟩] := by
  decide +kernel

end Xv6.Public1.History
