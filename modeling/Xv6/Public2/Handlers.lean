import Xv6.Public2.Changes

/-!
# Signal handlers (xv6-public_2)

exec() on top of the process kernel, with the history of who registered which
address: `registered` is what the process in a slot has passed to sys_signal()
since it was created and since its last exec().  Neither allocproc() nor exec()
clears `signal_handler`.
-/

set_option autoImplicit false

namespace Xv6.Public2.Handlers

open Xv6.Lib.Runs
open Xv6.Lib.Words
open Xv6.Public2.Signals
open Xv6.Public2.ProcTable
open Xv6.Public2.Kernel (zeroed userinit forkBegin step_some onCpu_some ownStore_some)
open Xv6.Public2.Changes

inductive Event where
  | kernel (e : Kernel.Event)
  /-- An exec() that succeeds, with the new page directory, the entry point and the
  stack pointer; one that fails changes nothing. -/
  | exec (c : Cpu) (pgdir : Page) (entry sp : Word)

/-- "Commit to the user image" of exec(). -/
def exec (pgdir : Page) (entry sp : Word) (p : Proc) : Proc :=
  { p with pgdir := some pgdir, tf := { p.tf with eip := entry, esp := sp } }

def act (k : ProcTable.Kernel) : Event → Option ProcTable.Kernel
  | .kernel e => Kernel.step k e
  | .exec c pgdir entry sp =>
      if k.panic = none then Kernel.ownStore k c Kernel.inUser (exec pgdir entry sp) else none

structure State where
  kernel : ProcTable.Kernel
  registered : Slot → Option Word

def registeredAfter (k : ProcTable.Kernel) (registered : Slot → Option Word) :
    Event → Slot → Option Word
  | .kernel (.fork _ _) =>
      match findUnused k.proc with
      | none => registered
      | some np => Function.update registered np none
  | .kernel (.signal c (some handler)) =>
      match k.cpu c with
      | none => registered
      | some cur => Function.update registered cur (some handler)
  | .exec c _ _ _ =>
      match k.cpu c with
      | none => registered
      | some cur => Function.update registered cur none
  | _ => registered

def step (s : State) (e : Event) : Option State :=
  match act s.kernel e with
  | none => none
  | some kernel => some ⟨kernel, registeredAfter s.kernel s.registered e⟩

def boot : State := ⟨Kernel.boot, fun _ => none⟩

/-! ## The property -/

/-- The handler in the slot is none, or the one that its process has registered. -/
def Valid (s : State) (i : Slot) : Prop :=
  (s.kernel.proc i).signal_handler ≠ 0 →
    s.registered i = some (s.kernel.proc i).signal_handler

/-- There is a process in the slot. -/
def Occupied (k : ProcTable.Kernel) (i : Slot) : Prop :=
  (k.proc i).state ≠ .UNUSED ∨ ∃ c, k.cpu c = some i

def HandlersValid (s : State) : Prop := ∀ i, Occupied s.kernel i → Valid s i

/-- The CPU on which trap() delivers a signal. -/
def delivers : Event → Option Cpu
  | .kernel (.deliver c _) => some c
  | _ => none

/-- trap() sends a process to an address that it has registered. -/
def DeliversOwn (s : State) (e : Event) (next : State) : Prop :=
  ∀ c ∈ delivers e, ∀ cur ∈ s.kernel.cpu c,
    s.registered cur = some (next.kernel.proc cur).tf.eip

def isFork : Kernel.Event → Bool
  | .fork _ _ => true
  | _ => false

/-- fork() and custom_fork() find a slot without a handler, and exec() is called without
one. -/
def HandlerSafe (s : State) : Event → Prop
  | .kernel e =>
      isFork e = true → ∀ np ∈ findUnused s.kernel.proc, (s.kernel.proc np).signal_handler = 0
  | .exec c _ _ _ => ∀ cur ∈ s.kernel.cpu c, (s.kernel.proc cur).signal_handler = 0

instance (s : State) (e : Event) : Decidable (HandlerSafe s e) :=
  match e with
  | .kernel e => inferInstanceAs (Decidable (isFork e = true →
      ∀ np ∈ findUnused s.kernel.proc, (s.kernel.proc np).signal_handler = 0))
  | .exec c _ _ _ => inferInstanceAs (Decidable
      (∀ cur ∈ s.kernel.cpu c, (s.kernel.proc cur).signal_handler = 0))

/-! ## Steps -/

/-- Only sys_signal() writes the handler. -/
theorem handler_change {k : ProcTable.Kernel} {e : Kernel.Event} {i : Slot} {p p' : Proc}
    (notSignal : ∀ c handler, e ≠ .signal c handler) (change : Change k e i p p') :
    p'.signal_handler = p.signal_handler := by
  cases change with
  | signal => exact absurd rfl (notSignal _ _)
  | count | start | resleep | yield | sleep | waitSleep | reap | thread | finish | hand | die
  | wake | allocate | kill | release | ctrlG | ctrlC | mark | shell | foreground
  | background => rfl
  | deliver => rfl
  | sigreturn =>
      unfold Kernel.setSig sys_sigreturn
      dsimp only
      split
      all_goals rfl
  | sigretFault =>
      have kept : ((restoreOnFault p.toSigState).getD p.toSigState).signal_handler =
          p.signal_handler := by
        unfold restoreOnFault
        cases p.saved_tf
        all_goals rfl
      exact kept
  | resume =>
      unfold resume
      split
      all_goals rfl
  | stack page =>
      cases page
      all_goals rfl
  | @copy _ _ _ call _ page =>
      cases page with
      | none => rfl
      | some page =>
          unfold copyProcess
          dsimp only
          split
          all_goals rfl
  | @commit _ _ _ call =>
      unfold commitProcess
      split
      · rfl
      · split
        all_goals rfl

theorem handler_step {k next : ProcTable.Kernel} {e : Kernel.Event}
    (notSignal : ∀ c handler, e ≠ .signal c handler) (taken : Kernel.step k e = some next)
    (i : Slot) : (next.proc i).signal_handler = (k.proc i).signal_handler := by
  have chain := step_chained taken i
  generalize next.proc i = p at chain
  induction chain with
  | refl => rfl
  | tail _ change ih => exact (handler_change notSignal change).trans ih

theorem step_acts {s next : State} {e : Event} (taken : step s e = some next) :
    act s.kernel e = some next.kernel ∧
      next.registered = registeredAfter s.kernel s.registered e := by
  unfold step at taken
  cases acted : act s.kernel e with
  | none => simp [acted] at taken
  | some kernel =>
      simp only [acted, Option.some.injEq] at taken
      subst taken
      exact ⟨rfl, rfl⟩

theorem act_exec {k next : ProcTable.Kernel} {c : Cpu} {pgdir : Page} {entry sp : Word}
    (acted : act k (.exec c pgdir entry sp) = some next) :
    ∃ cur, k.cpu c = some cur ∧ k.set cur (exec pgdir entry sp (k.proc cur)) = next := by
  simp only [act, Option.ite_none_right_eq_some] at acted
  obtain ⟨cur, current, _, stored⟩ := ownStore_some acted.2
  exact ⟨cur, current, stored⟩

theorem exec_handler (k : ProcTable.Kernel) (cur : Slot) (pgdir : Page) (entry sp : Word)
    (i : Slot) :
    ((k.set cur (exec pgdir entry sp (k.proc cur))).proc i).signal_handler =
      (k.proc i).signal_handler := by
  by_cases here : i = cur
  · subst here
    rw [Kernel.set_same]
    rfl
  · rw [Kernel.set_other _ _ here]

/-! ## The invariant -/

/-- The slots of ended processes count too: a handler can stay there. -/
def Inv (s : State) : Prop := ∀ i, Valid s i

theorem valid_same {s next : State} {i : Slot} (valid : Valid s i)
    (handler : (next.kernel.proc i).signal_handler = (s.kernel.proc i).signal_handler)
    (registered : next.registered i = s.registered i) : Valid next i := by
  unfold Valid
  rw [handler, registered]
  exact valid

/-- What a new process or a new image makes of the history of its slot. -/
theorem valid_cleared {s next : State} {cur i : Slot} (valid : Valid s i)
    (handler : (next.kernel.proc i).signal_handler = (s.kernel.proc i).signal_handler)
    (registered : next.registered = Function.update s.registered cur none)
    (clean : (s.kernel.proc cur).signal_handler = 0) : Valid next i := by
  by_cases here : i = cur
  · subst here
    intro nonzero
    rw [handler] at nonzero
    exact absurd clean nonzero
  · exact valid_same valid handler (by rw [registered, Function.update_of_ne here])

theorem kernel_kept {s next : State} {e : Kernel.Event} (valid : Inv s)
    (safe : HandlerSafe s (.kernel e)) (taken : step s (.kernel e) = some next) : Inv next := by
  obtain ⟨moved, registered⟩ := step_acts taken
  simp only [act] at moved
  intro i
  cases e with
  | signal c handler =>
      obtain ⟨_, moved⟩ := step_some moved
      simp only [Kernel.act] at moved
      obtain ⟨cur, current, _, stored⟩ := ownStore_some moved
      cases handler with
      | none =>
          refine valid_same (valid i) ?_ (congrFun registered i)
          rw [← stored]
          by_cases here : i = cur
          · subst here
            rw [Kernel.set_same]
            rfl
          · rw [Kernel.set_other _ _ here]
      | some handler =>
          simp only [registeredAfter, current] at registered
          by_cases here : i = cur
          · subst here
            intro _
            rw [registered, Function.update_self, ← stored, Kernel.set_same]
            rfl
          · refine valid_same (valid i) ?_ (by rw [registered, Function.update_of_ne here])
            rw [← stored, Kernel.set_other _ _ here]
  | fork c custom =>
      have handler := handler_step (fun _ _ same => by cases same) moved i
      cases found : findUnused s.kernel.proc with
      | none =>
          simp only [registeredAfter, found] at registered
          exact valid_same (valid i) handler (congrFun registered i)
      | some np =>
          simp only [registeredAfter, found] at registered
          exact valid_cleared (valid i) handler registered (safe rfl np found)
  | schedule | tick | yield | forkStack | forkCopy | forkCommit | exit | wait | sleep | wakeup
  | kill | schedulerStart | sigreturn | sigretFault | deliver | ctrlC | ctrlB | ctrlBWake | ctrlF
  | ctrlG =>
      exact valid_same (valid i) (handler_step (fun _ _ same => by cases same) moved i)
        (congrFun registered i)

theorem inv_kept (s : State) (e : Event) (next : State) (valid : Inv s) (safe : HandlerSafe s e)
    (taken : step s e = some next) : Inv next := by
  cases e with
  | kernel e => exact kernel_kept valid safe taken
  | exec c pgdir entry sp =>
      obtain ⟨acted, registered⟩ := step_acts taken
      obtain ⟨cur, current, stored⟩ := act_exec acted
      simp only [registeredAfter, current] at registered
      intro i
      refine valid_cleared (valid i) ?_ registered (safe cur current)
      rw [← stored]
      exact exec_handler s.kernel cur pgdir entry sp i

/-- The child of a fork() is in the slot that was found. -/
theorem fork_occupied {k next : ProcTable.Kernel} {c : Cpu} {custom : Option (Int × Int)}
    {np : Slot} (found : findUnused k.proc = some np)
    (taken : Kernel.step k (.fork c custom) = some next) : (next.proc np).state = .EMBRYO := by
  obtain ⟨_, taken⟩ := step_some taken
  simp only [Kernel.act] at taken
  obtain ⟨cur, _, _, rfl⟩ := onCpu_some taken
  simp only [forkBegin, found]
  by_cases here : np = cur
  · subst here
    simp [allocproc, setThread, embryo]
  · rw [Kernel.set_other _ _ here]
    simp [allocproc, embryo]

theorem safe_of_good (s : State) (e : Event) (next : State) (_ : Inv s)
    (taken : step s e = some next) (good : HandlersValid next) : HandlerSafe s e := by
  cases e with
  | kernel e =>
      intro forks np found
      cases e with
      | fork c custom =>
          obtain ⟨moved, registered⟩ := step_acts taken
          simp only [act] at moved
          simp only [registeredAfter, Option.mem_def.mp found] at registered
          have handler := handler_step (fun _ _ same => by cases same) moved np
          have occupied := fork_occupied (Option.mem_def.mp found) moved
          by_contra nonzero
          rw [← handler] at nonzero
          have own := good np (Or.inl (by simp [occupied])) nonzero
          simp [registered] at own
      | schedule | tick | yield | forkStack | forkCopy | forkCommit | exit | wait | sleep | wakeup
      | kill | schedulerStart | signal | sigreturn | sigretFault | deliver | ctrlC | ctrlB
      | ctrlBWake | ctrlF | ctrlG => cases forks
  | exec c pgdir entry sp =>
      intro cur found
      obtain ⟨acted, registered⟩ := step_acts taken
      obtain ⟨cur', current, stored⟩ := act_exec acted
      cases Option.some.inj (current.symm.trans (Option.mem_def.mp found))
      simp only [registeredAfter, current] at registered
      have handler := exec_handler s.kernel cur pgdir entry sp cur
      rw [stored] at handler
      by_contra nonzero
      rw [← handler] at nonzero
      have cpu : next.kernel.cpu c = some cur := by
        rw [← stored]
        exact current
      have own := good cur (Or.inr ⟨c, cpu⟩) nonzero
      simp [registered] at own

theorem delivers_own (s : State) (e : Event) (next : State) (valid : Inv s)
    (taken : step s e = some next) : DeliversOwn s e next := by
  intro c at_ cur current
  unfold delivers at at_
  split at at_
  · rename_i c' kalloc
    cases at_
    obtain ⟨moved, _⟩ := step_acts taken
    simp only [act] at moved
    obtain ⟨_, moved⟩ := step_some moved
    simp only [Kernel.act] at moved
    obtain ⟨cur', current', wants, stored⟩ := ownStore_some moved
    cases Option.some.inj (current'.symm.trans (Option.mem_def.mp current))
    have nonzero : (s.kernel.proc cur).signal_handler ≠ 0 := by
      simp only [wantsDelivery, Bool.and_eq_true, decide_eq_true_eq] at wants
      exact wants.2
    rw [← stored, Kernel.set_same]
    exact valid cur nonzero
  · cases at_

theorem boot_valid : Inv boot := by
  intro i nonzero
  refine absurd ?_ nonzero
  show ((zeroed.set zeroed.initproc userinit).proc i).signal_handler = 0
  by_cases here : i = zeroed.initproc
  · subst here
    rw [Kernel.set_same]
    rfl
  · rw [Kernel.set_other _ _ here]
    rfl

/-- In a run every handler is its process's own, and trap() uses no other, exactly when no
call hands a handler on to another process or image. -/
theorem handlers_valid_iff (es : List Event) (final : State)
    (ran : run step boot es = some final) :
    (Always step HandlersValid boot es ∧ Stepwise step DeliversOwn boot es) ↔
      Guarded step HandlerSafe boot es := by
  have holds : ∀ s, Inv s → HandlersValid s := fun s valid i _ => valid i
  have always := always_iff_guarded step holds inv_kept safe_of_good es boot final boot_valid ran
  constructor
  · exact fun ⟨valid, _⟩ => always.mp valid
  · intro safe
    refine ⟨always.mpr safe, ?_⟩
    exact stepwise_of_guarded step
      (fun s e next valid safe taken => ⟨inv_kept s e next valid safe taken,
        delivers_own s e next valid taken⟩) es boot boot_valid safe

/-- The first process registers a handler, gets a Ctrl-G and runs the handler. -/
def ownRun : List Event :=
  [.kernel (.schedule 0), .kernel (.signal 0 (some 0x100)), .kernel (.ctrlG 0),
    .kernel (.deliver 0 true)]

theorem ownRun_completes : (run step boot ownRun).isSome = true := by decide +kernel

theorem ownRun_valid :
    (Always step HandlersValid boot ownRun ∧ Stepwise step DeliversOwn boot ownRun) ↔
      Guarded step HandlerSafe boot ownRun :=
  handlers_valid_iff ownRun ((run step boot ownRun).get ownRun_completes)
    (Option.some_get _).symm

/-- It registers a handler and calls exec(); the signal comes afterwards. -/
def execRun : List Event :=
  [.kernel (.schedule 0), .kernel (.signal 0 (some 0x100)), .exec 0 3 0 4000,
    .kernel (.ctrlG 0), .kernel (.deliver 0 true)]

theorem execRun_invalid :
    ¬ ∀ (es : List Event) (final : State), run step boot es = some final →
      Always step HandlersValid boot es ∧ Stepwise step DeliversOwn boot es := by
  intro all
  have old : (run step boot execRun).any (fun s =>
      decide (s.kernel.cpu 0 = some 0) && decide ((s.kernel.proc 0).signal_handler = 0x100) &&
        decide (s.registered 0 = none)) = true := by decide +kernel
  obtain ⟨final, ran, old⟩ := Option.any_eq_true _ _ |>.mp old
  simp only [Bool.and_eq_true, decide_eq_true_eq] at old
  obtain ⟨⟨current, handler⟩, registered⟩ := old
  have good := always_last step execRun boot final (all execRun final ran).1 ran
  have own := good 0 (Or.inr ⟨0, current⟩) (by rw [handler]; decide)
  rw [registered] at own
  cases own

end Xv6.Public2.Handlers
