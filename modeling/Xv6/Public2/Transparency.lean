import Mathlib.Tactic.Common
import Xv6.Lib.Runs
import Xv6.Public2.Signals

/-!
# Ctrl-G signals and the code they interrupt (xv6-public_2)

One process between user code, system calls, interrupts and its handler.  The
tail of trap() delivers from any trap, also from one taken in the middle of a
system call that has still to store its result, and `saved_tf` holds one frame.
`ref` is what the interrupted code would have had by now if nothing had been
delivered, and `active` the handlers that have not returned yet, innermost
first.
-/

set_option autoImplicit false

namespace Xv6.Public2.Transparency

open Xv6.Lib.Runs
open Xv6.Lib.Words
open Xv6.Machine
open Xv6.Public2.Signals

/-- What a system call does to the frame of its caller. -/
inductive Call where
  | returns (result : Word)
  /-- An exec() that succeeds. -/
  | exec (entry sp : Word)
  | signal (handler : Option Word)
  | sigreturn

/-- `curproc->tf->eax = syscalls[num]()`. -/
def storeResult (called : Word × SigState) : SigState :=
  { called.2 with tf := { called.2.tf with eax := called.1 } }

def Call.run (call : Call) (p : SigState) : SigState :=
  match call with
  | .returns result => storeResult (result, p)
  | .exec entry sp => storeResult (0, { p with tf := { p.tf with eip := entry, esp := sp } })
  | .signal handler => storeResult (sys_signal handler p)
  | .sigreturn => storeResult (sys_sigreturn p)

/-- In user mode, or in a system call of the interrupted code (`own`) or of a
handler. -/
inductive Mode where
  | user
  | kernel (own : Bool)
  deriving DecidableEq

structure Signalled where
  sig : SigState
  ref : SigState
  /-- For every handler that has not returned, whether the copyout of its
  return address succeeded. -/
  active : List Bool := []
  mode : Mode := .user
  killed : Bool := false
  deriving DecidableEq

inductive Event where
  /-- User code runs. -/
  | user (work : TrapFrame → TrapFrame)
  | enter
  | leave (call : Call)
  /-- An interrupt, with Ctrl-G on the keyboard or without. -/
  | irq (trapno : Word) (ctrlG kalloc pushed : Bool)
  /-- The handler returns to the address on its stack and faults there. -/
  | handlerReturn (err : Word) (kalloc pushed : Bool)

/-- The delivery test at the end of trap(). -/
def trapTail (kalloc pushed : Bool) (s : Signalled) : Signalled :=
  if wantsDelivery s.sig then
    { s with sig := deliver kalloc s.sig, active := pushed :: s.active }
  else s

/-- What the process does itself; it counts for the interrupted code if that
code is the one that runs. -/
def perform (own : Bool) (f : SigState → SigState) (s : Signalled) : Signalled :=
  { s with sig := f s.sig, ref := if own then f s.ref else s.ref }

def onFrame (f : TrapFrame → TrapFrame) (p : SigState) : SigState := { p with tf := f p.tf }

def keyboard (ctrlG : Bool) (s : Signalled) : Signalled :=
  if ctrlG then { s with sig := send_sigcustom s.sig } else s

/-- The hardware and trapasm.S store the frame of an interrupt from user mode;
one from kernel mode has its frame elsewhere. -/
def irqEntry (trapno : Word) (s : Signalled) : Signalled :=
  match s.mode with
  | .user => perform s.active.isEmpty (onFrame fun tf => tf.enter trapno 0) s
  | .kernel _ => s

/-- `ret` of a handler: the address pushed by the delivery is popped. -/
def retFrame (err : Word) (tf : TrapFrame) : TrapFrame :=
  { tf with esp := tf.esp + 4, eip := MAGIC_SIGRET }.enter T_PGFLT err

/-- The page fault at `MAGIC_SIGRET`. -/
def handlerFault (err : Word) (kalloc pushed : Bool) (rest : List Bool) (s : Signalled) :
    Signalled :=
  match restoreOnFault (onFrame (retFrame err) s.sig) with
  | some restored => trapTail kalloc pushed { s with sig := restored, active := rest }
  | none => { s with sig := onFrame (retFrame err) s.sig, active := rest, killed := true }

/-- A sigreturn() that finds a frame undoes the delivery it came from; exec()
leaves no handler behind. -/
def Call.handlersAfter (call : Call) (s : Signalled) : List Bool :=
  match call with
  | .exec _ _ => []
  | .sigreturn => if s.sig.saved_tf = none then s.active else s.active.tail
  | .returns _ | .signal _ => s.active

/-- Handlers finish by returning: they call neither exec() nor sigreturn(). -/
def Call.allowed (call : Call) (own : Bool) : Bool :=
  match call with
  | .exec _ _ | .sigreturn => own
  | .returns _ | .signal _ => true

def act (s : Signalled) : Event → Option Signalled
  | .user work =>
      if s.mode = .user then some (perform s.active.isEmpty (onFrame work) s) else none
  | .enter =>
      if s.mode = .user then
        some { perform s.active.isEmpty (onFrame fun tf => tf.enter T_SYSCALL 0) s with
          mode := .kernel s.active.isEmpty }
      else none
  | .leave call =>
      match s.mode with
      | .user => none
      | .kernel own =>
          if call.allowed own then
            some { perform own call.run s with
              mode := .user, active := call.handlersAfter s }
          else none
  | .irq trapno ctrlG kalloc pushed =>
      some (trapTail kalloc pushed (keyboard ctrlG (irqEntry trapno s)))
  | .handlerReturn err kalloc pushed =>
      match s.mode, s.active with
      | .user, true :: rest => some (handlerFault err kalloc pushed rest s)
      | _, _ => none

/-- A killed process exits on its way back to user space. -/
def step (s : Signalled) (e : Event) : Option Signalled :=
  if s.killed then none else act s e

/-- A process as it returns to user code, whatever its slot holds. -/
def start (p : SigState) : Signalled := { sig := p, ref := p }

/-- When all started handlers have returned, the interrupted code goes on as
if nothing had happened. -/
def Transparent (s : Signalled) : Prop :=
  s.active = [] → s.mode = .user → s.killed = false ∧ s.sig.tf = s.ref.tf

/-! ## Runs that deliver only from user mode, one signal at a time -/

/-- A trap that delivers comes from user mode while no handler is running and
finds a page for the frame; a sigreturn() of the interrupted code finds the
`saved_tf` it would have found anyway. -/
def Orderly (s : Signalled) : Event → Prop
  | .user _ | .enter => True
  | .leave .sigreturn => s.sig.saved_tf = s.ref.saved_tf
  | .leave _ => True
  | .irq _ ctrlG kalloc _ =>
      wantsDelivery (keyboard ctrlG s).sig = true →
        s.mode = .user ∧ s.active = [] ∧ kalloc = true
  | .handlerReturn _ kalloc _ => wantsDelivery s.sig = true → kalloc = true

instance orderlyDecidable (s : Signalled) (e : Event) : Decidable (Orderly s e) :=
  match e with
  | .user _ | .enter | .leave (.returns _) | .leave (.exec _ _) | .leave (.signal _) =>
      inferInstanceAs (Decidable True)
  | .leave .sigreturn => inferInstanceAs (Decidable (s.sig.saved_tf = s.ref.saved_tf))
  | .irq _ ctrlG kalloc _ =>
      inferInstanceAs (Decidable (wantsDelivery (keyboard ctrlG s).sig = true →
        s.mode = .user ∧ s.active = [] ∧ kalloc = true))
  | .handlerReturn _ kalloc _ =>
      inferInstanceAs (Decidable (wantsDelivery s.sig = true → kalloc = true))

/-- At most one handler runs, and `saved_tf` then holds the frame that the
interrupted code is to go on with. -/
inductive Inv (s : Signalled) : Prop where
  | code (alive : s.killed = false) (none : s.active = []) (frame : s.sig.tf = s.ref.tf)
      (owner : s.mode ≠ .kernel false)
  | handler (pushed : Bool) (alive : s.killed = false) (one : s.active = [pushed])
      (saved : s.sig.saved_tf = some s.ref.tf) (owner : s.mode ≠ .kernel true)

theorem Inv.transparent {s : Signalled} (inv : Inv s) : Transparent s := by
  intro returned _
  cases inv with
  | code alive _ frame _ => exact ⟨alive, frame⟩
  | handler pushed _ one _ _ =>
      rw [one] at returned
      cases returned

theorem start_inv (p : SigState) : Inv (start p) :=
  .code rfl rfl rfl (by simp [start])

/-- Calls that start from the same frame end in the same frame. -/
theorem Call.run_frame (call : Call) {p q : SigState} (frame : p.tf = q.tf)
    (saved : call = .sigreturn → p.saved_tf = q.saved_tf) : (call.run p).tf = (call.run q).tf := by
  cases call with
  | returns result => simp [Call.run, storeResult, frame]
  | exec entry sp => simp [Call.run, storeResult, frame]
  | signal handler =>
      cases handler with
      | none => simp [Call.run, storeResult, sys_signal, frame]
      | some handler => simp [Call.run, storeResult, sys_signal, frame]
  | sigreturn =>
      have same := saved rfl
      cases found : q.saved_tf with
      | none =>
          rw [found] at same
          simp [Call.run, storeResult, sys_sigreturn, frame, same, found]
      | some old =>
          rw [found] at same
          simp [Call.run, storeResult, sys_sigreturn, same, found]

/-- A call that a handler may make does not touch the saved frame. -/
theorem Call.run_saved (call : Call) (p : SigState) (allowed : call.allowed false = true) :
    (call.run p).saved_tf = p.saved_tf := by
  cases call with
  | returns result => rfl
  | exec entry sp => cases allowed
  | signal handler => cases handler <;> rfl
  | sigreturn => cases allowed

theorem Call.handlersAfter_nil (call : Call) {s : Signalled} (none : s.active = []) :
    call.handlersAfter s = [] := by
  cases call with
  | returns result => exact none
  | exec entry sp => rfl
  | signal handler => exact none
  | sigreturn => simp [Call.handlersAfter, none]

theorem Call.handlersAfter_allowed (call : Call) (s : Signalled)
    (allowed : call.allowed false = true) : call.handlersAfter s = s.active := by
  cases call with
  | returns result => rfl
  | exec entry sp => cases allowed
  | signal handler => rfl
  | sigreturn => cases allowed

/-- User code, or the entry into the kernel, of whoever runs now. -/
theorem perform_inv {s : Signalled} (inv : Inv s) (work : TrapFrame → TrapFrame) (mode : Mode)
    (owner : mode = .user ∨ mode = .kernel s.active.isEmpty) :
    Inv { perform s.active.isEmpty (onFrame work) s with mode := mode } := by
  cases inv with
  | code alive none frame _ =>
      refine .code alive none ?_ ?_
      · simp [perform, onFrame, none, frame]
      · rcases owner with rfl | rfl
        · simp
        · simp [none]
  | handler pushed alive one saved _ =>
      refine .handler pushed alive one ?_ ?_
      · simpa [perform, onFrame, one] using saved
      · rcases owner with rfl | rfl
        · simp
        · simp [one]

theorem leave_inv {s : Signalled} (inv : Inv s) (own : Bool) (call : Call)
    (inCall : s.mode = .kernel own) (allowed : call.allowed own = true)
    (orderly : call = .sigreturn → s.sig.saved_tf = s.ref.saved_tf) :
    Inv { perform own call.run s with mode := .user, active := call.handlersAfter s } := by
  cases inv with
  | code alive none frame owner =>
      have mine : own = true := by
        cases own
        · exact absurd inCall owner
        · rfl
      refine .code alive (call.handlersAfter_nil none) ?_ (by simp)
      simpa [perform, mine] using call.run_frame frame orderly
  | handler pushed alive one saved owner =>
      have other : own = false := by
        cases own
        · rfl
        · exact absurd inCall owner
      subst other
      refine .handler pushed alive ?_ ?_ (by simp)
      · exact (call.handlersAfter_allowed s allowed).trans one
      · simpa [perform, call.run_saved _ allowed] using saved

/-- The tail of trap() on a process whose frame is the interrupted code's. -/
theorem trapTail_inv {s : Signalled} (kalloc pushed : Bool) (alive : s.killed = false)
    (none : s.active = []) (frame : s.sig.tf = s.ref.tf) (user : s.mode = .user)
    (page : wantsDelivery s.sig = true → kalloc = true) : Inv (trapTail kalloc pushed s) := by
  unfold trapTail
  split
  · rename_i wanted
    refine .handler pushed alive (by simp [none]) ?_ (by simp [user])
    simp [deliver, page wanted, frame]
  · exact .code alive none frame (by simp [user])

theorem irqEntry_inv {s : Signalled} (inv : Inv s) (trapno : Word) : Inv (irqEntry trapno s) := by
  unfold irqEntry
  split
  · rename_i user
    have performed := perform_inv inv (fun tf => tf.enter trapno 0) .user (Or.inl rfl)
    rwa [← user] at performed
  · exact inv

theorem keyboard_inv {s : Signalled} (inv : Inv s) (ctrlG : Bool) : Inv (keyboard ctrlG s) := by
  unfold keyboard
  split
  · cases inv with
    | code alive none frame owner => exact .code alive none frame owner
    | handler pushed alive one saved owner => exact .handler pushed alive one saved owner
  · exact inv

theorem irqEntry_mode (trapno : Word) (s : Signalled) : (irqEntry trapno s).mode = s.mode := by
  unfold irqEntry
  split <;> rfl

theorem irqEntry_active (trapno : Word) (s : Signalled) :
    (irqEntry trapno s).active = s.active := by
  unfold irqEntry
  split <;> rfl

theorem keyboard_mode (ctrlG : Bool) (s : Signalled) : (keyboard ctrlG s).mode = s.mode := by
  unfold keyboard
  split <;> rfl

theorem keyboard_active (ctrlG : Bool) (s : Signalled) :
    (keyboard ctrlG s).active = s.active := by
  unfold keyboard
  split <;> rfl

/-- Storing the frame of an interrupt does not change whether it delivers. -/
theorem wantsDelivery_irq (trapno : Word) (ctrlG : Bool) (s : Signalled) :
    wantsDelivery (keyboard ctrlG (irqEntry trapno s)).sig =
      wantsDelivery (keyboard ctrlG s).sig := by
  unfold irqEntry keyboard
  split <;> split <;> rfl

theorem irq_inv {s : Signalled} (inv : Inv s) (trapno : Word) (ctrlG kalloc pushed : Bool)
    (orderly : Orderly s (.irq trapno ctrlG kalloc pushed)) :
    Inv (trapTail kalloc pushed (keyboard ctrlG (irqEntry trapno s))) := by
  have entered := keyboard_inv (irqEntry_inv inv trapno) ctrlG
  have wanted := wantsDelivery_irq trapno ctrlG s
  by_cases delivers : wantsDelivery (keyboard ctrlG s).sig = true
  · obtain ⟨user, none, page⟩ := orderly delivers
    have active : (keyboard ctrlG (irqEntry trapno s)).active = [] := by
      rw [keyboard_active, irqEntry_active, none]
    cases entered with
    | code alive _ frame _ =>
        refine trapTail_inv kalloc pushed alive active frame ?_ fun _ => page
        rw [keyboard_mode, irqEntry_mode, user]
    | handler other _ one _ _ =>
        rw [active] at one
        cases one
  · unfold trapTail
    rwa [wanted, if_neg delivers]

theorem handlerFault_inv {s : Signalled} (inv : Inv s) (err : Word) (kalloc pushed : Bool)
    (rest : List Bool) (user : s.mode = .user) (active : s.active = true :: rest)
    (orderly : wantsDelivery s.sig = true → kalloc = true) :
    Inv (handlerFault err kalloc pushed rest s) := by
  cases inv with
  | code _ none _ _ =>
      rw [none] at active
      cases active
  | handler other alive one saved _ =>
      have last : rest = [] := by
        rw [one] at active
        exact (List.cons.inj active).2.symm
      unfold handlerFault
      simp only [restoreOnFault, onFrame, saved, Option.map_some]
      exact trapTail_inv kalloc pushed alive last rfl user orderly

theorem step_inv (s : Signalled) (e : Event) (next : Signalled) (inv : Inv s)
    (orderly : Orderly s e)
    (taken : step s e = some next) : Inv next := by
  unfold step at taken
  split at taken
  · cases taken
  cases e with
  | user work =>
      simp only [act, Option.ite_none_right_eq_some, Option.some.injEq] at taken
      obtain ⟨user, rfl⟩ := taken
      have performed := perform_inv inv work .user (Or.inl rfl)
      rwa [← user] at performed
  | enter =>
      simp only [act, Option.ite_none_right_eq_some, Option.some.injEq] at taken
      obtain ⟨_, rfl⟩ := taken
      exact perform_inv inv _ _ (Or.inr rfl)
  | leave call =>
      cases inCall : s.mode with
      | user => simp [act, inCall] at taken
      | kernel own =>
          simp only [act, inCall, Option.ite_none_right_eq_some, Option.some.injEq] at taken
          obtain ⟨allowed, rfl⟩ := taken
          refine leave_inv inv own call inCall allowed ?_
          rintro rfl
          exact orderly
  | irq trapno ctrlG kalloc pushed =>
      cases Option.some.inj taken
      exact irq_inv inv trapno ctrlG kalloc pushed orderly
  | handlerReturn err kalloc pushed =>
      simp only [act] at taken
      split at taken
      · rename_i rest user active
        cases Option.some.inj taken
        exact handlerFault_inv inv err kalloc pushed rest user active orderly
      · cases taken

/-- In a run whose deliveries are orderly, Ctrl-G is transparent to the code
that it interrupts. -/
theorem signals_transparent (p : SigState) (es : List Event) (s : Signalled)
    (orderly : Guarded step Orderly (start p) es) (ran : run step (start p) es = some s) :
    Transparent s :=
  (run_invariant step step_inv es (start p) s (start_inv p) orderly ran).transparent

/-- A process with a handler at 64, in the middle of a computation. -/
def worker : SigState := { tf := { eax := 7, eip := 100, esp := 4096 }, signal_handler := 64 }

def T_KBD : Word := T_IRQ0 + 1

/-- The handler is started from user mode, makes a system call and returns. -/
def orderlyRun : List Event :=
  [.irq T_KBD true true true, .user fun tf => { tf with eax := 1 }, .enter, .leave (.returns 5),
    .handlerReturn 0 true true]

theorem orderlyRun_completes : (run step (start worker) orderlyRun).isSome = true := by
  decide

theorem signals_transparent_orderlyRun :
    Transparent ((run step (start worker) orderlyRun).get orderlyRun_completes) :=
  signals_transparent worker orderlyRun _ (by decide) (Option.some_get _).symm

/-! ## Runs that do not -/

/-- Ctrl-G in the middle of a system call. -/
def inCallRun : List Event :=
  [.enter, .irq T_KBD true true true, .leave (.returns 5), .handlerReturn 0 true true]

/-- Ctrl-G while the handler is running. -/
def nestedRun : List Event :=
  [.irq T_KBD true true true, .irq T_KBD true true true, .handlerReturn 0 true true,
    .handlerReturn 0 true true]

/-- The result of the system call is lost, and the second of two nested
handlers to return kills the process. -/
theorem inCallRun_not_transparent :
    ¬ (∀ (p : SigState) (es : List Event) (s : Signalled), run step (start p) es = some s →
      Transparent s) ∧
    (run step (start worker) inCallRun).map (fun s => (s.active, s.sig.tf.eax, s.ref.tf.eax)) =
      some ([], 7, 5) ∧
    (run step (start worker) nestedRun).map (fun s => (s.active, s.killed)) =
      some ([], true) := by
  have lost : (run step (start worker) inCallRun).any (fun s =>
      s.active.isEmpty && decide (s.mode = .user) && decide (s.sig.tf ≠ s.ref.tf)) = true := by
    decide
  refine ⟨fun transparent => ?_, by decide, by decide +kernel⟩
  obtain ⟨s, ran, wrong⟩ := (Option.any_eq_true _ _).mp lost
  simp only [Bool.and_eq_true, List.isEmpty_iff, decide_eq_true_eq] at wrong
  obtain ⟨⟨returned, user⟩, differs⟩ := wrong
  exact differs (transparent worker inCallRun s ran returned user).2

theorem step_some {s next : Signalled} {e : Event} (taken : step s e = some next) :
    s.killed = false ∧ act s e = some next := by
  unfold step at taken
  split at taken
  · cases taken
  · rename_i alive
    exact ⟨by simpa using alive, taken⟩

theorem trapTail_wanted {s : Signalled} (kalloc pushed : Bool)
    (wanted : wantsDelivery s.sig = true) :
    trapTail kalloc pushed s =
      { s with sig := deliver kalloc s.sig, active := pushed :: s.active } := by
  rw [trapTail, if_pos wanted]

theorem keyboard_tf (ctrlG : Bool) (s : Signalled) : (keyboard ctrlG s).sig.tf = s.sig.tf := by
  unfold keyboard
  split <;> rfl

theorem keyboard_ref (ctrlG : Bool) (s : Signalled) : (keyboard ctrlG s).ref = s.ref := by
  unfold keyboard
  split <;> rfl

/-- A delivery in the middle of a system call of the interrupted code is undone
without harm only if the result of the call is the number it was called by. -/
theorem delivery_in_call_iff (s final : Signalled) (trapno err result : Word) (ctrlG : Bool)
    (inCall : s.mode = .kernel true) (active : s.active = []) (frame : s.sig.tf = s.ref.tf)
    (wanted : wantsDelivery (keyboard ctrlG s).sig = true)
    (ran : run step s [.irq trapno ctrlG true true, .leave (.returns result),
      .handlerReturn err true true] = some final) :
    Transparent final ↔ result = s.sig.tf.eax := by
  simp only [run_cons_some, run_nil, Option.some.injEq] at ran
  obtain ⟨delivered, first, left, second, returned, third, rfl⟩ := ran
  have started : delivered = { keyboard ctrlG s with
      sig := deliver true (keyboard ctrlG s).sig, active := [true] } := by
    have entered := Option.some.inj (step_some first).2
    rw [← entered, irqEntry, inCall, trapTail_wanted true true wanted, keyboard_active, active]
  have mode : delivered.mode = .kernel true := by
    rw [started, ← inCall, ← keyboard_mode ctrlG s]
  have result_lost : left.sig.saved_tf = some s.sig.tf ∧ left.sig.pending_signal = 0 ∧
      left.ref.tf = { s.sig.tf with eax := result } := by
    have stored := (step_some second).2
    simp only [act, mode, Call.allowed, if_true, Option.some.injEq] at stored
    rw [← stored, started]
    simp [perform, Call.run, storeResult, deliver, keyboard_tf, keyboard_ref, frame]
  have place : left.active = [true] ∧ left.mode = .user := by
    have stored := (step_some second).2
    simp only [act, mode, Call.allowed, if_true, Option.some.injEq] at stored
    rw [← stored, started]
    exact ⟨rfl, rfl⟩
  obtain ⟨saved, quiet, reference⟩ := result_lost
  have resumed := (step_some third).2
  simp only [act, place.1, place.2, Option.some.injEq] at resumed
  have last : returned = { left with
      sig := { left.sig with tf := s.sig.tf, saved_tf := none }, active := [] } := by
    rw [← resumed]
    simp [handlerFault, restoreOnFault, onFrame, saved, trapTail, wantsDelivery, quiet]
  rw [last]
  constructor
  · intro transparent
    have same := (transparent rfl place.2).2
    rw [reference] at same
    exact (congrArg TrapFrame.eax same).symm
  · intro same _ _
    refine ⟨(step_some third).1, ?_⟩
    rw [reference, same]

/-- A handler that returns when the frame is gone gets the process killed. -/
theorem handlerReturn_kills {s final : Signalled} {err : Word} {kalloc pushed : Bool}
    (gone : s.sig.saved_tf = none)
    (taken : step s (.handlerReturn err kalloc pushed) = some final) :
    final.killed = true := by
  have faulted := (step_some taken).2
  simp only [act] at faulted
  split at faulted
  · rw [← Option.some.inj faulted]
    simp [handlerFault, restoreOnFault, onFrame, gone]
  · cases faulted

/-- Of two handlers that run at once the second to return finds no frame. -/
theorem nested_delivery_kills (s final : Signalled) (trapno err err' : Word) (ctrlG : Bool)
    (user : s.mode = .user) (wanted : wantsDelivery (keyboard ctrlG s).sig = true)
    (ran : run step s [.irq trapno ctrlG true true, .handlerReturn err true true,
      .handlerReturn err' true true] = some final) : final.killed = true := by
  simp only [run_cons_some, run_nil, Option.some.injEq] at ran
  obtain ⟨delivered, first, returned, second, last, third, rfl⟩ := ran
  have started : delivered.sig = deliver true (keyboard ctrlG (irqEntry trapno s)).sig ∧
      delivered.mode = .user ∧ delivered.active = true :: s.active := by
    have entered := Option.some.inj (step_some first).2
    rw [trapTail_wanted true true ((wantsDelivery_irq trapno ctrlG s).trans wanted)] at entered
    rw [← entered]
    exact ⟨rfl, by rw [keyboard_mode, irqEntry_mode, user],
      by rw [keyboard_active, irqEntry_active]⟩
  obtain ⟨sig, mode, active⟩ := started
  refine handlerReturn_kills ?_ third
  have resumed := (step_some second).2
  simp only [act, mode, active, Option.some.injEq] at resumed
  rw [← resumed]
  simp [handlerFault, restoreOnFault, onFrame, sig, deliver, trapTail, wantsDelivery]

end Xv6.Public2.Transparency
