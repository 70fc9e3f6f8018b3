import Xv6.Public2.Trap

/-!
# Signals and page faults in trap() (xv6-public_2)

When the delivery of a signal is all or nothing, when the two ways back from a handler
leave the same process, and what trap() makes of a page fault.
-/

set_option autoImplicit false

namespace Xv6.Public2.SignalTraps

open Xv6.Lib.Words
open Xv6.Machine
open Xv6.Public2.Signals (SigState MAGIC_SIGRET deliver restoreOnFault wantsDelivery)
open Xv6.Public2.CopyOut (Fault Touches Found page stored pushReturn loop_ends)
open Xv6.Public2.Trap

/-! ## The delivery -/

def magicBytes (q : Nat) : Byte := (wordBytes MAGIC_SIGRET).getD q 0

/-- A delivery that has succeeded. -/
structure Delivered (t t' : Task) : Prop where
  saved : t'.proc.saved_tf = some t.proc.tf
  page : t.free = t'.savedPage :: t'.free
  pushed : pushReturn t.pgdir t.mem t.proc.tf.esp = .ok (0, t'.mem)
  magic : t'.mem = stored t.pgdir t.mem (t.proc.tf.esp - 4) magicBytes 4
  esp : t'.proc.tf.esp = t.proc.tf.esp - 4
  eip : t'.proc.tf.eip = t.proc.signal_handler
  pending : t'.proc.pending_signal = 0

structure Untouched (t t' : Task) : Prop where
  tf : t'.proc.tf = t.proc.tf
  saved : t'.proc.saved_tf = t.proc.saved_tf
  free : t'.free = t.free

/-- kalloc() returns 0 or copyout() returns -1. -/
def StepFails (t : Task) : Prop :=
  (kalloc t.free).1 = none ∨ ∃ mem, pushReturn t.pgdir t.mem t.proc.tf.esp = .ok (-1, mem)

/-- All of the delivery happens, or a step fails and none of it does. -/
def Atomic (t : Task) : Prop :=
  ∃ t', deliverSignal t = .ok t' ∧ (Delivered t t' ∨ StepFails t ∧ Untouched t t')

/-- uva2ka() finds every page with a byte of the word below `esp`. -/
def Pushable (t : Task) : Prop :=
  ∀ k, Touches (t.proc.tf.esp - 4) 4 k → Found t.pgdir (page (t.proc.tf.esp - 4) k)

theorem push_ok {t : Task} (pushable : Pushable t) :
    pushReturn t.pgdir t.mem t.proc.tf.esp =
      .ok (0, stored t.pgdir t.mem (t.proc.tf.esp - 4) magicBytes 4) := by
  rcases loop_ends t.pgdir 4 t.mem (t.proc.tf.esp - 4) magicBytes 4 (Nat.le_refl 4) with
    ⟨_, done⟩ | ⟨k, touched, _, ⟨absent, _⟩ | ⟨absent, _⟩⟩
  · exact done
  · obtain ⟨pa0, found, nonzero⟩ := pushable k touched
    cases absent.symm.trans found
    exact absurd rfl nonzero
  · obtain ⟨pa0, found, _⟩ := pushable k touched
    rw [CopyOut.uva2ka, absent] at found
    cases found

theorem pushable_of_push {t : Task} {mem : Memory}
    (pushed : pushReturn t.pgdir t.mem t.proc.tf.esp = .ok (0, mem)) : Pushable t := by
  rcases loop_ends t.pgdir 4 t.mem (t.proc.tf.esp - 4) magicBytes 4 (Nat.le_refl 4) with
    ⟨all, _⟩ | ⟨k, _, _, ⟨_, failed⟩ | ⟨_, failed⟩⟩
  · exact all
  · cases failed.symm.trans pushed
  · cases failed.symm.trans pushed

/-- What is left of a delivery that comes to its end. -/
theorem deliverSignal_ok {t t' : Task} (ok : deliverSignal t = .ok t') :
    ∃ result mem, pushReturn t.pgdir t.mem t.proc.tf.esp = .ok (result, mem) ∧
      t' = { t.setSig (deliver (kalloc t.free).1.isSome t.sig) with
        savedPage := (kalloc t.free).1.getD 0, mem := mem, free := (kalloc t.free).2 } := by
  unfold deliverSignal at ok
  cases pushed : pushReturn t.pgdir t.mem t.proc.tf.esp with
  | error fault =>
      rw [pushed] at ok
      cases ok
  | ok pair =>
      rw [pushed] at ok
      cases ok
      exact ⟨pair.1, pair.2, rfl, rfl⟩

theorem deliver_moves (page : Bool) (p : SigState) : (deliver page p).tf.esp ≠ p.tf.esp := by
  show p.tf.esp - 4 ≠ p.tf.esp
  bv_omega

/-- The delivery is atomic exactly when nothing in it fails: by the time it could fail the
trap frame has been changed. -/
theorem delivery_atomic_iff (t : Task) : Atomic t ↔ t.free ≠ [] ∧ Pushable t := by
  constructor
  · intro atomic
    obtain ⟨t', ok, delivered | ⟨_, untouched⟩⟩ := atomic
    · refine ⟨?_, pushable_of_push delivered.pushed⟩
      intro empty
      cases empty.symm.trans delivered.page
    · obtain ⟨result, mem, _, rfl⟩ := deliverSignal_ok ok
      exact absurd (congrArg TrapFrame.esp untouched.tf) (deliver_moves _ t.sig)
  · intro both
    obtain ⟨nonempty, pushable⟩ := both
    obtain ⟨page, free, list⟩ := List.exists_cons_of_ne_nil nonempty
    have pushed := push_ok pushable
    refine ⟨{ t.setSig (deliver true t.sig) with
      savedPage := page, mem := stored t.pgdir t.mem (t.proc.tf.esp - 4) magicBytes 4,
      free := free }, ?_, Or.inl ⟨rfl, list, pushed, rfl, rfl, rfl, rfl⟩⟩
    rw [deliverSignal, list, pushed]
    rfl

/-- A process with a handler at 64 and one page table full of user pages. -/
def signalled : Task where
  proc := { tf := { esp := 4096 }, pending_signal := 1, signal_handler := 64 }
  savedPage := 0
  pgdir := CopyOut.smallProcess
  mem := fun _ => 0
  free := [5]

/-- The same process when no page is free. -/
theorem delivery_not_atomic : ¬ ∀ t : Task, wantsDelivery t.sig = true → Atomic t := by
  intro every
  have atomic := every { signalled with free := [] } (by decide)
  obtain ⟨t', ok, delivered | ⟨_, untouched⟩⟩ := atomic
  · cases delivered.page
  · obtain ⟨result, mem, _, rfl⟩ := deliverSignal_ok ok
    exact absurd (congrArg TrapFrame.esp untouched.tf) (deliver_moves _ signalled.sig)

/-! ## The two ways back from a handler -/

/-- A trap from user mode stores a frame. -/
def entering (tf : TrapFrame) (t : Task) : Task := t.setSig { t.sig with tf := tf }

/-- The process is as it was when the frame was saved. -/
structure Returned (saved : TrapFrame) (t t' : Task) : Prop where
  tf : t'.proc.tf = saved
  saved : t'.proc.saved_tf = none
  page : t'.free = t.savedPage :: t.free

/-- A process that goes on does so as it was; it may exit. -/
def Lands (saved : TrapFrame) (t : Task) : Ending → Prop
  | .user t' => Returned saved t t'
  | .exits _ => True
  | .kernel _ _ | .panics | .faults => False

def viaCall (tf : TrapFrame) (t : Task) : Ending := trapSyscall sys_sigreturn (entering tf t)

def viaFault (tf : TrapFrame) (handled yielded : Outside) (t : Task) : Ending :=
  trap MAGIC_SIGRET handled yielded (.user (entering tf t))

/-- Both ways leave the process as it was. -/
def RoutesAgree (callTf faultTf : TrapFrame) (handled yielded : Outside) (saved : TrapFrame)
    (t : Task) : Prop :=
  Lands saved t (viaCall callTf t) ∧ Lands saved t (viaFault faultTf handled yielded t)

/-- The process with the frame back in its place. -/
def restored (saved : TrapFrame) (t : Task) : Task :=
  { t.setSig { t.sig with tf := saved, saved_tf := none } with free := t.savedPage :: t.free }

section Routes
variable {saved : TrapFrame} {t : Task}

/-- The system call returns 0, which is then stored into the frame. -/
theorem viaCall_eq (tf : TrapFrame) (found : t.proc.saved_tf = some saved)
    (alive : t.proc.killed = 0) :
    viaCall tf t = .user (restored { saved with eax := 0 } t) := by
  have call : sys_sigreturn (entering tf t) = (0, restored saved t) := by
    have found : (entering tf t).proc.saved_tf = some saved := found
    rw [sys_sigreturn, found]
    rfl
  have alive : ¬ (entering tf t).proc.killed ≠ 0 := not_not.mpr alive
  rw [viaCall, trapSyscall, if_neg alive]
  dsimp only
  rw [syscall, call]
  exact if_neg alive

theorem viaFault_eq {tf : TrapFrame} (fault : tf.trapno = T_PGFLT) (handled yielded : Outside)
    (found : t.proc.saved_tf = some saved) :
    viaFault tf handled yielded t = trapEnd none yielded (restored saved t) := by
  have back : pageFault MAGIC_SIGRET (entering tf t) = restored saved t := by
    have found : (entering tf t).sig.saved_tf = some saved := found
    rw [pageFault, restoreAtMagic, if_pos rfl, restoreOnFault, found]
    rfl
  rw [viaFault, trap]
  show (if tf.trapno = T_PGFLT then
    trapEnd none yielded (pageFault MAGIC_SIGRET (entering tf t)) else _) = _
  rw [if_pos fault, back]

theorem viaCall_lands (tf : TrapFrame) (found : t.proc.saved_tf = some saved) :
    Lands saved t (viaCall tf t) ↔ t.proc.killed ≠ 0 ∨ saved.eax = 0 := by
  by_cases alive : t.proc.killed = 0
  · rw [viaCall_eq tf found alive]
    constructor
    · intro returned
      have eax : (0 : Word) = saved.eax := congrArg TrapFrame.eax returned.tf
      exact Or.inr eax.symm
    · intro either
      have eax : saved.eax = 0 := either.resolve_left (not_not.mpr alive)
      have same : { saved with eax := 0 } = saved := by rw [← eax]
      exact ⟨same, rfl, rfl⟩
  · have exits : viaCall tf t = .exits (entering tf t) := if_pos alive
    rw [exits]
    exact ⟨fun _ => Or.inl alive, fun _ => trivial⟩

theorem yield_restored (yielded : Outside) :
    yieldOnTick yielded saved (restored saved t) =
      restored saved (yieldOnTick yielded saved t) := by
  unfold yieldOnTick
  split
  case isTrue ticks =>
    rw [if_pos (show t.proc.state = _ ∧ _ from ticks)]
    unfold Outside.touch
    split
    all_goals (split; all_goals rfl)
  case isFalse quiet => rw [if_neg (show ¬ (t.proc.state = _ ∧ _) from quiet)]

theorem yield_killed (yielded : Outside) (tf : TrapFrame) (killed : t.proc.killed ≠ 0) :
    (yieldOnTick yielded tf t).proc.killed ≠ 0 := by
  have touched : (yielded.touch t).proc.killed ≠ 0 := by
    unfold Outside.touch
    split
    case isTrue =>
      split
      all_goals exact Int.one_ne_zero
    case isFalse =>
      split
      all_goals exact killed
  unfold yieldOnTick
  split
  case isTrue => exact touched
  case isFalse => exact killed

theorem mustExit_restored (user : saved.cs &&& 3 = DPL_USER) (t : Task) :
    mustExit (frame none (restored saved t)) (restored saved t) = true ↔ t.proc.killed ≠ 0 := by
  rw [mustExit_eq_true]
  exact and_iff_left user

theorem yield_pages (yielded : Outside) (tf : TrapFrame) (t : Task) :
    (yieldOnTick yielded tf t).free = t.free ∧
      (yieldOnTick yielded tf t).savedPage = t.savedPage := by
  have touched : (yielded.touch t).savedPage = t.savedPage := by
    unfold Outside.touch
    split
    all_goals (split; all_goals rfl)
  unfold yieldOnTick
  split
  case isTrue => exact ⟨touch_free yielded t, touched⟩
  case isFalse => exact ⟨rfl, rfl⟩

theorem lands_yield (yielded : Outside) (tf : TrapFrame) (ending : Ending) :
    Lands saved (yieldOnTick yielded tf t) ending = Lands saved t ending := by
  obtain ⟨free, page⟩ := yield_pages yielded tf t
  have same : ∀ t', Returned saved (yieldOnTick yielded tf t) t' ↔ Returned saved t t' := by
    intro t'
    constructor
    · intro returned
      exact ⟨returned.tf, returned.saved, by rw [returned.page, free, page]⟩
    · intro returned
      exact ⟨returned.tf, returned.saved, by rw [returned.page, free, page]⟩
  cases ending with
  | user t' => exact propext (same t')
  | kernel tf t => rfl
  | exits t => rfl
  | panics => rfl
  | faults => rfl

/-- A delivery that comes to its end moves the stack pointer. -/
theorem delivered_not_returned (saved : TrapFrame) (t : Task) :
    ¬ Lands saved t (match deliverSignal (restored saved t) with
      | .error _ => .faults
      | .ok t' => resumes none t') := by
  cases ended : deliverSignal (restored saved t) with
  | error fault => exact id
  | ok t' =>
      intro returned
      obtain ⟨result, mem, _, rfl⟩ := deliverSignal_ok ended
      exact deliver_moves _ (restored saved t).sig (congrArg TrapFrame.esp returned.tf)

theorem viaFault_lands {tf : TrapFrame} (fault : tf.trapno = T_PGFLT) (handled yielded : Outside)
    (found : t.proc.saved_tf = some saved) (user : saved.cs &&& 3 = DPL_USER) :
    Lands saved t (viaFault tf handled yielded t) ↔
      (yieldOnTick yielded saved t).proc.killed ≠ 0 ∨
        wantsDelivery (yieldOnTick yielded saved t).sig = false := by
  rw [viaFault_eq fault handled yielded found]
  by_cases killed : t.proc.killed ≠ 0
  · rw [trapEnd_exits ((mustExit_restored user t).mpr killed)]
    exact ⟨fun _ => Or.inl (yield_killed yielded saved killed), fun _ => trivial⟩
  · have goesOn : ¬ mustExit (frame none (restored saved t)) (restored saved t) = true :=
      fun exits => killed ((mustExit_restored user t).mp exits)
    have after : yieldOnTick yielded (frame none (restored saved t)) (restored saved t) =
        restored saved (yieldOnTick yielded saved t) := yield_restored yielded
    rw [trapEnd, if_neg goesOn]
    dsimp only
    rw [after]
    by_cases exits : (yieldOnTick yielded saved t).proc.killed ≠ 0
    · rw [if_pos ((mustExit_restored user _).mpr exits)]
      exact ⟨fun _ => Or.inl exits, fun _ => trivial⟩
    · rw [if_neg fun must => exits ((mustExit_restored user _).mp must)]
      have signal : wantsDelivery (restored saved (yieldOnTick yielded saved t)).sig =
          wantsDelivery (yieldOnTick yielded saved t).sig := rfl
      rw [signal]
      split
      case isTrue wanted =>
        rw [← lands_yield yielded saved]
        constructor
        · exact fun lands => absurd lands (delivered_not_returned saved _)
        · intro either
          rcases either with killed | quiet
          · exact absurd killed exits
          · cases wanted.symm.trans quiet
      case isFalse quiet =>
        rw [← lands_yield yielded saved]
        exact ⟨fun _ => Or.inr (Bool.eq_false_iff.mpr quiet), fun _ => ⟨rfl, rfl, rfl⟩⟩

end Routes

/-- Both ways back leave the process as it was exactly when it exits anyway, or had 0 in `eax`
and finds no signal that has come in the meantime. -/
theorem routes_agree_iff (callTf faultTf : TrapFrame) (handled yielded : Outside)
    (saved : TrapFrame) (t : Task) (fault : faultTf.trapno = T_PGFLT)
    (found : t.proc.saved_tf = some saved) (user : saved.cs &&& 3 = DPL_USER) :
    RoutesAgree callTf faultTf handled yielded saved t ↔
      (t.proc.killed ≠ 0 ∨ saved.eax = 0) ∧
        ((yieldOnTick yielded saved t).proc.killed ≠ 0 ∨
          wantsDelivery (yieldOnTick yielded saved t).sig = false) :=
  and_congr (viaCall_lands callTf found) (viaFault_lands fault handled yielded found user)

/-- A process that was interrupted with 7 in `eax` is in its handler. -/
def inHandler : Task :=
  { signalled with
    proc := { saved_tf := some { eax := 7, cs := 3, trapno := 32 }, signal_handler := 64 } }

theorem routes_agree_inHandler :
    RoutesAgree {} { trapno := 14 } {} {} { eax := 7, cs := 3, trapno := 32 } inHandler ↔
      (inHandler.proc.killed ≠ 0 ∨ (7 : Word) = 0) ∧
        ((yieldOnTick {} { eax := 7, cs := 3, trapno := 32 } inHandler).proc.killed ≠ 0 ∨
          wantsDelivery (yieldOnTick {} { eax := 7, cs := 3, trapno := 32 } inHandler).sig =
            false) :=
  routes_agree_iff {} { trapno := 14 } {} {} { eax := 7, cs := 3, trapno := 32 } inHandler rfl rfl
    rfl

theorem routes_differ : ¬ ∀ (callTf faultTf : TrapFrame) (handled yielded : Outside)
    (saved : TrapFrame) (t : Task), faultTf.trapno = T_PGFLT → t.proc.saved_tf = some saved →
    saved.cs &&& 3 = DPL_USER → RoutesAgree callTf faultTf handled yielded saved t := by
  intro every
  have agree := every {} { trapno := 14 } {} {} { eax := 7, cs := 3, trapno := 32 } inHandler
    rfl rfl rfl
  have eax : (0 : Word) = 7 := congrArg TrapFrame.eax agree.1.tf
  cases eax

/-! ## Page faults -/

/-- The instruction at `MAGIC_SIGRET` is fetched by a process with a saved frame. -/
def MagicFetch (fault_addr : Word) (t : Task) : Prop :=
  fault_addr = MAGIC_SIGRET ∧ t.proc.tf.eip = MAGIC_SIGRET ∧ t.proc.saved_tf ≠ none

def Restores (fault_addr : Word) (t : Task) : Prop := (restoreAtMagic fault_addr t).isSome = true

/-- What is wanted of trap() for a page fault. -/
def Classified (fault_addr : Word) (handled yielded : Outside) : Entry → Prop
  | .user t =>
      (Restores fault_addr t → MagicFetch fault_addr t) ∧
        (¬ MagicFetch fault_addr t →
          ∃ t', trap fault_addr handled yielded (.user t) = .exits t' ∧ t'.proc.killed = 1)
  | .kernel tf t => trap fault_addr handled yielded (.kernel tf t) = .panics

/-- User code reads or writes at `MAGIC_SIGRET` while a frame is saved. -/
def MagicAccess (fault_addr : Word) (t : Task) : Prop :=
  fault_addr = MAGIC_SIGRET ∧ t.proc.saved_tf ≠ none ∧ t.proc.tf.eip ≠ MAGIC_SIGRET

theorem restores_iff (fault_addr : Word) (t : Task) :
    Restores fault_addr t ↔ fault_addr = MAGIC_SIGRET ∧ t.proc.saved_tf ≠ none := by
  unfold Restores restoreAtMagic
  split
  case isTrue here =>
    rw [Option.isSome_map, restoreOnFault, Option.isSome_map, Option.isSome_iff_ne_none]
    exact (and_iff_right here).symm
  case isFalse elsewhere => simp [elsewhere]

/-- A fault of user code that restores nothing ends the process. -/
theorem user_fault_exits {fault_addr : Word} {t : Task} (handled yielded : Outside)
    (fault : t.proc.tf.trapno = T_PGFLT) (user : t.proc.tf.cs &&& 3 = DPL_USER)
    (kept : ¬ Restores fault_addr t) :
    trap fault_addr handled yielded (.user t) = .exits (kill t) := by
  have killed : pageFault fault_addr t = kill t := by
    rw [pageFault, Option.not_isSome_iff_eq_none.mp kept]
    rfl
  have exits : mustExit (frame none (kill t)) (kill t) = true :=
    (mustExit_eq_true _ _).mpr ⟨Int.one_ne_zero, user⟩
  rw [trap]
  show (if t.proc.tf.trapno = T_PGFLT then
    trapEnd none yielded (pageFault fault_addr t) else _) = _
  rw [if_pos fault, killed, trapEnd_exits exits]

theorem kernel_fault_no_panic {fault_addr : Word} {handled yielded : Outside} {tf : TrapFrame}
    (fault : tf.trapno = T_PGFLT) (t : Option Task) :
    trap fault_addr handled yielded (.kernel tf t) ≠ .panics := by
  cases t with
  | none =>
      have faults : trap fault_addr handled yielded (.kernel tf none) = .faults := if_pos fault
      rw [faults]
      exact nofun
  | some t =>
      have ended : trap fault_addr handled yielded (.kernel tf (some t)) =
          trapEnd (some tf) yielded (pageFault fault_addr t) := if_pos fault
      rw [ended]
      exact trapEnd_no_panic _ _ _

theorem not_classified_kernel {fault_addr : Word} {handled yielded : Outside} {tf : TrapFrame}
    (fault : tf.trapno = T_PGFLT) (t : Option Task) :
    ¬ Classified fault_addr handled yielded (.kernel tf t) :=
  fun panics => kernel_fault_no_panic fault t panics

/-- A page fault is taken for what it is exactly if it comes from user mode and is no access of
data at `MAGIC_SIGRET` by a process with a saved frame. -/
theorem page_fault_iff (fault_addr : Word) (handled yielded : Outside) (entry : Entry)
    (fault : entry.tf.trapno = T_PGFLT)
    (mode : ∀ t, entry = .user t → t.proc.tf.cs &&& 3 = DPL_USER) :
    Classified fault_addr handled yielded entry ↔
      ∃ t, entry = .user t ∧ ¬ MagicAccess fault_addr t := by
  cases entry with
  | user t =>
      constructor
      · intro classified
        refine ⟨t, rfl, fun access => ?_⟩
        have fetch := classified.1 ((restores_iff fault_addr t).mpr ⟨access.1, access.2.1⟩)
        exact access.2.2 fetch.2.1
      · intro right
        obtain ⟨_, same, noAccess⟩ := right
        cases same
        have fetch : Restores fault_addr t → MagicFetch fault_addr t := by
          intro restores
          obtain ⟨here, saved⟩ := (restores_iff fault_addr t).mp restores
          refine ⟨here, ?_, saved⟩
          by_contra data
          exact noAccess ⟨here, saved, data⟩
        refine ⟨fetch, fun other => ⟨kill t, ?_, rfl⟩⟩
        exact user_fault_exits handled yielded fault (mode t rfl) fun restores =>
          other (fetch restores)
  | kernel tf t =>
      constructor
      · exact fun right => absurd right (not_classified_kernel fault t)
      · intro right
        obtain ⟨_, impossible, _⟩ := right
        cases impossible

/-- The same process reads through a null pointer. -/
def nullReader : Task := entering { trapno := 14, cs := 3 } inHandler

theorem page_fault_nullReader :
    Classified 0 {} {} (.user nullReader) ↔
      ∃ t, Entry.user nullReader = .user t ∧ ¬ MagicAccess 0 t :=
  page_fault_iff 0 {} {} (.user nullReader) rfl fun t same => by
    rw [← Entry.user.inj same]
    rfl

/-- The kernel faults while it works for the process, which is killed for it. -/
theorem kernel_fault_not_classified :
    ¬ ∀ (fault_addr : Word) (handled yielded : Outside) (entry : Entry),
      entry.tf.trapno = T_PGFLT → (∀ t, entry = .user t → t.proc.tf.cs &&& 3 = DPL_USER) →
      Classified fault_addr handled yielded entry := by
  intro every
  have fault : (Entry.kernel { trapno := 14 } (some inHandler)).tf.trapno = T_PGFLT := rfl
  have right := every 0 {} {} (.kernel { trapno := 14 } (some inHandler)) fault fun _ same => by
    cases same
  exact not_classified_kernel fault (some inHandler) right

end Xv6.Public2.SignalTraps
