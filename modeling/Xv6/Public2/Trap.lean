import Xv6.Public2.CopyOut
import Xv6.Public2.ProcTable

/-!
# trap() (xv6-public_2)

One call of trap() up to the return to the interrupted code.  A trap from user mode has
its frame at the top of the kernel stack, where `p->tf` points, so that a store through one
is seen through the other; a trap from the kernel has a frame of its own.  What the
interrupt handlers and, during a yield(), other processes do to the process is given.
-/

set_option autoImplicit false

namespace Xv6.Public2.Trap

open Xv6.Lib.Words
open Xv6.Machine
open Xv6.Public2.Signals
open Xv6.Public2.CopyOut (Pgdir Fault pushReturn)
open Xv6.Public2.ProcTable (Proc Page)

def IRQ_TIMER : Word := 0
def IRQ_KBD : Word := 1
def IRQ_COM1 : Word := 4
def IRQ_IDE : Word := 14
def IRQ_SPURIOUS : Word := 31

def DPL_USER : BitVec 16 := 3

/-- `myproc()` with its memory and the list of free pages; `savedPage` is where `saved_tf`
points when it is not null. -/
structure Task where
  proc : Proc
  savedPage : Page
  pgdir : Pgdir
  mem : Memory
  free : List Page

def Task.sig (t : Task) : SigState := t.proc.toSigState

def Task.setSig (t : Task) (sig : SigState) : Task :=
  { t with proc := { t.proc with toSigState := sig } }

def kalloc (free : List Page) : Option Page × List Page :=
  match free with
  | [] => (none, [])
  | page :: free => (some page, free)

/-- A trap, by the mode that it comes from. -/
inductive Entry where
  | user (t : Task)
  | kernel (tf : TrapFrame) (t : Option Task)

/-- The frame that trap() is given. -/
def Entry.tf : Entry → TrapFrame
  | .user t => t.proc.tf
  | .kernel tf _ => tf

def Entry.myproc : Entry → Option Task
  | .user t => some t
  | .kernel _ t => t

/-- The frame, if it is not the one of `p->tf`. -/
def Entry.other : Entry → Option TrapFrame
  | .user _ => none
  | .kernel tf _ => some tf

/-- How the call of trap() ends. -/
inductive Ending where
  /-- The process goes on in user mode with `p->tf`. -/
  | user (t : Task)
  /-- The interrupted kernel code goes on. -/
  | kernel (tf : TrapFrame) (t : Option Task)
  | exits (t : Task)
  | panics
  /-- A null pointer is dereferenced: a page fault on top of this call. -/
  | faults

/-- What others do to a process: kill() and Ctrl-G. -/
structure Outside where
  killed : Bool := false
  ctrlG : Bool := false

def kill (t : Task) : Task := { t with proc := { t.proc with killed := 1 } }

def Outside.touch (others : Outside) (t : Task) : Task :=
  let t := if others.killed then kill t else t
  if others.ctrlG then t.setSig (send_sigcustom t.sig) else t

/-! ## The tail of trap() -/

/-- Steps 8.1 to 8.3.  The result of copyout() is only printed. -/
def deliverSignal (t : Task) : Except Fault Task := do
  let (page, free) := kalloc t.free
  let (_, mem) ← pushReturn t.pgdir t.mem t.proc.tf.esp
  pure { t.setSig (deliver page.isSome t.sig) with
    savedPage := page.getD 0, mem := mem, free := free }

/-- `killed && (tf->cs&3) == DPL_USER` -/
def mustExit (tf : TrapFrame) (t : Task) : Bool :=
  decide (t.proc.killed ≠ 0) && decide (tf.cs &&& 3 = DPL_USER)

/-- yield() on a timer tick. -/
def yieldOnTick (yielded : Outside) (tf : TrapFrame) (t : Task) : Task :=
  if t.proc.state = .RUNNING ∧ tf.trapno = T_IRQ0 + IRQ_TIMER then yielded.touch t else t

/-- The frame as it is by now. -/
def frame (other : Option TrapFrame) (t : Task) : TrapFrame := other.getD t.proc.tf

def resumes (other : Option TrapFrame) (t : Task) : Ending :=
  match other with
  | none => .user t
  | some tf => .kernel tf (some t)

/-- trap() after the switch. -/
def trapEnd (other : Option TrapFrame) (yielded : Outside) (t : Task) : Ending :=
  if mustExit (frame other t) t then .exits t
  else
    let t := yieldOnTick yielded (frame other t) t
    if mustExit (frame other t) t then .exits t
    else if wantsDelivery t.sig then
      match deliverSignal t with
      | .error _ => .faults
      | .ok t => resumes other t
    else resumes other t

/-! ## The switch of trap() -/

/-- The process with the saved frame back in `p->tf`, if the fault is for that. -/
def restoreAtMagic (fault_addr : Word) (t : Task) : Option Task :=
  if fault_addr = MAGIC_SIGRET then
    (restoreOnFault t.sig).map fun sig =>
      { t.setSig sig with free := t.savedPage :: t.free }
  else none

/-- `case T_PGFLT` -/
def pageFault (fault_addr : Word) (t : Task) : Task :=
  (restoreAtMagic fault_addr t).getD (kill t)

def isIrq (trapno : Word) : Bool :=
  [IRQ_TIMER, IRQ_KBD, IRQ_COM1, 7, IRQ_IDE, IRQ_IDE + 1, IRQ_SPURIOUS].any fun irq =>
    decide (trapno = T_IRQ0 + irq)

/-- trap() for all but a system call. -/
def trap (fault_addr : Word) (handled yielded : Outside) (entry : Entry) : Ending :=
  match entry.myproc with
  | none =>
      -- The page fault prints `myproc()->pid`.
      if entry.tf.trapno = T_PGFLT then .faults
      else if isIrq entry.tf.trapno then .kernel entry.tf none
      else .panics
  | some t =>
      if entry.tf.trapno = T_PGFLT then trapEnd entry.other yielded (pageFault fault_addr t)
      else if isIrq entry.tf.trapno then trapEnd entry.other yielded (handled.touch t)
      else if entry.tf.cs &&& 3 = 0 then .panics
      else trapEnd entry.other yielded (kill t)

/-! ## System calls -/

/-- `curproc->tf->eax = syscalls[num]()` -/
def syscall (call : Task → Word × Task) (t : Task) : Task :=
  let (result, t) := call t
  t.setSig { t.sig with tf := { t.sig.tf with eax := result } }

/-- trap() for a system call from user mode. -/
def trapSyscall (call : Task → Word × Task) (t : Task) : Ending :=
  if t.proc.killed ≠ 0 then .exits t
  else
    let t := syscall call t
    if t.proc.killed ≠ 0 then .exits t else .user t

def sys_sigreturn (t : Task) : Word × Task :=
  match t.proc.saved_tf with
  | none => (-1, t)
  | some saved =>
      (0, { t.setSig { t.sig with tf := saved, saved_tf := none } with
        free := t.savedPage :: t.free })

/-! ## What the parts do -/

section Parts
variable {t : Task}

@[simp] theorem setSig_sig (t : Task) (sig : SigState) : (t.setSig sig).sig = sig := rfl

@[simp] theorem setSig_killed (t : Task) (sig : SigState) :
    (t.setSig sig).proc.killed = t.proc.killed := rfl

@[simp] theorem kill_killed (t : Task) : (kill t).proc.killed = 1 := rfl

@[simp] theorem touch_tf (others : Outside) (t : Task) :
    (others.touch t).proc.tf = t.proc.tf := by
  unfold Outside.touch
  split
  all_goals (split; all_goals rfl)

@[simp] theorem touch_saved (others : Outside) (t : Task) :
    (others.touch t).proc.saved_tf = t.proc.saved_tf := by
  unfold Outside.touch
  split
  all_goals (split; all_goals rfl)

@[simp] theorem touch_free (others : Outside) (t : Task) :
    (others.touch t).free = t.free := by
  unfold Outside.touch
  split
  all_goals (split; all_goals rfl)

theorem mustExit_eq_true (tf : TrapFrame) (t : Task) :
    mustExit tf t = true ↔ t.proc.killed ≠ 0 ∧ tf.cs &&& 3 = DPL_USER := by
  simp [mustExit]

theorem trapEnd_exits {other : Option TrapFrame} {yielded : Outside}
    (exits : mustExit (frame other t) t = true) : trapEnd other yielded t = .exits t :=
  if_pos exits

/-- trap() does not panic after the switch. -/
theorem trapEnd_no_panic (other : Option TrapFrame) (yielded : Outside) (t : Task) :
    trapEnd other yielded t ≠ .panics := by
  have back : ∀ t, resumes other t ≠ .panics := by
    intro t
    unfold resumes
    split
    all_goals exact nofun
  unfold trapEnd
  dsimp only
  split
  · exact nofun
  · split
    · exact nofun
    · split
      · split
        · exact nofun
        · exact back _
      · exact back _

end Parts

end Xv6.Public2.Trap
