import Xv6.Machine.TrapFrame

/-!
# Signal fields of a process (xv6-public_2)

The four fields of `struct proc` that Ctrl-G signals use, with the functions of
proc.c and trap.c that read and write them.  `saved_tf` is a page holding a
copy of the trap frame; the copy itself stands for it here, and `none` is the
null pointer.
-/

set_option autoImplicit false

namespace Xv6.Public2.Signals

open Xv6.Lib.Words
open Xv6.Machine

def MAGIC_SIGRET : Word := 0xDEADBEEF

structure SigState where
  tf : TrapFrame := {}
  saved_tf : Option TrapFrame := none
  pending_signal : Int := 0
  signal_handler : Word := 0
  deriving DecidableEq

/-- `argptr` fetched `handler`, or failed. -/
def sys_signal (handler : Option Word) (p : SigState) : Word × SigState :=
  match handler with
  | some handler => (0, { p with signal_handler := handler })
  | none => (-1, p)

def sys_sigreturn (p : SigState) : Word × SigState :=
  match p.saved_tf with
  | none => (-1, p)
  | some saved => (0, { p with tf := saved, saved_tf := none })

def send_sigcustom (p : SigState) : SigState := { p with pending_signal := 1 }

/-- The branch of trap() for a fault at `MAGIC_SIGRET`; `none` when the fault
falls through to the "kill proc" code. -/
def restoreOnFault (p : SigState) : Option SigState :=
  p.saved_tf.map fun saved => { p with tf := saved, saved_tf := none }

/-- The test at the end of trap(). -/
def wantsDelivery (p : SigState) : Bool :=
  decide (p.pending_signal ≠ 0) && decide (p.signal_handler ≠ 0)

/-- Steps 8.1 to 8.3 of trap() on the process; `kalloc` tells whether the page
for the saved frame was found.  The result of the copyout of `MAGIC_SIGRET` to
the new `esp` is only printed. -/
def deliver (kalloc : Bool) (p : SigState) : SigState :=
  { tf := { p.tf with esp := p.tf.esp - 4, eip := p.signal_handler }
    saved_tf := if kalloc then some p.tf else none
    pending_signal := 0
    signal_handler := p.signal_handler }

end Xv6.Public2.Signals
