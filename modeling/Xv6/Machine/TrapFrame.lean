import Xv6.Lib.Words

/-!
# The user trap frame

`struct trapframe` of `x86.h`, the same in the three kernels: the registers
that trapasm.S and the hardware store on the kernel stack when a process
enters the kernel.  The padding halves of the segment registers are left out.
-/

set_option autoImplicit false

namespace Xv6.Machine

open Xv6.Lib.Words

structure TrapFrame where
  edi : Word := 0
  esi : Word := 0
  ebp : Word := 0
  oesp : Word := 0
  ebx : Word := 0
  edx : Word := 0
  ecx : Word := 0
  eax : Word := 0
  gs : BitVec 16 := 0
  fs : BitVec 16 := 0
  es : BitVec 16 := 0
  ds : BitVec 16 := 0
  trapno : Word := 0
  err : Word := 0
  eip : Word := 0
  cs : BitVec 16 := 0
  eflags : Word := 0
  esp : Word := 0
  ss : BitVec 16 := 0
  deriving DecidableEq

def T_PGFLT : Word := 14

def T_SYSCALL : Word := 64

def T_IRQ0 : Word := 32

/-- What the hardware and the vector stub store on entry from user mode. -/
def TrapFrame.enter (tf : TrapFrame) (trapno err : Word) : TrapFrame :=
  { tf with trapno := trapno, err := err }

end Xv6.Machine
