import Xv6.Lib.Assembly
import Xv6.Machine.TrapFrame

/-!
# The code between user programs and trap()

vectors.S as vectors.pl writes it, trapasm.S and swtch.S, the same in the three kernels,
with the gates that tvinit() sets up.  The addresses of the symbols are those of the
linker, and trap() is as the compiler has made it.
-/

set_option autoImplicit false

namespace Xv6.Machine

open Xv6.Lib.Words
open Xv6.Lib.Assembly

/-- `SEG_KCODE<<3` -/
def kernelCode : BitVec 16 := 1 <<< 3

/-- `SEG_KDATA<<3` -/
def kernelData : BitVec 16 := 2 <<< 3

/-- The vectors for which vectors.pl pushes no zero. -/
def hasError (i : Nat) : Bool := i == 8 || (10 ≤ i && i ≤ 14) || i == 17

/-- vector`i` of vectors.S -/
def vector (alltraps : Word) (i : Nat) : List Instr :=
  (if hasError i then [] else [.op (.pushImm 0)]) ++
    [.op (.pushImm (BitVec.ofNat 32 i)), .jmp alltraps]

/-- alltraps, up to the call. -/
def alltrapsOps : List Op :=
  [.pushSeg .ds, .pushSeg .es, .pushSeg .fs, .pushSeg .gs, .pushal,
    .movImm kernelData .eax, .movSeg .eax .ds, .movSeg .eax .es, .push .esp]

def alltraps (trap : Word) : List Instr :=
  alltrapsOps.map .op ++ [.call trap, .op (.add 4 .esp)]

/-- trapret, up to the iret. -/
def trapretOps : List Op :=
  [.popal, .popSeg .gs, .popSeg .fs, .popSeg .es, .popSeg .ds, .add 8 .esp]

def trapret : List Instr := trapretOps.map .op ++ [.iret]

/-- swtch, up to the ret. -/
def swtchOps : List Op :=
  [.load 4 .esp .eax, .load 8 .esp .edx, .push .ebp, .push .ebx, .push .esi, .push .edi,
    .store .esp .eax, .mov .edx .esp, .pop .edi, .pop .esi, .pop .ebx, .pop .ebp]

def swtch : List Instr := swtchOps.map .op ++ [.ret]

/-- Where the linker has put the symbols. -/
structure Symbols where
  vectors : Nat → Word
  alltraps : Word
  trapret : Word
  trap : Word
  forkret : Word
  swtch : Word

/-- The kernel is in memory; alltraps falls through to trapret. -/
structure Linked (text : Text) (k : Symbols) : Prop where
  vectors : ∀ i, i < 256 → ∃ b, Code text (k.vectors i) (vector k.alltraps i) b
  alltraps : Code text k.alltraps (alltraps k.trap) k.trapret
  trapret : ∃ b, Code text k.trapret trapret b
  swtch : ∃ b, Code text k.swtch swtch b
  trap : ∃ f, text k.trap = some (.routine f)
  forkret : ∃ f, text k.forkret = some (.routine f)

/-- idt[i] after tvinit(). -/
def gate (k : Symbols) (i : Nat) : Gate where
  selector := kernelCode
  handler := k.vectors i
  trap := BitVec.ofNat 32 i == T_SYSCALL

/-! ## Trap frames in memory -/

/-- `*tf` -/
def frameAt (mem : Memory) (tf : Word) : TrapFrame where
  edi := loadWord mem tf
  esi := loadWord mem (tf + 4)
  ebp := loadWord mem (tf + 8)
  oesp := loadWord mem (tf + 12)
  ebx := loadWord mem (tf + 16)
  edx := loadWord mem (tf + 20)
  ecx := loadWord mem (tf + 24)
  eax := loadWord mem (tf + 28)
  gs := low (loadWord mem (tf + 32))
  fs := low (loadWord mem (tf + 36))
  es := low (loadWord mem (tf + 40))
  ds := low (loadWord mem (tf + 44))
  trapno := loadWord mem (tf + 48)
  err := loadWord mem (tf + 52)
  eip := loadWord mem (tf + 56)
  cs := low (loadWord mem (tf + 60))
  eflags := loadWord mem (tf + 64)
  esp := loadWord mem (tf + 68)
  ss := low (loadWord mem (tf + 72))

/-- The general registers in a frame. -/
def TrapFrame.regs (tf : TrapFrame) (esp : Word) : Reg → Word
  | .eax => tf.eax
  | .ecx => tf.ecx
  | .edx => tf.edx
  | .ebx => tf.ebx
  | .esp => esp
  | .ebp => tf.ebp
  | .esi => tf.esi
  | .edi => tf.edi

def TrapFrame.segs (tf : TrapFrame) (ss : BitVec 16) : Seg → BitVec 16
  | .es => tf.es
  | .cs => tf.cs
  | .ss => ss
  | .ds => tf.ds
  | .fs => tf.fs
  | .gs => tf.gs

/-- The processor with the registers of a frame. -/
def TrapFrame.cpu (tf : TrapFrame) (esp : Word) (ss : BitVec 16) (mem : Memory) : Cpu where
  reg := tf.regs esp
  seg := tf.segs ss
  eip := tf.eip
  eflags := tf.eflags
  mem := mem

end Xv6.Machine
