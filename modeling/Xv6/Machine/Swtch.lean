import Xv6.Machine.TrapPath

/-!
# swtch() (swtch.S)

What swtch() leaves on the stack that it leaves, and what it loads from the one that it
comes to.
-/

set_option autoImplicit false

namespace Xv6.Machine

open Xv6.Lib.Words
open Xv6.Lib.Assembly

variable {text : Text} {k : Symbols} {c : Cpu} {mem : Memory} {a b w : Word}

/-- `struct context` -/
structure Context where
  edi : Word := 0
  esi : Word := 0
  ebx : Word := 0
  ebp : Word := 0
  eip : Word
  deriving DecidableEq

/-- `*context` -/
def contextAt (mem : Memory) (a : Word) : Context where
  edi := loadWord mem a
  esi := loadWord mem (a + 4)
  ebx := loadWord mem (a + 8)
  ebp := loadWord mem (a + 12)
  eip := loadWord mem (a + 16)

theorem contextAt_congr {mem mem' : Memory} {a : Word}
    (same : ∀ d : Nat, d + 4 ≤ 20 →
      loadWord mem' (a + BitVec.ofNat 32 d) = loadWord mem (a + BitVec.ofNat 32 d)) :
    contextAt mem' a = contextAt mem a := by
  have first := same 0 (by decide)
  rw [BitVec.add_zero] at first
  have second := same 4 (by decide)
  have third := same 8 (by decide)
  have fourth := same 12 (by decide)
  have last := same 16 (by decide)
  simp only [contextAt, BitVec.ofNat_eq_ofNat] at first second third fourth last ⊢
  rw [first, second, third, fourth, last]

/-- The context that a call of swtch() saves. -/
def callContext (c : Cpu) : Context where
  edi := c.reg .edi
  esi := c.reg .esi
  ebx := c.reg .ebx
  ebp := c.reg .ebp
  eip := c.top

/-- The memory after swtch(old, new): the registers below the stack pointer, and `*old`. -/
def savedMem (c : Cpu) : Memory :=
  storeWord (storeWord (storeWord (storeWord (storeWord c.mem
    (c.reg .esp - 4) (c.reg .ebp)) (c.reg .esp - 8) (c.reg .ebx)) (c.reg .esp - 12) (c.reg .esi))
    (c.reg .esp - 16) (c.reg .edi)) (c.word 4) (c.reg .esp - 16)

/-- The processor behind the ret of swtch(old, new). -/
def swtched (c : Cpu) : Cpu where
  reg
    | .eax => c.word 4
    | .ecx => c.reg .ecx
    | .edx => c.word 8
    | .ebx => (contextAt (savedMem c) (c.word 8)).ebx
    | .esp => c.word 8 + 20
    | .ebp => (contextAt (savedMem c) (c.word 8)).ebp
    | .esi => (contextAt (savedMem c) (c.word 8)).esi
    | .edi => (contextAt (savedMem c) (c.word 8)).edi
  seg := c.seg
  eip := (contextAt (savedMem c) (c.word 8)).eip
  eflags := c.eflags
  mem := savedMem c

/-- swtch up to the ret. -/
theorem swtchOps_run (c : Cpu) :
    runOps swtchOps c =
      { swtched c with
        reg := Function.update (swtched c).reg .esp (c.word 8 + 16)
        eip := c.eip } := by
  have second : ∀ x : Word, x - 4#32 - 4#32 = x - 8#32 := fun x => by bv_omega
  have third : ∀ x : Word, x - 8#32 - 4#32 = x - 12#32 := fun x => by bv_omega
  have last : ∀ x : Word, x - 12#32 - 4#32 = x - 16#32 := fun x => by bv_omega
  have mem : (runOps (swtchOps.take 8) c).mem = savedMem c := by
    simp [runOps, swtchOps, Op.run, savedMem, Cpu.push, Cpu.set, Cpu.word, second, third, last]
  ext1
  case reg =>
    funext r
    cases r <;> simp [runOps, swtchOps, Op.run, swtched, contextAt, savedMem, Cpu.push, Cpu.drop,
      Cpu.set, Cpu.word, Cpu.top, second, third, last, BitVec.add_assoc]
  case seg => rfl
  case eip => rfl
  case eflags => rfl
  case mem => exact mem

theorem swtch_run (linked : Linked text k) (here : c.eip = k.swtch) : Run text c (swtched c) := by
  obtain ⟨b, code⟩ := linked.swtch
  obtain ⟨mid, ops, next, last, _⟩ := code.append
  rw [← here] at ops
  have ret : step text { runOps swtchOps c with eip := mid } = some (swtched c) := by
    refine (step_instr (c := { runOps swtchOps c with eip := mid }) last).trans ?_
    refine congrArg some ?_
    rw [swtchOps_run]
    ext1
    case reg =>
      funext r
      cases r <;> simp [Cpu.drop, Cpu.set, swtched, BitVec.add_assoc]
    case seg => rfl
    case eip => rfl
    case eflags => rfl
    case mem => rfl
  exact ops.run.trans (Run.head ret (Run.refl _))

/-! ## What is saved -/

/-- Only the four registers and `*old` are written. -/
theorem savedMem_other {x : Word} (above : 16 ≤ (x - (c.reg .esp - 16)).toNat)
    (other : 4 ≤ (x - c.word 4).toNat) : savedMem c x = c.mem x := by
  unfold savedMem
  rw [storeWord_outside other, storeWord_outside (by bv_omega), storeWord_outside (by bv_omega),
    storeWord_outside (by bv_omega), storeWord_outside (by bv_omega)]

theorem savedMem_cell (c : Cpu) : loadWord (savedMem c) (c.word 4) = c.reg .esp - 16 :=
  loadWord_storeWord ..

/-- `*old` is not in the twenty bytes of the context. -/
theorem savedMem_context (after : 20 ≤ (c.word 4 - (c.reg .esp - 16)).toNat)
    (before : 4 ≤ (c.reg .esp - 16 - c.word 4).toNat) :
    contextAt (savedMem c) (c.reg .esp - 16) = callContext c := by
  have words : Stacked (savedMem c) (c.reg .esp - 16)
      [c.reg .edi, c.reg .esi, c.reg .ebx, c.reg .ebp, c.top] := by
    unfold savedMem
    refine Stacked.store ?_ after before
    have four : c.reg .esp - 16 + 4 = c.reg .esp - 12 := by bv_omega
    have eight : c.reg .esp - 12 + 4 = c.reg .esp - 8 := by bv_omega
    have twelve : c.reg .esp - 8 + 4 = c.reg .esp - 4 := by bv_omega
    have sixteen : c.reg .esp - 4 + 4 = c.reg .esp := BitVec.sub_add_cancel _ _
    refine ⟨loadWord_storeWord .., ?_⟩
    rw [four]
    refine Stacked.store ⟨loadWord_storeWord .., ?_⟩ (by simp only [List.length]; bv_omega)
      (by bv_omega)
    rw [eight]
    refine Stacked.store ⟨loadWord_storeWord .., ?_⟩ (by simp only [List.length]; bv_omega)
      (by bv_omega)
    rw [twelve]
    refine Stacked.store ⟨loadWord_storeWord .., ?_⟩ (by simp only [List.length]; bv_omega)
      (by bv_omega)
    rw [sixteen]
    exact Stacked.store ⟨rfl, trivial⟩ (by simp only [List.length]; bv_omega) (by bv_omega)
  simp only [Stacked, BitVec.add_assoc, BitVec.ofNat_eq_ofNat, BitVec.reduceAdd] at words
  obtain ⟨edi, esi, ebx, ebp, eip, _⟩ := words
  simp only [contextAt, callContext, BitVec.ofNat_eq_ofNat, edi, esi, ebx, ebp, eip]

end Xv6.Machine
