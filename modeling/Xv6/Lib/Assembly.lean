import Mathlib.Logic.Function.Basic
import Mathlib.Logic.Relation
import Xv6.Lib.Words

/-!
# Code of a 32-bit processor

The registers and the memory of an i386, some of its instructions, and runs of the code
that lies at given addresses.  Code that a compiler has made is a routine that keeps to
the calling convention.  `Stacked` reads the stack as a list of words, so that what has
been pushed can be looked up without addresses.
-/

set_option autoImplicit false

namespace Xv6.Lib.Assembly

open Xv6.Lib.Words

inductive Reg where
  | eax | ecx | edx | ebx | esp | ebp | esi | edi
  deriving DecidableEq

inductive Seg where
  | es | cs | ss | ds | fs | gs
  deriving DecidableEq

@[ext] structure Cpu where
  reg : Reg → Word
  seg : Seg → BitVec 16
  eip : Word
  eflags : Word
  mem : Memory

namespace Cpu

def set (c : Cpu) (r : Reg) (w : Word) : Cpu := { c with reg := Function.update c.reg r w }

def setSeg (c : Cpu) (s : Seg) (w : BitVec 16) : Cpu :=
  { c with seg := Function.update c.seg s w }

/-- A word of the stack. -/
def word (c : Cpu) (offset : Word) : Word := loadWord c.mem (c.reg .esp + offset)

def top (c : Cpu) : Word := loadWord c.mem (c.reg .esp)

def push (c : Cpu) (w : Word) : Cpu :=
  { c.set .esp (c.reg .esp - 4) with mem := storeWord c.mem (c.reg .esp - 4) w }

def drop (c : Cpu) (size : Word) : Cpu := c.set .esp (c.reg .esp + size)

variable (c : Cpu) {r r' : Reg} (w : Word) {s s' : Seg} (v : BitVec 16)

@[simp] theorem set_same : (c.set r w).reg r = w := by simp [set]

@[simp] theorem set_other (other : r' ≠ r) : (c.set r w).reg r' = c.reg r' := by simp [set, other]

@[simp] theorem set_seg : (c.set r w).seg = c.seg := rfl

@[simp] theorem set_mem : (c.set r w).mem = c.mem := rfl

@[simp] theorem set_eflags : (c.set r w).eflags = c.eflags := rfl

@[simp] theorem set_eip : (c.set r w).eip = c.eip := rfl

@[simp] theorem setSeg_same : (c.setSeg s v).seg s = v := by simp [setSeg]

@[simp] theorem setSeg_other (other : s' ≠ s) : (c.setSeg s v).seg s' = c.seg s' := by
  simp [setSeg, other]

@[simp] theorem setSeg_reg : (c.setSeg s v).reg = c.reg := rfl

@[simp] theorem setSeg_mem : (c.setSeg s v).mem = c.mem := rfl

@[simp] theorem setSeg_eflags : (c.setSeg s v).eflags = c.eflags := rfl

@[simp] theorem setSeg_eip : (c.setSeg s v).eip = c.eip := rfl

@[simp] theorem push_esp : (c.push w).reg .esp = c.reg .esp - 4 := by simp [push]

@[simp] theorem push_reg (other : r ≠ .esp) : (c.push w).reg r = c.reg r := by simp [push, other]

@[simp] theorem push_seg : (c.push w).seg = c.seg := rfl

@[simp] theorem push_eflags : (c.push w).eflags = c.eflags := rfl

@[simp] theorem push_eip : (c.push w).eip = c.eip := rfl

@[simp] theorem drop_esp : (c.drop w).reg .esp = c.reg .esp + w := by simp [drop]

@[simp] theorem drop_reg (other : r ≠ .esp) : (c.drop w).reg r = c.reg r := by simp [drop, other]

@[simp] theorem drop_seg : (c.drop w).seg = c.seg := rfl

@[simp] theorem drop_mem : (c.drop w).mem = c.mem := rfl

@[simp] theorem drop_eflags : (c.drop w).eflags = c.eflags := rfl

@[simp] theorem drop_eip : (c.drop w).eip = c.eip := rfl

end Cpu

/-- A segment register as a word of the stack. -/
def selector (w : BitVec 16) : Word := w.setWidth 32

def low (w : Word) : BitVec 16 := w.setWidth 16

@[simp] theorem low_selector (w : BitVec 16) : low (selector w) = w :=
  BitVec.setWidth_setWidth_of_le w (by decide)

/-- The privilege level in a selector. -/
def rpl (w : BitVec 16) : Nat := w.toNat % 4

/-! ## Instructions -/

/-- Instructions that go on with the next one. -/
inductive Op where
  /-- `pushl $w` -/
  | pushImm (w : Word)
  | push (r : Reg)
  | pop (r : Reg)
  | pushSeg (s : Seg)
  | popSeg (s : Seg)
  | pushal
  | popal
  /-- `movw $w, r`, the low half of the register. -/
  | movImm (w : BitVec 16) (r : Reg)
  /-- `movw r, s` -/
  | movSeg (r : Reg) (s : Seg)
  | mov (src dst : Reg)
  /-- `movl disp(base), dst` -/
  | load (disp : Word) (base dst : Reg)
  /-- `movl src, (base)` -/
  | store (src base : Reg)
  /-- `addl $w, r` -/
  | add (w : Word) (r : Reg)
  deriving DecidableEq

inductive Instr where
  | op (o : Op)
  | jmp (a : Word)
  | call (a : Word)
  | ret
  | iret
  deriving DecidableEq

def pushal (c : Cpu) : Cpu :=
  ((((((((c.push (c.reg .eax)).push (c.reg .ecx)).push (c.reg .edx)).push (c.reg .ebx)).push
    (c.reg .esp)).push (c.reg .ebp)).push (c.reg .esi)).push (c.reg .edi))

/-- The saved stack pointer is not loaded. -/
def popal (c : Cpu) : Cpu :=
  (((((((c.set .edi (c.word 0)).set .esi (c.word 4)).set .ebp (c.word 8)).set .ebx
    (c.word 16)).set .edx (c.word 20)).set .ecx (c.word 24)).set .eax (c.word 28)).drop 32

def Op.run : Op → Cpu → Cpu
  | .pushImm w, c => c.push w
  | .push r, c => c.push (c.reg r)
  | .pop r, c => (c.drop 4).set r c.top
  | .pushSeg s, c => c.push (selector (c.seg s))
  | .popSeg s, c => (c.drop 4).setSeg s (low c.top)
  | .pushal, c => Assembly.pushal c
  | .popal, c => Assembly.popal c
  | .movImm w r, c => c.set r ((c.reg r).extractLsb' 16 16 ++ w)
  | .movSeg r s, c => c.setSeg s (low (c.reg r))
  | .mov src dst, c => c.set dst (c.reg src)
  | .load disp base dst, c => c.set dst (loadWord c.mem (c.reg base + disp))
  | .store src base, c => { c with mem := storeWord c.mem (c.reg base) (c.reg src) }
  | .add w r, c => c.set r (c.reg r + w)

/-- Back from an interrupt, to the same level or to an outer one. -/
def iret (c : Cpu) : Option Cpu :=
  let cs := low (c.word 4)
  if rpl cs < rpl (c.seg .cs) then none
  else
    let back := { c.setSeg .cs cs with eip := c.word 0, eflags := c.word 8 }
    if rpl cs = rpl (c.seg .cs) then some (back.drop 12)
    else some ((back.set .esp (c.word 12)).setSeg .ss (low (c.word 16)))

theorem iret_same {c : Cpu} (same : rpl (low (c.word 4)) = rpl (c.seg .cs)) :
    iret c = some (Cpu.drop
      { c.setSeg .cs (low (c.word 4)) with eip := c.word 0, eflags := c.word 8 } 12) := by
  unfold iret
  rw [if_neg (Nat.not_lt_of_le (Nat.le_of_eq same.symm)), if_pos same]

theorem iret_outer {c : Cpu} (outer : rpl (c.seg .cs) < rpl (low (c.word 4))) :
    iret c = some ((Cpu.set
      { c.setSeg .cs (low (c.word 4)) with eip := c.word 0, eflags := c.word 8 }
      .esp (c.word 12)).setSeg .ss (low (c.word 16))) := by
  unfold iret
  rw [if_neg (Nat.not_lt_of_lt outer), if_neg (Nat.ne_of_gt outer)]

/-- An instruction, with the address of the next one. -/
def Instr.exec (c : Cpu) (next : Word) : Instr → Option Cpu
  | .op o => some { o.run c with eip := next }
  | .jmp a => some { c with eip := a }
  | .call a => some { c.push next with eip := a }
  | .ret => some { c.drop 4 with eip := c.top }
  | .iret => Assembly.iret c

/-! ## Interrupts -/

structure Gate where
  selector : BitVec 16
  handler : Word
  /-- A trap gate, which leaves FL_IF. -/
  trap : Bool
  deriving DecidableEq

/-- What the processor clears in `eflags`: TF, NT, RF and VM, and FL_IF. -/
def Gate.mask (g : Gate) : Word := if g.trap then 0x34100 else 0x34300

/-- An interrupt with an error code or without one: on the stack of the task state when the
level changes, else on the one in use. -/
def interrupt (g : Gate) (esp0 : Word) (ss0 : BitVec 16) (err : Option Word) (c : Cpu) : Cpu :=
  let stack :=
    if rpl (c.seg .cs) = rpl g.selector then c
    else (((c.set .esp esp0).setSeg .ss ss0).push (selector (c.seg .ss))).push (c.reg .esp)
  let frame := ((stack.push c.eflags).push (selector (c.seg .cs))).push c.eip
  let full := match err with
    | none => frame
    | some e => frame.push e
  { full.setSeg .cs g.selector with eip := g.handler, eflags := c.eflags &&& ~~~ g.mask }

/-! ## Code in memory -/

/-- A compiled function that keeps to the calling convention. -/
structure Routine where
  body : Cpu → Cpu
  eip : ∀ c, (body c).eip = c.top
  esp : ∀ c, (body c).reg .esp = c.reg .esp + 4
  saved : ∀ c r, r = .ebx ∨ r = .ebp ∨ r = .esi ∨ r = .edi → (body c).reg r = c.reg r
  kept : ∀ c s, s = .cs ∨ s = .ss → (body c).seg s = c.seg s

/-- A function that only returns. -/
def returns : Routine where
  body c := { c.drop 4 with eip := c.top }
  eip _ := rfl
  esp c := Cpu.drop_esp c 4
  saved c r other := Cpu.drop_reg c 4 (by rcases other with rfl | rfl | rfl | rfl <;> decide)
  kept _ _ _ := rfl

/-- What is at an address. -/
inductive Item where
  | instr (i : Instr) (next : Word)
  | routine (f : Routine)

/-- The code of a program, by address. -/
abbrev Text := Word → Option Item

variable (text : Text)

def step (c : Cpu) : Option Cpu :=
  match text c.eip with
  | none => none
  | some (.instr i next) => i.exec c next
  | some (.routine f) => some (f.body c)

/-- The processor comes from one state to another. -/
def Run : Cpu → Cpu → Prop := Relation.ReflTransGen fun c c' => step text c = some c'

/-- The instructions lie one after another, from `a` up to `b`. -/
def Code : Word → List Instr → Word → Prop
  | a, [], b => a = b
  | a, i :: is, b => ∃ next, text a = some (.instr i next) ∧ Code next is b

variable {text}

theorem Run.refl (c : Cpu) : Run text c c := Relation.ReflTransGen.refl

theorem Run.trans {c c' c'' : Cpu} (first : Run text c c') (second : Run text c' c'') :
    Run text c c'' := Relation.ReflTransGen.trans first second

theorem Run.head {c c' c'' : Cpu} (first : step text c = some c') (rest : Run text c' c'') :
    Run text c c'' := Relation.ReflTransGen.head first rest

theorem step_instr {c : Cpu} {i : Instr} {next : Word} (here : text c.eip = some (.instr i next)) :
    step text c = i.exec c next := by
  rw [step, here]

theorem step_routine {c : Cpu} {f : Routine} (here : text c.eip = some (.routine f)) :
    step text c = some (f.body c) := by
  rw [step, here]

theorem Code.append {a b : Word} {is js : List Instr} (code : Code text a (is ++ js) b) :
    ∃ mid, Code text a is mid ∧ Code text mid js b := by
  induction is generalizing a with
  | nil => exact ⟨a, rfl, code⟩
  | cons i is ih =>
      obtain ⟨next, here, rest⟩ := code
      obtain ⟨mid, first, second⟩ := ih rest
      exact ⟨mid, ⟨next, here, first⟩, second⟩

/-- Instructions of one byte each from `a` on. -/
def block (a : Word) (is : List Instr) : Text := fun x =>
  is[(x - a).toNat]?.map fun i => .instr i (x + 1)

theorem Code.of_block {a : Word} {is : List Instr} (short : is.length < 2 ^ 32)
    (there : ∀ x, (x - a).toNat < is.length → text x = block a is x) :
    Code text a is (a + BitVec.ofNat 32 is.length) := by
  induction is generalizing a with
  | nil => exact (BitVec.add_zero a).symm
  | cons i is ih =>
      rw [List.length_cons] at short
      refine ⟨a + 1, ?_, ?_⟩
      · rw [there a (by simp), block, BitVec.sub_self]
        rfl
      · have after : ∀ x, (x - (a + 1)).toNat < is.length → text x = block (a + 1) is x := by
          intro x near
          have next : (x - a).toNat = (x - (a + 1)).toNat + 1 := by bv_omega
          rw [there x (by rw [next, List.length_cons]; omega), block, block, next,
            List.getElem?_cons_succ]
        have last : a + BitVec.ofNat 32 (i :: is).length = a + 1 + BitVec.ofNat 32 is.length := by
          rw [List.length_cons, Nat.add_comm, BitVec.ofNat_add, BitVec.add_assoc]
          rfl
        rw [last]
        exact ih (by omega) after

/-- Registers and memory after some instructions in a row. -/
def runOps (ops : List Op) (c : Cpu) : Cpu := ops.foldl (fun c o => o.run c) c

theorem Op.run_eip (o : Op) (c : Cpu) (a : Word) :
    o.run { c with eip := a } = { o.run c with eip := a } := by
  cases o <;> rfl

theorem runOps_eip (ops : List Op) (c : Cpu) (a : Word) :
    runOps ops { c with eip := a } = { runOps ops c with eip := a } := by
  induction ops generalizing c with
  | nil => rfl
  | cons o ops ih =>
      rw [runOps, List.foldl_cons, o.run_eip]
      exact ih (o.run c)

/-- Instructions in a row are executed. -/
theorem Code.run {ops : List Op} {c : Cpu} {b : Word}
    (code : Code text c.eip (ops.map .op) b) : Run text c { runOps ops c with eip := b } := by
  induction ops generalizing c with
  | nil =>
      have same : c.eip = b := code
      subst same
      exact Run.refl c
  | cons o ops ih =>
      obtain ⟨next, here, rest⟩ := code
      have first : step text c = some { o.run c with eip := next } := step_instr here
      have later := ih (c := { o.run c with eip := next }) rest
      rw [runOps_eip] at later
      exact Run.head first later

/-! ## The stack -/

/-- The words from an address on. -/
def Stacked (mem : Memory) : Word → List Word → Prop
  | _, [] => True
  | a, w :: ws => loadWord mem a = w ∧ Stacked mem (a + 4) ws

theorem loadWord_congr {mem mem' : Memory} {a b : Word}
    (same : ∀ i, i < 4 → mem' (b + BitVec.ofNat 32 i) = mem (a + BitVec.ofNat 32 i)) :
    loadWord mem' b = loadWord mem a := by
  have first : mem' b = mem a := by
    have here := same 0 (by decide)
    rwa [BitVec.add_zero, BitVec.add_zero] at here
  have second : mem' (b + 1) = mem (a + 1) := same 1 (by decide)
  have third : mem' (b + 2) = mem (a + 2) := same 2 (by decide)
  have last : mem' (b + 3) = mem (a + 3) := same 3 (by decide)
  rw [loadWord, loadWord, first, second, third, last]

theorem loadWord_storeWord_other {mem : Memory} {a b w : Word} (before : 4 ≤ (b - a).toNat)
    (after : 4 ≤ (a - b).toNat) : loadWord (storeWord mem a w) b = loadWord mem b := by
  have first : storeWord mem a w b = mem b := storeWord_outside before
  have second : storeWord mem a w (b + 1) = mem (b + 1) := storeWord_outside (by bv_omega)
  have third : storeWord mem a w (b + 2) = mem (b + 2) := storeWord_outside (by bv_omega)
  have last : storeWord mem a w (b + 3) = mem (b + 3) := storeWord_outside (by bv_omega)
  rw [loadWord, loadWord, first, second, third, last]

/-- A store elsewhere. -/
theorem Stacked.store {mem : Memory} {a x w : Word} {ws : List Word} (stacked : Stacked mem a ws)
    (above : 4 * ws.length ≤ (x - a).toNat) (below : 4 ≤ (a - x).toNat) :
    Stacked (storeWord mem x w) a ws := by
  induction ws generalizing a with
  | nil => trivial
  | cons v ws ih =>
      rw [List.length_cons] at above
      refine ⟨?_, ?_⟩
      · rw [loadWord_storeWord_other below (by omega)]
        exact stacked.1
      · cases ws with
        | nil => trivial
        | cons u ws =>
            rw [List.length_cons] at above
            apply ih stacked.2
            · rw [List.length_cons]
              bv_omega
            · bv_omega

theorem Stacked.append {mem : Memory} {a : Word} {ws vs : List Word}
    (stacked : Stacked mem a (ws ++ vs)) :
    Stacked mem a ws ∧ Stacked mem (a + BitVec.ofNat 32 (4 * ws.length)) vs := by
  induction ws generalizing a with
  | nil =>
      refine ⟨trivial, ?_⟩
      rw [List.length_nil, BitVec.add_zero]
      exact stacked
  | cons w ws ih =>
      obtain ⟨first, rest⟩ := ih stacked.2
      refine ⟨⟨stacked.1, first⟩, ?_⟩
      have next : a + BitVec.ofNat 32 (4 * (w :: ws).length) =
          a + 4 + BitVec.ofNat 32 (4 * ws.length) := by
        rw [List.length_cons, Nat.mul_add, Nat.add_comm, BitVec.ofNat_add, BitVec.add_assoc]
        rfl
      rw [next]
      exact rest

/-- `ws` has been pushed since `base`. -/
structure Pushed (base : Cpu) (ws : List Word) (c : Cpu) : Prop where
  stacked : Stacked c.mem (c.reg .esp) ws
  esp : c.reg .esp = base.reg .esp - BitVec.ofNat 32 (4 * ws.length)
  reg : ∀ r, r ≠ .esp → c.reg r = base.reg r
  seg : c.seg = base.seg
  /-- The memory below the old stack pointer is used, and no other. -/
  mem : ∀ x, 4 * ws.length ≤ (x - c.reg .esp).toNat → c.mem x = base.mem x

theorem Pushed.nil (base : Cpu) : Pushed base [] base where
  stacked := trivial
  esp := (BitVec.sub_zero _).symm
  reg := fun _ _ => rfl
  seg := rfl
  mem := fun _ _ => rfl

theorem Pushed.push {base c : Cpu} {ws : List Word} (pushed : Pushed base ws c)
    (room : 4 * (ws.length + 1) < 2 ^ 32) (w : Word) : Pushed base (w :: ws) (c.push w) := by
  have esp := pushed.esp
  constructor
  case stacked =>
    rw [Cpu.push_esp]
    refine ⟨loadWord_storeWord .., ?_⟩
    rw [BitVec.sub_add_cancel]
    refine Stacked.store pushed.stacked ?_ ?_
    · bv_omega
    · bv_omega
  case esp =>
    rw [Cpu.push_esp, esp, List.length_cons]
    bv_omega
  case reg =>
    intro r other
    rw [Cpu.push_reg c w other]
    exact pushed.reg r other
  case seg => exact pushed.seg
  case mem =>
    intro x far
    rw [Cpu.push_esp, List.length_cons] at far
    have here : (c.push w).mem x = c.mem x := storeWord_outside (by bv_omega)
    rw [here]
    exact pushed.mem x (by bv_omega)

/-- All general registers are pushed. -/
theorem Pushed.pushal {base c : Cpu} {ws : List Word} (pushed : Pushed base ws c)
    (room : 4 * (ws.length + 8) < 2 ^ 32) :
    Pushed base (c.reg .edi :: c.reg .esi :: c.reg .ebp :: c.reg .esp :: c.reg .ebx ::
      c.reg .edx :: c.reg .ecx :: c.reg .eax :: ws) (Assembly.pushal c) := by
  have first := pushed.push (by omega) (c.reg .eax)
  have second := first.push (by rw [List.length_cons]; omega) (c.reg .ecx)
  have third := second.push (by simp only [List.length_cons]; omega) (c.reg .edx)
  have fourth := third.push (by simp only [List.length_cons]; omega) (c.reg .ebx)
  have fifth := fourth.push (by simp only [List.length_cons]; omega) (c.reg .esp)
  have sixth := fifth.push (by simp only [List.length_cons]; omega) (c.reg .ebp)
  have seventh := sixth.push (by simp only [List.length_cons]; omega) (c.reg .esi)
  exact seventh.push (by simp only [List.length_cons]; omega) (c.reg .edi)

end Xv6.Lib.Assembly
