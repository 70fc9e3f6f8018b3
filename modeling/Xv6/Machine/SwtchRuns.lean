import Xv6.Machine.Swtch

/-!
# Threads that switch (swtch.S, allocproc() of proc.c)

Any number of processors and of kernel stacks in one memory.  A thread runs on a processor
until it calls swtch(), and then stands where it called it; a new one stands where
allocproc() has put it.
-/

set_option autoImplicit false

namespace Xv6.Machine

open Xv6.Lib.Words
open Xv6.Lib.Assembly

def KSTACKSIZE : Nat := 4096

/-- The four bytes of a pointer. -/
def cellBytes (a : Word) : Set Word := {x | (x - a).toNat < 4}

/-- Where the stacks are, and the pointers to the contexts (`p->context`, `c->scheduler`). -/
structure Stacks (T : Type) where
  kstack : T → Word
  cell : T → Word
  apart : ∀ i j x, (x - kstack i).toNat < KSTACKSIZE → (x - kstack j).toNat < KSTACKSIZE → i = j
  cells : ∀ i j x, x ∈ cellBytes (cell i) → x ∈ cellBytes (cell j) → i = j
  outside : ∀ i j x, x ∈ cellBytes (cell i) → ¬ (x - kstack j).toNat < KSTACKSIZE

variable {T C : Type}

/-- The bytes of a kernel stack. -/
def Stacks.stack (l : Stacks T) (i : T) : Set Word := {x | (x - l.kstack i).toNat < KSTACKSIZE}

/-- The stack of a thread and the pointer to its context. -/
def Stacks.own (l : Stacks T) (i : T) : Set Word := l.stack i ∪ cellBytes (l.cell i)

theorem Stacks.own_apart (l : Stacks T) {i j : T} {x : Word} (first : x ∈ l.own i)
    (second : x ∈ l.own j) : i = j := by
  rcases first with stack | cell
  · rcases second with other | there
    · exact l.apart i j x stack other
    · exact absurd stack (l.outside j i x there)
  · rcases second with other | there
    · exact absurd other (l.outside i j x cell)
    · exact l.cells i j x cell there

/-! ## allocproc() -/

/-- `p->tf` -/
def Stacks.tf (l : Stacks T) (i : T) : Word := l.kstack i + BitVec.ofNat 32 KSTACKSIZE - 76

/-- The memory after the stores of allocproc(): `trapret` below the trap frame, and below it
a context that is zero but for `eip`. -/
def Stacks.allocproc (l : Stacks T) (k : Symbols) (i : T) (mem : Memory) : Memory :=
  let sp := l.tf i - 4
  let context := sp - 20
  storeWord (storeWord (storeWord (storeWord (storeWord (storeWord (storeWord (storeWord mem
    sp k.trapret) (l.cell i) context) context 0) (context + 4) 0) (context + 8) 0)
    (context + 12) 0) (context + 16) 0) (context + 16) k.forkret

/-- A call of swtch() that would have left this stack. -/
def newborn (k : Symbols) (l : Stacks T) (i : T) (mem : Memory) : Cpu where
  reg := Function.update (fun _ => 0) .esp (l.tf i - 8)
  seg := Function.update (fun _ => kernelData) .cs kernelCode
  eip := k.swtch
  eflags := 0
  mem := mem

/-! ## Steps -/

structure Threads (T C : Type) where
  mem : Memory
  /-- The registers of the processors. -/
  core : C → Cpu
  cur : C → T
  /-- Where a thread that is on no processor has called swtch(). -/
  call : T → Option Cpu

namespace Threads

/-- A processor with the memory that it shares. -/
def on (s : Threads T C) (n : C) : Cpu := { s.core n with mem := s.mem }

/-- The bytes that belong to threads that are on no processor. -/
def Kept (l : Stacks T) (s : Threads T C) (mem : Memory) : Prop :=
  ∀ j, (s.call j).isSome = true → ∀ x ∈ l.own j, mem x = s.mem x

/-- Processor `n` is at the first instruction of swtch(&old, new), for the thread `j`. -/
structure Calls (k : Symbols) (l : Stacks T) (s : Threads T C) (n : C) (j : T) : Prop where
  eip : (s.on n).eip = k.swtch
  old : (s.on n).word 4 = l.cell (s.cur n)
  new : (s.on n).word 8 = loadWord s.mem (l.cell j)
  /-- The stack has room for the context. -/
  room : ((s.on n).reg .esp - 16 - l.kstack (s.cur n)).toNat + 20 ≤ KSTACKSIZE
  segs : (s.on n).seg .cs = kernelCode ∧ (s.on n).seg .ss = kernelData

variable [DecidableEq T] [DecidableEq C]

inductive Step (k : Symbols) (l : Stacks T) : Threads T C → Threads T C → Prop where
  /-- Code on a processor, which leaves alone what belongs to threads that do not run. -/
  | work (s : Threads T C) (n : C) (c : Cpu) (kept : Kept l s c.mem) :
      Step k l s { s with mem := c.mem, core := Function.update s.core n c }
  | swtch (s : Threads T C) (n : C) (j : T) (there : (s.call j).isSome = true)
      (calls : Calls k l s n j) :
      Step k l s
        { mem := (swtched (s.on n)).mem
          core := Function.update s.core n (swtched (s.on n))
          cur := Function.update s.cur n j
          call := Function.update (Function.update s.call (s.cur n) (some (s.on n))) j none }
  /-- allocproc(), and the trap frame that fork() or userinit() fills in. -/
  | create (s : Threads T C) (i : T) (frame : List Byte) (size : frame.length = 76)
      (idle : ∀ n, s.cur n ≠ i) (unused : s.call i = none) :
      Step k l s
        { s with
          mem := overlay (l.allocproc k i s.mem) (l.tf i) frame
          call := Function.update s.call i
            (some (newborn k l i (overlay (l.allocproc k i s.mem) (l.tf i) frame))) }
  /-- A zombie is waited for. -/
  | reap (s : Threads T C) (i : T) (idle : ∀ n, s.cur n ≠ i) :
      Step k l s { s with call := Function.update s.call i none }

end Threads

/-! ## The invariant -/

/-- A thread stands in its call of swtch(). -/
structure Suspended (l : Stacks T) (mem : Memory) (j : T) (call : Cpu) : Prop where
  cell : loadWord mem (l.cell j) = call.reg .esp - 16
  context : contextAt mem (call.reg .esp - 16) = callContext call
  room : (call.reg .esp - 16 - l.kstack j).toNat + 20 ≤ KSTACKSIZE
  segs : call.seg .cs = kernelCode ∧ call.seg .ss = kernelData
  stack : ∀ x ∈ l.stack j, 16 ≤ (x - (call.reg .esp - 16)).toNat → mem x = call.mem x

/-- The processor is behind a call of swtch(), which has kept to the calling convention. -/
structure Resumed (l : Stacks T) (j : T) (call c : Cpu) : Prop where
  eip : c.eip = call.top
  esp : c.reg .esp = call.reg .esp + 4
  saved : ∀ r, r = .ebx ∨ r = .ebp ∨ r = .esi ∨ r = .edi → c.reg r = call.reg r
  kept : c.seg .cs = call.seg .cs ∧ c.seg .ss = call.seg .ss
  /-- All of its stack is as it was, but for the context. -/
  stack : ∀ x ∈ l.stack j, 16 ≤ (x - (call.reg .esp - 16)).toNat → c.mem x = call.mem x

structure Inv (l : Stacks T) (s : Threads T C) : Prop where
  alone : ∀ n m, s.cur n = s.cur m → n = m
  running : ∀ n, s.call (s.cur n) = none
  suspended : ∀ j call, s.call j = some call → Suspended l s.mem j call

variable {k : Symbols} {l : Stacks T} {mem mem' : Memory} {i j : T} {call c : Cpu}

/-- The context is in the stack. -/
theorem Suspended.inside (suspended : Suspended l mem j call) {d : Nat} (small : d < 20) :
    call.reg .esp - 16 + BitVec.ofNat 32 d ∈ l.stack j := by
  have room := suspended.room
  show (call.reg .esp - 16 + BitVec.ofNat 32 d - l.kstack j).toNat < KSTACKSIZE
  unfold KSTACKSIZE at room ⊢
  bv_omega

theorem cell_member {a : Word} {d : Nat} (small : d < 4) : a + BitVec.ofNat 32 d ∈ cellBytes a := by
  show (a + BitVec.ofNat 32 d - a).toNat < 4
  bv_omega

theorem Suspended.congr (suspended : Suspended l mem j call)
    (same : ∀ x ∈ l.own j, mem' x = mem x) : Suspended l mem' j call := by
  constructor
  case cell =>
    rw [← suspended.cell]
    exact loadWord_congr fun i inside => same _ (Or.inr (cell_member inside))
  case context =>
    rw [← suspended.context]
    refine contextAt_congr fun d small => loadWord_congr fun i inside => ?_
    rw [BitVec.add_assoc, ← BitVec.ofNat_add]
    exact same _ (Or.inl (suspended.inside (by omega)))
  case room => exact suspended.room
  case segs => exact suspended.segs
  case stack => exact fun x there far => (same x (Or.inl there)).trans (suspended.stack x there far)

/-! ## A switch -/

section Switch
variable {s : Threads T C} {n : C}

/-- The context that is being saved is in the stack of the thread that calls. -/
theorem Threads.Calls.inside (calls : s.Calls k l n j) {x : Word}
    (near : (x - ((s.on n).reg .esp - 16)).toNat < 20) : x ∈ l.stack (s.cur n) := by
  have room := calls.room
  show (x - l.kstack (s.cur n)).toNat < KSTACKSIZE
  unfold KSTACKSIZE at room ⊢
  generalize (s.on n).reg .esp - 16 = a at room near
  bv_omega

/-- What belongs to other threads is not written. -/
theorem Threads.Calls.same (calls : s.Calls k l n j) (other : i ≠ s.cur n) {x : Word}
    (mine : x ∈ l.own i) : savedMem (s.on n) x = s.mem x := by
  refine savedMem_other (Nat.le_of_not_lt fun near => ?_) (Nat.le_of_not_lt fun near => ?_)
  · exact other (l.own_apart mine (Or.inl (calls.inside (Nat.lt_trans near (by decide)))))
  · rw [calls.old] at near
    exact other (l.own_apart mine (Or.inr near))

/-- The thread that calls swtch() stands in its call. -/
theorem Threads.Calls.suspended (calls : s.Calls k l n j) :
    Suspended l (savedMem (s.on n)) (s.cur n) (s.on n) := by
  constructor
  case cell =>
    rw [← calls.old]
    exact savedMem_cell (s.on n)
  case context =>
    refine savedMem_context (Nat.le_of_not_lt fun near => ?_) (Nat.le_of_not_lt fun near => ?_)
    · rw [calls.old] at near
      have member : l.cell (s.cur n) ∈ cellBytes (l.cell (s.cur n)) := by
        show (l.cell (s.cur n) - l.cell (s.cur n)).toNat < 4
        simp
      exact l.outside _ _ _ member (calls.inside near)
    · rw [calls.old] at near
      refine l.outside (s.cur n) (s.cur n) ((s.on n).reg .esp - 16) near (calls.inside ?_)
      simp
  case room => exact calls.room
  case segs => exact calls.segs
  case stack =>
    intro x there far
    refine savedMem_other far (Nat.le_of_not_lt fun near => ?_)
    rw [calls.old] at near
    exact l.outside _ _ _ near there

/-- The thread that is switched to comes back from its call. -/
theorem Threads.Calls.resumed (calls : s.Calls k l n j) (other : j ≠ s.cur n)
    (suspended : Suspended l s.mem j call) : Resumed l j call (swtched (s.on n)) := by
  have now : Suspended l (savedMem (s.on n)) j call :=
    suspended.congr fun x mine => calls.same other mine
  have new : (s.on n).word 8 = call.reg .esp - 16 := calls.new.trans suspended.cell
  have context : contextAt (savedMem (s.on n)) ((s.on n).word 8) = callContext call := by
    rw [new]
    exact now.context
  constructor
  case eip => exact congrArg Context.eip context
  case esp =>
    show (s.on n).word 8 + 20 = call.reg .esp + 4
    rw [new]
    bv_omega
  case saved =>
    rintro r (rfl | rfl | rfl | rfl)
    · exact congrArg Context.ebx context
    · exact congrArg Context.ebp context
    · exact congrArg Context.esi context
    · exact congrArg Context.edi context
  case kept =>
    exact ⟨calls.segs.1.trans suspended.segs.1.symm, calls.segs.2.trans suspended.segs.2.symm⟩
  case stack => exact now.stack

end Switch

/-! ## A new thread -/

section Newborn
variable {frame : List Byte} {x w : Word}

/-- `p->context` after allocproc(). -/
def Stacks.context (l : Stacks T) (i : T) : Word := l.tf i - 4 - 20

theorem context_stack {d : Nat} (small : d < 100) :
    l.context i + BitVec.ofNat 32 d ∈ l.stack i := by
  show (l.context i + BitVec.ofNat 32 d - l.kstack i).toNat < KSTACKSIZE
  unfold Stacks.context Stacks.tf KSTACKSIZE
  generalize l.kstack i = a
  bv_omega

/-- A store near the context. -/
theorem store_context {d : Nat} (small : d + 4 ≤ 100) (outside : x ∉ l.stack i) :
    storeWord mem (l.context i + BitVec.ofNat 32 d) w x = mem x := by
  refine storeWord_outside (Nat.le_of_not_lt fun near => outside ?_)
  have eq : x = l.context i + BitVec.ofNat 32 (d + (x - (l.context i +
      BitVec.ofNat 32 d)).toNat) := by
    generalize l.context i = a
    bv_omega
  rw [eq]
  exact context_stack (by omega)

theorem word_other {a : Word} {d e : Nat} (apart : d + 4 ≤ e ∨ e + 4 ≤ d) (first : d < 100)
    (second : e < 100) : loadWord (storeWord mem (a + BitVec.ofNat 32 d) w)
      (a + BitVec.ofNat 32 e) = loadWord mem (a + BitVec.ofNat 32 e) := by
  refine loadWord_storeWord_other ?_ ?_
  · bv_omega
  · bv_omega

/-- The stores of allocproc() to the stack, by their distance from the context. -/
theorem allocproc_eq (mem : Memory) :
    l.allocproc k i mem =
      storeWord (storeWord (storeWord (storeWord (storeWord (storeWord
        (storeWord (storeWord mem (l.context i + BitVec.ofNat 32 20) k.trapret) (l.cell i)
          (l.context i))
        (l.context i + BitVec.ofNat 32 0) 0) (l.context i + BitVec.ofNat 32 4) 0)
        (l.context i + BitVec.ofNat 32 8) 0) (l.context i + BitVec.ofNat 32 12) 0)
        (l.context i + BitVec.ofNat 32 16) 0) (l.context i + BitVec.ofNat 32 16) k.forkret := by
  have sp : l.context i + BitVec.ofNat 32 20 = l.tf i - 4 := BitVec.sub_add_cancel _ _
  rw [sp, BitVec.add_zero]
  rfl

/-- The memory of a new thread, away from it. -/
theorem born_other (size : frame.length = 76) (outside : x ∉ l.own i) :
    overlay (l.allocproc k i mem) (l.tf i) frame x = mem x := by
  have stack : x ∉ l.stack i := fun inside => outside (Or.inl inside)
  have cell : x ∉ cellBytes (l.cell i) := fun inside => outside (Or.inr inside)
  have far : frame.length ≤ (x - l.tf i).toNat := by
    rw [size]
    refine Nat.le_of_not_lt fun near => stack ?_
    have eq : x = l.context i + BitVec.ofNat 32 (24 + (x - l.tf i).toNat) := by
      unfold Stacks.context
      generalize l.tf i = a
      bv_omega
    rw [eq]
    exact context_stack (by omega)
  rw [overlay_outside far, allocproc_eq, store_context (by decide) stack,
    store_context (by decide) stack, store_context (by decide) stack,
    store_context (by decide) stack, store_context (by decide) stack,
    store_context (by decide) stack, storeWord_outside (Nat.le_of_not_lt cell),
    store_context (by decide) stack]

theorem born_cell (size : frame.length = 76) :
    loadWord (overlay (l.allocproc k i mem) (l.tf i) frame) (l.cell i) = l.context i := by
  have same : ∀ d, d < 4 →
      overlay (l.allocproc k i mem) (l.tf i) frame (l.cell i + BitVec.ofNat 32 d) =
        storeWord (storeWord mem (l.context i + BitVec.ofNat 32 20) k.trapret) (l.cell i)
          (l.context i) (l.cell i + BitVec.ofNat 32 d) := by
    intro d small
    have stack : l.cell i + BitVec.ofNat 32 d ∉ l.stack i :=
      l.outside i i _ (cell_member small)
    have far : frame.length ≤ (l.cell i + BitVec.ofNat 32 d - l.tf i).toNat := by
      rw [size]
      refine Nat.le_of_not_lt fun near => stack ?_
      have eq : l.cell i + BitVec.ofNat 32 d = l.context i +
          BitVec.ofNat 32 (24 + (l.cell i + BitVec.ofNat 32 d - l.tf i).toNat) := by
        unfold Stacks.context
        generalize l.tf i = a
        generalize l.cell i + BitVec.ofNat 32 d = b
        bv_omega
      rw [eq]
      exact context_stack (by omega)
    rw [overlay_outside far, allocproc_eq, store_context (by decide) stack,
      store_context (by decide) stack, store_context (by decide) stack,
      store_context (by decide) stack, store_context (by decide) stack,
      store_context (by decide) stack]
  rw [loadWord_congr same]
  exact loadWord_storeWord ..

/-- The words of the new stack below the trap frame. -/
theorem born_word (size : frame.length = 76) {d : Nat} (small : d + 4 ≤ 24) :
    loadWord (overlay (l.allocproc k i mem) (l.tf i) frame) (l.context i + BitVec.ofNat 32 d) =
      loadWord (l.allocproc k i mem) (l.context i + BitVec.ofNat 32 d) := by
  refine loadWord_congr fun j inside => overlay_outside ?_
  rw [size]
  unfold Stacks.context
  generalize l.tf i = a
  bv_omega

theorem allocproc_context (mem : Memory) :
    contextAt (l.allocproc k i mem) (l.context i) = { eip := k.forkret } := by
  have edi : loadWord (l.allocproc k i mem) (l.context i + BitVec.ofNat 32 0) = 0 := by
    rw [allocproc_eq, word_other (by decide) (by decide) (by decide),
      word_other (by decide) (by decide) (by decide),
      word_other (by decide) (by decide) (by decide),
      word_other (by decide) (by decide) (by decide),
      word_other (by decide) (by decide) (by decide), loadWord_storeWord]
  have esi : loadWord (l.allocproc k i mem) (l.context i + BitVec.ofNat 32 4) = 0 := by
    rw [allocproc_eq, word_other (by decide) (by decide) (by decide),
      word_other (by decide) (by decide) (by decide),
      word_other (by decide) (by decide) (by decide),
      word_other (by decide) (by decide) (by decide), loadWord_storeWord]
  have ebx : loadWord (l.allocproc k i mem) (l.context i + BitVec.ofNat 32 8) = 0 := by
    rw [allocproc_eq, word_other (by decide) (by decide) (by decide),
      word_other (by decide) (by decide) (by decide),
      word_other (by decide) (by decide) (by decide), loadWord_storeWord]
  have ebp : loadWord (l.allocproc k i mem) (l.context i + BitVec.ofNat 32 12) = 0 := by
    rw [allocproc_eq, word_other (by decide) (by decide) (by decide),
      word_other (by decide) (by decide) (by decide), loadWord_storeWord]
  have eip : loadWord (l.allocproc k i mem) (l.context i + BitVec.ofNat 32 16) = k.forkret := by
    rw [allocproc_eq, loadWord_storeWord]
  rw [BitVec.add_zero] at edi
  unfold contextAt
  rw [edi]
  exact congr (congr (congr (congrArg _ esi) ebx) ebp) eip

theorem allocproc_trapret (mem : Memory) :
    loadWord (l.allocproc k i mem) (l.context i + BitVec.ofNat 32 20) = k.trapret := by
  rw [allocproc_eq, word_other (by decide) (by decide) (by decide),
    word_other (by decide) (by decide) (by decide),
    word_other (by decide) (by decide) (by decide),
    word_other (by decide) (by decide) (by decide),
    word_other (by decide) (by decide) (by decide),
    word_other (by decide) (by decide) (by decide)]
  refine (loadWord_congr fun d inside => ?_).trans
    (loadWord_storeWord mem (l.context i + BitVec.ofNat 32 20) k.trapret)
  refine storeWord_outside (Nat.le_of_not_lt fun near => ?_)
  rw [BitVec.add_assoc, ← BitVec.ofNat_add] at near
  exact l.outside i i _ near (context_stack (by omega))

theorem born_context (size : frame.length = 76) :
    contextAt (overlay (l.allocproc k i mem) (l.tf i) frame) (l.context i) =
      { eip := k.forkret } := by
  rw [← allocproc_context mem]
  exact contextAt_congr fun d small => born_word size (by omega)

theorem newborn_esp (mem : Memory) : (newborn k l i mem).reg .esp - 16 = l.context i := by
  show l.tf i - 8 - 16 = l.tf i - 4 - 20
  bv_omega

/-- A new thread begins in forkret(). -/
theorem newborn_top (size : frame.length = 76) :
    (newborn k l i (overlay (l.allocproc k i mem) (l.tf i) frame)).top = k.forkret := by
  have esp : l.tf i - 8 = l.context i + 16 := by
    unfold Stacks.context
    bv_omega
  show loadWord _ (l.tf i - 8) = k.forkret
  rw [esp]
  exact congrArg Context.eip (born_context size)

/-- The new thread stands where allocproc() has put it. -/
theorem born_suspended (size : frame.length = 76) :
    Suspended l (overlay (l.allocproc k i mem) (l.tf i) frame) i
      (newborn k l i (overlay (l.allocproc k i mem) (l.tf i) frame)) := by
  constructor
  case cell =>
    rw [newborn_esp]
    exact born_cell size
  case context =>
    rw [newborn_esp, born_context size, callContext, newborn_top size]
    rfl
  case room =>
    rw [newborn_esp]
    unfold Stacks.context Stacks.tf KSTACKSIZE
    generalize l.kstack i = a
    bv_omega
  case segs => exact ⟨rfl, rfl⟩
  case stack => exact fun x _ _ => rfl

end Newborn

/-! ## Runs -/

section Runs
variable [DecidableEq T] [DecidableEq C] {s s' s₀ : Threads T C} {n : C}

omit [DecidableEq T] [DecidableEq C] in
/-- A thread that stands in a call is on no processor. -/
theorem Inv.elsewhere (inv : Inv l s) (there : (s.call j).isSome = true) (n : C) :
    s.cur n ≠ j := by
  rintro rfl
  rw [inv.running n] at there
  cases there

theorem Inv.switch (inv : Inv l s) (there : (s.call j).isSome = true) (calls : s.Calls k l n j) :
    Inv l
      { mem := (swtched (s.on n)).mem
        core := Function.update s.core n (swtched (s.on n))
        cur := Function.update s.cur n j
        call := Function.update (Function.update s.call (s.cur n) (some (s.on n))) j none } := by
  have idle := inv.elsewhere there
  constructor
  case alone =>
    intro a b same
    simp only [Function.update_apply] at same
    split at same <;> split at same
    · rename_i first second
      exact first.trans second.symm
    · exact absurd same.symm (idle b)
    · exact absurd same (idle a)
    · exact inv.alone a b same
  case running =>
    intro m
    simp only [Function.update_apply]
    split
    · rw [if_pos rfl]
    · rename_i other
      rw [if_neg (idle m), if_neg fun same => other (inv.alone m n same)]
      exact inv.running m
  case suspended =>
    intro i call stands
    simp only [Function.update_apply] at stands
    split at stands
    · cases stands
    · split at stands
      · rename_i leaves
        obtain rfl := Option.some.inj stands
        rw [leaves]
        exact calls.suspended
      · rename_i other
        exact (inv.suspended i call stands).congr fun x mine => calls.same other mine

omit [DecidableEq C] in
theorem Inv.create (inv : Inv l s) {frame : List Byte} (size : frame.length = 76)
    (idle : ∀ n, s.cur n ≠ i) :
    Inv l
      { s with
        mem := overlay (l.allocproc k i s.mem) (l.tf i) frame
        call := Function.update s.call i
          (some (newborn k l i (overlay (l.allocproc k i s.mem) (l.tf i) frame))) } := by
  refine ⟨inv.alone, fun n => ?_, fun j call stands => ?_⟩
  · exact (Function.update_of_ne (idle n) _ _).trans (inv.running n)
  · simp only [Function.update_apply] at stands
    split at stands
    · rename_i new
      obtain rfl := Option.some.inj stands
      rw [new]
      exact born_suspended size
    · rename_i other
      refine (inv.suspended j call stands).congr fun x mine => born_other size fun there => ?_
      exact other (l.own_apart mine there)

theorem Inv.step (inv : Inv l s) (step : s.Step k l s') : Inv l s' := by
  cases step with
  | work n c kept =>
      refine ⟨inv.alone, inv.running, fun j call there => ?_⟩
      exact (inv.suspended j call there).congr (kept j (by rw [there]; rfl))
  | swtch n j there calls => exact inv.switch there calls
  | create i frame size idle unused => exact inv.create size idle
  | reap i idle =>
      refine ⟨inv.alone, fun n => ?_, fun j call stands => ?_⟩
      · exact (Function.update_of_ne (idle n) _ _).trans (inv.running n)
      · simp only [Function.update_apply] at stands
        split at stands
        · cases stands
        · exact inv.suspended j call stands

theorem Inv.run (inv : Inv l s) (run : Relation.ReflTransGen (Threads.Step k l) s s') :
    Inv l s' := by
  induction run with
  | refl => exact inv
  | tail _ step ih => exact ih.step step

/-! ## Since when a thread stands where it stands -/

/-- Where a thread has come to stand: it has called swtch(), or it is new. -/
inductive Left (k : Symbols) (l : Stacks T) (s s' : Threads T C) (j : T) : Cpu → Prop where
  | called (n : C) (mine : s.cur n = j) (eip : (s.on n).eip = k.swtch) : Left k l s s' j (s.on n)
  | created (mem : Memory) (frame : List Byte) (size : frame.length = 76)
      (now : s'.mem = overlay (l.allocproc k j mem) (l.tf j) frame) :
      Left k l s s' j (newborn k l j s'.mem)

/-- The thread does not run meanwhile. -/
def Away (k : Symbols) (l : Stacks T) (j : T) (call : Cpu) :
    Threads T C → Threads T C → Prop :=
  Relation.ReflTransGen fun s s' => s.Step k l s' ∧ s.call j = some call ∧ s'.call j = some call

theorem Threads.Step.left (step : s.Step k l s') (before : s.call j ≠ some call)
    (after : s'.call j = some call) : Left k l s s' j call := by
  cases step with
  | work n c kept => exact absurd after before
  | swtch n i there calls =>
      simp only [Function.update_apply] at after
      split at after
      · cases after
      · split at after
        · rename_i mine
          obtain rfl := Option.some.inj after
          exact .called n mine.symm calls.eip
        · exact absurd after before
  | create i frame size idle unused =>
      simp only [Function.update_apply] at after
      split at after
      · rename_i mine
        obtain rfl := Option.some.inj after
        subst mine
        exact .created s.mem frame size rfl
      · exact absurd after before
  | reap i idle =>
      simp only [Function.update_apply] at after
      split at after
      · cases after
      · exact absurd after before

/-- A run in which a thread has come to stand in a call, and has not gone on since. -/
theorem left_of_run (none : s₀.call j = none)
    (run : Relation.ReflTransGen (Threads.Step k l) s₀ s) (stands : s.call j = some call) :
    ∃ a b, Relation.ReflTransGen (Threads.Step k l) s₀ a ∧ a.Step k l b ∧ Left k l a b j call ∧
      Away k l j call b s := by
  induction run with
  | refl =>
      rw [none] at stands
      cases stands
  | @tail mid last run step ih =>
      by_cases before : mid.call j = some call
      · obtain ⟨a, b, first, leaves, left, away⟩ := ih before
        exact ⟨a, b, first, leaves, left, away.tail ⟨step, before, stands⟩⟩
      · exact ⟨mid, last, run, step, step.left before stands, Relation.ReflTransGen.refl⟩

/-- No thread has called swtch() yet. -/
structure Started (s : Threads T C) : Prop where
  alone : ∀ n m, s.cur n = s.cur m → n = m
  idle : ∀ j, s.call j = none

omit [DecidableEq T] [DecidableEq C] in
theorem Started.inv (started : Started s) (l : Stacks T) : Inv l s := by
  refine ⟨started.alone, fun n => started.idle _, fun j call stands => ?_⟩
  rw [started.idle j] at stands
  cases stands

end Runs

/-! ## Two threads -/

/-- Two kernel stacks. -/
def twoStacks : Stacks Bool where
  kstack i := bif i then 131072 else 65536
  cell i := bif i then 1048592 else 1048576
  apart := by
    intro i j x first second
    unfold KSTACKSIZE at first second
    cases i <;> cases j <;> simp only [cond_true, cond_false] at first second <;>
      first | rfl | bv_omega
  cells := by
    intro i j x first second
    have first : (x - bif i then 1048592#32 else 1048576#32).toNat < 4 := first
    have second : (x - bif j then 1048592#32 else 1048576#32).toNat < 4 := second
    cases i <;> cases j <;> simp only [cond_true, cond_false] at first second <;>
      first | rfl | bv_omega
  outside := by
    intro i j x first second
    have first : (x - bif i then 1048592#32 else 1048576#32).toNat < 4 := first
    unfold KSTACKSIZE at second
    cases i <;> cases j <;> simp only [cond_true, cond_false] at first second <;> bv_omega

/-- A processor on the first stack. -/
def oneThread : Threads Bool Unit where
  mem _ := 0
  core _ :=
    { reg := Function.update (fun _ => 0) .esp 67584
      seg := Function.update (fun _ => kernelData) .cs kernelCode
      eip := smallSymbols.swtch
      eflags := 0
      mem := fun _ => 0 }
  cur _ := false
  call _ := none

theorem oneThread_started : Started oneThread := ⟨fun _ _ _ => rfl, fun _ => rfl⟩

section Two
variable (frame : List Byte)

/-- The other thread has been created. -/
def twoThreads : Threads Bool Unit :=
  { oneThread with
    mem := overlay (twoStacks.allocproc smallSymbols true oneThread.mem) (twoStacks.tf true) frame
    call := Function.update oneThread.call true
      (some (newborn smallSymbols twoStacks true
        (overlay (twoStacks.allocproc smallSymbols true oneThread.mem) (twoStacks.tf true)
          frame))) }

/-- The arguments of swtch() are on the stack. -/
def twoMem : Memory :=
  storeWord (storeWord (twoThreads frame).mem 67588 (twoStacks.cell false)) 67592
    (twoStacks.context true)

def twoCalling : Threads Bool Unit :=
  { twoThreads frame with
    mem := twoMem frame
    core := Function.update (twoThreads frame).core ()
      { oneThread.core () with mem := twoMem frame } }

variable {frame}

theorem twoMem_other {x : Word} (other : x ∈ twoStacks.own true) :
    twoMem frame x = (twoThreads frame).mem x := by
  have far : 4 ≤ (x - 67588).toNat ∧ 4 ≤ (x - 67592).toNat := by
    rcases other with stack | cell
    · have stack : (x - 131072#32).toNat < 4096 := stack
      bv_omega
    · have cell : (x - 1048592#32).toNat < 4 := cell
      bv_omega
  rw [twoMem, storeWord_outside far.2, storeWord_outside far.1]

theorem twoCalling_run (size : frame.length = 76) :
    Relation.ReflTransGen (Threads.Step smallSymbols twoStacks) oneThread (twoCalling frame) := by
  have create : oneThread.Step smallSymbols twoStacks (twoThreads frame) :=
    .create oneThread true frame size (fun _ => Bool.noConfusion) rfl
  have work : (twoThreads frame).Step smallSymbols twoStacks (twoCalling frame) := by
    refine .work (twoThreads frame) () { oneThread.core () with mem := twoMem frame } ?_
    intro j there x mine
    cases j with
    | false => cases there
    | true => exact twoMem_other mine
  exact (Relation.ReflTransGen.single create).tail work

theorem twoCalling_calls (size : frame.length = 76) :
    (twoCalling frame).Calls smallSymbols twoStacks () true := by
  have new : loadWord (twoMem frame) 67592 = twoStacks.context true := loadWord_storeWord ..
  constructor
  case eip => rfl
  case old =>
    show loadWord (twoMem frame) 67588 = twoStacks.cell false
    rw [twoMem, loadWord_storeWord_other (by decide) (by decide)]
    exact loadWord_storeWord ..
  case new =>
    refine new.trans ?_
    rw [← born_cell (k := smallSymbols) (l := twoStacks) (i := true) size]
    exact (loadWord_congr fun i inside => twoMem_other (Or.inr (cell_member inside))).symm
  case room =>
    show (67584#32 - 16 - 65536#32).toNat + 20 ≤ KSTACKSIZE
    decide
  case segs => exact ⟨rfl, rfl⟩

end Two

end Xv6.Machine
