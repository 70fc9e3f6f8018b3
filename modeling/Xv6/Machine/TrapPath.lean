import Xv6.Machine.TrapCode

/-!
# From an interrupt to trap() and back

What trap() finds in its frame is the state that was interrupted, and what it leaves there
is the state that the processor returns to.
-/

set_option autoImplicit false

namespace Xv6.Machine

open Xv6.Lib.Words
open Xv6.Lib.Assembly

variable {text : Text} {k : Symbols} {base c : Cpu} {ws : List Word}

/-! ## trapret -/

theorem trapretOps_run (c : Cpu) :
    runOps trapretOps c =
      { (frameAt c.mem (c.reg .esp)).cpu (c.reg .esp + 56) (c.seg .ss) c.mem with
        seg := Function.update ((frameAt c.mem (c.reg .esp)).segs (c.seg .ss)) .cs (c.seg .cs)
        eip := c.eip
        eflags := c.eflags } := by
  ext1
  case reg =>
    funext r
    cases r <;> simp [runOps, trapretOps, Op.run, popal, Cpu.word, Cpu.top, BitVec.add_assoc,
      TrapFrame.cpu, TrapFrame.regs, frameAt]
  case seg =>
    funext s
    cases s <;> simp [runOps, trapretOps, Op.run, popal, Cpu.word, Cpu.top, BitVec.add_assoc,
      TrapFrame.segs, frameAt]
  case eip => rfl
  case eflags => rfl
  case mem => rfl

theorem trapretOps_word (c : Cpu) (a d : Word) :
    Cpu.word { runOps trapretOps c with eip := a } d = loadWord c.mem (c.reg .esp + (56 + d)) := by
  rw [trapretOps_run, ← BitVec.add_assoc]
  rfl

theorem trapretOps_seg (c : Cpu) : (runOps trapretOps c).seg .cs = c.seg .cs := by
  rw [trapretOps_run]
  rfl

/-- The iret at the end of trapret, to the same level. -/
theorem iret_kernel {a tf : Word} (esp : c.reg .esp = tf)
    (same : (frameAt c.mem tf).cs = c.seg .cs) :
    iret { runOps trapretOps c with eip := a } =
      some ((frameAt c.mem tf).cpu (tf + 68) (c.seg .ss) c.mem) := by
  subst esp
  have cs : low (Cpu.word { runOps trapretOps c with eip := a } 4) = c.seg .cs := by
    rw [trapretOps_word]
    exact same
  rw [iret_same (congrArg rpl (cs.trans (trapretOps_seg c).symm)), cs]
  refine congrArg some ?_
  rw [trapretOps_word, trapretOps_word, trapretOps_run]
  ext1
  case reg =>
    funext r
    cases r <;> simp [TrapFrame.cpu, TrapFrame.regs, Cpu.drop, Cpu.set, BitVec.add_assoc]
  case seg =>
    funext s
    cases s <;> simp [TrapFrame.cpu, TrapFrame.segs, Cpu.setSeg, same]
  case eip => rfl
  case eflags => rfl
  case mem => rfl

/-- To the user. -/
theorem iret_user {a tf : Word} (esp : c.reg .esp = tf)
    (user : rpl (c.seg .cs) < rpl (frameAt c.mem tf).cs) :
    iret { runOps trapretOps c with eip := a } =
      some ((frameAt c.mem tf).cpu (frameAt c.mem tf).esp (frameAt c.mem tf).ss c.mem) := by
  subst esp
  have cs : low (Cpu.word { runOps trapretOps c with eip := a } 4) =
      (frameAt c.mem (c.reg .esp)).cs := by
    rw [trapretOps_word]
    rfl
  have outer : rpl ((runOps trapretOps c).seg .cs) <
      rpl (low (Cpu.word { runOps trapretOps c with eip := a } 4)) := by
    rw [cs, trapretOps_seg]
    exact user
  rw [iret_outer (c := { runOps trapretOps c with eip := a }) outer, cs]
  refine congrArg some ?_
  rw [trapretOps_word, trapretOps_word, trapretOps_word, trapretOps_word, trapretOps_run]
  ext1
  case reg =>
    funext r
    cases r <;> simp [TrapFrame.cpu, TrapFrame.regs, Cpu.set, frameAt]
  case seg =>
    funext s
    cases s <;> simp [TrapFrame.cpu, TrapFrame.segs, Cpu.setSeg, Cpu.set, frameAt]
  case eip => rfl
  case eflags => rfl
  case mem => rfl

/-- trapret, for a frame of the kernel. -/
theorem trapret_kernel (linked : Linked text k) {tf : Word} (here : c.eip = k.trapret)
    (esp : c.reg .esp = tf) (same : (frameAt c.mem tf).cs = c.seg .cs) :
    Run text c ((frameAt c.mem tf).cpu (tf + 68) (c.seg .ss) c.mem) := by
  obtain ⟨b, code⟩ := linked.trapret
  obtain ⟨mid, ops, next, last, _⟩ := code.append
  rw [← here] at ops
  have back : step text { runOps trapretOps c with eip := mid } = _ := step_instr last
  exact ops.run.trans (Run.head (back.trans (iret_kernel esp same)) (Run.refl _))

/-- trapret, for a frame of a user program. -/
theorem trapret_user (linked : Linked text k) {tf : Word} (here : c.eip = k.trapret)
    (esp : c.reg .esp = tf) (user : rpl (c.seg .cs) < rpl (frameAt c.mem tf).cs) :
    Run text c ((frameAt c.mem tf).cpu (frameAt c.mem tf).esp (frameAt c.mem tf).ss c.mem) := by
  obtain ⟨b, code⟩ := linked.trapret
  obtain ⟨mid, ops, next, last, _⟩ := code.append
  rw [← here] at ops
  have back : step text { runOps trapretOps c with eip := mid } = _ := step_instr last
  exact ops.run.trans (Run.head (back.trans (iret_user esp user)) (Run.refl _))

/-! ## The way in -/

theorem ring_kernel : rpl kernelCode = 0 := by decide

/-- The stack that an interrupt uses. -/
def stackOf (esp0 : Word) (c : Cpu) : Cpu :=
  if rpl (c.seg .cs) = 0 then c else (c.set .esp esp0).setSeg .ss kernelData

/-- What an interrupt pushes when the stack changes. -/
def outer (c : Cpu) : List Word :=
  if rpl (c.seg .cs) = 0 then [] else [c.reg .esp, selector (c.seg .ss)]

theorem interrupt_pushed (i : Nat) (esp0 : Word) (err : Option Word) (c : Cpu) :
    Pushed ((stackOf esp0 c).setSeg .cs kernelCode)
      (err.toList ++ c.eip :: selector (c.seg .cs) :: c.eflags :: outer c)
      (interrupt (gate k i) esp0 kernelData err c) := by
  have stack : Pushed (stackOf esp0 c) (outer c)
      (if rpl (c.seg .cs) = rpl (gate k i).selector then c
      else (((c.set .esp esp0).setSeg .ss kernelData).push (selector (c.seg .ss))).push
        (c.reg .esp)) := by
    have ring : rpl (gate k i).selector = 0 := ring_kernel
    unfold stackOf outer
    rw [ring]
    split
    case isTrue => exact Pushed.nil c
    case isFalse =>
      exact ((Pushed.nil _).push (by simp) (selector (c.seg .ss))).push (by simp) (c.reg .esp)
  have short : (outer c).length ≤ 2 := by
    unfold outer
    split <;> simp
  have frame := ((stack.push (by omega) c.eflags).push (by rw [List.length_cons]; omega)
    (selector (c.seg .cs))).push (by simp only [List.length_cons]; omega) c.eip
  have full : ∀ {ws : List Word} {c' : Cpu}, Pushed (stackOf esp0 c) ws c' →
      Pushed ((stackOf esp0 c).setSeg .cs kernelCode) ws
        { c'.setSeg .cs kernelCode with
          eip := (gate k i).handler, eflags := c.eflags &&& ~~~ (gate k i).mask } := by
    intro ws c' pushed
    have seg : Function.update c'.seg .cs kernelCode =
        Function.update (stackOf esp0 c).seg .cs kernelCode := by
      rw [pushed.seg]
    exact ⟨pushed.stacked, pushed.esp, pushed.reg, seg, pushed.mem⟩
  cases err with
  | none => exact full frame
  | some e => exact full (frame.push (by simp only [List.length_cons]; omega) e)

/-- vector`i` makes the frames with an error code and those without one alike. -/
theorem vector_run (linked : Linked text k) {i : Nat} (small : i < 256) {err : Option Word}
    (error : err.isSome = hasError i) (short : ws.length ≤ 5)
    (pushed : Pushed base (err.toList ++ ws) c) (here : c.eip = k.vectors i) :
    ∃ c', Run text c c' ∧ Pushed base (BitVec.ofNat 32 i :: err.getD 0 :: ws) c' ∧
      c'.eip = k.alltraps := by
  obtain ⟨b, code⟩ := linked.vectors i small
  rw [← here, vector, ← error] at code
  cases err with
  | none =>
      obtain ⟨next, first, after, second, last, jump, _⟩ := code
      have zero : step text c = _ := step_instr first
      have number : step text { (c.push 0) with eip := next } = _ := step_instr second
      have jmp : step text { ((c.push 0).push (BitVec.ofNat 32 i)) with eip := after } = _ :=
        step_instr jump
      have both := (pushed.push (by simp; omega) 0).push (by simp; omega) (BitVec.ofNat 32 i)
      exact ⟨_, Run.head zero (Run.head number (Run.head jmp (Run.refl _))),
        ⟨both.stacked, both.esp, both.reg, both.seg, both.mem⟩, rfl⟩
  | some e =>
      obtain ⟨next, first, after, jump, _⟩ := code
      have number : step text c = _ := step_instr first
      have jmp : step text { (c.push (BitVec.ofNat 32 i)) with eip := next } = _ := step_instr jump
      have all := pushed.push (by simp; omega) (BitVec.ofNat 32 i)
      exact ⟨_, Run.head number (Run.head jmp (Run.refl _)),
        ⟨all.stacked, all.esp, all.reg, all.seg, all.mem⟩, rfl⟩

/-- The processor is at the first instruction of trap(tf). -/
structure Calling (text : Text) (k : Symbols) (base : Cpu) (words : List Word) (tf : Word)
    (c : Cpu) : Prop where
  eip : c.eip = k.trap
  back : Code text c.top [.op (.add 4 .esp)] k.trapret
  argument : c.word 4 = tf
  esp : c.reg .esp = tf - 8
  stacked : Stacked c.mem tf words
  data : c.seg .ds = kernelData ∧ c.seg .es = kernelData
  segs : c.seg .cs = base.seg .cs ∧ c.seg .ss = base.seg .ss
  mem : ∀ x, 4 * words.length + 8 ≤ (x - c.reg .esp).toNat → c.mem x = base.mem x

theorem low_movImm (w : Word) (v : BitVec 16) : low (w.extractLsb' 16 16 ++ v) = v :=
  BitVec.setWidth_append_eq_right

/-- The data segments of the kernel. -/
def dataSegs (c : Cpu) : Cpu :=
  runOps [.movImm kernelData .eax, .movSeg .eax .ds, .movSeg .eax .es] c

theorem dataSegs_esp : (dataSegs c).reg .esp = c.reg .esp := by
  simp [dataSegs, runOps, Op.run]

theorem dataSegs_seg (s : Seg) :
    (dataSegs c).seg s = if s = .ds ∨ s = .es then kernelData else c.seg s := by
  cases s <;> simp [dataSegs, runOps, Op.run, low_movImm]

/-- The frame is complete: its address is pushed, and trap() is called. -/
theorem calling_of_pushed {words : List Word} {next : Word} (short : words.length ≤ 19)
    (pushed : Pushed base words c) (code : Code text next [.op (.add 4 .esp)] k.trapret) :
    Calling text k base words (c.reg .esp)
      { ((dataSegs c).push (c.reg .esp)).push next with eip := k.trap } := by
  have two : Pushed (dataSegs c) [next, c.reg .esp] (((dataSegs c).push (c.reg .esp)).push next) :=
    ((Pushed.nil _).push (by simp) _).push (by simp) _
  have last : (((dataSegs c).push (c.reg .esp)).push next).reg .esp = c.reg .esp - 8 := by
    rw [Cpu.push_esp, Cpu.push_esp, dataSegs_esp]
    bv_omega
  have top : (((dataSegs c).push (c.reg .esp)).push next).top = next := two.stacked.1
  have argument : (((dataSegs c).push (c.reg .esp)).push next).word 4 = c.reg .esp :=
    two.stacked.2.1
  constructor
  case eip => rfl
  case back =>
    show Code text ((((dataSegs c).push (c.reg .esp)).push next).top) _ _
    rw [top]
    exact code
  case argument => exact argument
  case esp => exact last
  case stacked =>
    have first := pushed.stacked.store (x := (dataSegs c).reg .esp - 4) (w := c.reg .esp)
      (by rw [dataSegs_esp]; bv_omega) (by rw [dataSegs_esp]; bv_omega)
    exact first.store (x := ((dataSegs c).push (c.reg .esp)).reg .esp - 4) (w := next)
      (by rw [Cpu.push_esp, dataSegs_esp]; bv_omega)
      (by rw [Cpu.push_esp, dataSegs_esp]; bv_omega)
  case data =>
    exact ⟨(dataSegs_seg .ds).trans (if_pos (Or.inl rfl)),
      (dataSegs_seg .es).trans (if_pos (Or.inr rfl))⟩
  case segs =>
    rw [← pushed.seg]
    exact ⟨(dataSegs_seg .cs).trans (if_neg (by decide)),
      (dataSegs_seg .ss).trans (if_neg (by decide))⟩
  case mem =>
    intro x far
    have far : 4 * words.length + 8 ≤ (x - (c.reg .esp - 8)).toNat := last ▸ far
    have here : (((dataSegs c).push (c.reg .esp)).push next).mem x = (dataSegs c).mem x := by
      refine two.mem x ?_
      rw [last]
      simp only [List.length_cons, List.length_nil]
      omega
    refine here.trans (pushed.mem x ?_)
    bv_omega

theorem alltraps_run (linked : Linked text k) (short : ws.length ≤ 7)
    (pushed : Pushed base ws c) (here : c.eip = k.alltraps) :
    ∃ c', Run text c c' ∧
      Calling text k base
        (base.reg .edi :: base.reg .esi :: base.reg .ebp :: (c.reg .esp - 16) :: base.reg .ebx ::
          base.reg .edx :: base.reg .ecx :: base.reg .eax :: selector (base.seg .gs) ::
          selector (base.seg .fs) :: selector (base.seg .es) :: selector (base.seg .ds) :: ws)
        (c.reg .esp - 48) c' := by
  obtain ⟨mid, ops, next, call, code⟩ := linked.alltraps.append
  rw [← here] at ops
  have segs := (((pushed.push (by omega) (selector (c.seg .ds))).push
    (by simp only [List.length_cons]; omega) (selector (c.seg .es))).push
    (by simp only [List.length_cons]; omega) (selector (c.seg .fs))).push
    (by simp only [List.length_cons]; omega) (selector (c.seg .gs))
  have all := segs.pushal (by simp only [List.length_cons]; omega)
  have esp : (pushal ((((c.push (selector (c.seg .ds))).push (selector (c.seg .es))).push
      (selector (c.seg .fs))).push (selector (c.seg .gs)))).reg .esp = c.reg .esp - 48 := by
    simp only [pushal, Cpu.push_esp]
    bv_omega
  have shape : runOps alltrapsOps c =
      (dataSegs (pushal ((((c.push (selector (c.seg .ds))).push (selector (c.seg .es))).push
        (selector (c.seg .fs))).push (selector (c.seg .gs))))).push (c.reg .esp - 48) := by
    rw [← esp, ← dataSegs_esp]
    rfl
  have calling := calling_of_pushed (by simp only [List.length_cons]; omega) all code
  rw [esp] at calling
  -- The words as they are pushed are those of `base`.
  simp only [Cpu.push_reg, Cpu.push_esp, ne_eq, reduceCtorEq, not_false_eq_true] at calling
  rw [pushed.reg .edi Reg.noConfusion, pushed.reg .esi Reg.noConfusion,
    pushed.reg .ebp Reg.noConfusion, pushed.reg .ebx Reg.noConfusion,
    pushed.reg .edx Reg.noConfusion, pushed.reg .ecx Reg.noConfusion,
    pushed.reg .eax Reg.noConfusion] at calling
  have called : step text { runOps alltrapsOps c with eip := mid } = _ :=
    step_instr (c := { runOps alltrapsOps c with eip := mid }) call
  refine ⟨_, ops.run.trans (Run.head called (Run.refl _)), ?_⟩
  show Calling text k base _ _ { (runOps alltrapsOps c).push next with eip := k.trap }
  rw [shape, ← pushed.seg]
  have sixteen : c.reg .esp - 4 - 4 - 4 - 4 = c.reg .esp - 16 := by bv_omega
  rw [sixteen] at calling
  exact calling

/-! ## The frame -/

/-- The frame of an interrupted state. -/
def savedFrame (c : Cpu) (tf : Word) (i : Nat) (err : Option Word) (esp : Word) (ss : BitVec 16) :
    TrapFrame where
  edi := c.reg .edi
  esi := c.reg .esi
  ebp := c.reg .ebp
  oesp := tf + 32
  ebx := c.reg .ebx
  edx := c.reg .edx
  ecx := c.reg .ecx
  eax := c.reg .eax
  gs := c.seg .gs
  fs := c.seg .fs
  es := c.seg .es
  ds := c.seg .ds
  trapno := BitVec.ofNat 32 i
  err := err.getD 0
  eip := c.eip
  cs := c.seg .cs
  eflags := c.eflags
  esp := esp
  ss := ss

/-- The words of a frame, up to `eflags`. -/
def frameWords (c : Cpu) (tf : Word) (i : Nat) (err : Option Word) : List Word :=
  [c.reg .edi, c.reg .esi, c.reg .ebp, tf + 32, c.reg .ebx, c.reg .edx, c.reg .ecx, c.reg .eax,
    selector (c.seg .gs), selector (c.seg .fs), selector (c.seg .es), selector (c.seg .ds),
    BitVec.ofNat 32 i, err.getD 0, c.eip, selector (c.seg .cs), c.eflags]

/-- A frame read back from the words of the stack. -/
theorem frameAt_stacked {mem : Memory} {tf : Word} {i : Nat} {err : Option Word}
    (stacked : Stacked mem tf (frameWords c tf i err)) :
    frameAt mem tf =
      savedFrame c tf i err (loadWord mem (tf + 68)) (low (loadWord mem (tf + 72))) := by
  simp only [frameWords, Stacked, BitVec.add_assoc, BitVec.ofNat_eq_ofNat, BitVec.reduceAdd]
    at stacked
  obtain ⟨edi, esi, ebp, oesp, ebx, edx, ecx, eax, gs, fs, es, ds, trapno, error, eip, cs,
    eflags, _⟩ := stacked
  simp only [frameAt, savedFrame, BitVec.ofNat_eq_ofNat, edi, esi, ebp, oesp, ebx, edx, ecx, eax,
    gs, fs, es, ds, trapno, error, eip, cs, eflags, low_selector]

theorem savedFrame_cpu (tf : Word) (i : Nat) (err : Option Word) (esp : Word) (ss : BitVec 16)
    (mem : Memory) :
    (savedFrame c tf i err esp ss).cpu (c.reg .esp) (c.seg .ss) mem = { c with mem := mem } := by
  ext1
  case reg =>
    funext r
    cases r <;> rfl
  case seg =>
    funext s
    cases s <;> rfl
  case eip => rfl
  case eflags => rfl
  case mem => rfl

/-- Where the frame of an interrupt is. -/
def frameAddress (esp0 : Word) (c : Cpu) : Word :=
  if rpl (c.seg .cs) = 0 then c.reg .esp - 68 else esp0 - 76

/-- trap() is called with the interrupted state in its frame. -/
structure Arrived (k : Symbols) (c : Cpu) (i : Nat) (err : Option Word) (tf : Word) (c' : Cpu) :
    Prop where
  eip : c'.eip = k.trap
  argument : c'.word 4 = tf
  kernel : c'.seg .cs = kernelCode ∧ c'.seg .ds = kernelData ∧ c'.seg .es = kernelData
  /-- Above a frame of the kernel is its stack, as it was. -/
  frame : frameAt c'.mem tf =
    if rpl (c.seg .cs) = 0 then savedFrame c tf i err c.top (low (c.word 4))
    else savedFrame c tf i err (c.reg .esp) (c.seg .ss)
  /-- Only the frame and the call have been written, below the stack pointer. -/
  mem : ∀ x, (if rpl (c.seg .cs) = 0 then 76 else 84) ≤ (x - (tf - 8)).toNat → c'.mem x = c.mem x

/-- From the call of trap() on: what is in the frame when it returns is loaded. -/
structure Returns (text : Text) (k : Symbols) (c : Cpu) (tf : Word) (c' : Cpu) (f : Routine) :
    Prop where
  user : rpl (frameAt (f.body c').mem tf).cs = 3 →
    Run text c' ((frameAt (f.body c').mem tf).cpu (frameAt (f.body c').mem tf).esp
      (frameAt (f.body c').mem tf).ss (f.body c').mem)
  kernel : rpl (c.seg .cs) = 0 → (frameAt (f.body c').mem tf).cs = kernelCode →
    Run text c' ((frameAt (f.body c').mem tf).cpu (c.reg .esp) (c.seg .ss) (f.body c').mem)
  /-- A trap() that leaves the frame alone is not seen by what it has interrupted. -/
  resumed : frameAt (f.body c').mem tf = frameAt c'.mem tf →
    Run text c' { c with mem := (f.body c').mem }

/-- trap() returns into alltraps, which comes to trapret with the frame on top of the stack. -/
theorem calling_back {words : List Word} {tf : Word} {f : Routine}
    (calling : Calling text k base words tf c) (routine : text k.trap = some (.routine f)) :
    ∃ c', Run text c c' ∧ c'.eip = k.trapret ∧ c'.reg .esp = tf ∧ c'.mem = (f.body c).mem ∧
      c'.seg .cs = base.seg .cs ∧ c'.seg .ss = base.seg .ss := by
  have called : step text c = some (f.body c) := step_routine (calling.eip ▸ routine)
  have back := calling.back
  rw [← f.eip c] at back
  have added : Run text (f.body c)
      { runOps [.add 4 .esp] (f.body c) with eip := k.trapret } := Code.run back
  refine ⟨_, Run.head called added, rfl, ?_, rfl, ?_, ?_⟩
  · show ((f.body c).set .esp ((f.body c).reg .esp + 4)).reg .esp = tf
    rw [Cpu.set_same, f.esp, calling.esp]
    bv_omega
  · exact (f.kept c .cs (Or.inl rfl)).trans calling.segs.1
  · exact (f.kept c .ss (Or.inr rfl)).trans calling.segs.2

/-! ## The way there and back -/

theorem stackOf_reg (esp0 : Word) (c : Cpu) {r : Reg} (other : r ≠ .esp) :
    (stackOf esp0 c).reg r = c.reg r := by
  unfold stackOf
  split
  · rfl
  · exact Cpu.set_other c esp0 other

theorem stackOf_seg (esp0 : Word) (c : Cpu) {s : Seg} (other : s ≠ .ss) :
    (stackOf esp0 c).seg s = c.seg s := by
  unfold stackOf
  split
  · rfl
  · exact Cpu.setSeg_other _ kernelData other

theorem stackOf_mem (esp0 : Word) (c : Cpu) : (stackOf esp0 c).mem = c.mem := by
  unfold stackOf
  split <;> rfl

theorem outer_length (c : Cpu) : (outer c).length = if rpl (c.seg .cs) = 0 then 0 else 2 := by
  unfold outer
  split <;> rfl

theorem stackOf_esp (esp0 : Word) (c : Cpu) :
    (stackOf esp0 c).reg .esp - BitVec.ofNat 32 (4 * (5 + (outer c).length)) - 48 =
      frameAddress esp0 c := by
  rw [outer_length]
  unfold stackOf frameAddress
  split
  · bv_omega
  · rw [Cpu.setSeg_reg, Cpu.set_same]
    bv_omega

/-- The interrupt, vector`i` and alltraps. -/
theorem arrive (linked : Linked text k) (c : Cpu) {i : Nat} (small : i < 256) {err : Option Word}
    (error : err.isSome = hasError i) (esp0 : Word) :
    ∃ c', Run text (interrupt (gate k i) esp0 kernelData err c) c' ∧
      Calling text k ((stackOf esp0 c).setSeg .cs kernelCode)
        (frameWords c (frameAddress esp0 c) i err ++ outer c) (frameAddress esp0 c) c' := by
  have length := outer_length c
  have short : (outer c).length ≤ 2 := by
    rw [length]
    split <;> omega
  obtain ⟨c₁, first, pushed, here⟩ := vector_run linked small error
    (by simp only [List.length_cons]; omega) (interrupt_pushed i esp0 err c) rfl
  obtain ⟨c₂, second, calling⟩ := alltraps_run linked
    (by simp only [List.length_cons]; omega) pushed here
  refine ⟨c₂, first.trans second, ?_⟩
  have esp : c₁.reg .esp - 48 = frameAddress esp0 c := by
    have at_c₁ := pushed.esp
    simp only [List.length_cons, Cpu.setSeg_reg] at at_c₁
    rw [at_c₁, ← stackOf_esp]
    congr 4
    omega
  have old : c₁.reg .esp - 16 = frameAddress esp0 c + 32 := by
    rw [← esp]
    bv_omega
  rw [esp, old] at calling
  simp only [Cpu.setSeg_reg, Cpu.setSeg_other, ne_eq, reduceCtorEq, not_false_eq_true,
    stackOf_reg, stackOf_seg] at calling
  exact calling

theorem Calling.arrived {i : Nat} {err : Option Word} {esp0 : Word} {c' : Cpu}
    (calling : Calling text k ((stackOf esp0 c).setSeg .cs kernelCode)
      (frameWords c (frameAddress esp0 c) i err ++ outer c) (frameAddress esp0 c) c') :
    Arrived k c i err (frameAddress esp0 c) c' := by
  obtain ⟨words, above⟩ := calling.stacked.append
  have length : (frameWords c (frameAddress esp0 c) i err).length = 17 := rfl
  have mem : ∀ x, (if rpl (c.seg .cs) = 0 then 76 else 84) ≤
      (x - (frameAddress esp0 c - 8)).toNat → c'.mem x = c.mem x := by
    intro x far
    refine (calling.mem x ?_).trans (congrFun (stackOf_mem esp0 c) x)
    rw [calling.esp, List.length_append, length, outer_length]
    split at far <;> rename_i ring
    · rw [if_pos ring]
      omega
    · rw [if_neg ring]
      omega
  refine ⟨calling.eip, calling.argument, ⟨?_, calling.data⟩, ?_, mem⟩
  · exact calling.segs.1.trans (Cpu.setSeg_same _ _)
  · rw [frameAt_stacked words]
    split
    case isTrue ring =>
      have top : frameAddress esp0 c + 68 = c.reg .esp := by
        unfold frameAddress
        rw [if_pos ring]
        exact BitVec.sub_add_cancel _ _
      have same : ∀ d : Nat, d + 4 ≤ 8 →
          loadWord c'.mem (frameAddress esp0 c + BitVec.ofNat 32 (68 + d)) =
            loadWord c.mem (c.reg .esp + BitVec.ofNat 32 d) := by
        intro d small
        rw [BitVec.ofNat_add, ← BitVec.add_assoc, ← top]
        refine loadWord_congr fun j inside => mem _ ?_
        rw [if_pos ring]
        generalize frameAddress esp0 c = tf
        bv_omega
      have first := same 0 (by decide)
      have second := same 4 (by decide)
      rw [BitVec.add_zero] at first
      congr 1
      exact congrArg low second
    case isFalse ring =>
      unfold outer at above
      rw [if_neg ring, length] at above
      obtain ⟨esp, ss, _⟩ := above
      have next :
          frameAddress esp0 c + 72 = frameAddress esp0 c + BitVec.ofNat 32 (4 * 17) + 4 := by
        rw [BitVec.add_assoc]
        rfl
      have stack : low (loadWord c'.mem (frameAddress esp0 c + 72)) = c.seg .ss := by
        rw [next, ss]
        exact low_selector _
      have pointer : loadWord c'.mem (frameAddress esp0 c + 68) = c.reg .esp := esp
      rw [stack, pointer]

/-- From any interrupt or system call to trap() and back: trap() finds the interrupted state
in the frame, whatever vector and level, and what it leaves there is what the processor goes
on with. -/
theorem trap_path (linked : Linked text k) (c : Cpu) {i : Nat} (small : i < 256)
    {err : Option Word} (error : err.isSome = hasError i) (esp0 : Word)
    (level : c.seg .cs = kernelCode ∨ rpl (c.seg .cs) = 3) :
    ∃ c', Run text (interrupt (gate k i) esp0 kernelData err c) c' ∧
      Arrived k c i err (frameAddress esp0 c) c' ∧
      ∀ f, text k.trap = some (.routine f) → Returns text k c (frameAddress esp0 c) c' f := by
  obtain ⟨c', run, calling⟩ := arrive linked c small error esp0
  have arrived := calling.arrived
  refine ⟨c', run, arrived, fun f routine => ?_⟩
  obtain ⟨back, came, here, esp, mem, cs, ss⟩ := calling_back calling routine
  have ring : back.seg .cs = kernelCode := cs.trans (Cpu.setSeg_same _ _)
  have user : rpl (frameAt (f.body c').mem (frameAddress esp0 c)).cs = 3 →
      Run text c' ((frameAt (f.body c').mem (frameAddress esp0 c)).cpu
        (frameAt (f.body c').mem (frameAddress esp0 c)).esp
        (frameAt (f.body c').mem (frameAddress esp0 c)).ss (f.body c').mem) := by
    intro outer
    rw [← mem] at outer ⊢
    refine came.trans (trapret_user linked here esp ?_)
    rw [ring, ring_kernel, outer]
    decide
  have kernel : rpl (c.seg .cs) = 0 →
      (frameAt (f.body c').mem (frameAddress esp0 c)).cs = kernelCode →
      Run text c' ((frameAt (f.body c').mem (frameAddress esp0 c)).cpu (c.reg .esp) (c.seg .ss)
        (f.body c').mem) := by
    intro inner same
    rw [← mem] at same ⊢
    have run := came.trans (trapret_kernel linked here esp (same.trans ring.symm))
    have stack : stackOf esp0 c = c := if_pos inner
    have top : frameAddress esp0 c + 68 = c.reg .esp := by
      unfold frameAddress
      rw [if_pos inner]
      exact BitVec.sub_add_cancel _ _
    have segment : back.seg .ss = c.seg .ss := by
      rw [ss, stack]
      exact Cpu.setSeg_other _ _ Seg.noConfusion
    rw [top, segment] at run
    exact run
  refine ⟨user, kernel, fun same => ?_⟩
  rw [same, arrived.frame] at user kernel
  rcases level with inner | outer
  · have zero : rpl (c.seg .cs) = 0 := by
      rw [inner]
      exact ring_kernel
    rw [if_pos zero] at kernel
    have run := kernel zero inner
    rwa [savedFrame_cpu] at run
  · have other : ¬ rpl (c.seg .cs) = 0 := by
      rw [outer]
      decide
    rw [if_neg other] at user
    have run : Run text c' ((savedFrame c (frameAddress esp0 c) i err (c.reg .esp)
        (c.seg .ss)).cpu (c.reg .esp) (c.seg .ss) (f.body c').mem) := user outer
    rwa [savedFrame_cpu] at run

/-! ## A small kernel -/

/-- The symbols of a kernel whose functions only return. -/
def smallSymbols : Symbols where
  vectors i := BitVec.ofNat 32 (16 * i)
  alltraps := 4096
  trapret := 4107
  swtch := 4114
  trap := 4127
  forkret := 4127

def smallText : Text := fun x =>
  if x.toNat < 4096 then
    block (BitVec.ofNat 32 (16 * (x.toNat / 16))) (vector 4096 (x.toNat / 16)) x
  else if x.toNat < 4107 then block 4096 (alltraps 4127) x
  else if x.toNat < 4114 then block 4107 trapret x
  else if x.toNat < 4127 then block 4114 swtch x
  else some (.routine returns)

theorem smallText_linked : Linked smallText smallSymbols := by
  constructor
  case vectors =>
    intro i small
    have length : (vector 4096 i).length ≤ 3 := by
      unfold vector
      split <;> simp
    refine ⟨_, Code.of_block (Nat.lt_of_le_of_lt length (by decide)) fun x near => ?_⟩
    have near : (x - BitVec.ofNat 32 (16 * i)).toNat < 3 := by
      exact Nat.lt_of_lt_of_le near length
    have low : x.toNat < 4096 := by bv_omega
    have number : x.toNat / 16 = i := by bv_omega
    rw [smallText, if_pos low, number]
    rfl
  case alltraps =>
    have code : Code smallText 4096 (alltraps 4127) (4096 + BitVec.ofNat 32 11) := by
      refine Code.of_block (by decide) fun x near => ?_
      have near : (x - 4096#32).toNat < 11 := near
      rw [smallText, if_neg (by bv_omega), if_pos (by bv_omega)]
    exact code
  case trapret =>
    refine ⟨_, Code.of_block (by decide) fun x near => ?_⟩
    have near : (x - 4107#32).toNat < 7 := near
    rw [smallText, if_neg (by bv_omega), if_neg (by bv_omega), if_pos (by bv_omega)]
    rfl
  case swtch =>
    refine ⟨_, Code.of_block (by decide) fun x near => ?_⟩
    have near : (x - 4114#32).toNat < 13 := near
    rw [smallText, if_neg (by bv_omega), if_neg (by bv_omega), if_neg (by bv_omega),
      if_pos (by bv_omega)]
    rfl
  case trap => exact ⟨returns, rfl⟩
  case forkret => exact ⟨returns, rfl⟩

/-- A user program. -/
def smallUser : Cpu where
  reg := Function.update (fun _ => 7) .esp 12288
  seg := Function.update (fun _ => 35) .cs 27
  eip := 100
  eflags := 512
  mem := fun _ => 0

theorem trap_path_syscall :
    ∃ c', Run smallText (interrupt (gate smallSymbols 64) 8192 kernelData none smallUser) c' ∧
      Arrived smallSymbols smallUser 64 none (frameAddress 8192 smallUser) c' ∧
      ∀ f, smallText smallSymbols.trap = some (.routine f) →
        Returns smallText smallSymbols smallUser (frameAddress 8192 smallUser) c' f :=
  trap_path smallText_linked smallUser (by decide) rfl 8192 (Or.inr (by decide))

end Xv6.Machine
