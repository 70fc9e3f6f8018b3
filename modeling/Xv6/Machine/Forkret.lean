import Xv6.Machine.SwtchRuns

/-!
# A new process (forkret() of proc.c, trapret of trapasm.S)

The child of fork() comes to user mode where its parent has made the system call, with all
registers of the parent but `eax`.
-/

set_option autoImplicit false

namespace Xv6.Machine

open Xv6.Lib.Words
open Xv6.Lib.Assembly

variable {text : Text} {k : Symbols} {mem mem' : Memory} {a b tf : Word}

/-! ## Frames that are copied -/

/-- A frame by its words. -/
def frameOf (word : Nat → Word) : TrapFrame where
  edi := word 0
  esi := word 4
  ebp := word 8
  oesp := word 12
  ebx := word 16
  edx := word 20
  ecx := word 24
  eax := word 28
  gs := low (word 32)
  fs := low (word 36)
  es := low (word 40)
  ds := low (word 44)
  trapno := word 48
  err := word 52
  eip := word 56
  cs := low (word 60)
  eflags := word 64
  esp := word 68
  ss := low (word 72)

theorem frameAt_eq (mem : Memory) (tf : Word) :
    frameAt mem tf = frameOf fun d => loadWord mem (tf + BitVec.ofNat 32 d) := by
  simp [frameAt, frameOf]

theorem frameOf_congr {first second : Nat → Word}
    (same : ∀ d, d + 4 ≤ 76 ∧ d % 4 = 0 → first d = second d) : frameOf first = frameOf second := by
  simp (disch := decide) only [frameOf, same]

/-- `*np->tf = *curproc->tf; np->tf->eax = 0` -/
def forkFrame (mem : Memory) (tf : Word) : List Byte := load (storeWord mem (tf + 28) 0) tf 76

theorem forkFrame_length (mem : Memory) (tf : Word) : (forkFrame mem tf).length = 76 :=
  load_length ..

/-- The copy of a frame. -/
theorem frameAt_copied (mem mem' : Memory) (a b : Word) :
    frameAt (overlay mem' b (load mem a 76)) b = frameAt mem a := by
  rw [frameAt_eq, frameAt_eq]
  refine frameOf_congr fun d small => loadWord_congr fun i inside => ?_
  rw [BitVec.add_assoc, BitVec.add_assoc, ← BitVec.ofNat_add,
    overlay_inside _ _ _ (d + i) (by rw [load_length]; omega) (by rw [load_length]; decide)]
  simp [load]

theorem frameAt_eax (mem : Memory) (tf : Word) :
    frameAt (storeWord mem (tf + 28) 0) tf = { frameAt mem tf with eax := 0 } := by
  have words : ∀ d, d + 4 ≤ 76 ∧ d % 4 = 0 →
      loadWord (storeWord mem (tf + 28) 0) (tf + BitVec.ofNat 32 d) =
        Function.update (fun d => loadWord mem (tf + BitVec.ofNat 32 d)) 28 0 d := by
    rintro d ⟨small, aligned⟩
    by_cases here : d = 28
    · subst here
      rw [Function.update_self]
      exact loadWord_storeWord ..
    · rw [Function.update_of_ne here]
      exact word_other (d := 28) (by omega) (by decide) (by omega)
  rw [frameAt_eq, frameAt_eq, frameOf_congr words]
  simp [frameOf]

/-! ## The way to user mode -/

section Child
variable {T C : Type} {l : Stacks T} {s s₀ : Threads T C} {n : C} {j : T} {c : Cpu}
variable {f : Routine} {frame : List Byte}

theorem born_trapret (size : frame.length = 76) :
    loadWord (overlay (l.allocproc k j mem) (l.tf j) frame) (l.tf j - 4) = k.trapret := by
  have place : l.tf j - 4 = l.context j + BitVec.ofNat 32 20 := (BitVec.sub_add_cancel _ _).symm
  rw [place, born_word size (by decide)]
  exact allocproc_trapret mem

/-- What is in the stack of a new thread is still there when it is switched to first. -/
theorem Resumed.same (resumed : Resumed l j (newborn k l j mem) c) {x : Word}
    (near : (x - (l.tf j - 4)).toNat < 80) : c.mem x = mem x := by
  refine resumed.stack x ?_ ?_
  · have inside : x = l.context j + BitVec.ofNat 32 (20 + (x - (l.tf j - 4)).toNat) := by
      unfold Stacks.context
      generalize l.tf j = a
      bv_omega
    rw [inside]
    exact context_stack (by omega)
  · rw [newborn_esp]
    unfold Stacks.context
    generalize l.tf j = a at near ⊢
    bv_omega

/-- forkret() returns to trapret, with the frame on top of the stack. -/
theorem Resumed.starts (linked : Linked text k) (size : frame.length = 76)
    (resumed : Resumed l j (newborn k l j (overlay (l.allocproc k j mem) (l.tf j) frame)) c)
    (routine : text k.forkret = some (.routine f))
    (kept : ∀ x, (x - l.tf j).toNat < 76 → (f.body c).mem x = c.mem x)
    (user : rpl (frameAt (overlay (l.allocproc k j mem) (l.tf j) frame) (l.tf j)).cs = 3) :
    Run text c ((frameAt (overlay (l.allocproc k j mem) (l.tf j) frame) (l.tf j)).cpu
      (frameAt (overlay (l.allocproc k j mem) (l.tf j) frame) (l.tf j)).esp
      (frameAt (overlay (l.allocproc k j mem) (l.tf j) frame) (l.tf j)).ss (f.body c).mem) := by
  have eip : c.eip = k.forkret := resumed.eip.trans (newborn_top size)
  have esp : c.reg .esp = l.tf j - 4 := by
    refine resumed.esp.trans ?_
    show l.tf j - 8 + 4 = l.tf j - 4
    bv_omega
  have called : step text c = some (f.body c) := step_routine (eip ▸ routine)
  have here : (f.body c).eip = k.trapret := by
    rw [f.eip, Cpu.top, esp, ← born_trapret (k := k) (l := l) (j := j) size]
    refine loadWord_congr fun i inside => resumed.same ?_
    bv_omega
  have top : (f.body c).reg .esp = l.tf j := by
    rw [f.esp, esp]
    exact BitVec.sub_add_cancel _ _
  have same : frameAt (f.body c).mem (l.tf j) =
      frameAt (overlay (l.allocproc k j mem) (l.tf j) frame) (l.tf j) := by
    rw [frameAt_eq, frameAt_eq]
    refine frameOf_congr fun d small => loadWord_congr fun i inside => ?_
    have near : l.tf j + BitVec.ofNat 32 d + BitVec.ofNat 32 i - l.tf j =
        BitVec.ofNat 32 (d + i) := by
      rw [BitVec.ofNat_add]
      bv_omega
    rw [kept _ (by rw [near, BitVec.toNat_ofNat]; omega)]
    refine resumed.same ?_
    bv_omega
  have ring : (f.body c).seg .cs = kernelCode :=
    (f.kept c .cs (Or.inl rfl)).trans resumed.kept.1
  refine Run.head called ?_
  rw [← same] at user ⊢
  refine trapret_user linked here top ?_
  rw [ring, ring_kernel, user]
  decide

variable [DecidableEq T] [DecidableEq C]

/-- The child of a fork() in a system call from the state `c`: it comes to user mode with the
registers of the parent and `eax` zero, whatever has run since. -/
theorem fork_child {mem₀ mem₁ : Memory} {i : Nat} {err : Option Word} (linked : Linked text k)
    (saved : frameAt mem₀ tf = savedFrame c tf i err (c.reg .esp) (c.seg .ss))
    (user : rpl (c.seg .cs) = 3) (started : Started s₀)
    (run : Relation.ReflTransGen (Threads.Step k l) s₀ s)
    (new : s.call j =
      some (newborn k l j (overlay (l.allocproc k j mem₁) (l.tf j) (forkFrame mem₀ tf))))
    (calls : s.Calls k l n j) (routine : text k.forkret = some (.routine f))
    (kept : ∀ x, (x - l.tf j).toNat < 76 →
      (f.body (swtched (s.on n))).mem x = (swtched (s.on n)).mem x) :
    Run text (s.on n) { c.set .eax 0 with mem := (f.body (swtched (s.on n))).mem } := by
  have inv := (started.inv l).run run
  have there : (s.call j).isSome = true := by
    rw [new]
    rfl
  have resumed := calls.resumed (inv.elsewhere there n).symm (inv.suspended j _ new)
  have frame : frameAt (overlay (l.allocproc k j mem₁) (l.tf j) (forkFrame mem₀ tf)) (l.tf j) =
      { savedFrame c tf i err (c.reg .esp) (c.seg .ss) with eax := 0 } := by
    rw [← saved, ← frameAt_eax]
    exact frameAt_copied ..
  have starts := resumed.starts linked (forkFrame_length mem₀ tf) routine kept (by
    rw [frame]
    exact user)
  rw [frame] at starts
  have same : TrapFrame.cpu { savedFrame c tf i err (c.reg .esp) (c.seg .ss) with eax := 0 }
      (c.reg .esp) (c.seg .ss) (f.body (swtched (s.on n))).mem =
      { c.set .eax 0 with mem := (f.body (swtched (s.on n))).mem } := by
    ext1
    case reg =>
      funext r
      cases r <;> rfl
    case seg =>
      funext s
      cases s <;> rfl
    case eip => rfl
    case eflags => rfl
    case mem => rfl
  rw [← same]
  exact (swtch_run linked calls.eip).trans starts

end Child

/-- A kernel stack with the frame of a system call. -/
def smallParent : Memory :=
  overlay (fun _ => 0) 8116 ((frameWords smallUser 8116 64 none ++
    [smallUser.reg .esp, selector (smallUser.seg .ss)]).flatMap wordBytes)

theorem fork_child_two :
    Run smallText ((twoCalling (forkFrame smallParent 8116)).on ())
      { smallUser.set .eax 0 with
        mem := (returns.body (swtched ((twoCalling (forkFrame smallParent 8116)).on ()))).mem } :=
  have saved : frameAt smallParent 8116 =
      savedFrame smallUser 8116 64 none (smallUser.reg .esp) (smallUser.seg .ss) := by decide
  fork_child smallText_linked saved (by decide) oneThread_started
    (twoCalling_run (forkFrame_length smallParent 8116)) rfl
    (twoCalling_calls (forkFrame_length smallParent 8116)) rfl (fun _ _ => rfl)

end Xv6.Machine
