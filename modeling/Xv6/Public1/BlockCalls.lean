import Mathlib.Logic.Function.Basic
import Xv6.Lib.Runs
import Xv6.Public1.Syscall

/-!
# block() and unblock() (xv6-public_1)

The two calls from user code through syscall() to `blocked_syscalls`, and runs
of them.  block() refuses fork and exit only, so it can also block unblock();
from then on the dispatcher rejects every unblock().
-/

set_option autoImplicit false

namespace Xv6.Public1.BlockCalls

open Xv6.Lib.Runs
open Xv6.Lib.Words
open Xv6.Machine
open Xv6.Public1.Syscall

def setBlocked (i : Fin 32) (value : Int) (p : Caller) : Caller :=
  { p with blocked_syscalls := Function.update p.blocked_syscalls i value }

def block_actual (syscall_id : Int) (p : Caller) : Word × Caller :=
  if syscall_id = Call.sys_fork.number ∨ syscall_id = Call.sys_exit.number then (-1, p)
  else if inside : 0 ≤ syscall_id ∧ syscall_id < 32 then
    (0, setBlocked ⟨syscall_id.toNat, inside_lt inside⟩ 1 p)
  else (-1, p)

def unblock_actual (syscall_id : Int) (p : Caller) : Word × Caller :=
  if inside : 0 ≤ syscall_id ∧ syscall_id < 32 then
    (0, setBlocked ⟨syscall_id.toNat, inside_lt inside⟩ 0 p)
  else (-1, p)

def sys_block (p : Caller) : Word × Caller :=
  match argint p 0 with
  | none => (-1, p)
  | some id =>
      if id.toInt = Call.sys_fork.number ∨ id.toInt = Call.sys_exit.number then (-1, p)
      else block_actual id.toInt p

def sys_unblock (p : Caller) : Word × Caller :=
  match argint p 0 with
  | none => (-1, p)
  | some id => unblock_actual id.toInt p

/-- The table of handlers, with those that block() and unblock() do not reach
left open. -/
def handlers (others : Call → Caller → Word × Caller) : Call → Caller → Word × Caller
  | .sys_block => sys_block
  | .sys_unblock => sys_unblock
  | call => others call

inductive Which where
  | block
  | unblock
  deriving DecidableEq

def Which.call : Which → Call
  | .block => .sys_block
  | .unblock => .sys_unblock

/-- One of the two calls, made after user code has left the registers and the
memory as it likes: the argument lies at `esp + 4`. -/
structure UserCall where
  which : Which
  tf : TrapFrame
  mem : Memory

def UserCall.prepare (e : UserCall) (p : Caller) : Caller :=
  { p with tf := { e.tf with eax := BitVec.ofInt 32 e.which.call.number }, mem := e.mem }

/-- The number that the call is about, if its stack can be read. -/
def UserCall.id (e : UserCall) (p : Caller) : Option Word := argint (e.prepare p) 0

section Calls
variable (others : Call → Caller → Word × Caller) (beyond : Int → Int)

def step (p : Caller) (e : UserCall) : Option Caller :=
  some (syscall (handlers others) beyond (e.prepare p))

/-- The dispatcher lets every unblock() through, and unblock(i) then returns 0
and leaves entry `i` clear. -/
def CanUnblock (p : Caller) : Prop :=
  ∀ e : UserCall, e.which = .unblock →
    (dispatchOf beyond (e.prepare p)).ran = some .sys_unblock ∧
      ∀ i : Fin 32, e.id p = some (BitVec.ofNat 32 i.val) →
        (syscall (handlers others) beyond (e.prepare p)).tf.eax = 0 ∧
        (syscall (handlers others) beyond (e.prepare p)).blocked_syscalls i = 0

/-- block() of unblock(), itself not blocked. -/
def Locks (p : Caller) (e : UserCall) : Prop :=
  e.which = .block ∧ e.id p = some 24 ∧ p.blocked_syscalls 23 = 0

instance locksDecidable (p : Caller) (e : UserCall) : Decidable (Locks p e) :=
  inferInstanceAs (Decidable (e.which = .block ∧ e.id p = some 24 ∧ p.blocked_syscalls 23 = 0))

/-- The entry of `blocked_syscalls` that decides about a call. -/
def Which.entry : Which → Fin 32
  | .block => 23
  | .unblock => 24

theorem dispatchOf_prepare (e : UserCall) (p : Caller) :
    (dispatchOf beyond (e.prepare p)).ran =
      if p.blocked_syscalls e.which.entry = 0 then some e.which.call else none := by
  have number : (e.prepare p).tf.eax.toInt = e.which.entry.val := by
    simp only [UserCall.prepare]
    cases e.which <;> rfl
  have entry : readBlocked (e.prepare p).blocked_syscalls beyond (e.prepare p).tf.eax.toInt =
      p.blocked_syscalls e.which.entry := by
    rw [number]
    exact readBlocked_inside _ beyond _
  have found : (lookup (e.prepare p).tf.eax.toInt).ran = some e.which.call := by
    rw [lookup_ran_iff, number]
    cases e.which <;> rfl
  have ordinary : ∀ num : Int, num = e.which.entry.val →
      num ≠ Call.sys_fork.number ∧ num ≠ Call.sys_exit.number ∧ num ≠ Call.sys_exec.number := by
    rintro num rfl
    cases e.which <;> decide
  obtain ⟨notFork, notExit, notExec⟩ := ordinary _ number
  rcases dispatch_cases (argstr (e.prepare p) 0)
      (readBlocked (e.prepare p).blocked_syscalls beyond) (e.prepare p).tf.eax.toInt with
    ⟨fork | exit | ⟨exec, _⟩, _⟩ | ⟨_, ⟨stopped, way⟩ | ⟨free, way⟩⟩
  · exact absurd fork notFork
  · exact absurd exit notExit
  · exact absurd exec notExec
  · rw [dispatchOf, way, if_neg (entry ▸ stopped)]
  · rw [dispatchOf, way, if_pos (entry ▸ free)]
    exact found

/-! ## What one call does to the entries -/

theorem entry_of_range (id : Word) (low : 0 ≤ id.toInt) (high : id.toInt < 32) :
    (⟨id.toInt.toNat, by omega⟩ : Fin 32) = Fin.ofNat 32 id.toNat := by
  have value : id.toInt = id.toNat := by
    rw [BitVec.toInt_eq_toNat_cond] at low ⊢
    split
    · rfl
    · rename_i negative
      rw [if_neg negative] at low
      have bound := id.isLt
      omega
  apply Fin.ext
  simp only [Fin.ofNat, value, Int.toNat_natCast]
  rw [value] at high
  exact (Nat.mod_eq_of_lt (by omega)).symm

/-- block() refuses, or sets the entry of its argument. -/
theorem sys_block_cases (p : Caller) :
    sys_block p = (-1, p) ∨
      ∃ id, argint p 0 = some id ∧
        sys_block p = (0, setBlocked (Fin.ofNat 32 id.toNat) 1 p) := by
  unfold sys_block
  cases asked : argint p 0 with
  | none => exact Or.inl rfl
  | some id =>
      dsimp only [block_actual]
      split_ifs with reserved inside
      · exact Or.inl rfl
      · exact Or.inr ⟨id, rfl, by rw [entry_of_range id inside.1 inside.2]⟩
      · exact Or.inl rfl

/-- unblock() refuses, or clears the entry of its argument. -/
theorem sys_unblock_cases (p : Caller) :
    sys_unblock p = (-1, p) ∨
      ∃ id, argint p 0 = some id ∧
        sys_unblock p = (0, setBlocked (Fin.ofNat 32 id.toNat) 0 p) := by
  unfold sys_unblock
  cases asked : argint p 0 with
  | none => exact Or.inl rfl
  | some id =>
      dsimp only [unblock_actual]
      split_ifs with inside
      · exact Or.inr ⟨id, rfl, by rw [entry_of_range id inside.1 inside.2]⟩
      · exact Or.inl rfl

theorem setEax_blocked (result : Word) (p : Caller) :
    (setEax result p).blocked_syscalls = p.blocked_syscalls :=
  rfl

theorem sys_unblock_entry (p : Caller) (i : Fin 32)
    (asked : argint p 0 = some (BitVec.ofNat 32 i.val)) :
    sys_unblock p = (0, setBlocked i 0 p) := by
  have values : ∀ i : Fin 32, (BitVec.ofNat 32 i.val).toInt = i.val := by decide
  have bound := i.isLt
  rw [sys_unblock, asked]
  simp only [unblock_actual, values i]
  rw [dif_pos ⟨by omega, by omega⟩]
  rfl

theorem sys_unblock_keeps (p : Caller) (i : Fin 32) (free : p.blocked_syscalls i = 0) :
    (sys_unblock p).2.blocked_syscalls i = 0 := by
  unfold sys_unblock
  cases argint p 0 with
  | none => exact free
  | some id =>
      dsimp only [unblock_actual]
      split
      · rename_i inside
        by_cases here : i = ⟨id.toInt.toNat, by omega⟩
        · simp [setBlocked, here]
        · simpa [setBlocked, Function.update_of_ne here] using free
      · exact free

/-- Only block(24) sets entry 24. -/
theorem sys_block_entry_iff (p : Caller) :
    (sys_block p).2.blocked_syscalls 24 = 0 ↔
      p.blocked_syscalls 24 = 0 ∧ argint p 0 ≠ some 24 := by
  unfold sys_block
  cases asked : argint p 0 with
  | none => exact (and_iff_left (by simp)).symm
  | some id =>
      have named : id.toInt = 24 ↔ id = 24 := by
        rw [← BitVec.toInt_inj]
        rfl
      dsimp only [block_actual]
      by_cases self : id = 24
      · subst self
        exact iff_of_false (by simp [Call.number, setBlocked]) (by simp)
      · have other : id.toInt ≠ 24 := fun same => self (named.mp same)
        have unset : some id ≠ some 24 := fun same => self (Option.some.inj same)
        rw [and_iff_left unset]
        split_ifs with reserved inside
        · exact Iff.rfl
        · have away : (24 : Fin 32) ≠ ⟨id.toInt.toNat, by omega⟩ := by
            intro same
            have equal := congrArg Fin.val same
            simp only [Fin.isValue] at equal
            omega
          simp [setBlocked, Function.update_of_ne away]
        · exact Iff.rfl

/-- The lock closes by block(24) only and never opens again. -/
theorem step_entry_iff (p : Caller) (e : UserCall) (next : Caller)
    (taken : step others beyond p e = some next) :
    next.blocked_syscalls 24 = 0 ↔ p.blocked_syscalls 24 = 0 ∧ ¬ Locks p e := by
  cases Option.some.inj taken
  have ran := dispatchOf_prepare beyond e p
  unfold syscall
  cases which : e.which with
  | block =>
      rw [which] at ran
      by_cases free : p.blocked_syscalls 23 = 0
      · rw [ran]
        simp only [Which.entry, Which.call, free, if_true, setEax_blocked, handlers]
        refine (sys_block_entry_iff (e.prepare p)).trans (and_congr_right fun _ => ?_)
        simp [Locks, which, free, UserCall.id]
      · rw [ran]
        simp only [Which.entry, free, if_false, setEax_blocked]
        exact (and_iff_left fun locks => free locks.2.2).symm
  | unblock =>
      rw [which] at ran
      have open_ : ¬ Locks p e := fun locks => by simp [Locks, which] at locks
      rw [and_iff_left open_, ran]
      by_cases free : p.blocked_syscalls 24 = 0
      · simp only [Which.entry, Which.call, free, if_true, setEax_blocked, handlers, iff_true]
        exact sys_unblock_keeps (e.prepare p) 24 free
      · simp only [Which.entry, free, if_false, setEax_blocked, iff_false]
        exact free

theorem canUnblock_iff (p : Caller) :
    CanUnblock others beyond p ↔ p.blocked_syscalls 24 = 0 := by
  constructor
  · intro can
    by_contra stopped
    let e : UserCall := ⟨.unblock, p.tf, p.mem⟩
    have ran := (can e rfl).1
    rw [dispatchOf_prepare] at ran
    simp [e, Which.entry, stopped] at ran
  · intro free e which
    have ran := dispatchOf_prepare beyond e p
    rw [which] at ran
    simp only [Which.entry, Which.call, free, if_true] at ran
    refine ⟨ran, fun i asked => ?_⟩
    have called := sys_unblock_entry (e.prepare p) i asked
    unfold syscall
    rw [ran]
    simp only [handlers, called]
    exact ⟨rfl, by simp [setEax, setBlocked]⟩

/-- After a run of block() and unblock() calls every entry can still be
unblocked exactly if entry 24 was clear at the start and no call of the run was
a block(24) that the dispatcher let through. -/
theorem canUnblock_after_iff (es : List UserCall) (p final : Caller)
    (ran : run (step others beyond) p es = some final) :
    CanUnblock others beyond final ↔
      p.blocked_syscalls 24 = 0 ∧
        Guarded (step others beyond) (fun p e => ¬ Locks p e) p es := by
  rw [canUnblock_iff]
  exact run_guarded_iff (step others beyond) (step_entry_iff others beyond) es p final ran

end Calls

/-- A process that blocks nothing, with room for a stack. -/
def openProcess : Caller :=
  { sz := 64, tf := {}, mem := fun _ => 0, blocked_syscalls := fun _ => 0 }

/-- The call with its argument at address 8. -/
def userCall (which : Which) (id : Word) : UserCall :=
  { which := which, tf := { esp := 4 }, mem := overlay (fun _ => 0) 8 (wordBytes id) }

/-- The handlers that block() and unblock() do not reach. -/
def noOthers : Call → Caller → Word × Caller := fun _ p => (0, p)

theorem canUnblock_after_iff_read :
    CanUnblock noOthers (fun _ => 0) (syscall (handlers noOthers) (fun _ => 0)
        ((userCall .block 5).prepare openProcess)) ↔
      openProcess.blocked_syscalls 24 = 0 ∧
        Guarded (step noOthers fun _ => 0) (fun p e => ¬ Locks p e) openProcess
          [userCall .block 5] :=
  canUnblock_after_iff noOthers (fun _ => 0) [userCall .block 5] openProcess _ rfl

/-- block(24) is accepted and locks the process out of unblock(). -/
theorem block_unblock_locks :
    ¬ (∀ (others : Call → Caller → Word × Caller) (beyond : Int → Int) (es : List UserCall)
      (p final : Caller), p.blocked_syscalls = (fun _ => 0) →
      run (step others beyond) p es = some final → CanUnblock others beyond final) := by
  intro reversible
  have locked : ((run (step noOthers fun _ => 0) openProcess [userCall .block 24]).any fun p =>
      decide (p.tf.eax = 0) &&
        decide ((dispatchOf (fun _ => 0) ((userCall .unblock 24).prepare p)).ran = none)) =
      true := by decide +kernel
  obtain ⟨final, ran, stopped⟩ := (Option.any_eq_true _ _).mp locked
  simp only [Bool.and_eq_true, decide_eq_true_eq] at stopped
  have through := (reversible noOthers (fun _ => 0) [userCall .block 24] openProcess final rfl ran
    (userCall .unblock 24) rfl).1
  rw [stopped.2] at through
  cases through

end Xv6.Public1.BlockCalls
