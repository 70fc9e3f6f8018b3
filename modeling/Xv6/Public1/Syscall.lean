import Mathlib.Tactic.Common
import Xv6.Lib.CString
import Xv6.Machine.TrapFrame

/-!
# The system call dispatcher (xv6-public_1)

syscall.c: the fetching of arguments from the caller's stack, the table of
handlers and syscall() itself, whose block check comes before the range check.
Every index into one of the two arrays is recorded.  What the kernel finds when
it reads `blocked_syscalls` outside its 32 entries is a parameter (`beyond`),
and so are the handlers.
-/

set_option autoImplicit false

namespace Xv6.Public1.Syscall

open Xv6.Lib.Words
open Xv6.Lib.CString
open Xv6.Machine

/-- The handlers in `syscalls[]`. -/
inductive Call where
  | sys_fork | sys_exit | sys_wait | sys_pipe | sys_read | sys_kill | sys_exec | sys_fstat
  | sys_chdir | sys_dup | sys_getpid | sys_sbrk | sys_sleep | sys_uptime | sys_open | sys_write
  | sys_mknod | sys_unlink | sys_link | sys_mkdir | sys_close | sys_gethistory | sys_block
  | sys_unblock | sys_chmod
  deriving DecidableEq

/-- The numbers of syscall.h. -/
def Call.number : Call → Int
  | .sys_fork => 1
  | .sys_exit => 2
  | .sys_wait => 3
  | .sys_pipe => 4
  | .sys_read => 5
  | .sys_kill => 6
  | .sys_exec => 7
  | .sys_fstat => 8
  | .sys_chdir => 9
  | .sys_dup => 10
  | .sys_getpid => 11
  | .sys_sbrk => 12
  | .sys_sleep => 13
  | .sys_uptime => 14
  | .sys_open => 15
  | .sys_write => 16
  | .sys_mknod => 17
  | .sys_unlink => 18
  | .sys_link => 19
  | .sys_mkdir => 20
  | .sys_close => 21
  | .sys_gethistory => 22
  | .sys_block => 23
  | .sys_unblock => 24
  | .sys_chmod => 25

def syscalls : List (Option Call) :=
  [none, some .sys_fork, some .sys_exit, some .sys_wait, some .sys_pipe, some .sys_read,
    some .sys_kill, some .sys_exec, some .sys_fstat, some .sys_chdir, some .sys_dup,
    some .sys_getpid, some .sys_sbrk, some .sys_sleep, some .sys_uptime, some .sys_open,
    some .sys_write, some .sys_mknod, some .sys_unlink, some .sys_link, some .sys_mkdir,
    some .sys_close, some .sys_gethistory, some .sys_block, some .sys_unblock, some .sys_chmod]

-- Numerals for the entries of `blocked_syscalls`.
instance blockedNeZero : @NeZero Nat Zero.ofOfNat0 32 := ⟨Nat.succ_ne_zero 31⟩

/-- What syscall() and the handlers of block() and unblock() see of the process
that makes the call. -/
structure Caller where
  sz : Word
  tf : TrapFrame
  mem : Memory
  blocked_syscalls : Fin 32 → Int

/-! ## Arguments -/

def fetchint (p : Caller) (addr : Word) : Option Word :=
  if addr ≥ p.sz ∨ addr + 4 > p.sz then none else some (loadWord p.mem addr)

/-- The loop of fetchstr() over the bytes left before `ep`: the length. -/
def fetchstrLoop (mem : Memory) (s : Word) : Nat → Option Nat
  | 0 => none
  | left + 1 => if mem s = 0 then some 0 else (fetchstrLoop mem (s + 1) left).map (· + 1)

/-- The length that fetchstr() returns for the string at `addr`. -/
def fetchstr (p : Caller) (addr : Word) : Option Nat :=
  if addr ≥ p.sz then none else fetchstrLoop p.mem addr (p.sz.toNat - addr.toNat)

def argint (p : Caller) (n : Word) : Option Word := fetchint p (p.tf.esp + 4 + 4 * n)

/-- The string argument, as the bytes that its pointer leads to. -/
def argstr (p : Caller) (n : Word) : Option (List Byte) :=
  (argint p n).bind fun addr => (fetchstr p addr).map fun len => load p.mem addr len

/-! ## syscall() -/

inductive Access where
  | blocked_syscalls (i : Int)
  | syscalls (i : Int)
  deriving DecidableEq

inductive Message where
  | blocked (num : Int)
  | unknown (num : Int)
  deriving DecidableEq

/-- What syscall() does with one number: the array elements it reads, what it
prints and the handler it runs, if any. -/
structure Dispatch where
  accesses : List Access
  said : List Message
  ran : Option Call
  deriving DecidableEq

/-- From the label `exec_allowed` on. -/
def lookup (num : Int) : Dispatch :=
  if 0 < num ∧ num < syscalls.length then
    match syscalls.getD num.toNat none with
    | some call => { accesses := [.syscalls num], said := [], ran := some call }
    | none => { accesses := [.syscalls num], said := [.unknown num], ran := none }
  else { accesses := [], said := [.unknown num], ran := none }

/-- The test that lets exec() of the unblock program through. -/
def exempt (path : Option (List Byte)) : Bool :=
  path.any fun path => decide (strncmp 7 path (bytes "unblock") = 0)

def dispatch (path : Option (List Byte)) (blocked : Int → Int) (num : Int) : Dispatch :=
  if num = Call.sys_exec.number ∧ exempt path then lookup num
  else if num ≠ Call.sys_fork.number ∧ num ≠ Call.sys_exit.number then
    let d : Dispatch :=
      if blocked num ≠ 0 then { accesses := [], said := [.blocked num], ran := none }
      else lookup num
    { d with accesses := .blocked_syscalls num :: d.accesses }
  else lookup num

theorem inside_lt {i : Int} (inside : 0 ≤ i ∧ i < 32) : i.toNat < 32 := by omega

/-- `curproc->blocked_syscalls[i]` for any int. -/
def readBlocked (blocked_syscalls : Fin 32 → Int) (beyond : Int → Int) (i : Int) : Int :=
  if inside : 0 ≤ i ∧ i < 32 then blocked_syscalls ⟨i.toNat, inside_lt inside⟩ else beyond i

def dispatchOf (beyond : Int → Int) (p : Caller) : Dispatch :=
  dispatch (argstr p 0) (readBlocked p.blocked_syscalls beyond) p.tf.eax.toInt

def setEax (result : Word) (p : Caller) : Caller := { p with tf := { p.tf with eax := result } }

def syscall (handlers : Call → Caller → Word × Caller) (beyond : Int → Int) (p : Caller) :
    Caller :=
  match (dispatchOf beyond p).ran with
  | some call => setEax (handlers call p).1 (handlers call p).2
  | none => setEax (-1) p

/-! ## The table -/

theorem syscalls_number : ∀ i : Fin 26, ∀ call ∈ syscalls.getD i.val none, call.number = i.val := by
  decide

theorem lookup_ran_iff (num : Int) (call : Call) :
    (lookup num).ran = some call ↔ call.number = num := by
  constructor
  · intro ran
    unfold lookup at ran
    split at ran
    · rename_i inside
      have bound : num.toNat < 26 := by
        have := inside.2
        simp only [syscalls, List.length_cons, List.length_nil] at this
        omega
      cases entry : syscalls.getD num.toNat none with
      | none =>
          rw [entry] at ran
          cases ran
      | some found =>
          simp only [entry, Option.some.injEq] at ran
          subst ran
          have named := syscalls_number ⟨num.toNat, bound⟩ found entry
          rw [named]
          exact Int.toNat_of_nonneg (by omega)
    · cases ran
  · rintro rfl
    cases call <;> rfl

theorem lookup_accesses (num i : Int) (read : .syscalls i ∈ (lookup num).accesses) :
    0 ≤ i ∧ i < 26 := by
  unfold lookup at read
  split at read
  · rename_i inside
    have bound := inside.2
    simp only [syscalls, List.length_cons, List.length_nil] at bound
    have same : i = num := by
      split at read
      · simpa using read
      · simpa using read
    omega
  · cases read

theorem lookup_blocked (num i : Int) : .blocked_syscalls i ∉ (lookup num).accesses := by
  unfold lookup
  split
  · split <;> simp
  · simp

/-! ## What the dispatcher promises -/

/-- The number is let through: fork, exit, an entry that is not blocked, or the
exec of the unblock program. -/
def Permitted (p : Caller) (num : Int) : Prop :=
  num = Call.sys_fork.number ∨ num = Call.sys_exit.number ∨
    (∃ i : Fin 32, num = i.val ∧ p.blocked_syscalls i = 0) ∨
    num = Call.sys_exec.number ∧ exempt (argstr p 0) = true

structure DispatcherSafe (handlers : Call → Caller → Word × Caller) (beyond : Int → Int)
    (p : Caller) : Prop where
  blocked : ∀ i, .blocked_syscalls i ∈ (dispatchOf beyond p).accesses → 0 ≤ i ∧ i < 32
  table : ∀ i, .syscalls i ∈ (dispatchOf beyond p).accesses → 0 ≤ i ∧ i < 26
  runs : ∀ call, (dispatchOf beyond p).ran = some call ↔
    call.number = p.tf.eax.toInt ∧ Permitted p p.tf.eax.toInt
  refused : (dispatchOf beyond p).ran = none → syscall handlers beyond p = setEax (-1) p

theorem readBlocked_inside (blocked_syscalls : Fin 32 → Int) (beyond : Int → Int) (i : Fin 32) :
    readBlocked blocked_syscalls beyond i.val = blocked_syscalls i := by
  have bound := i.isLt
  rw [readBlocked, dif_pos ⟨by omega, by omega⟩]
  congr

/-- Every way through syscall(): past the block check, stopped by it, or let
through by it. -/
theorem dispatch_cases (path : Option (List Byte)) (blocked : Int → Int) (num : Int) :
    (num = Call.sys_fork.number ∨ num = Call.sys_exit.number ∨
        num = Call.sys_exec.number ∧ exempt path = true) ∧
      dispatch path blocked num = lookup num ∨
    (num ≠ Call.sys_fork.number ∧ num ≠ Call.sys_exit.number ∧
        ¬ (num = Call.sys_exec.number ∧ exempt path = true)) ∧
      (blocked num ≠ 0 ∧ dispatch path blocked num =
          { accesses := [.blocked_syscalls num], said := [.blocked num], ran := none } ∨
        blocked num = 0 ∧ dispatch path blocked num =
          { lookup num with
            accesses := .blocked_syscalls num :: (lookup num).accesses }) := by
  unfold dispatch
  split
  · rename_i exempted
    exact Or.inl ⟨Or.inr (Or.inr exempted), rfl⟩
  · rename_i ordinary
    split
    · rename_i checked
      refine Or.inr ⟨⟨checked.1, checked.2, ordinary⟩, ?_⟩
      by_cases free : blocked num = 0
      · exact Or.inr ⟨free, by simp [free]⟩
      · exact Or.inl ⟨free, by simp [free]⟩
    · rename_i unchecked
      refine Or.inl ⟨?_, rfl⟩
      by_cases fork : num = Call.sys_fork.number
      · exact Or.inl fork
      · refine Or.inr (Or.inl ?_)
        by_contra exit
        exact unchecked ⟨fork, exit⟩

/-- A number from 0 to 31 is dispatched as it should be. -/
theorem dispatcherSafe_of_range (handlers : Call → Caller → Word × Caller) (beyond : Int → Int)
    (p : Caller) (low : 0 ≤ p.tf.eax.toInt) (high : p.tf.eax.toInt < 32) :
    DispatcherSafe handlers beyond p := by
  have entry : readBlocked p.blocked_syscalls beyond p.tf.eax.toInt =
      p.blocked_syscalls ⟨p.tf.eax.toInt.toNat, by omega⟩ := by
    rw [readBlocked, dif_pos ⟨low, high⟩]
  have permitted_iff : ∀ num : Int, num = p.tf.eax.toInt →
      num ≠ Call.sys_fork.number → num ≠ Call.sys_exit.number →
      ¬ (num = Call.sys_exec.number ∧ exempt (argstr p 0) = true) →
      (Permitted p num ↔ readBlocked p.blocked_syscalls beyond num = 0) := by
    rintro num rfl notFork notExit notExempt
    constructor
    · rintro (fork | exit | ⟨i, same, free⟩ | exempted)
      · exact absurd fork notFork
      · exact absurd exit notExit
      · rw [same, readBlocked_inside]
        exact free
      · exact absurd exempted notExempt
    · intro free
      refine Or.inr (Or.inr (Or.inl ⟨⟨p.tf.eax.toInt.toNat, by omega⟩, ?_, ?_⟩))
      · exact (Int.toNat_of_nonneg low).symm
      · rw [← entry]
        exact free
  have ways := dispatch_cases (argstr p 0) (readBlocked p.blocked_syscalls beyond) p.tf.eax.toInt
  constructor
  case blocked =>
    intro i read
    unfold dispatchOf at read
    rcases ways with ⟨_, way⟩ | ⟨_, ⟨_, way⟩ | ⟨_, way⟩⟩
    · rw [way] at read
      exact absurd read (lookup_blocked _ _)
    · rw [way] at read
      simp only [List.mem_singleton, Access.blocked_syscalls.injEq] at read
      omega
    · rw [way] at read
      rcases List.mem_cons.mp read with same | read
      · cases same
        exact ⟨low, high⟩
      · exact absurd read (lookup_blocked _ _)
  case table =>
    intro i read
    unfold dispatchOf at read
    rcases ways with ⟨_, way⟩ | ⟨_, ⟨_, way⟩ | ⟨_, way⟩⟩
    · rw [way] at read
      exact lookup_accesses _ _ read
    · rw [way] at read
      simp at read
    · rw [way] at read
      rcases List.mem_cons.mp read with same | read
      · cases same
      · exact lookup_accesses _ _ read
  case runs =>
    intro call
    unfold dispatchOf
    rcases ways with ⟨free, way⟩ | ⟨⟨notFork, notExit, notExempt⟩, ⟨stopped, way⟩ | ⟨free, way⟩⟩
    · rw [way, lookup_ran_iff]
      refine (and_iff_left ?_).symm
      rcases free with fork | exit | exempted
      · exact Or.inl fork
      · exact Or.inr (Or.inl exit)
      · exact Or.inr (Or.inr (Or.inr exempted))
    · rw [way]
      refine iff_of_false (by simp) fun permitted => stopped ?_
      exact (permitted_iff _ rfl notFork notExit notExempt).mp permitted.2
    · rw [way]
      refine (lookup_ran_iff _ call).trans (and_iff_left ?_).symm
      exact (permitted_iff _ rfl notFork notExit notExempt).mpr free
  case refused =>
    intro none
    rw [syscall, none]

/-- The dispatcher keeps its promises exactly for the numbers that index
`blocked_syscalls`: the block check uses the number before its range is
tested. -/
theorem dispatcherSafe_iff (handlers : Call → Caller → Word × Caller) (beyond : Int → Int)
    (p : Caller) :
    DispatcherSafe handlers beyond p ↔ 0 ≤ p.tf.eax.toInt ∧ p.tf.eax.toInt < 32 := by
  constructor
  · intro safe
    by_contra outside
    have read : .blocked_syscalls p.tf.eax.toInt ∈ (dispatchOf beyond p).accesses := by
      unfold dispatchOf
      rcases dispatch_cases (argstr p 0) (readBlocked p.blocked_syscalls beyond) p.tf.eax.toInt with
        ⟨unchecked, _⟩ | ⟨_, ⟨_, way⟩ | ⟨_, way⟩⟩
      · refine absurd ?_ outside
        rcases unchecked with fork | exit | ⟨exec, _⟩
        · exact ⟨by simp [fork, Call.number], by simp [fork, Call.number]⟩
        · exact ⟨by simp [exit, Call.number], by simp [exit, Call.number]⟩
        · exact ⟨by simp [exec, Call.number], by simp [exec, Call.number]⟩
      · rw [way]
        exact List.mem_singleton.mpr rfl
      · rw [way]
        exact List.mem_cons_self
    exact outside (safe.blocked _ read)
  · rintro ⟨low, high⟩
    exact dispatcherSafe_of_range handlers beyond p low high

/-- A process that blocks nothing and asks for system call 32. -/
def call32 : Caller :=
  { sz := 4096, tf := { eax := 32 }, mem := fun _ => 0, blocked_syscalls := fun _ => 0 }

theorem call32_not_dispatcherSafe :
    ¬ (∀ (handlers : Call → Caller → Word × Caller) (beyond : Int → Int) (p : Caller),
      DispatcherSafe handlers beyond p) ∧
    .blocked_syscalls 32 ∈ (dispatchOf (fun _ => 0) call32).accesses := by
  have read : .blocked_syscalls 32 ∈ (dispatchOf (fun _ => 0) call32).accesses := by
    decide +kernel
  refine ⟨fun safe => ?_, read⟩
  have bound := (safe (fun _ p => (0, p)) (fun _ => 0) call32).blocked 32 read
  omega

end Xv6.Public1.Syscall
