import Xv6.Public1.Syscall

/-!
# Blocking exec (xv6-public_1)

syscall() lets exec() through, blocked or not, if the path passes a strncmp
with "unblock" over seven bytes.  The paths that pass are all those which start
with these bytes.
-/

set_option autoImplicit false

namespace Xv6.Public1.ExecFilter

open Xv6.Lib.Words
open Xv6.Lib.CString
open Xv6.Machine
open Xv6.Public1.Syscall

theorem load_succ (mem : Memory) (addr : Word) (len : Nat) :
    load mem addr (len + 1) = mem addr :: load mem (addr + 1) len := by
  have split := load_append mem addr 1 len
  rw [Nat.add_comm 1 len] at split
  rw [split]
  simp [load]

/-- The bytes of a fetched string are the text of the string. -/
theorem fetchstrLoop_text (mem : Memory) (s : Word) (left len : Nat)
    (fetched : fetchstrLoop mem s left = some len) : text (load mem s len) = load mem s len := by
  induction left generalizing s len with
  | zero => cases fetched
  | succ left ih =>
      rw [fetchstrLoop] at fetched
      split at fetched
      · cases fetched
        rfl
      · rename_i nonzero
        obtain ⟨tail, found, rfl⟩ := Option.map_eq_some_iff.mp fetched
        rw [load_succ, text_cons, if_neg nonzero, ih (s + 1) tail found]

theorem argstr_text {p : Caller} {n : Word} {path : List Byte} (fetched : argstr p n = some path) :
    text path = path := by
  obtain ⟨addr, _, pointed⟩ := Option.bind_eq_some_iff.mp fetched
  obtain ⟨len, measured, rfl⟩ := Option.map_eq_some_iff.mp pointed
  unfold fetchstr at measured
  split at measured
  · cases measured
  · exact fetchstrLoop_text _ _ _ _ measured

theorem unblock_text : text (bytes "unblock") = bytes "unblock" := by decide +kernel

/-- The exemption holds of the paths that start with "unblock". -/
theorem exempt_argstr_iff (p : Caller) :
    exempt (argstr p 0) = true ↔ ∃ path, argstr p 0 = some path ∧ bytes "unblock" <+: path := by
  have length : (bytes "unblock").length = 7 := by decide +kernel
  unfold exempt
  rw [Option.any_eq_true]
  refine exists_congr fun path => and_congr_right fun fetched => ?_
  rw [decide_eq_true_eq, strncmp_eq_zero_iff, argstr_text fetched, unblock_text,
    List.prefix_iff_eq_take, length, List.take_of_length_le (Nat.le_of_eq length), eq_comm]

/-- Nothing but the exec of "unblock" gets past a blocked exec. -/
structure ExecBlocked (handlers : Call → Caller → Word × Caller) (beyond : Int → Int)
    (p : Caller) : Prop where
  dispatched : (dispatchOf beyond p).ran = some .sys_exec → argstr p 0 = some (bytes "unblock")
  refused : argstr p 0 ≠ some (bytes "unblock") →
    (dispatchOf beyond p).ran = none ∧ syscall handlers beyond p = setEax (-1) p

section Blocked
variable {p : Caller} (exec : p.tf.eax.toInt = Call.sys_exec.number)

include exec

theorem dispatch_exempt (beyond : Int → Int) (through : exempt (argstr p 0) = true) :
    (dispatchOf beyond p).ran = some .sys_exec := by
  rw [dispatchOf, dispatch, if_pos ⟨exec, through⟩, lookup_ran_iff]
  exact exec.symm

theorem dispatch_refused (beyond : Int → Int) (blocked : p.blocked_syscalls 7 = 1)
    (stopped : exempt (argstr p 0) = false) : (dispatchOf beyond p).ran = none := by
  have entry : readBlocked p.blocked_syscalls beyond p.tf.eax.toInt = 1 := by
    rw [exec]
    exact (readBlocked_inside p.blocked_syscalls beyond 7).trans blocked
  have checked : ¬ (p.tf.eax.toInt = Call.sys_exec.number ∧ exempt (argstr p 0) = true) := by
    rw [stopped]
    simp
  rw [dispatchOf, dispatch, if_neg checked, entry, exec]
  rfl

/-- The filter stops every path but "unblock" exactly if the path of the call
does not start with "unblock" and go on. -/
theorem execBlocked_iff (handlers : Call → Caller → Word × Caller) (beyond : Int → Int)
    (blocked : p.blocked_syscalls 7 = 1) :
    ExecBlocked handlers beyond p ↔
      ∀ path, argstr p 0 = some path → bytes "unblock" <+: path → path = bytes "unblock" := by
  constructor
  · intro filter path fetched starts
    have through := (exempt_argstr_iff p).mpr ⟨path, fetched, starts⟩
    have only := filter.dispatched (dispatch_exempt exec beyond through)
    exact Option.some.inj (fetched.symm.trans only)
  · intro exact_
    have stops : argstr p 0 ≠ some (bytes "unblock") → exempt (argstr p 0) = false := by
      intro other
      by_contra through
      rw [Bool.not_eq_false] at through
      obtain ⟨path, fetched, starts⟩ := (exempt_argstr_iff p).mp through
      rw [fetched, exact_ path fetched starts] at other
      exact other rfl
    have refused : argstr p 0 ≠ some (bytes "unblock") → (dispatchOf beyond p).ran = none :=
      fun other => dispatch_refused exec beyond blocked (stops other)
    constructor
    case dispatched =>
      intro ran
      by_contra other
      rw [refused other] at ran
      cases ran
    case refused =>
      intro other
      refine ⟨refused other, ?_⟩
      rw [syscall, refused other]

end Blocked

/-- A process with exec blocked that calls exec(path). -/
def execCall (path : String) : Caller where
  sz := 64
  tf := { eax := 7, esp := 0 }
  mem := overlay (overlay (fun _ => 0) 4 (wordBytes 16)) 16 (bytes path)
  blocked_syscalls := fun i => if i = 7 then 1 else 0

theorem execBlocked_iff_ls :
    ExecBlocked (fun _ p => (0, p)) (fun _ => 0) (execCall "ls") ↔
      ∀ path, argstr (execCall "ls") 0 = some path → bytes "unblock" <+: path →
        path = bytes "unblock" :=
  execBlocked_iff (by decide) (fun _ p => (0, p)) (fun _ => 0) (by decide)

/-- exec("unblockx") is dispatched although exec is blocked. -/
theorem unblockx_dispatched :
    ¬ (∀ (handlers : Call → Caller → Word × Caller) (beyond : Int → Int) (p : Caller),
      p.tf.eax.toInt = Call.sys_exec.number → p.blocked_syscalls 7 = 1 →
        ExecBlocked handlers beyond p) := by
  intro filter
  have ran : (dispatchOf (fun _ => 0) (execCall "unblockx")).ran = some .sys_exec := by
    decide +kernel
  have other : argstr (execCall "unblockx") 0 ≠ some (bytes "unblock") := by decide +kernel
  exact other ((filter (fun _ p => (0, p)) (fun _ => 0) (execCall "unblockx") (by decide)
    (by decide)).dispatched ran)

end Xv6.Public1.ExecFilter
