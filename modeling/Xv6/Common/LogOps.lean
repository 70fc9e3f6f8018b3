import Xv6.Common.Log
import Xv6.Lib.References

/-!
# Outstanding operations (log.c)

`log.outstanding` is the number of processes between begin_op() and end_op().
-/

set_option autoImplicit false

namespace Xv6.Common.Log

open Xv6.Lib
open Xv6.Lib.Words
open Xv6.Lib.References (refs refs_none refs_update refs_pos)

variable {P : Type}

def Thread.inside : Thread → Option Unit
  | .out => none
  | .inOp | .logging _ _ => some ()

@[simp] theorem out_inside : Thread.out.inside = none := rfl

@[simp] theorem inOp_inside : Thread.inOp.inside = some () := rfl

@[simp] theorem logging_inside (b : Word) (data : Block) :
    (Thread.logging b data).inside = some () := rfl

/-- The number of processes inside an operation. -/
def insiders [Fintype P] (thread : P → Thread) : Nat := refs (fun p => (thread p).inside) ()

def Counted [Fintype P] (k : Kernel P) : Prop := k.outstanding = insiders k.thread

section Counts
variable [Fintype P]

theorem insiders_pos {thread : P → Thread} {p : P} (inside : thread p ≠ .out) :
    0 < insiders thread := by
  apply refs_pos (v := p)
  cases here : thread p with
  | out => exact absurd here inside
  | inOp => rfl
  | logging b data => rfl

/-- An operation that is running is outstanding. -/
theorem Counted.outstanding {k : Kernel P} (h : Counted k) {p : P} (inside : k.thread p ≠ .out) :
    1 ≤ k.outstanding := by
  unfold Counted at h
  rw [h]
  exact insiders_pos inside

theorem Counted.out {k : Kernel P} (h : Counted k) (none_left : k.outstanding = 0) (p : P) :
    k.thread p = .out := by
  by_contra inside
  have running := h.outstanding inside
  omega

variable [DecidableEq P]

omit [Fintype P] in
theorem setThread_thread (k : Kernel P) (p q : P) (t : Thread) :
    (k.setThread p t).thread q = if q = p then t else k.thread q :=
  Function.update_apply k.thread p t q

/-- How many are inside after one thread has moved. -/
theorem insiders_update (thread : P → Thread) (p : P) (t : Thread) :
    insiders (Function.update thread p t) + (if (thread p).inside = some () then 1 else 0) =
      insiders thread + (if t.inside = some () then 1 else 0) := by
  have moved : (fun q => (Function.update thread p t q).inside) =
      Function.update (fun q => (thread q).inside) p t.inside := by
    funext q
    rw [Function.update_apply, Function.update_apply]
    split <;> rfl
  unfold insiders
  rw [moved]
  exact refs_update (fun q => (thread q).inside) p t.inside ()

theorem Counted.begin_op {k next : Kernel P} (h : Counted k) {p : P}
    (taken : k.begin_op p = some next) : Counted next := by
  unfold Kernel.begin_op at taken
  split at taken
  · rename_i out _
    split at taken
    · cases taken
    · cases taken
      have moved := insiders_update k.thread p .inOp
      simp only [out, out_inside, inOp_inside, reduceCtorEq, if_false, if_true] at moved
      unfold Counted at h ⊢
      exact (congrArg (· + 1) h).trans moved.symm
  · cases taken

theorem Counted.logTest {k next : Kernel P} (h : Counted k) {p : P} {b : Word} {data : Block}
    (taken : k.logTest p b data = some next) : Counted next := by
  unfold Kernel.logTest at taken
  split at taken
  · rename_i inOp
    split at taken
    · cases taken
      exact h
    · split at taken
      · cases taken
        exact h
      · cases taken
        have moved := insiders_update k.thread p (.logging b data)
        simp only [inOp, inOp_inside, logging_inside, if_true] at moved
        exact h.trans (Nat.add_right_cancel moved).symm
  · cases taken

theorem Counted.logAppend {k next : Kernel P} (h : Counted k) {p : P}
    (taken : k.logAppend p = some next) : Counted next := by
  unfold Kernel.logAppend at taken
  split at taken
  · rename_i b data logging
    cases taken
    have moved := insiders_update k.thread p .inOp
    simp only [logging, logging_inside, inOp_inside, if_true] at moved
    exact h.trans (Nat.add_right_cancel moved).symm
  · cases taken

theorem Counted.end_op {k next : Kernel P} (h : Counted k) {p : P}
    (taken : k.end_op p = some next) : Counted next := by
  unfold Kernel.end_op at taken
  split at taken
  · rename_i inOp
    have moved := insiders_update k.thread p .out
    simp only [inOp, inOp_inside, out_inside, reduceCtorEq, if_false, if_true] at moved
    have counted : k.outstanding - 1 = insiders (Function.update k.thread p .out) := by
      unfold Counted at h
      omega
    cases taken
    split
    · exact counted
    · exact counted
  · cases taken

omit [DecidableEq P] in
/-- A commit and a recovery start and end no operation. -/
theorem Counted.of_same {k next : Kernel P} (h : Counted k)
    (outstanding : next.outstanding = k.outstanding) (thread : next.thread = k.thread) :
    Counted next := by
  unfold Counted
  rw [outstanding, thread]
  exact h

omit [DecidableEq P] in
theorem Counted.none {k : Kernel P} (outstanding : k.outstanding = 0)
    (thread : ∀ p, k.thread p = .out) : Counted k := by
  have everyone : k.thread = fun _ => .out := funext thread
  unfold Counted insiders
  rw [outstanding, everyone]
  exact (refs_none ()).symm

end Counts

end Xv6.Common.Log
