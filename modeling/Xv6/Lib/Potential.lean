import Mathlib.Algebra.BigOperators.Group.Finset.Basic
import Mathlib.Algebra.Order.BigOperators.Group.Finset
import Mathlib.Tactic.Linarith
import Xv6.Lib.Runs

/-!
# Counting the steps of a run

`count` says how many steps of a run are of a kind.  A potential that each such
step lowers by at least `β`, and that no step in between raises, bounds it; the
potential has to be kept only between two steps that the guard allows, so that
the last step of the run may do anything.
-/

set_option autoImplicit false

namespace Xv6.Lib.Potential

open Xv6.Lib.Runs

universe u v w

variable {State : Type u} {Event : Type v} (step : State → Event → Option State)

/-- The number of events of the run that meet `p` in the state before them. -/
def count (p : State → Event → Prop) [∀ s e, Decidable (p s e)] : State → List Event → Nat
  | _, [] => 0
  | s, e :: es =>
      (if p s e then 1 else 0) +
        match step s e with
        | none => 0
        | some next => count p next es

variable {step} {guard : State → Event → Prop} {p : State → Event → Prop}
  [∀ s e, Decidable (p s e)]

theorem count_cons {s next : State} {e : Event} {es : List Event} (taken : step s e = some next) :
    count step p s (e :: es) = (if p s e then 1 else 0) + count step p next es := by
  simp only [count, taken]

/-- With `n` steps of the kind still to come, the potential pays for all but the last. -/
theorem count_paid {inv : State → Prop} {β : Int} {φ : State → Int}
    (kept : ∀ s e next, inv s → step s e = some next → inv next)
    (affords : ∀ s e, guard s e → p s e → 0 ≤ φ s)
    (pays : ∀ s e next e', inv s → guard s e → step s e = some next → guard next e' →
      φ next + (if p s e then β else 0) ≤ φ s) :
    ∀ (es : List Event) (s final : State), inv s → Guarded step guard s es →
      run step s es = some final → count step p s es ≠ 0 →
      ((count step p s es : Int) - 1) * β ≤ φ s := by
  intro es
  induction es with
  | nil => exact fun _ _ _ _ _ some => absurd rfl some
  | cons e rest ih =>
      intro s final holds guarded ran some
      obtain ⟨next, taken, ran⟩ := (run_cons_some step).mp ran
      obtain ⟨here, later⟩ := guarded
      rw [taken] at later
      rw [count_cons taken] at some ⊢
      have after := ih next final (kept s e next holds taken) later ran
      by_cases more : count step p next rest = 0
      · have chosen : p s e := by
          by_contra other
          rw [if_neg other, more] at some
          exact some rfl
        rw [more, if_pos chosen]
        simpa using affords s e here chosen
      · have nextGuard : ∃ e', guard next e' := by
          cases rest with
          | nil => exact absurd rfl more
          | cons e' _ => exact ⟨e', later.1⟩
        obtain ⟨e', allowed⟩ := nextGuard
        have paid := pays s e next e' holds here taken allowed
        have rest := after more
        by_cases chosen : p s e
        · rw [if_pos chosen] at paid ⊢
          push_cast
          linarith
        · rw [if_neg chosen] at paid ⊢
          push_cast
          linarith

/-- How often a step of the kind can be taken. -/
theorem count_le {inv : State → Prop} {β : Int} (positive : 0 < β) {φ : State → Int}
    (kept : ∀ s e next, inv s → step s e = some next → inv next)
    (affords : ∀ s e, guard s e → p s e → 0 ≤ φ s)
    (pays : ∀ s e next e', inv s → guard s e → step s e = some next → guard next e' →
      φ next + (if p s e then β else 0) ≤ φ s)
    {es : List Event} {s final : State} (start : inv s) (guarded : Guarded step guard s es)
    (ran : run step s es = some final) :
    (count step p s es : Int) ≤ max 0 (φ s) / β + 1 := by
  by_cases none : count step p s es = 0
  · have floor : 0 ≤ max 0 (φ s) / β := Int.ediv_nonneg (le_max_left _ _) positive.le
    rw [none]
    push_cast
    linarith
  · have paid := count_paid kept affords pays es s final start guarded ran none
    have room : ((count step p s es : Int) - 1) * β ≤ max 0 (φ s) := paid.trans (le_max_right _ _)
    have rounds := (Int.le_ediv_iff_mul_le positive).mpr room
    linarith

/-- Each step of one kind is of one of finitely many others. -/
theorem count_le_sum {ι : Type w} (t : Finset ι) (q : ι → State → Event → Prop)
    [∀ i s e, Decidable (q i s e)]
    (covered : ∀ s e, guard s e → p s e → ∃ i ∈ t, q i s e) :
    ∀ (es : List Event) (s : State), Guarded step guard s es →
      count step p s es ≤ ∑ i ∈ t, count step (q i) s es := by
  intro es
  induction es with
  | nil => exact fun _ _ => Nat.zero_le _
  | cons e rest ih =>
      intro s guarded
      obtain ⟨here, later⟩ := guarded
      have first : (if p s e then 1 else 0) ≤ ∑ i ∈ t, if q i s e then 1 else 0 := by
        by_cases chosen : p s e
        · obtain ⟨i, member, does⟩ := covered s e here chosen
          rw [if_pos chosen]
          calc 1 = if q i s e then 1 else 0 := (if_pos does).symm
            _ ≤ ∑ i ∈ t, if q i s e then 1 else 0 :=
              Finset.single_le_sum (f := fun i => if q i s e then 1 else 0)
                (fun _ _ => Nat.zero_le _) member
        · rw [if_neg chosen]
          exact Nat.zero_le _
      simp only [count, Finset.sum_add_distrib]
      refine Nat.add_le_add first ?_
      cases taken : step s e with
      | none => exact Nat.zero_le _
      | some next =>
          rw [taken] at later
          exact ih next later

end Xv6.Lib.Potential
