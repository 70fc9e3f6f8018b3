import Xv6.Lib.Runs

/-!
# Progress

Steps of one kind that are possible as long as a goal is not met, and each of which
meets it or lowers a measure: some run of them meets it, and so does every long one.
-/

set_option autoImplicit false

namespace Xv6.Lib.Progress

open Xv6.Lib.Runs

universe u v

variable {State : Type u} {Event : Type v} {step : State → Event → Option State}
  {kind : State → Event → Prop} {waits goal : State → Prop} {measure : State → Nat}

/-- A step of the kind meets the goal, or leaves a state that waits for it with a lower
measure. -/
def Descends (step : State → Event → Option State) (kind : State → Event → Prop)
    (waits goal : State → Prop) (measure : State → Nat) : Prop :=
  ∀ s e next, waits s → kind s e → step s e = some next →
    goal next ∨ waits next ∧ measure next < measure s

theorem reaches_goal (descends : Descends step kind waits goal measure)
    (possible : ∀ s, waits s → ∃ e next, kind s e ∧ step s e = some next) :
    ∀ (n : Nat) (s : State), measure s ≤ n → waits s →
      ∃ es final, Guarded step kind s es ∧ run step s es = some final ∧ goal final := by
  intro n
  induction n with
  | zero =>
      intro s low waiting
      obtain ⟨e, next, allowed, taken⟩ := possible s waiting
      rcases descends s e next waiting allowed taken with met | ⟨_, lower⟩
      · refine ⟨[e], next, ⟨allowed, ?_⟩, (run_cons_some step).mpr ⟨next, taken, rfl⟩, met⟩
        rw [taken]
        trivial
      · exact absurd (Nat.lt_of_lt_of_le lower low) (Nat.not_lt_zero _)
  | succ n ih =>
      intro s low waiting
      obtain ⟨e, next, allowed, taken⟩ := possible s waiting
      rcases descends s e next waiting allowed taken with met | ⟨waiting, lower⟩
      · refine ⟨[e], next, ⟨allowed, ?_⟩, (run_cons_some step).mpr ⟨next, taken, rfl⟩, met⟩
        rw [taken]
        trivial
      · obtain ⟨es, final, guarded, ran, met⟩ :=
          ih next (Nat.le_of_lt_succ (Nat.lt_of_lt_of_le lower low)) waiting
        refine ⟨e :: es, final, ⟨allowed, ?_⟩, (run_cons_some step).mpr ⟨next, taken, ran⟩, met⟩
        rw [taken]
        exact guarded

/-- A run that never meets the goal is no longer than the measure. -/
theorem length_le_measure (descends : Descends step kind waits goal measure) :
    ∀ (es : List Event) (s final : State), waits s → Guarded step kind s es →
      run step s es = some final → Always step (fun s => ¬ goal s) s es →
        es.length ≤ measure s := by
  intro es
  induction es with
  | nil => exact fun _ _ _ _ _ _ => Nat.zero_le _
  | cons e rest ih =>
      intro s final waiting guarded ran never
      obtain ⟨next, taken, ran⟩ := (run_cons_some step).mp ran
      have later := guarded.2
      have never' := never.2
      rw [taken] at later never'
      have unmet : ¬ goal next := by
        cases rest with
        | nil => exact never'
        | cons _ _ => exact never'.1
      obtain ⟨waiting, lower⟩ :=
        (descends s e next waiting guarded.1 taken).resolve_left unmet
      exact Nat.le_trans (Nat.succ_le_succ (ih next final waiting later ran never')) lower

end Xv6.Lib.Progress
