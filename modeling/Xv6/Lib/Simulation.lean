import Xv6.Lib.Runs

/-!
# Simulation

Two transition systems and a relation between their states: where each step of the
first is matched by a run of the second, so is each run.
-/

set_option autoImplicit false

namespace Xv6.Lib.Simulation

open Xv6.Lib.Runs

universe u v w x

variable {State : Type u} {Event : Type v} {State' : Type w} {Event' : Type x}
variable {step : State → Event → Option State} {step' : State' → Event' → Option State'}

/-- Every step between related states is matched by a run. -/
def Simulates (step : State → Event → Option State) (step' : State' → Event' → Option State')
    (rel : State → State' → Prop) : Prop :=
  ∀ s t e next, rel s t → step s e = some next →
    ∃ es t', run step' t es = some t' ∧ rel next t'

/-- Every state of a run is related to one that the second system reaches. -/
theorem always_simulated {rel : State → State' → Prop} (simulates : Simulates step step' rel)
    {boot' t : State'} {s : State} (reached : Reachable step' boot' t) (related : rel s t)
    (es : List Event) :
    Always step (fun s => ∃ t, Reachable step' boot' t ∧ rel s t) s es := by
  refine always_of_invariant step (fun _ there => there) ?_ es s ⟨t, reached, related⟩
  rintro s e next ⟨t, ⟨before, ran⟩, related⟩ taken
  obtain ⟨moves, t', moved, related⟩ := simulates s t e next related taken
  refine ⟨t', ⟨before ++ moves, ?_⟩, related⟩
  rw [run_append, ran]
  exact moved

/-- A step that the second system does not see, or sees as one event. -/
theorem seen_of_cases {t t' : State'} (seen : t' = t ∨ ∃ e, step' t e = some t') :
    ∃ es, run step' t es = some t' := by
  rcases seen with rfl | ⟨e, taken⟩
  · exact ⟨[], rfl⟩
  · exact ⟨[e], (run_cons_some step').mpr ⟨t', taken, rfl⟩⟩

end Xv6.Lib.Simulation
