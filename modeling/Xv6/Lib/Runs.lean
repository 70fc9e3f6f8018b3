import Mathlib.Tactic.Common

/-!
# Runs of a labelled transition system

A system is a partial step function: `step s e = none` says that the event `e`
cannot happen in `s`.  This file has the run of a list of events, the guarded
run (every step taken meets a condition on the state before it), and the
induction rules used everywhere: an invariant of the steps is an invariant of
the runs, and one that a step keeps exactly when it is guarded tells which runs
are guarded.
-/

set_option autoImplicit false

namespace Xv6.Lib.Runs

universe u v

section Basic
variable {State : Type u} {Event : Type v} (step : State → Event → Option State)

/-- The state after a list of events, if each of them can happen in turn. -/
def run : State → List Event → Option State
  | s, [] => some s
  | s, e :: es => (step s e).bind fun next => run next es

/-- Every event that the run takes meets `guard` in the state before it. -/
def Guarded (guard : State → Event → Prop) : State → List Event → Prop
  | _, [] => True
  | s, e :: es =>
      guard s e ∧ match step s e with
        | none => True
        | some next => Guarded guard next es

/-- Every state that the run passes through is good. -/
def Always (good : State → Prop) : State → List Event → Prop
  | s, [] => good s
  | s, e :: es =>
      good s ∧ match step s e with
        | none => True
        | some next => Always good next es

/-- Every step that the run takes is as `rel` says. -/
def Stepwise (rel : State → Event → State → Prop) : State → List Event → Prop
  | _, [] => True
  | s, e :: es =>
      match step s e with
      | none => True
      | some next => rel s e next ∧ Stepwise rel next es

instance guardedDecidable (guard : State → Event → Prop)
    [∀ s e, Decidable (guard s e)] :
    ∀ (s : State) (es : List Event), Decidable (Guarded step guard s es)
  | _, [] => isTrue trivial
  | s, e :: es =>
      match hs : step s e with
      | none =>
          decidable_of_iff (guard s e) (by simp [Guarded, hs])
      | some next =>
          haveI := guardedDecidable guard next es
          decidable_of_iff (guard s e ∧ Guarded step guard next es) (by
            simp [Guarded, hs])

instance stepwiseDecidable (rel : State → Event → State → Prop)
    [∀ s e next, Decidable (rel s e next)] :
    ∀ (s : State) (es : List Event), Decidable (Stepwise step rel s es)
  | _, [] => isTrue trivial
  | s, e :: es =>
      match hs : step s e with
      | none => isTrue (by simp [Stepwise, hs])
      | some next =>
          haveI := stepwiseDecidable rel next es
          decidable_of_iff (rel s e next ∧ Stepwise step rel next es) (by simp [Stepwise, hs])

def Reachable (boot s : State) : Prop := ∃ es, run step boot es = some s

@[simp] theorem run_nil (s : State) : run step s [] = some s := rfl

theorem run_cons (s : State) (e : Event) (es : List Event) :
    run step s (e :: es) = (step s e).bind fun next => run step next es := rfl

theorem run_cons_some {s final : State} {e : Event} {es : List Event} :
    run step s (e :: es) = some final ↔
      ∃ next, step s e = some next ∧ run step next es = some final := by
  rw [run_cons, Option.bind_eq_some_iff]

theorem run_append (s : State) (es es' : List Event) :
    run step s (es ++ es') = (run step s es).bind fun next => run step next es' := by
  induction es generalizing s with
  | nil => rfl
  | cons e rest ih =>
      rw [List.cons_append, run_cons, run_cons]
      cases step s e with
      | none => rfl
      | some next => exact ih next

/-! ## Induction over runs -/

/-- A property kept by every guarded step holds after every guarded run. -/
theorem run_invariant {guard : State → Event → Prop} {inv : State → Prop}
    (kept : ∀ s e next, inv s → guard s e → step s e = some next → inv next) :
    ∀ (es : List Event) (s final : State), inv s → Guarded step guard s es →
      run step s es = some final → inv final := by
  intro es
  induction es with
  | nil =>
      intro s final holds _ ran
      cases Option.some.inj ran
      exact holds
  | cons e rest ih =>
      intro s final holds guarded ran
      obtain ⟨next, taken, ran⟩ := (run_cons_some step).mp ran
      simp only [Guarded, taken] at guarded
      exact ih next final (kept s e next holds guarded.1 taken) guarded.2 ran

/-- A property that a step keeps exactly when its guard holds, and that no
step gives back, holds after a run exactly when every guard held. -/
theorem run_guarded_iff {guard : State → Event → Prop} {inv : State → Prop}
    (exactly : ∀ s e next, step s e = some next → (inv next ↔ inv s ∧ guard s e)) :
    ∀ (es : List Event) (s final : State), run step s es = some final →
      (inv final ↔ inv s ∧ Guarded step guard s es) := by
  intro es
  induction es with
  | nil =>
      intro s final ran
      cases Option.some.inj ran
      exact (and_iff_left trivial).symm
  | cons e rest ih =>
      intro s final ran
      obtain ⟨next, taken, ran⟩ := (run_cons_some step).mp ran
      simp only [Guarded, taken]
      rw [ih next final ran, exactly s e next taken, and_assoc]

/-- A guard that keeps an invariant of good states, and without which a step leads
to a bad one, tells which runs stay good. -/
theorem always_iff_guarded {guard : State → Event → Prop} {inv good : State → Prop}
    (holds : ∀ s, inv s → good s)
    (kept : ∀ s e next, inv s → guard s e → step s e = some next → inv next)
    (broken : ∀ s e next, inv s → step s e = some next → good next → guard s e) :
    ∀ (es : List Event) (s final : State), inv s → run step s es = some final →
      (Always step good s es ↔ Guarded step guard s es) := by
  intro es
  induction es with
  | nil =>
      intro s final start _
      exact iff_of_true (holds s start) trivial
  | cons e rest ih =>
      intro s final start ran
      obtain ⟨next, taken, ran⟩ := (run_cons_some step).mp ran
      simp only [Always, Guarded, taken]
      constructor
      · intro ⟨_, later⟩
        have good : good next := by
          cases rest with
          | nil => exact later
          | cons _ _ => exact later.1
        have guarded := broken s e next start taken good
        exact ⟨guarded, (ih next final (kept s e next start guarded taken) ran).mp later⟩
      · intro ⟨guarded, later⟩
        have after := kept s e next start guarded taken
        exact ⟨holds s start, (ih next final after ran).mpr later⟩

/-- An invariant of the steps that makes a state good keeps it good all along. -/
theorem always_of_invariant {inv good : State → Prop} (holds : ∀ s, inv s → good s)
    (kept : ∀ s e next, inv s → step s e = some next → inv next) :
    ∀ (es : List Event) (s : State), inv s → Always step good s es := by
  intro es
  induction es with
  | nil => exact fun s start => holds s start
  | cons e rest ih =>
      intro s start
      refine ⟨holds s start, ?_⟩
      cases taken : step s e with
      | none => trivial
      | some next => exact ih next (kept s e next start taken)

/-- Guarded steps keep the invariant, so that all states of a guarded run are good. -/
theorem always_of_guarded {guard : State → Event → Prop} {inv good : State → Prop}
    (holds : ∀ s, inv s → good s)
    (kept : ∀ s e next, inv s → guard s e → step s e = some next → inv next) :
    ∀ (es : List Event) (s : State), inv s → Guarded step guard s es → Always step good s es := by
  intro es
  induction es with
  | nil => exact fun s start _ => holds s start
  | cons e rest ih =>
      intro s start guarded
      refine ⟨holds s start, ?_⟩
      have later := guarded.2
      cases taken : step s e with
      | none => trivial
      | some next =>
          rw [taken] at later
          exact ih next (kept s e next start guarded.1 taken) later

theorem stepwise_of_invariant {inv : State → Prop} {rel : State → Event → State → Prop}
    (kept : ∀ s e next, inv s → step s e = some next → inv next)
    (allowed : ∀ s e next, inv s → step s e = some next → rel s e next) :
    ∀ (es : List Event) (s : State), inv s → Stepwise step rel s es := by
  intro es
  induction es with
  | nil => exact fun _ _ => trivial
  | cons e rest ih =>
      intro s start
      unfold Stepwise
      cases taken : step s e with
      | none => trivial
      | some next => exact ⟨allowed s e next start taken, ih next (kept s e next start taken)⟩

theorem guarded_mono {guard weaker : State → Event → Prop}
    (implies : ∀ s e, guard s e → weaker s e) :
    ∀ (es : List Event) (s : State), Guarded step guard s es → Guarded step weaker s es := by
  intro es
  induction es with
  | nil => exact fun _ _ => trivial
  | cons e rest ih =>
      intro s guarded
      refine ⟨implies s e guarded.1, ?_⟩
      have later := guarded.2
      cases taken : step s e with
      | none => trivial
      | some next =>
          rw [taken] at later
          exact ih next later

theorem always_mono {good weaker : State → Prop} (implies : ∀ s, good s → weaker s) :
    ∀ (es : List Event) (s : State), Always step good s es → Always step weaker s es := by
  intro es
  induction es with
  | nil => exact fun s start => implies s start
  | cons e rest ih =>
      intro s always
      refine ⟨implies s always.1, ?_⟩
      have later := always.2
      cases taken : step s e with
      | none => trivial
      | some next =>
          rw [taken] at later
          exact ih next later

/-- What holds in every state that a run passes through holds in the last one. -/
theorem always_last {good : State → Prop} :
    ∀ (es : List Event) (s final : State), Always step good s es → run step s es = some final →
      good final := by
  intro es
  induction es with
  | nil =>
      intro s final always ran
      cases Option.some.inj ran
      exact always
  | cons e rest ih =>
      intro s final always ran
      obtain ⟨next, taken, ran⟩ := (run_cons_some step).mp ran
      have later := always.2
      rw [taken] at later
      exact ih next final later ran

/-- Guarded steps from an invariant state are all as the relation says. -/
theorem stepwise_of_guarded {guard : State → Event → Prop} {inv : State → Prop}
    {rel : State → Event → State → Prop}
    (kept : ∀ s e next, inv s → guard s e → step s e = some next → inv next ∧ rel s e next) :
    ∀ (es : List Event) (s : State), inv s → Guarded step guard s es → Stepwise step rel s es := by
  intro es
  induction es with
  | nil => exact fun _ _ _ => trivial
  | cons e rest ih =>
      intro s start guarded
      unfold Stepwise
      have later := guarded.2
      cases taken : step s e with
      | none => trivial
      | some next =>
          rw [taken] at later
          obtain ⟨after, allowed⟩ := kept s e next start guarded.1 taken
          exact ⟨allowed, ih next after later⟩

theorem guarded_true (s : State) (es : List Event) :
    Guarded step (fun _ _ => True) s es := by
  induction es generalizing s with
  | nil => trivial
  | cons e rest ih =>
      refine ⟨trivial, ?_⟩
      cases step s e with
      | none => trivial
      | some next => exact ih next

/-- The unguarded rule: a property kept by every step holds in every reachable
state. -/
theorem reachable_invariant {inv : State → Prop} {boot s : State}
    (start : inv boot)
    (kept : ∀ s e next, inv s → step s e = some next → inv next)
    (reached : Reachable step boot s) : inv s := by
  obtain ⟨es, ran⟩ := reached
  have every : ∀ s e next, inv s → True → step s e = some next → inv next :=
    fun s e next holds _ taken => kept s e next holds taken
  exact run_invariant step every es boot s start (guarded_true step boot es) ran

/-- A property of a state and of the events that have led to it. -/
theorem history_invariant {inv : List Event → State → Prop} {start : State}
    (first : inv [] start)
    (kept : ∀ es s e next, run step start es = some s → inv es s → step s e = some next →
      inv (es ++ [e]) next) :
    ∀ (es : List Event) (s : State), run step start es = some s → inv es s := by
  have later : ∀ (es before : List Event) (s final : State), run step start before = some s →
      inv before s → run step s es = some final → inv (before ++ es) final := by
    intro es
    induction es with
    | nil =>
        intro before s final _ holds ran
        cases ran
        rwa [List.append_nil]
    | cons e rest ih =>
        intro before s final so_far holds ran
        obtain ⟨next, taken, ran⟩ := (run_cons_some step).mp ran
        rw [List.append_cons]
        refine ih _ next final ?_ (kept before s e next so_far holds taken) ran
        rw [run_append, so_far, Option.bind_some, run_cons, taken]
        rfl
  intro es s ran
  exact later es [] start s rfl first ran

end Basic

end Xv6.Lib.Runs
