import Mathlib.Algebra.BigOperators.Group.Finset.Basic
import Mathlib.Algebra.Order.BigOperators.Group.Finset
import Xv6.Common.SleepLockRuns
import Xv6.Lib.Progress

/-!
# A free sleep lock is taken (sleeplock.c)

When nobody has the lock and a process is in acquiresleep(), the processes that are in a
call bring it about that one has it, in whatever order they take their steps.
-/

set_option autoImplicit false

namespace Xv6.Common.SleepLocks

open Xv6.Lib.Progress
open Xv6.Lib.Runs

/-- In acquiresleep(), and the lock not taken yet. -/
def Point.waits : Point → Bool
  | .enter | .test | .sleep | .unlock | .doze | .asleep | .awake | .resumed | .relock | .take =>
      true
  | _ => false

/-- The steps that a process has before it, at most, while nobody has the lock. -/
def Point.rank : Point → Nat
  | .doze => 7
  | .asleep => 6
  | .awake => 5
  | .resumed | .wakeup => 4
  | .enter | .relock | .wake | .ask => 3
  | .test | .woken | .read => 2
  | .take | .given | .answer _ => 1
  | .outside | .sleep | .unlock | .leave | .give | .clear => 0

variable {P : Type} [DecidableEq P] {pids : Pids P} {s s' : State P} {p : P}

/-- A step of a call that has begun, or of the code that holds ptable.lock. -/
def Begun (_ : State P) : Event P → Prop
  | .go _ | .unlockTable => True
  | _ => False

def Taken (s : State P) : Prop := ∃ p, Owns s p

structure Waiting (pids : Pids P) (s : State P) : Prop where
  inv : Inv pids s
  free : ∀ p, ¬ Owns s p
  waits : ∃ p, (s.point p).waits = true

def others : Option (Holder P) → Nat
  | some .other => 1
  | _ => 0

section Measure

variable [Fintype P]

def bound (s : State P) : Nat := (∑ p, (s.point p).rank) + others s.table

/-- What a step does to the places, where it does not take the lock. -/
structure Lower (s s' : State P) (p : P) : Prop where
  rank : (s'.point p).rank < (s.point p).rank
  waits : (s.point p).waits = true → (s'.point p).waits = true
  rest : ∀ q, q ≠ p → s'.point q = s.point q ∨ s.point q = .asleep ∧ s'.point q = .awake

omit [DecidableEq P] [Fintype P] in
theorem Waiting.unlocked (waiting : Waiting pids s) : s.locked = false := by
  cases locked : s.locked with
  | false => rfl
  | true =>
      obtain ⟨q, owns⟩ := waiting.inv.locked.mp locked
      exact absurd owns (waiting.free q)

omit [Fintype P] in
theorem lower_goto {before point : Point} (here : s.point p = before)
    (moved : s'.point = Function.update s.point p point) (rank : point.rank < before.rank)
    (waits : before.waits = true → point.waits = true) : Lower s s' p := by
  have arrived : s'.point p = point := by rw [moved, Function.update_self]
  refine ⟨by rwa [arrived, here], ?_, fun q other => Or.inl ?_⟩
  · rwa [arrived, here]
  · rw [moved, Function.update_of_ne other]

omit [Fintype P] in
theorem acquire_lower {before point : Point} (here : s.point p = before)
    (taken : acquire s p point = some s') (rank : point.rank < before.rank)
    (waits : before.waits = true → point.waits = true) :
    Lower s s' p ∧ others s'.table ≤ others s.table := by
  unfold acquire at taken
  split at taken
  · cases taken
    exact ⟨lower_goto here rfl rank waits, Nat.le_refl _⟩
  · cases taken

omit [Fintype P] in
theorem acquireTable_lower {before point : Point} (here : s.point p = before)
    (taken : acquireTable s p point = some s') (rank : point.rank < before.rank)
    (waits : before.waits = true → point.waits = true) :
    Lower s s' p ∧ others s'.table ≤ others s.table := by
  obtain ⟨_, rfl⟩ := acquireTable_some taken
  exact ⟨lower_goto here rfl rank waits, Nat.zero_le _⟩

omit [Fintype P] in
/-- A step of a process takes the lock or brings it nearer. -/
theorem go_lower (waiting : Waiting pids s) (taken : go pids s p = some s') :
    Taken s' ∨ Lower s s' p ∧ others s'.table ≤ others s.table := by
  have inv := waiting.inv
  have unlocked := waiting.unlocked
  have away : ∀ before : Point, before.owns = true → s.point p ≠ before :=
    fun before owns here => waiting.free p (Or.inr (by rw [here, owns]))
  have unseen : ∀ before : Point, before.sees = true → s.point p ≠ before := by
    intro before sees here
    have locked := inv.seen p (by rw [here, sees])
    exact Bool.false_ne_true (unlocked.symm.trans locked)
  unfold go at taken
  cases here : s.point p with
  | outside => simp [here] at taken
  | asleep => simp [here] at taken
  | sleep => exact absurd here (unseen _ rfl)
  | unlock => exact absurd here (unseen _ rfl)
  | leave => exact absurd here (away _ rfl)
  | give => exact absurd here (away _ rfl)
  | clear => exact absurd here (away _ rfl)
  | enter =>
      rw [here] at taken
      exact Or.inr (acquire_lower here taken (by decide) fun _ => rfl)
  | relock =>
      rw [here] at taken
      exact Or.inr (acquire_lower here taken (by decide) fun _ => rfl)
  | ask =>
      rw [here] at taken
      exact Or.inr (acquire_lower here taken (by decide) Bool.noConfusion)
  | awake =>
      rw [here] at taken
      exact Or.inr (acquireTable_lower here taken (by decide) fun _ => rfl)
  | wakeup =>
      rw [here] at taken
      exact Or.inr (acquireTable_lower here taken (by decide) Bool.noConfusion)
  | test =>
      simp only [here, unlocked, Option.some.injEq] at taken
      subst taken
      exact Or.inr ⟨lower_goto here rfl (by decide) fun _ => rfl, Nat.le_refl _⟩
  | take =>
      simp only [here, Option.some.injEq] at taken
      subst taken
      have arrived : Function.update s.point p .leave p = .leave := Function.update_self ..
      refine Or.inl ⟨p, Or.inr ?_⟩
      show (Function.update s.point p .leave p).owns = true
      rw [arrived]
      rfl
  | doze =>
      simp only [here, Option.some.injEq] at taken
      subst taken
      exact Or.inr ⟨lower_goto here rfl (by decide) fun _ => rfl, Nat.zero_le _⟩
  | resumed =>
      simp only [here, Option.some.injEq] at taken
      subst taken
      exact Or.inr ⟨lower_goto here rfl (by decide) fun _ => rfl, Nat.zero_le _⟩
  | woken =>
      simp only [here, Option.some.injEq] at taken
      subst taken
      exact Or.inr ⟨lower_goto here rfl (by decide) Bool.noConfusion, Nat.zero_le _⟩
  | given =>
      simp only [here, Option.some.injEq] at taken
      subst taken
      exact Or.inr ⟨lower_goto here rfl (by decide) Bool.noConfusion, Nat.le_refl _⟩
  | read =>
      simp only [here, Option.some.injEq] at taken
      subst taken
      exact Or.inr ⟨lower_goto here rfl Nat.one_lt_two Bool.noConfusion, Nat.le_refl _⟩
  | answer r =>
      simp only [here, Option.some.injEq] at taken
      subst taken
      exact Or.inr ⟨lower_goto here rfl Nat.zero_lt_one Bool.noConfusion, Nat.le_refl _⟩
  | wake =>
      simp only [here, Option.some.injEq] at taken
      subst taken
      have arrived : Function.update (wakeup1 s.point) p .woken p = .woken :=
        Function.update_self ..
      refine Or.inr ⟨⟨?_, fun waits => ?_, fun q other => ?_⟩, Nat.le_refl _⟩
      · show (Function.update (wakeup1 s.point) p .woken p).rank < _
        rw [arrived, here]
        decide
      · rw [here] at waits
        cases waits
      · show Function.update (wakeup1 s.point) p .woken q = _ ∨ _ ∧
          Function.update (wakeup1 s.point) p .woken q = _
        rw [Function.update_of_ne other, wakeup1]
        by_cases asleep : s.point q = .asleep
        · exact Or.inr ⟨asleep, if_pos asleep⟩
        · exact Or.inl (if_neg asleep)

omit [DecidableEq P] in
theorem Lower.bound (lower : Lower s s' p) (table : others s'.table ≤ others s.table) :
    SleepLocks.bound s' < SleepLocks.bound s := by
  have each : ∀ q ∈ Finset.univ, (s'.point q).rank ≤ (s.point q).rank := by
    intro q _
    by_cases same : q = p
    · rw [same]
      exact Nat.le_of_lt lower.rank
    · rcases lower.rest q same with still | ⟨asleep, awake⟩
      · rw [still]
      · rw [asleep, awake]
        decide
  have sum := Finset.sum_lt_sum each ⟨p, Finset.mem_univ p, lower.rank⟩
  exact Nat.add_lt_add_of_lt_of_le sum table

omit [DecidableEq P] [Fintype P] in
theorem Lower.still_waits (lower : Lower s s' p) (waits : ∃ q, (s.point q).waits = true) :
    ∃ q, (s'.point q).waits = true := by
  obtain ⟨q, waits⟩ := waits
  refine ⟨q, ?_⟩
  by_cases same : q = p
  · subst same
    exact lower.waits waits
  · rcases lower.rest q same with still | ⟨_, awake⟩
    · rwa [still]
    · rw [awake]
      rfl

theorem descends (pids : Pids P) :
    Descends (step pids) Begun (Waiting pids) Taken SleepLocks.bound := by
  intro s e next waiting begun taken
  have inv := step_inv pids s e next waiting.inv taken
  by_cases met : Taken next
  · exact Or.inl met
  · refine Or.inr ?_
    have free : ∀ p, ¬ Owns next p := fun p owns => met ⟨p, owns⟩
    cases e with
    | go p =>
        obtain ⟨lower, table⟩ := (go_lower waiting taken).resolve_left met
        exact ⟨⟨inv, free, lower.still_waits waiting.waits⟩, lower.bound table⟩
    | unlockTable =>
        simp only [step] at taken
        split at taken
        · rename_i held
          cases taken
          refine ⟨⟨inv, free, waiting.waits⟩, Nat.add_lt_add_left ?_ _⟩
          rw [held]
          exact Nat.one_pos
        · cases taken
    | acquiresleep p => exact begun.elim
    | releasesleep p => exact begun.elim
    | holdingsleep p => exact begun.elim
    | kill p => exact begun.elim
    | lockTable => exact begun.elim

end Measure

/-! ## Some step can be taken -/

theorem go_tables (tables : (s.point p).tables = true) : ∃ next, go pids s p = some next := by
  unfold go
  cases here : s.point p <;> rw [here] at tables <;> first | exact ⟨_, rfl⟩ | cases tables

theorem go_spins (spins : (s.point p).spins = true) (table : s.table = none) :
    ∃ next, go pids s p = some next := by
  unfold go
  cases here : s.point p <;> rw [here] at spins <;>
    first | exact ⟨_, rfl⟩ | exact ⟨_, if_pos (by rw [table]; rfl)⟩ | cases spins

theorem go_waits (waiting : Waiting pids s) (waits : (s.point p).waits = true)
    (table : s.table = none) (spin : s.spin = none) : ∃ next, go pids s p = some next := by
  have inv := waiting.inv
  have outside : ∀ before : Point, before.spins = true → s.point p ≠ before := by
    intro before spins here
    have held := (inv.spin p).mpr (by rw [here, spins])
    rw [spin] at held
    cases held
  have apart : ∀ before : Point, before.tables = true → s.point p ≠ before := by
    intro before tables here
    have held := (inv.table p).mpr (by rw [here, tables])
    rw [table] at held
    cases held
  unfold go
  cases here : s.point p
  case enter => exact ⟨_, if_pos (by rw [spin]; rfl)⟩
  case relock => exact ⟨_, if_pos (by rw [spin]; rfl)⟩
  case awake => exact ⟨_, if_pos (by rw [table]; rfl)⟩
  case asleep =>
    rcases inv.asleep p (by rw [here]; rfl) with locked | ⟨q, wakes⟩
    · exact absurd (waiting.unlocked.symm.trans locked) Bool.false_ne_true
    · have spins : (s.point q).spins = true := by
        rcases wakes_cases wakes with there | there <;> rw [there] <;> rfl
      have held := (inv.spin q).mpr spins
      rw [spin] at held
      cases held
  case doze => exact absurd here (apart _ rfl)
  case resumed => exact absurd here (apart _ rfl)
  case test => exact absurd here (outside _ rfl)
  case sleep => exact absurd here (outside _ rfl)
  case unlock => exact absurd here (outside _ rfl)
  case take => exact absurd here (outside _ rfl)
  all_goals
    rw [here] at waits
    cases waits

theorem possible (pids : Pids P) (s : State P) (waiting : Waiting pids s) :
    ∃ e next, Begun s e ∧ step pids s e = some next := by
  have inv := waiting.inv
  have goes : (∃ q, ∃ next, go pids s q = some next) →
      ∃ e next, Begun s e ∧ step pids s e = some next :=
    fun ⟨q, next, taken⟩ => ⟨.go q, next, trivial, taken⟩
  cases table : s.table with
  | some holder =>
      cases holder with
      | other => exact ⟨.unlockTable, { s with table := none }, trivial, by rw [step, table]⟩
      | proc q => exact goes ⟨q, go_tables ((inv.table q).mp table)⟩
  | none =>
      cases spin : s.spin with
      | some q => exact goes ⟨q, go_spins ((inv.spin q).mp spin) table⟩
      | none =>
          obtain ⟨p, waits⟩ := waiting.waits
          exact goes ⟨p, go_waits waiting waits table spin⟩

/-! ## Runs -/

/-- A sleep lock that is free while a process is in acquiresleep() can be taken by steps of
begun calls, and every run of `bound s + 1` such steps passes a state where it is taken. -/
theorem sleeplock_progress [Fintype P] (pids : Pids P)
    (reached : Reachable (step pids) boot s) (free : ∀ p, ¬ Owns s p)
    (waits : ∃ p, (s.point p).waits = true) :
    (∃ es final, Guarded (step pids) Begun s es ∧ run (step pids) s es = some final ∧
      Taken final) ∧
    ∀ es final, Guarded (step pids) Begun s es → run (step pids) s es = some final →
      bound s < es.length → ¬ Always (step pids) (fun s => ¬ Taken s) s es := by
  have inv : Inv pids s := reachable_invariant (step pids) boot_inv (step_inv pids) reached
  have waiting : Waiting pids s := ⟨inv, free, waits⟩
  refine ⟨reaches_goal (descends pids) (possible pids) (bound s) s (Nat.le_refl _) waiting, ?_⟩
  intro es final begun ran long never
  exact absurd (length_le_measure (descends pids) es s final waiting begun ran never)
    (Nat.not_le_of_lt long)

def twoPids : Pids Bool where
  of := fun p => if p then 2 else 1
  distinct := by decide
  positive := by decide

/-- `true` has taken the lock and cleared it, while `false` has come and gone to sleep. -/
def handedOver : List (Event Bool) :=
  .acquiresleep true :: List.replicate 4 (.go true) ++
    (.acquiresleep false :: List.replicate 5 (.go false) ++
      (.releasesleep true :: List.replicate 2 (.go true)))

theorem sleeplock_progress_handedOver : ∃ s, Reachable (step twoPids) boot s ∧
    (∀ p, ¬ Owns s p) ∧ s.point false = .asleep ∧
    (∃ es final, Guarded (step twoPids) Begun s es ∧ run (step twoPids) s es = some final ∧
      Taken final) ∧
    ∀ es final, Guarded (step twoPids) Begun s es → run (step twoPids) s es = some final →
      bound s < es.length → ¬ Always (step twoPids) (fun s => ¬ Taken s) s es := by
  have found : ∃ s ∈ run (step twoPids) boot handedOver,
      (∀ p, ¬ (s.holds p = true ∨ (s.point p).owns = true)) ∧ s.point false = .asleep := by
    decide +kernel
  obtain ⟨s, ran, free, asleep⟩ := found
  have reached : Reachable (step twoPids) boot s := ⟨handedOver, ran⟩
  exact ⟨s, reached, free, asleep,
    sleeplock_progress twoPids reached free ⟨false, by rw [asleep]; rfl⟩⟩

end Xv6.Common.SleepLocks
