import Mathlib.Logic.Relation
import Xv6.Lib.Outcome

/-!
# Programs among other programs

A program is a sequence of atomic actions on a state that others change between them, as
`rely` says.  An action can be one that is tried again until it succeeds.  `Wp` is the
weakest precondition for a program whose every state is as `sees` says, and a `Triple` says
it of an assertion that the others do not break.
-/

set_option autoImplicit false

namespace Xv6.Lib.Rely

universe u v w

open Relation (ReflTransGen)
open Xv6.Lib.Outcome

inductive Prog (S : Type u) (E : Type v) (α : Type w) where
  | ret (a : α)
  | fail (e : E)
  /-- An action, made again as long as `again` holds of the state it is made in. -/
  | act (again : S → Bool) (f : S → S) (next : S → Prog S E α)

variable {S : Type u} {E : Type v} {α β : Type w}

def Prog.bind : Prog S E α → (α → Prog S E β) → Prog S E β
  | .ret a, k => k a
  | .fail e, _ => .fail e
  | .act again f next, k => .act again f fun s => (next s).bind k

instance : Monad (Prog S E) where
  pure := .ret
  bind := .bind

def read (g : S → α) : Prog S E α := .act (fun _ => false) id fun s => .ret (g s)

def write (f : S → S) : Prog S E PUnit := .act (fun _ => false) f fun _ => .ret ⟨⟩

/-- `while(again) f;` -/
def spin (again : S → Bool) (f : S → S) : Prog S E PUnit := .act again f fun _ => .ret ⟨⟩

/-- The state after a computation, which is the same if the computation fails. -/
def settled (s : S) : Except E (α × S) → S
  | .ok (_, s') => s'
  | .error _ => s

def answered : Except E (α × S) → Prog S E α
  | .ok (a, _) => .ret a
  | .error e => .fail e

/-- A computation that the others do not interrupt. -/
def atomic (g : S → Except E (α × S)) : Prog S E α :=
  .act (fun _ => false) (fun s => settled s (g s)) fun s => answered (g s)

section Runs

variable (rely : S → S → Prop)

inductive Step : Prog S E α × S → Prog S E α × S → Prop where
  | other {x : Prog S E α} {s s' : S} (turn : rely s s') : Step (x, s) (x, s')
  | retry {again : S → Bool} {f : S → S} {next : S → Prog S E α} {s : S}
      (failed : again s = true) : Step (.act again f next, s) (.act again f next, f s)
  | done {again : S → Bool} {f : S → S} {next : S → Prog S E α} {s : S}
      (succeeded : again s = false) : Step (.act again f next, s) (next s, f s)

def Runs : Prog S E α × S → Prog S E α × S → Prop := ReflTransGen (Step rely)

end Runs

section Wp

variable (rely : S → S → Prop) (sees : S → Prop) (bad : E → Prop)

def Wp : Prog S E α → S → (α → S → Prop) → Prop
  | .ret a, s, post => ∀ s', ReflTransGen rely s s' → sees s' ∧ post a s'
  | .fail e, s, _ => ∀ s', ReflTransGen rely s s' → sees s' ∧ bad e
  | .act again f next, s, post =>
      ∀ s', ReflTransGen (fun a b => rely a b ∨ again a = true ∧ b = f a) s s' →
        sees s' ∧ (again s' = false → Wp (next s') (f s') post)

variable {rely sees bad}

theorem wp_step {x x' : Prog S E α} {s s' : S} {post : α → S → Prop}
    (h : Wp rely sees bad x s post) (step : Step rely (x, s) (x', s')) :
    Wp rely sees bad x' s' post := by
  cases step with
  | other turn =>
      cases x with
      | ret a => exact fun t later => h t (.head turn later)
      | fail e => exact fun t later => h t (.head turn later)
      | act again f next => exact fun t later => h t (.head (.inl turn) later)
  | retry failed => exact fun t later => h t (.head (.inr ⟨failed, rfl⟩) later)
  | done succeeded => exact (h s .refl).2 succeeded

theorem wp_runs {x x' : Prog S E α} {s s' : S} {post : α → S → Prop}
    (h : Wp rely sees bad x s post) (run : Runs rely (x, s) (x', s')) :
    Wp rely sees bad x' s' post := by
  generalize last : (x', s') = config at run
  induction run generalizing x' s' with
  | refl => cases last; exact h
  | @tail mid _ _ step ih =>
      subst last
      exact wp_step (@ih mid.1 mid.2 rfl) step

theorem Wp.seen {x : Prog S E α} {s : S} {post : α → S → Prop} (h : Wp rely sees bad x s post) :
    sees s := by
  cases x with
  | ret a => exact (h s .refl).1
  | fail e => exact (h s .refl).1
  | act again f next => exact (h s .refl).1

theorem Wp.returned {a : α} {s : S} {post : α → S → Prop}
    (h : Wp rely sees bad (.ret a : Prog S E α) s post) : post a s := (h s .refl).2

theorem Wp.failed {e : E} {s : S} {post : α → S → Prop}
    (h : Wp rely sees bad (.fail e : Prog S E α) s post) : bad e := (h s .refl).2

theorem wp_mono {x : Prog S E α} {s : S} {post post' : α → S → Prop}
    (h : Wp rely sees bad x s post) (weaker : ∀ a s, post a s → post' a s) :
    Wp rely sees bad x s post' := by
  induction x generalizing s with
  | ret a => exact fun t later => ⟨(h t later).1, weaker a t (h t later).2⟩
  | fail e => exact h
  | act again f next ih =>
      intro t later
      obtain ⟨seen, rest⟩ := h t later
      exact ⟨seen, fun succeeded => ih t (rest succeeded)⟩

/-- The rule of sequences. -/
theorem wp_bind {x : Prog S E α} {k : α → Prog S E β} {s : S} {post : β → S → Prop}
    (h : Wp rely sees bad x s fun a s' => Wp rely sees bad (k a) s' post) :
    Wp rely sees bad (x >>= k) s post := by
  induction x generalizing s with
  | ret a => exact (h s .refl).2
  | fail e => exact h
  | act again f next ih =>
      intro t later
      obtain ⟨seen, rest⟩ := h t later
      exact ⟨seen, fun succeeded => ih t (rest succeeded)⟩

end Wp

/-! ## Triples -/

section Triples

variable (rely : S → S → Prop) (sees : S → Prop) (bad : E → Prop)

/-- An assertion that the others do not break, of states that may be seen. -/
structure Steady (P : S → Prop) : Prop where
  stable : ∀ s s', P s → rely s s' → P s'
  sees : ∀ s, P s → sees s

def Triple (P : S → Prop) (x : Prog S E α) (Q : α → S → Prop) : Prop :=
  ∀ s, P s → Wp rely sees bad x s Q

variable {rely sees bad}

theorem Steady.later {P : S → Prop} {s s' : S} (steady : Steady rely sees P) (h : P s)
    (later : ReflTransGen rely s s') : P s' := by
  induction later with
  | refl => exact h
  | tail _ turn ih => exact steady.stable _ _ ih turn

theorem Steady.known {P : S → Prop} (fact : Prop) (steady : Steady rely sees P) :
    Steady rely sees fun s => fact ∧ P s where
  stable s s' h turn := ⟨h.1, steady.stable s s' h.2 turn⟩
  sees s h := steady.sees s h.2

/-- Before an action that is made once. -/
theorem Steady.once {P : S → Prop} {f : S → S} {s s' : S} (steady : Steady rely sees P) (h : P s)
    (later : ReflTransGen (fun a b => rely a b ∨ false = true ∧ b = f a) s s') : P s' := by
  induction later with
  | refl => exact h
  | tail _ turn ih =>
      rcases turn with turn | ⟨failed, -⟩
      · exact steady.stable _ _ ih turn
      · exact absurd failed Bool.false_ne_true

theorem triple_pure {a : α} {P : S → Prop} {Q : α → S → Prop} (steady : Steady rely sees P)
    (holds : ∀ s, P s → Q a s) : Triple rely sees bad P (pure a : Prog S E α) Q :=
  fun _ h t later => ⟨steady.sees t (steady.later h later), holds t (steady.later h later)⟩

theorem triple_fail {e : E} {P : S → Prop} {Q : α → S → Prop} (steady : Steady rely sees P)
    (allowed : bad e) : Triple rely sees bad P (.fail e : Prog S E α) Q :=
  fun _ h t later => ⟨steady.sees t (steady.later h later), allowed⟩

theorem triple_branch {b : Prop} [Decidable b] {x y : Prog S E α} {P : S → Prop}
    {Q : α → S → Prop} (yes : b → Triple rely sees bad P x Q)
    (no : ¬ b → Triple rely sees bad P y Q) : Triple rely sees bad P (if b then x else y) Q := by
  by_cases holds : b
  · rw [if_pos holds]
    exact yes holds
  · rw [if_neg holds]
    exact no holds

theorem triple_bind {x : Prog S E α} {k : α → Prog S E β} {P : S → Prop} {M : α → S → Prop}
    {Q : β → S → Prop} (first : Triple rely sees bad P x M)
    (rest : ∀ a, Triple rely sees bad (M a) (k a) Q) : Triple rely sees bad P (x >>= k) Q :=
  fun s h => wp_bind (wp_mono (first s h) rest)

/-- The rule of sequences, for a program that can return one value only. -/
theorem triple_seq {x : Prog S E α} {k : α → Prog S E β} {P M : S → Prop} {a : α}
    {Q : β → S → Prop} (first : Triple rely sees bad P x fun b s => b = a ∧ M s)
    (rest : Triple rely sees bad M (k a) Q) : Triple rely sees bad P (x >>= k) Q := by
  refine triple_bind first fun b s h => ?_
  obtain ⟨rfl, holds⟩ := h
  exact rest s holds

theorem triple_known {fact : Prop} {x : Prog S E α} {P : S → Prop} {Q : α → S → Prop}
    (known : fact → Triple rely sees bad P x Q) :
    Triple rely sees bad (fun s => fact ∧ P s) x Q := fun s h => known h.1 s h.2

theorem triple_exists {ι : Type w} {x : Prog S E α} {P : ι → S → Prop} {Q : α → S → Prop}
    (each : ∀ i, Triple rely sees bad (P i) x Q) :
    Triple rely sees bad (fun s => ∃ i, P i s) x Q := fun s h =>
  h.elim fun i holds => each i s holds

theorem triple_mono {x : Prog S E α} {P P' : S → Prop} {Q Q' : α → S → Prop}
    (triple : Triple rely sees bad P x Q) (before : ∀ s, P' s → P s)
    (after : ∀ a s, Q a s → Q' a s) : Triple rely sees bad P' x Q' :=
  fun s h => wp_mono (triple s (before s h)) after

theorem triple_spin {again : S → Bool} {f : S → S} {P : S → Prop} {Q : S → Prop}
    (steady : Steady rely sees P) (steady' : Steady rely sees Q)
    (retry : ∀ s, P s → again s = true → P (f s))
    (done : ∀ s, P s → again s = false → Q (f s)) :
    Triple rely sees bad P (spin again f : Prog S E PUnit) fun _ => Q := by
  intro s h t later
  have here : P t := by
    induction later with
    | refl => exact h
    | tail _ turn ih =>
        rcases turn with turn | ⟨failed, rfl⟩
        · exact steady.stable _ _ ih turn
        · exact retry _ ih failed
  refine ⟨steady.sees t here, fun succeeded t' later' => ?_⟩
  have there := steady'.later (done t here succeeded) later'
  exact ⟨steady'.sees t' there, there⟩

theorem triple_write {f : S → S} {P Q : S → Prop} (steady : Steady rely sees P)
    (steady' : Steady rely sees Q) (done : ∀ s, P s → Q (f s)) :
    Triple rely sees bad P (write f : Prog S E PUnit) fun _ => Q :=
  triple_spin steady steady' (fun _ _ failed => absurd failed Bool.false_ne_true)
    fun s h _ => done s h

/-- What is known of the value when it is read is known afterwards. -/
theorem triple_read {g : S → α} {F : α → Prop} {P : S → Prop} (steady : Steady rely sees P)
    (found : ∀ s, P s → F (g s)) :
    Triple rely sees bad P (read g : Prog S E α) fun a s => F a ∧ P s := by
  intro s h t later
  have here : P t := steady.once h later
  refine ⟨steady.sees t here, fun _ t' later' => ?_⟩
  have there := steady.later here later'
  exact ⟨steady.sees t' there, found t here, there⟩

/-- Where nothing is known of the value that is read. -/
theorem triple_look {g : S → α} {P : S → Prop} (steady : Steady rely sees P) :
    Triple rely sees bad P (read g : Prog S E α) fun _ => P :=
  triple_mono (triple_read (F := fun _ => True) steady fun _ _ => trivial) (fun _ h => h)
    fun _ _ both => both.2

theorem triple_atomic {g : S → Except E (α × S)} {P : S → Prop} {Q : α → S → Prop}
    (steady : Steady rely sees P) (steady' : ∀ a, Steady rely sees (Q a))
    (done : ∀ s, P s → Ends (g s) bad fun r => Q r.1 r.2) :
    Triple rely sees bad P (atomic g) Q := by
  intro s h t later
  have here : P t := steady.once h later
  refine ⟨steady.sees t here, fun _ => ?_⟩
  have result := done t here
  dsimp only
  cases computed : g t with
  | error e =>
      exact fun t' later' => ⟨steady.sees t' (steady.later here later'), result.error computed⟩
  | ok r =>
      intro t' later'
      have there := (steady' r.1).later (result.ok computed) later'
      exact ⟨(steady' r.1).sees t' there, there⟩

end Triples

/-! ## Runs without the others -/

/-- What a program that is left alone comes to, if no action is tried again. -/
def alone : Prog S E α → S → Option (Except E α × S)
  | .ret a, s => some (.ok a, s)
  | .fail e, s => some (.error e, s)
  | .act again f next, s => if again s = true then none else alone (next s) (f s)

/-- The program that has come to its end. -/
def ended : Except E α → Prog S E α
  | .ok a => .ret a
  | .error e => .fail e

section Alone

variable {rely : S → S → Prop}

theorem Runs.bind {x x' : Prog S E α} {s s' : S} (run : Runs rely (x, s) (x', s'))
    (k : α → Prog S E β) : Runs rely (x >>= k, s) (x' >>= k, s') := by
  generalize last : (x', s') = config at run
  induction run generalizing x' s' with
  | refl => cases last; exact .refl
  | @tail mid _ _ step ih =>
      subst last
      refine .tail (@ih mid.1 mid.2 rfl) ?_
      cases step with
      | other turn => exact .other turn
      | retry failed => exact .retry failed
      | done succeeded => exact .done succeeded

theorem runs_of_alone {x : Prog S E α} {s s' : S} {outcome : Except E α}
    (finished : alone x s = some (outcome, s')) :
    Runs rely (x, s) (ended outcome, s') := by
  induction x generalizing s with
  | ret a =>
      cases finished
      exact .refl
  | fail e =>
      cases finished
      exact .refl
  | act again f next ih =>
      rw [alone] at finished
      split at finished
      · cases finished
      · rename_i succeeded
        exact .head (.done (Bool.eq_false_iff.mpr succeeded)) (ih s finished)

end Alone

/-! ## Runs by a schedule -/

section Schedule

variable {ι : Type w} (others : ι → S → Option S)

/-- An action of the program, or a move of the others. -/
def turn : Option ι → Prog S E α × S → Option (Prog S E α × S)
  | some i, (x, s) => (others i s).map fun s' => (x, s')
  | none, (.act again f next, s) => if again s = true then none else some (next s, f s)
  | none, (.ret _, _) => none
  | none, (.fail _, _) => none

def replay : List (Option ι) → Prog S E α × S → Option (Prog S E α × S)
  | [], c => some c
  | i :: rest, c => (turn others i c).bind (replay rest)

variable {others} {rely : S → S → Prop}

theorem step_of_turn (moves : ∀ i s s', others i s = some s' → rely s s') {i : Option ι}
    {c c' : Prog S E α × S} (made : turn others i c = some c') : Step rely c c' := by
  obtain ⟨x, s⟩ := c
  cases i with
  | some i =>
      obtain ⟨s', moved, rfl⟩ := Option.map_eq_some_iff.mp made
      exact .other (moves i s s' moved)
  | none =>
      cases x with
      | ret a => cases made
      | fail e => cases made
      | act again f next =>
          rw [turn] at made
          split at made
          · cases made
          · rename_i succeeded
            cases made
            exact .done (Bool.eq_false_iff.mpr succeeded)

theorem runs_of_replay (moves : ∀ i s s', others i s = some s' → rely s s')
    {turns : List (Option ι)} {c c' : Prog S E α × S} (made : replay others turns c = some c') :
    Runs rely c c' := by
  induction turns generalizing c with
  | nil =>
      cases made
      exact .refl
  | cons i rest ih =>
      obtain ⟨c'', first, later⟩ := Option.bind_eq_some_iff.mp made
      exact .head (step_of_turn moves first) (ih later)

end Schedule

end Xv6.Lib.Rely
