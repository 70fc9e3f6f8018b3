import Mathlib.Tactic.Common

/-!
# How a computation ends

Rules for computations that return or fail: `Ends x bad post` says that `x` returns
what `post` says, or fails as `bad` allows.
-/

set_option autoImplicit false

namespace Xv6.Lib.Outcome

universe u v

variable {E : Type u} {α β : Type v}

def Ends (x : Except E α) (bad : E → Prop) (post : α → Prop) : Prop :=
  match x with
  | .error e => bad e
  | .ok a => post a

variable {bad bad' : E → Prop} {post post' : α → Prop} {x : Except E α}

theorem ends_pure {a : α} (holds : post a) : Ends (pure a : Except E α) bad post := holds

theorem ends_error {e : E} (allowed : bad e) : Ends (.error e : Except E α) bad post := allowed

theorem ends_mono (h : Ends x bad post) (allowed : ∀ e, bad e → bad' e)
    (weaker : ∀ a, post a → post' a) : Ends x bad' post' := by
  cases x with
  | error e => exact allowed e h
  | ok a => exact weaker a h

theorem Ends.and (h : Ends x bad post) (h' : Ends x bad' post') :
    Ends x bad fun a => post a ∧ post' a := by
  cases x with
  | error e => exact h
  | ok a => exact ⟨h, h'⟩

/-- The rule of sequences. -/
theorem ends_bind {f : α → Except E β} {post : β → Prop}
    (h : Ends x bad fun a => Ends (f a) bad post) : Ends (x >>= f) bad post := by
  cases x with
  | error e => exact h
  | ok a => exact h

theorem ends_map {f : α → β} {post : β → Prop} (h : Ends x bad fun a => post (f a)) :
    Ends (f <$> x) bad post := by
  cases x with
  | error e => exact h
  | ok a => exact h

theorem ends_mapError {E' : Type u} (g : E → E') (h : Ends x bad post) :
    Ends (x.mapError g) (fun e' => ∃ e, e' = g e ∧ bad e) post := by
  cases x with
  | error e => exact ⟨e, rfl, h⟩
  | ok a => exact h

theorem Ends.ok {a : α} (h : Ends x bad post) (returned : x = .ok a) : post a := by
  subst returned
  exact h

theorem Ends.error {e : E} (h : Ends x bad post) (failed : x = .error e) : bad e := by
  subst failed
  exact h

/-- A loop over a list, with what holds before each round. -/
theorem ends_foldlM {ι : Type v} {f : α → ι → Except E α} {inv : List ι → α → Prop}
    (round : ∀ i rest a, inv (i :: rest) a → Ends (f a i) bad (inv rest)) :
    ∀ (items : List ι) (a : α), inv items a → Ends (items.foldlM f a) bad (inv []) := by
  intro items
  induction items with
  | nil => exact fun a holds => ends_pure holds
  | cons i rest ih =>
      intro a holds
      rw [List.foldlM_cons]
      apply ends_bind
      exact ends_mono (round i rest a holds) (fun e allowed => allowed) (ih ·)

end Xv6.Lib.Outcome
