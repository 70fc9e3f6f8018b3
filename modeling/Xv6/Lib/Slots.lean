import Mathlib.Data.List.Nodup
import Mathlib.Logic.Function.Basic

/-!
# Tables with a value in each slot

What a store into one slot does to every slot of the table, for a reflexive
relation between the old and the new value and for an observation; and what holds
after a loop that visits each slot once.
-/

set_option autoImplicit false

namespace Xv6.Lib.Slots

universe u v w

variable {ι : Type u} {σ : Type v} {τ : Type w} [DecidableEq ι]

theorem update_related (rel : σ → σ → Prop) (refl : ∀ x, rel x x) (table : ι → σ) (j : ι) (x : σ)
    (stored : rel (table j) x) (i : ι) : rel (table i) (Function.update table j x i) := by
  by_cases here : i = j
  · subst here
    rwa [Function.update_self]
  · rw [Function.update_of_ne here]
    exact refl (table i)

theorem update_observed (obs : σ → τ) (table : ι → σ) (j : ι) (x : σ)
    (same : obs x = obs (table j)) (i : ι) : obs (Function.update table j x i) = obs (table i) :=
  update_related (fun x y => obs y = obs x) (fun _ => rfl) table j x same i

/-- `inv` says what holds when the loop has seen a list of slots. -/
theorem foldl_seen {σ : Type v} (inv : List ι → σ → Prop) (f : σ → ι → σ)
    (step : ∀ i seen s, i ∉ seen → inv seen s → inv (i :: seen) (f s i)) :
    ∀ (rest seen : List ι) (s : σ), rest.Nodup → (∀ i ∈ rest, i ∉ seen) → inv seen s →
      inv (rest.reverse ++ seen) (rest.foldl f s) := by
  intro rest
  induction rest with
  | nil => exact fun seen s _ _ holds => holds
  | cons i rest ih =>
      intro seen s distinct fresh holds
      obtain ⟨notLater, distinct⟩ := List.nodup_cons.mp distinct
      have here : i ∉ seen := fresh i List.mem_cons_self
      have later : ∀ j ∈ rest, j ∉ i :: seen := by
        intro j member again
        rcases List.mem_cons.mp again with rfl | old
        · exact notLater member
        · exact fresh j (List.mem_cons_of_mem i member) old
      have after := ih (i :: seen) (f s i) distinct later (step i seen s here holds)
      rwa [List.reverse_cons, List.append_assoc]

theorem foldl_seen_all {σ : Type v} {inv : List ι → σ → Prop} {f : σ → ι → σ} {all : List ι}
    {s : σ} (distinct : all.Nodup) (start : inv [] s)
    (step : ∀ i seen s, i ∉ seen → inv seen s → inv (i :: seen) (f s i)) :
    inv all.reverse (all.foldl f s) := by
  have done := foldl_seen inv f step all [] s distinct (fun _ _ => List.not_mem_nil) start
  rwa [List.append_nil] at done

end Xv6.Lib.Slots
