import Mathlib.Data.Set.Card
import Xv6.Lib.Allocation

/-!
# What a program over an allocator returns

`Returns` is what a program can return, whatever the allocator answers; it says
nothing about who holds which resource, and goes with a `Wp`.  `Given` is the run
in which the allocator has so many resources left and gives one whenever it is
asked: what such a run comes to is really reached when the pool is as large.
-/

set_option autoImplicit false

namespace Xv6.Lib.Allocation

universe u v w

variable {R : Type u} {E : Type v} {α β : Type w}

/-! ## Some answers -/

/-- With some answers of the allocator the program returns this. -/
def Returns : Prog R E α → α → Prop
  | .ret a, b => a = b
  | .alloc next, b => ∃ answer, Returns (next answer) b
  | .free _ next, b => Returns next b
  | .fail _, _ => False

theorem returns_pure {a b : α} : Returns (pure a : Prog R E α) b ↔ a = b := Iff.rfl

theorem returns_fail {e : E} {b : α} : ¬ Returns (.fail e : Prog R E α) b := id

theorem returns_alloc (answer : Option R) : Returns (alloc : Prog R E (Option R)) answer :=
  ⟨answer, rfl⟩

theorem returns_bind {x : Prog R E α} {f : α → Prog R E β} {b : β} :
    Returns (x >>= f) b ↔ ∃ a, Returns x a ∧ Returns (f a) b := by
  induction x with
  | ret a =>
      constructor
      · exact fun h => ⟨a, rfl, h⟩
      · rintro ⟨_, rfl, h⟩
        exact h
  | alloc next ih =>
      constructor
      · rintro ⟨answer, h⟩
        obtain ⟨a, first, second⟩ := (ih answer).mp h
        exact ⟨a, ⟨answer, first⟩, second⟩
      · rintro ⟨a, ⟨answer, first⟩, second⟩
        exact ⟨answer, (ih answer).mpr ⟨a, first, second⟩⟩
  | free r next ih => exact ih
  | fail e =>
      constructor
      · exact False.elim
      · rintro ⟨_, impossible, _⟩
        exact impossible

/-- What is shown of a program is shown of what it can return. -/
theorem wp_returns {pool : Set R} {ok : E → Prop} {x : Prog R E α} {held : Set R}
    {post : Set R → α → Prop} (h : Wp pool ok x held post) :
    Wp pool ok x held fun s a => post s a ∧ Returns x a := by
  induction x generalizing held with
  | ret a => exact wp_pure (E := E) ⟨h.of_ret, rfl⟩
  | alloc next ih =>
      obtain ⟨empty, taken⟩ := h.of_alloc
      apply Wp.alloc
      · exact wp_mono (ih none empty) fun _ _ both => ⟨both.1, none, both.2⟩
      · intro r member fresh
        exact wp_mono (ih (some r) (taken r member fresh)) fun _ _ both => ⟨both.1, some r, both.2⟩
  | free r next ih =>
      obtain ⟨mine, rest⟩ := h.of_free
      exact Wp.free mine (ih rest)
  | fail e => exact wp_fail h.of_fail

/-! ## As long as something is left -/

/-- The run in which the allocator has `n` resources, and gives one whenever it is asked. -/
def Given : Prog R E α → Nat → (Nat → α → Prop) → Prop
  | .ret a, n, post => post n a
  | .alloc next, n, post => ∃ m, n = m + 1 ∧ ∀ r, Given (next (some r)) m post
  | .free _ next, n, post => Given next n post
  | .fail _, _, _ => False

theorem given_pure {a : α} {n : Nat} {post : Nat → α → Prop} (holds : post n a) :
    Given (pure a : Prog R E α) n post := holds

theorem given_alloc {n : Nat} {post : Nat → Option R → Prop} (holds : ∀ r, post n (some r)) :
    Given (alloc : Prog R E (Option R)) (n + 1) post := ⟨n, rfl, holds⟩

theorem given_bind {x : Prog R E α} {f : α → Prog R E β} {n : Nat} {post : Nat → β → Prop}
    (h : Given x n fun m a => Given (f a) m post) : Given (x >>= f) n post := by
  induction x generalizing n with
  | ret a => exact h
  | alloc next ih =>
      obtain ⟨m, rfl, rest⟩ := h
      exact ⟨m, rfl, fun r => ih (some r) (rest r)⟩
  | free r next ih => exact ih h
  | fail e => exact h

theorem given_mono {x : Prog R E α} {n : Nat} {post post' : Nat → α → Prop}
    (h : Given x n post) (weaker : ∀ m a, post m a → post' m a) : Given x n post' := by
  induction x generalizing n with
  | ret a => exact weaker n a h
  | alloc next ih =>
      obtain ⟨m, rfl, rest⟩ := h
      exact ⟨m, rfl, fun r => ih (some r) (rest r)⟩
  | free r next ih => exact ih h
  | fail e => exact h

/-- The run of a program is that of what is made of its result. -/
theorem given_of_map {x : Prog R E α} {f : α → β} {n : Nat} {post : Nat → β → Prop}
    (h : Given (x >>= fun a => pure (f a)) n post) : Given x n fun m a => post m (f a) := by
  induction x generalizing n with
  | ret a => exact h
  | alloc next ih =>
      obtain ⟨m, rfl, rest⟩ := h
      exact ⟨m, rfl, fun r => ih (some r) (rest r)⟩
  | free r next ih => exact ih h
  | fail e => exact h

theorem given_returns {x : Prog R E α} {n : Nat} {post : Nat → α → Prop} (h : Given x n post) :
    Given x n fun m a => post m a ∧ Returns x a := by
  induction x generalizing n with
  | ret a => exact ⟨h, rfl⟩
  | alloc next ih =>
      obtain ⟨m, rfl, rest⟩ := h
      exact ⟨m, rfl, fun r => given_mono (ih (some r) (rest r)) fun _ _ both =>
        ⟨both.1, some r, both.2⟩⟩
  | free r next ih => exact ih h
  | fail e => exact h

/-- Whatever is shown of a program holds of the run, if the pool has as many resources. -/
theorem given_reached {pool : Set R} {ok : E → Prop} {x : Prog R E α} {held : Set R} {n : Nat}
    {post : Set R → α → Prop} {post' : Nat → α → Prop} (h : Wp pool ok x held post)
    (given : Given x n post') (finite : pool.Finite) (enough : n ≤ (pool \ held).ncard) :
    ∃ s m a, post s a ∧ post' m a := by
  induction x generalizing held n with
  | ret a => exact ⟨held, n, a, h.of_ret, given⟩
  | alloc next ih =>
      obtain ⟨m, rfl, rest⟩ := given
      have free_ones : (pool \ held).Finite := finite.subset Set.sdiff_subset
      obtain ⟨r, member, fresh⟩ : (pool \ held).Nonempty := by
        rw [← Set.ncard_pos free_ones]
        omega
      have fewer : pool \ insert r held = (pool \ held) \ {r} := by
        ext s
        simp only [Set.mem_sdiff, Set.mem_insert_iff, Set.mem_singleton_iff]
        tauto
      have left : m ≤ (pool \ insert r held).ncard := by
        have one : r ∈ pool \ held := ⟨member, fresh⟩
        rw [fewer, Set.ncard_sdiff_singleton_of_mem one]
        omega
      exact ih (some r) (h.of_alloc.2 r member fresh) (rest r) left
  | free r next ih =>
      obtain ⟨_, after⟩ := h.of_free
      have more : pool \ held ⊆ pool \ (held \ {r}) :=
        Set.sdiff_subset_sdiff_right Set.sdiff_subset
      have more := Set.ncard_le_ncard more (finite.subset Set.sdiff_subset)
      exact ih after given (by omega)
  | fail e => exact absurd given id

/-! ## When the allocator has refused -/

/-- What the program can return when at least one request has been refused. -/
def Refused : Prog R E α → α → Prop
  | .ret _, _ => False
  | .alloc next, b => Returns (next none) b ∨ ∃ r, Refused (next (some r)) b
  | .free _ next, b => Refused next b
  | .fail _, _ => False

theorem refused_pure {a b : α} : ¬ Refused (pure a : Prog R E α) b := id

theorem refused_fail {e : E} {b : α} : ¬ Refused (.fail e : Prog R E α) b := id

theorem refused_alloc {answer : Option R} (h : Refused (alloc : Prog R E (Option R)) answer) :
    answer = none := by
  obtain empty | ⟨_, impossible⟩ := h
  · exact Eq.symm empty
  · exact impossible.elim

theorem refused_free {r : R} {b : Unit} : ¬ Refused (free r : Prog R E Unit) b := id

theorem refused_bind {x : Prog R E α} {f : α → Prog R E β} {b : β} (h : Refused (x >>= f) b) :
    ∃ a, (Refused x a ∧ Returns (f a) b) ∨ (Returns x a ∧ Refused (f a) b) := by
  induction x with
  | ret a => exact ⟨a, .inr ⟨rfl, h⟩⟩
  | alloc next ih =>
      obtain empty | ⟨r, later⟩ := h
      · obtain ⟨a, first, second⟩ := returns_bind.mp empty
        exact ⟨a, .inl ⟨.inl first, second⟩⟩
      · obtain ⟨a, ⟨first, second⟩ | ⟨first, second⟩⟩ := ih (some r) later
        · exact ⟨a, .inl ⟨.inr ⟨r, first⟩, second⟩⟩
        · exact ⟨a, .inr ⟨⟨some r, first⟩, second⟩⟩
  | free r next ih => exact ih h
  | fail e => exact h.elim

-- From here on by the rules only, as for `Wp`.
attribute [irreducible] Returns Given Refused

end Xv6.Lib.Allocation
