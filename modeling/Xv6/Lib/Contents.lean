import Xv6.Lib.Supply
import Mathlib.Order.CompletePartialOrder

/-!
# What is in the resources

A program over an allocator runs with the contents of the resources beside it: what is
given back is filled with junk, and a program of its own may store into what it holds.
The contents do not change what the program does.
-/

set_option autoImplicit false

namespace Xv6.Lib.Allocation

universe u v w

variable {R V : Type u} {E : Type v} {α β : Type u}

/-- A program that also stores into the resources. -/
abbrev Stores (R V : Type u) (E : Type v) : Type u → Type (max u v) :=
  StateT (R → V) (Prog R E)

section Run
variable (junk : V)

/-- A program that does nothing to the contents but to fill what it gives back. -/
def withContents [DecidableEq R] : Prog R E α → Stores R V E α
  | .ret a, m => .ret (a, m)
  | .alloc next, m => .alloc fun r => withContents (next r) m
  | .free r next, m => .free r (withContents next (Function.update m r junk))
  | .fail e, _ => .fail e

/-- Without the contents it is this program. -/
def Forgets (x : Stores R V E α) (y : Prog R E α) : Prop :=
  ∀ m, (x m >>= fun r => pure r.1) = y

theorem forgets_pure (a : α) : Forgets (pure a : Stores R V E α) (pure a : Prog R E α) :=
  fun _ => rfl

theorem forgets_bind {x : Stores R V E α} {y : Prog R E α} {f : α → Stores R V E β}
    {g : α → Prog R E β} (first : Forgets x y) (rest : ∀ a, Forgets (f a) (g a)) :
    Forgets (x >>= f) (y >>= g) := by
  intro m
  have sequence : ((x >>= f) m >>= fun r => pure r.1) =
      x m >>= fun r => (f r.1 r.2 >>= fun r' => pure r'.1) :=
    bind_assoc (x m) _ _
  rw [sequence, ← first m, LawfulMonad.bind_assoc]
  apply bind_congr
  intro r
  rw [rest r.1 r.2, pure_bind]

theorem forgets_withContents [DecidableEq R] (x : Prog R E α) :
    Forgets (withContents junk x) x := by
  intro m
  induction x generalizing m with
  | ret a => rfl
  | alloc next ih => exact congrArg Prog.alloc (funext fun r => ih r m)
  | free r next ih => exact congrArg (Prog.free r) (ih _)
  | fail e => rfl

/-- A store before the rest. -/
theorem forgets_modify {f : Stores R V E β} {g : Prog R E β} (store : (R → V) → R → V)
    (rest : Forgets f g) : Forgets (do modify store; f) g :=
  fun m => rest (store m)

/-! ## Rules -/

section Rules
variable {pool : Set R} {ok : E → Prop}

theorem wp_then {x : Stores R V E α} {f : α → Stores R V E β} {m : R → V} {held : Set R}
    {post : Set R → β × (R → V) → Prop}
    (h : Wp pool ok (x m) held fun s r => Wp pool ok (f r.1 r.2) s post) :
    Wp pool ok ((x >>= f) m) held post := wp_bind h

theorem wp_modify {f : Stores R V E β} {m : R → V} {held : Set R} (store : (R → V) → R → V)
    {post : Set R → β × (R → V) → Prop} (h : Wp pool ok (f (store m)) held post) :
    Wp pool ok ((do modify store; f) m) held post := h

/-- What is shown without the contents. -/
theorem wp_forgets {x : Stores R V E α} {y : Prog R E α} {m : R → V} {held : Set R}
    {post : Set R → α → Prop} (same : Forgets x y) (h : Wp pool ok y held post) :
    Wp pool ok (x m) held fun s r => post s r.1 := by
  rw [← same m] at h
  generalize x m = z at h
  induction z generalizing held with
  | ret a => exact wp_pure (E := E) h.of_ret
  | alloc next ih =>
      obtain ⟨empty, taken⟩ := h.of_alloc
      exact Wp.alloc (ih none empty) fun r member fresh => ih (some r) (taken r member fresh)
  | free r next ih =>
      obtain ⟨mine, rest⟩ := h.of_free
      exact Wp.free mine (ih rest)
  | fail e => exact wp_fail h.of_fail

theorem wp_and {x : Prog R E α} {held : Set R} {post post' : Set R → α → Prop}
    (h : Wp pool ok x held post) (h' : Wp pool ok x held post') :
    Wp pool ok x held fun s a => post s a ∧ post' s a := by
  induction x generalizing held with
  | ret a => exact wp_pure (E := E) ⟨h.of_ret, h'.of_ret⟩
  | alloc next ih =>
      obtain ⟨empty, taken⟩ := h.of_alloc
      obtain ⟨empty', taken'⟩ := h'.of_alloc
      exact Wp.alloc (ih none empty empty') fun r member fresh =>
        ih (some r) (taken r member fresh) (taken' r member fresh)
  | free r next ih =>
      obtain ⟨mine, rest⟩ := h.of_free
      exact Wp.free mine (ih rest h'.of_free.2)
  | fail e => exact wp_fail h.of_fail

/-- Some run comes to an end. -/
theorem not_wp_false {x : Prog R E α} {held : Set R} :
    ¬ Wp pool (fun _ => False) x held fun _ _ => False := by
  intro h
  induction x generalizing held with
  | ret a => exact h.of_ret
  | alloc next ih => exact ih none h.of_alloc.1
  | free r next ih => exact ih h.of_free.2
  | fail e => exact h.of_fail

theorem given_forgets {x : Stores R V E α} {y : Prog R E α} {m : R → V} {n : Nat}
    {post : Nat → α → Prop} (same : Forgets x y) (h : Given y n post) :
    Given (x m) n fun k r => post k r.1 := by
  rw [← same m] at h
  exact given_of_map h

/-- The frame rule: others' resources stay with their contents. -/
theorem wp_frame [DecidableEq R] {x : Prog R E α} (junk : V) (m : R → V) {held others : Set R}
    {post : Set R → α → Prop}
    (h : Wp pool ok x held post) (apart : Disjoint held others) :
    Wp pool ok (withContents junk x m) (held ∪ others) fun s r =>
      ∃ mine, s = mine ∪ others ∧ Disjoint mine others ∧ post mine r.1 ∧
        ∀ p ∈ others, r.2 p = m p := by
  induction x generalizing held m with
  | ret a => exact wp_pure (E := E) ⟨held, rfl, apart, h.of_ret, fun _ _ => rfl⟩
  | alloc next ih =>
      obtain ⟨empty, taken⟩ := h.of_alloc
      apply Wp.alloc (ih none _ empty apart)
      intro r member fresh
      have away : r ∉ others := fun other => fresh (Or.inr other)
      rw [← Set.insert_union]
      exact ih (some r) _ (taken r member fun mine => fresh (Or.inl mine))
        (Set.disjoint_insert_left.mpr ⟨away, apart⟩)
  | free r next ih =>
      obtain ⟨mine, rest⟩ := h.of_free
      have away : r ∉ others := Set.disjoint_left.mp apart mine
      have left : (held ∪ others) \ {r} = held \ {r} ∪ others := by
        rw [Set.union_sdiff_distrib, Set.sdiff_singleton_eq_self away]
      have both : r ∈ held ∪ others := Or.inl mine
      refine Wp.free both ?_
      rw [left]
      refine wp_mono (ih _ rest (apart.mono_left Set.sdiff_subset)) ?_
      rintro s a ⟨own, same, away', post, kept⟩
      refine ⟨own, same, away', post, fun p member => ?_⟩
      rw [kept p member, Function.update_of_ne]
      rintro rfl
      exact away member
  | fail e => exact wp_fail h.of_fail

end Rules

end Run

/-! ## Programs that only take, or only give back -/

section Kinds
variable {α β : Type w}

def Takes : Prog R E α → Prop
  | .ret _ => True
  | .alloc next => ∀ r, Takes (next r)
  | .free _ _ => False
  | .fail _ => True

def GivesBack : Prog R E α → Prop
  | .ret _ => True
  | .alloc _ => False
  | .free _ next => GivesBack next
  | .fail _ => True

theorem takes_pure (a : α) : Takes (pure a : Prog R E α) := trivial

theorem takes_fail (e : E) : Takes (.fail e : Prog R E α) := trivial

theorem takes_alloc : Takes (alloc : Prog R E (Option R)) := fun _ => trivial

theorem takes_bind {x : Prog R E α} {f : α → Prog R E β} (first : Takes x)
    (rest : ∀ a, Takes (f a)) : Takes (x >>= f) := by
  induction x with
  | ret a => exact rest a
  | alloc next ih => exact fun r => ih r (first r)
  | free r next ih => exact first
  | fail e => trivial

theorem givesBack_pure (a : α) : GivesBack (pure a : Prog R E α) := trivial

theorem givesBack_fail (e : E) : GivesBack (.fail e : Prog R E α) := trivial

theorem givesBack_free (r : R) : GivesBack (free r : Prog R E Unit) := trivial

theorem givesBack_bind {x : Prog R E α} {f : α → Prog R E β} (first : GivesBack x)
    (rest : ∀ a, GivesBack (f a)) : GivesBack (x >>= f) := by
  induction x with
  | ret a => exact rest a
  | alloc next ih => exact first
  | free r next ih => exact ih first
  | fail e => trivial

end Kinds

section Rules
variable {pool : Set R} {ok : E → Prop} {junk : V}

theorem wp_request [DecidableEq R] {m : R → V} {held : Set R}
    {post : Set R → Option R × (R → V) → Prop} (empty : post held (none, m))
    (taken : ∀ r ∈ pool, r ∉ held → post (insert r held) (some r, m)) :
    Wp pool ok (withContents junk (alloc : Prog R E (Option R)) m) held post :=
  Wp.alloc (wp_pure empty) fun r member fresh => wp_pure (taken r member fresh)

theorem wp_takes [DecidableEq R] {x : Prog R E α} {m : R → V} {held : Set R}
    {post : Set R → α → Prop}
    (h : Wp pool ok x held post) (takes : Takes x) :
    Wp pool ok (withContents junk x m) held fun s r => post s r.1 ∧ r.2 = m := by
  induction x generalizing held with
  | ret a => exact wp_pure (E := E) ⟨h.of_ret, rfl⟩
  | alloc next ih =>
      obtain ⟨empty, taken⟩ := h.of_alloc
      exact Wp.alloc (ih none empty (takes none)) fun r member fresh =>
        ih (some r) (taken r member fresh) (takes (some r))
  | free r next ih => exact takes.elim
  | fail e => exact wp_fail h.of_fail

/-- What is still there has its contents. -/
theorem wp_givesBack [DecidableEq R] {x : Prog R E α} {m : R → V} {held : Set R}
    {post : Set R → α → Prop}
    (h : Wp pool ok x held post) (gives : GivesBack x) :
    Wp pool ok (withContents junk x m) held fun s r =>
      post s r.1 ∧ s ⊆ held ∧ ∀ p ∈ s, r.2 p = m p := by
  induction x generalizing held m with
  | ret a => exact wp_pure (E := E) ⟨h.of_ret, subset_rfl, fun _ _ => rfl⟩
  | alloc next ih => exact gives.elim
  | free r next ih =>
      obtain ⟨mine, rest⟩ := h.of_free
      apply Wp.free mine
      refine wp_mono (ih rest gives) ?_
      rintro s a ⟨post, fewer, kept⟩
      refine ⟨post, fewer.trans Set.sdiff_subset, fun p member => ?_⟩
      rw [kept p member, Function.update_of_ne]
      rintro rfl
      exact (fewer member).2 rfl
  | fail e => exact wp_fail h.of_fail

end Rules

-- From here on by the rules only, as for `Wp`.
attribute [irreducible] Takes GivesBack

end Xv6.Lib.Allocation
