import Mathlib.Data.Set.Insert
import Mathlib.Logic.Function.Basic

/-!
# Programs over an allocator

A program takes resources from a pool, one at a time and without knowing whether
one is left, and gives them back.  `Wp` is its weakest precondition with the set
of resources that the program holds: it may be given any resource of the pool
that it does not hold, it gives back only what it holds, and `post` says what
the rest is for.  `Holds` says that a table has each of the resources in one
place.
-/

set_option autoImplicit false

namespace Xv6.Lib.Allocation

universe u v w

variable {R : Type u} {E : Type v} {α β : Type w}

inductive Prog (R : Type u) (E : Type v) (α : Type w) where
  | ret (a : α)
  | alloc (next : Option R → Prog R E α)
  | free (r : R) (next : Prog R E α)
  | fail (e : E)

def Prog.bind : Prog R E α → (α → Prog R E β) → Prog R E β
  | .ret a, f => f a
  | .alloc next, f => .alloc fun r => (next r).bind f
  | .free r next, f => .free r (next.bind f)
  | .fail e, _ => .fail e

instance : Monad (Prog R E) where
  pure := .ret
  bind := .bind

theorem bind_assoc {γ : Type w} (x : Prog R E α) (f : α → Prog R E β) (g : β → Prog R E γ) :
    (x.bind f).bind g = x.bind fun a => (f a).bind g := by
  induction x with
  | ret a => rfl
  | alloc next ih => exact congrArg Prog.alloc (funext ih)
  | free r next ih => exact congrArg (Prog.free r) ih
  | fail e => rfl

theorem bind_ret (x : Prog R E α) : x.bind .ret = x := by
  induction x with
  | ret a => rfl
  | alloc next ih => exact congrArg Prog.alloc (funext ih)
  | free r next ih => exact congrArg (Prog.free r) ih
  | fail e => rfl

instance : LawfulMonad (Prog R E) :=
  LawfulMonad.mk' (Prog R E) (fun x => bind_ret x) (fun _ _ => rfl) fun x f g => bind_assoc x f g

/-- A resource of the pool, or none. -/
def alloc : Prog R E (Option R) := .alloc .ret

def free (r : R) : Prog R E Unit := .free r (.ret ())

section Wp
variable (pool : Set R) (ok : E → Prop)

/-- Whatever the pool gives, the program gives back only what it holds, fails only
as `ok` allows, and returns as `post` says. -/
def Wp : Prog R E α → Set R → (Set R → α → Prop) → Prop
  | .ret a, held, post => post held a
  | .alloc next, held, post =>
      Wp (next none) held post ∧
        ∀ r ∈ pool, r ∉ held → Wp (next (some r)) (insert r held) post
  | .free r next, held, post => r ∈ held ∧ Wp next (held \ {r}) post
  | .fail e, _, _ => ok e

variable {pool ok}

theorem wp_pure {a : α} {held : Set R} {post : Set R → α → Prop} (holds : post held a) :
    Wp pool ok (pure a : Prog R E α) held post := holds

theorem wp_fail {e : E} {held : Set R} {post : Set R → α → Prop} (allowed : ok e) :
    Wp pool ok (.fail e : Prog R E α) held post := allowed

theorem wp_alloc {held : Set R} {post : Set R → Option R → Prop} (empty : post held none)
    (taken : ∀ r ∈ pool, r ∉ held → post (insert r held) (some r)) :
    Wp pool ok (alloc : Prog R E (Option R)) held post := ⟨empty, taken⟩

theorem wp_free {r : R} {held : Set R} {post : Set R → Unit → Prop} (mine : r ∈ held)
    (rest : post (held \ {r}) ()) : Wp pool ok (free r : Prog R E Unit) held post := ⟨mine, rest⟩

theorem wp_mono {x : Prog R E α} {held : Set R} {post post' : Set R → α → Prop}
    (h : Wp pool ok x held post) (weaker : ∀ s a, post s a → post' s a) :
    Wp pool ok x held post' := by
  induction x generalizing held with
  | ret a => exact weaker held a h
  | alloc next ih =>
      refine ⟨ih none h.1, ?_⟩
      intro r member fresh
      exact ih (some r) (h.2 r member fresh)
  | free r next ih => exact ⟨h.1, ih h.2⟩
  | fail e => exact h

/-- The rule of sequences. -/
theorem wp_bind {x : Prog R E α} {f : α → Prog R E β} {held : Set R}
    {post : Set R → β → Prop}
    (h : Wp pool ok x held fun s a => Wp pool ok (f a) s post) :
    Wp pool ok (x >>= f) held post := by
  induction x generalizing held with
  | ret a => exact h
  | alloc next ih =>
      refine ⟨ih none h.1, ?_⟩
      intro r member fresh
      exact ih (some r) (h.2 r member fresh)
  | free r next ih => exact ⟨h.1, ih h.2⟩
  | fail e => exact h

/-! What the next step of a program needs. -/

theorem Wp.of_ret {a : α} {held : Set R} {post : Set R → α → Prop}
    (h : Wp pool ok (.ret a : Prog R E α) held post) : post held a := h

theorem Wp.of_alloc {next : Option R → Prog R E α} {held : Set R} {post : Set R → α → Prop}
    (h : Wp pool ok (.alloc next) held post) :
    Wp pool ok (next none) held post ∧
      ∀ r ∈ pool, r ∉ held → Wp pool ok (next (some r)) (insert r held) post := h

theorem Wp.of_free {r : R} {next : Prog R E α} {held : Set R} {post : Set R → α → Prop}
    (h : Wp pool ok (.free r next) held post) :
    r ∈ held ∧ Wp pool ok next (held \ {r}) post := h

theorem Wp.of_fail {e : E} {held : Set R} {post : Set R → α → Prop}
    (h : Wp pool ok (.fail e : Prog R E α) held post) : ok e := h

theorem Wp.alloc {next : Option R → Prog R E α} {held : Set R} {post : Set R → α → Prop}
    (empty : Wp pool ok (next none) held post)
    (taken : ∀ r ∈ pool, r ∉ held → Wp pool ok (next (some r)) (insert r held) post) :
    Wp pool ok (.alloc next) held post := ⟨empty, taken⟩

theorem Wp.free {r : R} {next : Prog R E α} {held : Set R} {post : Set R → α → Prop}
    (mine : r ∈ held) (rest : Wp pool ok next (held \ {r}) post) :
    Wp pool ok (.free r next) held post := ⟨mine, rest⟩

-- From here on by the rules only: a goal must not be evaluated along a loop.
attribute [irreducible] Wp

end Wp

/-! ## Tables of resources -/

section Holds
variable {ι : Type v}

/-- `held` is what is at the places of a table, each at one of them, and `frame`. -/
structure Holds (pool : Set R) (f : ι → Option R) (frame held : Set R) : Prop where
  inside : held ⊆ pool
  once : ∀ {i j r}, f i = some r → f j = some r → i = j
  apart : ∀ {i r}, f i = some r → r ∉ frame
  all : ∀ r, r ∈ held ↔ r ∈ frame ∨ ∃ i, f i = some r

variable {pool : Set R} {f : ι → Option R} {frame held : Set R}

theorem Holds.mem (h : Holds pool f frame held) {i : ι} {r : R} (here : f i = some r) : r ∈ held :=
  (h.all r).mpr (Or.inr ⟨i, here⟩)

theorem Holds.member (h : Holds pool f frame held) {i : ι} {r : R} (here : f i = some r) :
    r ∈ pool := h.inside (h.mem here)

theorem Holds.frame_mem (h : Holds pool f frame held) {r : R} (framed : r ∈ frame) : r ∈ held :=
  (h.all r).mpr (Or.inl framed)

theorem Holds.empty (none_there : ∀ i, f i = none) (inside : held ⊆ pool) :
    Holds pool f held held := by
  constructor
  case inside => exact inside
  case once =>
    intro i j r first
    rw [none_there i] at first
    cases first
  case apart =>
    intro i r first
    rw [none_there i] at first
    cases first
  case all =>
    intro r
    constructor
    · exact Or.inl
    · rintro (framed | ⟨i, here⟩)
      · exact framed
      · rw [none_there i] at here
        cases here

/-- Nothing is left at the places of the table. -/
theorem Holds.emptied (h : Holds pool f frame held) (none_there : ∀ i, f i = none) :
    held = frame := by
  ext r
  rw [h.all r]
  constructor
  · rintro (framed | ⟨i, here⟩)
    · exact framed
    · rw [none_there i] at here
      cases here
  · exact Or.inl

/-- Of two tables, each is the frame of the other. -/
theorem Holds.swap {κ : Type w} {g : κ → Option R} (h : Holds pool f frame held)
    (other : Holds pool g ∅ frame) :
    ∃ rest, Holds pool g rest held ∧ Holds pool f ∅ rest := by
  refine ⟨{r | ∃ i, f i = some r}, ?_, ?_⟩
  · constructor
    case inside => exact h.inside
    case once => exact other.once
    case apart =>
      rintro k r here ⟨i, there⟩
      exact h.apart there (other.mem here)
    case all =>
      intro r
      rw [h.all r, other.all r, Set.mem_ofPred_eq]
      constructor
      · rintro ((impossible | placed) | placed)
        · exact absurd impossible (Set.notMem_empty r)
        · exact Or.inr placed
        · exact Or.inl placed
      · rintro (placed | placed)
        · exact Or.inr placed
        · exact Or.inl (Or.inr placed)
  · constructor
    case inside =>
      rintro r ⟨i, here⟩
      exact h.inside (h.mem here)
    case once => exact h.once
    case apart => exact fun _ impossible => Set.notMem_empty _ impossible
    case all =>
      intro r
      exact ⟨Or.inr, fun placed => placed.resolve_left (Set.notMem_empty r)⟩

/-- What is under another table, in the frame of it and its own. -/
theorem Holds.under {κ : Type w} {g : κ → Option R} {inner : Set R}
    (h : Holds pool f frame held) (other : Holds pool g inner frame) :
    Holds pool g (inner ∪ {r | ∃ i, f i = some r}) held := by
  constructor
  case inside => exact h.inside
  case once => exact other.once
  case apart =>
    rintro k r here (framed | ⟨i, there⟩)
    · exact other.apart here framed
    · exact h.apart there (other.mem here)
  case all =>
    intro r
    rw [h.all r, other.all r, Set.mem_union, Set.mem_ofPred_eq, or_assoc, or_assoc,
      or_comm (a := ∃ i, g i = some r)]

/-- A new resource is put aside. -/
theorem Holds.aside (h : Holds pool f frame held) {r : R} (member : r ∈ pool) (fresh : r ∉ held) :
    Holds pool f (insert r frame) (insert r held) := by
  constructor
  case inside => exact Set.insert_subset member h.inside
  case once => exact h.once
  case apart =>
    intro i s here
    rintro (rfl | framed)
    · exact fresh (h.mem here)
    · exact h.apart here framed
  case all =>
    intro s
    rw [Set.mem_insert_iff, Set.mem_insert_iff, h.all s, or_assoc]

/-- What was put aside is given back. -/
theorem Holds.unaside {r : R} (h : Holds pool f (insert r frame) held) (fresh : r ∉ frame) :
    Holds pool f frame (held \ {r}) := by
  constructor
  case inside => exact fun _ member => h.inside member.1
  case once => exact h.once
  case apart => exact fun here framed => h.apart here (Set.mem_insert_of_mem r framed)
  case all =>
    intro s
    rw [Set.mem_sdiff, Set.mem_singleton_iff, h.all s, Set.mem_insert_iff]
    constructor
    · rintro ⟨(rfl | framed) | placed, away⟩
      · exact absurd rfl away
      · exact Or.inl framed
      · exact Or.inr placed
    · rintro (framed | ⟨i, here⟩)
      · refine ⟨Or.inl (Or.inr framed), ?_⟩
        rintro rfl
        exact fresh framed
      · refine ⟨Or.inr ⟨i, here⟩, ?_⟩
        rintro rfl
        exact h.apart here (Set.mem_insert s frame)

/-- Some places of a table are emptied. -/
theorem Holds.drop {g : ι → Option R} {S : Set ι} (h : Holds pool f frame held)
    (gone : ∀ i ∈ S, g i = none) (kept : ∀ i, i ∉ S → g i = f i) :
    Holds pool g frame (held \ {r | ∃ i ∈ S, f i = some r}) := by
  have other : ∀ {i r}, g i = some r → i ∉ S ∧ f i = some r := by
    intro i r here
    have outside : i ∉ S := by
      intro member
      rw [gone i member] at here
      cases here
    exact ⟨outside, (kept i outside).symm.trans here⟩
  constructor
  case inside => exact fun _ member => h.inside member.1
  case once => exact fun first second => h.once (other first).2 (other second).2
  case apart => exact fun here => h.apart (other here).2
  case all =>
    intro r
    rw [Set.mem_sdiff, h.all r]
    constructor
    · rintro ⟨framed | ⟨i, here⟩, left⟩
      · exact Or.inl framed
      · have outside : i ∉ S := fun member => left ⟨i, member, here⟩
        exact Or.inr ⟨i, (kept i outside).trans here⟩
    · rintro (framed | ⟨i, here⟩)
      · refine ⟨Or.inl framed, ?_⟩
        rintro ⟨i, _, here⟩
        exact h.apart here framed
      · obtain ⟨outside, here⟩ := other here
        refine ⟨Or.inr ⟨i, here⟩, ?_⟩
        rintro ⟨j, member, there⟩
        exact outside (h.once here there ▸ member)

variable [DecidableEq ι]

/-- What was put aside goes to an empty place. -/
theorem Holds.place {r : R} (h : Holds pool f (insert r frame) held) (fresh : r ∉ frame) {i : ι}
    (empty : f i = none) : Holds pool (Function.update f i (some r)) frame held := by
  have other : ∀ {j s}, Function.update f i (some r) j = some s →
      j = i ∧ s = r ∨ j ≠ i ∧ f j = some s := by
    intro j s here
    by_cases same : j = i
    · subst same
      rw [Function.update_self] at here
      exact Or.inl ⟨rfl, (Option.some.inj here).symm⟩
    · rw [Function.update_of_ne same] at here
      exact Or.inr ⟨same, here⟩
  have aside : ∀ {j}, f j ≠ some r := fun here => h.apart here (Set.mem_insert r frame)
  constructor
  case inside => exact h.inside
  case once =>
    intro j k s first second
    obtain ⟨rfl, rfl⟩ | ⟨_, first⟩ := other first
    · obtain ⟨rfl, _⟩ | ⟨_, second⟩ := other second
      · rfl
      · exact absurd second aside
    · obtain ⟨_, rfl⟩ | ⟨_, second⟩ := other second
      · exact absurd ‹f j = some _› aside
      · exact h.once ‹f j = some s› second
  case apart =>
    intro j s here framed
    obtain ⟨_, rfl⟩ | ⟨_, here⟩ := other here
    · exact fresh framed
    · exact h.apart here (Set.mem_insert_of_mem r framed)
  case all =>
    intro s
    rw [h.all s, Set.mem_insert_iff]
    constructor
    · rintro ((rfl | framed) | ⟨j, here⟩)
      · exact Or.inr ⟨i, Function.update_self i _ f⟩
      · exact Or.inl framed
      · refine Or.inr ⟨j, ?_⟩
        rw [Function.update_of_ne]
        · exact here
        · rintro rfl
          rw [empty] at here
          cases here
    · rintro (framed | ⟨j, here⟩)
      · exact Or.inl (Or.inr framed)
      · obtain ⟨_, rfl⟩ | ⟨_, here⟩ := other here
        · exact Or.inl (Or.inl rfl)
        · exact Or.inr ⟨j, here⟩

/-- What is at a place is put aside. -/
theorem Holds.unplace (h : Holds pool f frame held) {i : ι} {r : R} (here : f i = some r) :
    Holds pool (Function.update f i none) (insert r frame) held := by
  have other : ∀ {j s}, Function.update f i none j = some s → j ≠ i ∧ f j = some s := by
    intro j s placed
    by_cases same : j = i
    · subst same
      rw [Function.update_self] at placed
      cases placed
    · rw [Function.update_of_ne same] at placed
      exact ⟨same, placed⟩
  constructor
  case inside => exact h.inside
  case once => exact fun first second => h.once (other first).2 (other second).2
  case apart =>
    intro j s placed
    obtain ⟨elsewhere, placed⟩ := other placed
    rintro (rfl | framed)
    · exact elsewhere (h.once placed here)
    · exact h.apart placed framed
  case all =>
    intro s
    rw [h.all s, Set.mem_insert_iff]
    constructor
    · rintro (framed | ⟨j, placed⟩)
      · exact Or.inl (Or.inr framed)
      · by_cases same : j = i
        · subst same
          exact Or.inl (Or.inl (Option.some.inj (placed.symm.trans here)))
        · exact Or.inr ⟨j, (Function.update_of_ne same _ _).trans placed⟩
    · rintro ((rfl | framed) | ⟨j, placed⟩)
      · exact Or.inr ⟨i, here⟩
      · exact Or.inl framed
      · exact Or.inr ⟨j, (other placed).2⟩

/-- A new resource goes to an empty place. -/
theorem Holds.insert (h : Holds pool f frame held) {r : R} (member : r ∈ pool) (fresh : r ∉ held)
    {i : ι} (empty : f i = none) :
    Holds pool (Function.update f i (some r)) frame (insert r held) :=
  (h.aside member fresh).place (fun framed => fresh (h.frame_mem framed)) empty

/-- A place is emptied. -/
theorem Holds.remove (h : Holds pool f frame held) {i : ι} {r : R} (here : f i = some r) :
    Holds pool (Function.update f i none) frame (held \ {r}) := by
  have other : ∀ {j s}, Function.update f i none j = some s ↔ j ≠ i ∧ f j = some s := by
    intro j s
    by_cases same : j = i
    · subst same
      simp
    · simp [same]
  constructor
  case inside => exact fun _ member => h.inside member.1
  case once => exact fun first second => h.once (other.mp first).2 (other.mp second).2
  case apart => exact fun placed => h.apart (other.mp placed).2
  case all =>
    intro s
    rw [Set.mem_sdiff, Set.mem_singleton_iff, h.all s]
    constructor
    · rintro ⟨framed | ⟨j, placed⟩, away⟩
      · exact Or.inl framed
      · refine Or.inr ⟨j, other.mpr ⟨?_, placed⟩⟩
        rintro rfl
        exact away (Option.some.inj (placed.symm.trans here))
    · rintro (framed | ⟨j, placed⟩)
      · refine ⟨Or.inl framed, ?_⟩
        rintro rfl
        exact h.apart here framed
      · obtain ⟨elsewhere, placed⟩ := other.mp placed
        refine ⟨Or.inr ⟨j, placed⟩, ?_⟩
        rintro rfl
        exact elsewhere (h.once placed here)

end Holds

end Xv6.Lib.Allocation
