import Xv6.Lib.References

/-!
# References with stages and locks

Finitely many variables that refer to objects of a table, each at a stage of what its
process does with the object.  `Counted` says that a counter for each object counts the
variables, and `Owned` that the lock of an object is held through the one variable whose
stage is one that locks.
-/

set_option autoImplicit false

namespace Xv6.Lib.Handles

open Xv6.Lib.References

universe u v w

variable {V : Type u} {ι : Type v} {σ : Type w}

/-- The object that a variable refers to. -/
def slot (var : V → Option (ι × σ)) (x : V) : Option ι := (var x).map Prod.fst

theorem slot_some {var : V → Option (ι × σ)} {x : V} {i : ι} {stage : σ}
    (points : var x = some (i, stage)) : slot var x = some i := by
  rw [slot, points]
  rfl

theorem slot_none {var : V → Option (ι × σ)} {x : V} (unset : var x = none) :
    slot var x = none := by
  rw [slot, unset]
  rfl

def Counted [Fintype V] [DecidableEq ι] (var : V → Option (ι × σ)) (ref : ι → Int) : Prop :=
  ∀ i, ref i = (refs (slot var) i : Int)

def Owned (locks : σ → Bool) (var : V → Option (ι × σ)) (lock : ι → Option V) : Prop :=
  ∀ i x, lock i = some x ↔ ∃ stage, var x = some (i, stage) ∧ locks stage = true

variable {var var' : V → Option (ι × σ)} {x y : V} {i : ι} {stage stage' : σ}

section Counted
variable [Fintype V] [DecidableEq ι] {ref ref' : ι → Int}

theorem Counted.pos (h : Counted var ref) (points : var x = some (i, stage)) : 0 < ref i := by
  have positive : 0 < refs (slot var) i := refs_pos (slot_some points)
  rw [h i]
  exact Int.natCast_pos.mpr positive

theorem Counted.two (h : Counted var ref) (apart : x ≠ y) (first : var x = some (i, stage))
    (second : var y = some (i, stage')) : 2 ≤ ref i := by
  have two := two_le_refs apart (slot_some first) (slot_some second)
  rw [h i]
  exact Int.ofNat_le.mpr two

theorem Counted.congr (h : Counted var ref) (slots : slot var' = slot var)
    (same : ∀ j, ref' j = ref j) : Counted var' ref' := by
  intro j
  rw [same, slots]
  exact h j

variable [DecidableEq V]

/-- A variable changes what it refers to. -/
theorem refs_change {p : Option (ι × σ)} (changed : ∀ z, var' z = if z = x then p else var z)
    (j : ι) : refs (slot var') j + (if slot var x = some j then 1 else 0) =
      refs (slot var) j + (if p.map Prod.fst = some j then 1 else 0) := by
  have slots : slot var' = Function.update (slot var) x (p.map Prod.fst) := by
    funext z
    rw [slot, changed, Function.update_apply]
    split <;> rfl
  rw [slots]
  exact refs_update (slot var) x (p.map Prod.fst) j

theorem Counted.gain (h : Counted var ref) (unset : var x = none)
    (changed : ∀ z, var' z = if z = x then some (i, stage) else var z)
    (more : ∀ j, ref' j = if j = i then ref i + 1 else ref j) : Counted var' ref' := by
  intro j
  have moved := refs_change changed j
  have before := h j
  rw [slot_none unset] at moved
  rw [more]
  by_cases here : j = i
  · subst here
    simp only [Option.map_some, reduceCtorEq, if_false, if_true] at moved ⊢
    omega
  · rw [if_neg here]
    simp only [Option.map_some, Option.some.injEq, reduceCtorEq, if_false,
      if_neg (Ne.symm here)] at moved
    omega

theorem Counted.drop (h : Counted var ref) (points : var x = some (i, stage))
    (changed : ∀ z, var' z = if z = x then none else var z)
    (less : ∀ j, ref' j = if j = i then ref i - 1 else ref j) : Counted var' ref' := by
  intro j
  have moved := refs_change changed j
  have before := h j
  rw [slot_some points] at moved
  rw [less]
  by_cases here : j = i
  · subst here
    simp only [Option.map_none, reduceCtorEq, if_false, if_true] at moved ⊢
    omega
  · rw [if_neg here]
    simp only [Option.map_none, Option.some.injEq, reduceCtorEq, if_false,
      if_neg (Ne.symm here)] at moved
    omega

/-- A variable gets what another one gives up. -/
theorem Counted.move (h : Counted var ref) (points : var x = some (i, stage))
    (unset : var y = none)
    (changed : ∀ z, var' z = if z = y then some (i, stage') else if z = x then none else var z)
    (same : ∀ j, ref' j = ref j) : Counted var' ref' := by
  have apart : y ≠ x := by
    rintro rfl
    rw [points] at unset
    cases unset
  have between : Counted (fun z => if z = x then none else var z)
      (fun j => if j = i then ref i - 1 else ref j) :=
    h.drop points (fun _ => rfl) fun _ => rfl
  refine between.gain (if_neg apart ▸ unset) changed fun j => ?_
  rw [same]
  split
  · rename_i here
    rw [if_pos rfl, here]
    omega
  · rfl

end Counted

/-- The variable stays with its object. -/
theorem slot_turn [DecidableEq V] (points : var x = some (i, stage))
    (changed : ∀ z, var' z = if z = x then some (i, stage') else var z) :
    slot var' = slot var := by
  funext z
  rw [slot, changed]
  split
  · rename_i here
    rw [here, slot_some points]
    rfl
  · rfl

section Owned
variable {locks : σ → Bool} {lock lock' : ι → Option V}

/-- A lock has one holder. -/
theorem Owned.holder (h : Owned locks var lock) (first : var x = some (i, stage))
    (locked : locks stage = true) (second : var y = some (i, stage'))
    (locked' : locks stage' = true) : y = x := by
  have one := (h i x).mpr ⟨stage, first, locked⟩
  have other := (h i y).mpr ⟨stage', second, locked'⟩
  rw [one] at other
  exact (Option.some.inj other).symm

/-- Where the lock is free or held through `x`, no other variable is at a stage that locks. -/
theorem Owned.alone (h : Owned locks var lock) (free : lock i = none ∨ lock i = some x)
    (other : y ≠ x) (points : var y = some (i, stage)) : locks stage = false := by
  cases locked : locks stage with
  | false => rfl
  | true =>
      have taken := (h i y).mpr ⟨stage, points, locked⟩
      rcases free with free | free
      · rw [free] at taken
        cases taken
      · rw [free] at taken
        exact absurd (Option.some.inj taken).symm other

variable [DecidableEq V]

/-- A variable goes on to another stage, with the lock as the stage wants it. -/
theorem Owned.turn (h : Owned locks var lock) (points : var x = some (i, stage))
    (free : lock i = none ∨ lock i = some x)
    (changed : ∀ z, var' z = if z = x then some (i, stage') else var z)
    (taken : lock' i = if locks stage' = true then some x else none)
    (same : ∀ j, j ≠ i → lock' j = lock j) : Owned locks var' lock' := by
  intro j z
  by_cases here : j = i
  · subst here
    rw [taken, changed]
    by_cases mine : z = x
    · rw [if_pos mine, mine]
      constructor
      · intro held
        split at held
        · rename_i locked
          exact ⟨stage', rfl, locked⟩
        · cases held
      · rintro ⟨_, points, locked⟩
        cases points
        rw [if_pos locked]
    · rw [if_neg mine]
      constructor
      · intro held
        split at held
        · exact absurd (Option.some.inj held).symm mine
        · cases held
      · rintro ⟨stage₂, points, locked⟩
        rw [h.alone free mine points] at locked
        cases locked
  · rw [same j here, h j z, changed]
    split
    · rename_i mine
      rw [mine, points]
      constructor
      · rintro ⟨_, points, -⟩
        cases points
        exact absurd rfl here
      · rintro ⟨_, points, -⟩
        cases points
        exact absurd rfl here
    · exact Iff.rfl

omit [DecidableEq V] in
/-- Variables that are at no stage that locks, before and after. -/
theorem Owned.congr (h : Owned locks var lock) (same : lock' = lock)
    (changed : ∀ z, var' z = var z ∨ (∀ j stage, var z = some (j, stage) → locks stage = false) ∧
      ∀ j stage, var' z = some (j, stage) → locks stage = false) : Owned locks var' lock' := by
  intro j z
  rw [same, h j z]
  rcases changed z with same | ⟨before, after⟩
  · rw [same]
  · constructor
    · rintro ⟨stage, points, locked⟩
      rw [before j stage points] at locked
      cases locked
    · rintro ⟨stage, points, locked⟩
      rw [after j stage points] at locked
      cases locked

end Owned

end Xv6.Lib.Handles
