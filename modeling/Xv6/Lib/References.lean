import Mathlib.Algebra.BigOperators.Group.Finset.Basic
import Mathlib.Algebra.Order.BigOperators.Group.Finset
import Mathlib.Data.Fintype.Basic

/-!
# Counted references

Finitely many variables, each of which points to one object of a table or to
none.  `refs` is what a reference counter of an object has to say; a store into
one variable moves at most two of the counts, each by one.
-/

set_option autoImplicit false

namespace Xv6.Lib.References

universe u v

variable {V : Type u} {ι : Type v} [Fintype V] [DecidableEq ι]

/-- The number of variables that point to `i`. -/
def refs (ptr : V → Option ι) (i : ι) : Nat := (Finset.univ.filter fun v => ptr v = some i).card

theorem refs_none (i : ι) : refs (fun _ : V => (none : Option ι)) i = 0 := by
  simp [refs]

theorem refs_pos {ptr : V → Option ι} {v : V} {i : ι} (points : ptr v = some i) :
    0 < refs ptr i := by
  apply Finset.card_pos.mpr
  exact ⟨v, Finset.mem_filter.mpr ⟨Finset.mem_univ v, points⟩⟩

theorem exists_of_refs {ptr : V → Option ι} {i : ι} (counted : refs ptr i ≠ 0) :
    ∃ v, ptr v = some i := by
  obtain ⟨v, member⟩ := Finset.card_ne_zero.mp counted
  exact ⟨v, (Finset.mem_filter.mp member).2⟩

theorem two_le_refs {ptr : V → Option ι} {v w : V} {i : ι} (apart : v ≠ w)
    (first : ptr v = some i) (second : ptr w = some i) : 2 ≤ refs ptr i := by
  apply Finset.one_lt_card.mpr
  exact ⟨v, Finset.mem_filter.mpr ⟨Finset.mem_univ v, first⟩, w,
    Finset.mem_filter.mpr ⟨Finset.mem_univ w, second⟩, apart⟩

/-- A weight of at most `c` for each variable that points to `i`. -/
theorem sum_le_refs {ptr : V → Option ι} {i : ι} {w : V → Nat} {c : Nat}
    (bounded : ∀ v, w v ≤ if ptr v = some i then c else 0) : ∑ v, w v ≤ refs ptr i * c := by
  calc ∑ v, w v
      ≤ ∑ v, if ptr v = some i then c else 0 := Finset.sum_le_sum fun v _ => bounded v
    _ = ∑ _v ∈ Finset.univ.filter fun v => ptr v = some i, c := (Finset.sum_filter _ _).symm
    _ = refs ptr i * c := by rw [Finset.sum_const, Nat.nsmul_eq_mul, refs]

/-- The counts after a store into one variable, with what it pointed to before. -/
theorem refs_update [DecidableEq V] (ptr : V → Option ι) (v : V) (x : Option ι) (i : ι) :
    refs (Function.update ptr v x) i + (if ptr v = some i then 1 else 0) =
      refs ptr i + (if x = some i then 1 else 0) := by
  have split : ∀ p : V → Option ι, refs p i =
      (if p v = some i then 1 else 0) +
        ((Finset.univ.erase v).filter fun w => p w = some i).card := by
    intro p
    rw [refs, ← Finset.insert_erase (Finset.mem_univ v), Finset.filter_insert]
    split
    · rw [Finset.card_insert_of_notMem (by simp), Nat.add_comm, Finset.erase_insert (by simp)]
    · rw [Nat.zero_add, Finset.erase_insert (by simp)]
  have others : ((Finset.univ.erase v).filter fun w => Function.update ptr v x w = some i) =
      (Finset.univ.erase v).filter fun w => ptr w = some i := by
    apply Finset.filter_congr
    intro w elsewhere
    rw [Function.update_of_ne (Finset.ne_of_mem_erase elsewhere)]
  rw [split (Function.update ptr v x), split ptr, others, Function.update_self]
  omega

end Xv6.Lib.References
