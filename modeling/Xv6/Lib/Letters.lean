import Mathlib.Computability.Language

/-!
# Words of letters

`letters p` is the language of the one-letter words whose letter satisfies `p`.  `Begins`
says that a list begins with a word of a language, and what is to hold of the rest.
-/

set_option autoImplicit false

namespace Xv6.Lib.Letters

open scoped Computability

universe u

variable {α : Type u}

def letters (p : α → Prop) : Language α := {w | ∃ a, p a ∧ w = [a]}

def Begins (l : Language α) (rest : List α → Prop) (xs : List α) : Prop :=
  ∃ w ys, w ∈ l ∧ rest ys ∧ w ++ ys = xs

variable {l m : Language α} {p : α → Prop} {rest : List α → Prop} {xs : List α} {a : α}

theorem begins_one : Begins 1 rest xs ↔ rest xs := by
  constructor
  · rintro ⟨w, ys, empty, holds, rfl⟩
    rw [(Language.mem_one w).mp empty]
    exact holds
  · exact fun holds => ⟨[], xs, Language.nil_mem_one, holds, rfl⟩

theorem begins_add : Begins (l + m) rest xs ↔ Begins l rest xs ∨ Begins m rest xs := by
  constructor
  · rintro ⟨w, ys, word, holds, split⟩
    rcases (Language.mem_add l m w).mp word with left | right
    · exact .inl ⟨w, ys, left, holds, split⟩
    · exact .inr ⟨w, ys, right, holds, split⟩
  · rintro (⟨w, ys, word, holds, split⟩ | ⟨w, ys, word, holds, split⟩)
    · exact ⟨w, ys, (Language.mem_add l m w).mpr (.inl word), holds, split⟩
    · exact ⟨w, ys, (Language.mem_add l m w).mpr (.inr word), holds, split⟩

theorem begins_mul : Begins (l * m) rest xs ↔ Begins l (Begins m rest) xs := by
  constructor
  · rintro ⟨w, ys, word, holds, rfl⟩
    obtain ⟨first, inl, second, inm, rfl⟩ := Language.mem_mul.mp word
    exact ⟨first, second ++ ys, inl, ⟨second, ys, inm, holds, rfl⟩,
      (List.append_assoc first second ys).symm⟩
  · rintro ⟨first, _, inl, ⟨second, ys, inm, holds, rfl⟩, rfl⟩
    exact ⟨first ++ second, ys, Language.append_mem_mul inl inm, holds,
      List.append_assoc first second ys⟩

theorem begins_letters : Begins (letters p) rest xs ↔ ∃ a ys, p a ∧ rest ys ∧ xs = a :: ys := by
  constructor
  · rintro ⟨w, ys, ⟨a, holds, rfl⟩, after, rfl⟩
    exact ⟨a, ys, holds, after, rfl⟩
  · rintro ⟨a, ys, holds, after, rfl⟩
    exact ⟨[a], ys, ⟨a, holds, rfl⟩, after, rfl⟩

theorem begins_letters_nil : ¬ Begins (letters p) rest [] := by
  rw [begins_letters]
  rintro ⟨a, ys, -, -, split⟩
  cases split

theorem begins_letters_cons : Begins (letters p) rest (a :: xs) ↔ p a ∧ rest xs := by
  rw [begins_letters]
  constructor
  · rintro ⟨b, ys, holds, after, split⟩
    cases split
    exact ⟨holds, after⟩
  · rintro ⟨holds, after⟩
    exact ⟨a, xs, holds, after, rfl⟩

/-- Zero or more words of `l`: none, or one and then zero or more. -/
theorem begins_kstar : Begins l∗ rest xs ↔ rest xs ∨ Begins l (Begins l∗ rest) xs := by
  have unfolded : l∗ = 1 + l * l∗ := (Language.one_add_self_mul_kstar_eq_kstar l).symm
  constructor
  · intro begins
    rw [unfolded, begins_add, begins_one, begins_mul] at begins
    exact begins
  · intro either
    rw [unfolded, begins_add, begins_one, begins_mul]
    exact either

/-- Some suffix of the list. -/
def Somewhere (rest : List α → Prop) (xs : List α) : Prop := ∃ before after, rest after ∧
  before ++ after = xs

theorem somewhere_nil : Somewhere rest [] ↔ rest [] := by
  constructor
  · rintro ⟨before, after, holds, split⟩
    rw [(List.append_eq_nil_iff.mp split).2] at holds
    exact holds
  · exact fun holds => ⟨[], [], holds, rfl⟩

theorem somewhere_cons : Somewhere rest (a :: xs) ↔ rest (a :: xs) ∨ Somewhere rest xs := by
  constructor
  · rintro ⟨before, after, holds, split⟩
    cases before with
    | nil =>
        rw [← split]
        exact .inl holds
    | cons b before =>
        cases split
        exact .inr ⟨before, after, holds, rfl⟩
  · rintro (holds | ⟨before, after, holds, rfl⟩)
    · exact ⟨[], a :: xs, holds, rfl⟩
    · exact ⟨a :: before, after, holds, rfl⟩

end Xv6.Lib.Letters
