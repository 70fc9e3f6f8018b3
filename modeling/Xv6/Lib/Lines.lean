import Mathlib.Data.List.Basic

/-!
# Lines

`ended nl lines` is what the lines are written as, each followed by `nl`.
-/

set_option autoImplicit false

namespace Xv6.Lib.Lines

universe u

variable {α : Type u} {nl : α}

def ended (nl : α) (lines : List (List α)) : List α := lines.flatMap fun l => l ++ [nl]

@[simp] theorem ended_nil : ended nl [] = [] := rfl

@[simp] theorem ended_cons (l : List α) (lines : List (List α)) :
    ended nl (l :: lines) = l ++ nl :: ended nl lines := by
  rw [ended, List.flatMap_cons, List.append_assoc]
  rfl

theorem ended_append (first second : List (List α)) :
    ended nl (first ++ second) = ended nl first ++ ended nl second := List.flatMap_append

theorem ended_eq_nil {lines : List (List α)} (empty : ended nl lines = []) : lines = [] := by
  cases lines with
  | nil => rfl
  | cons l lines =>
      rw [ended_cons] at empty
      exact absurd (List.append_eq_nil_iff.mp empty).2 (List.cons_ne_nil _ _)

/-- Leaving lines out makes what is written no longer. -/
theorem ended_filter_length (keep : List α → Bool) (lines : List (List α)) :
    (ended nl (lines.filter keep)).length ≤ (ended nl lines).length := by
  induction lines with
  | nil => exact Nat.le_refl _
  | cons l lines ih =>
      rw [List.filter_cons]
      split <;> simp only [ended_cons, List.length_append, List.length_cons] <;> omega

/-- The first line ends at the first `nl`. -/
theorem first_line {l l' rest rest' : List α} (clean : nl ∉ l) (clean' : nl ∉ l')
    (same : l ++ nl :: rest = l' ++ nl :: rest') : l = l' ∧ rest = rest' := by
  induction l generalizing l' with
  | nil =>
      cases l' with
      | nil => exact ⟨rfl, (List.cons.inj same).2⟩
      | cons c l' =>
          rw [(List.cons.inj same).1] at clean'
          exact absurd (.head _) clean'
  | cons c l ih =>
      cases l' with
      | nil =>
          rw [(List.cons.inj same).1] at clean
          exact absurd (.head _) clean
      | cons c' l' =>
          obtain ⟨rfl, others⟩ := List.cons.inj same
          obtain ⟨rfl, tails⟩ := ih (fun listed => clean (.tail _ listed))
            (fun listed => clean' (.tail _ listed)) others
          exact ⟨rfl, tails⟩

/-- Lines that lines begin with. -/
theorem ended_prefix {first lines : List (List α)} {rest : List α}
    (clean : ∀ l ∈ first, nl ∉ l) (clean' : ∀ l ∈ lines, nl ∉ l)
    (begins : ended nl first ++ rest = ended nl lines) :
    ∃ others, lines = first ++ others ∧ rest = ended nl others := by
  induction first generalizing lines with
  | nil => exact ⟨lines, rfl, begins⟩
  | cons l first ih =>
      cases lines with
      | nil =>
          rw [ended_cons, ended_nil, List.append_assoc] at begins
          exact absurd (List.append_eq_nil_iff.mp begins).2 (List.cons_ne_nil _ _)
      | cons l' lines =>
          rw [ended_cons, ended_cons, List.append_assoc, List.cons_append] at begins
          obtain ⟨rfl, tails⟩ := first_line (clean l (.head _)) (clean' l' (.head _)) begins
          obtain ⟨others, rfl, same⟩ := ih (fun x listed => clean x (.tail _ listed))
            (fun x listed => clean' x (.tail _ listed)) tails
          exact ⟨others, rfl, same⟩

/-- A beginning without `nl` is within the first line. -/
theorem length_le_of_prefix {part rest : List α} {lines : List (List α)} {n : Nat}
    (unended : nl ∉ part) (short : ∀ l ∈ lines, l.length ≤ n)
    (begins : part ++ rest = ended nl lines) : part.length ≤ n := by
  cases lines with
  | nil =>
      rw [(List.append_eq_nil_iff.mp begins).1]
      exact Nat.zero_le n
  | cons l lines =>
      rw [ended_cons, List.append_eq_append_iff] at begins
      rcases begins with ⟨more, rfl, -⟩ | ⟨more, rfl, after⟩
      · exact Nat.le_trans (by simp) (short _ (.head _))
      · cases more with
        | nil => simpa using short l (.head _)
        | cons c more =>
            rw [List.cons_append] at after
            rw [List.cons.inj after |>.1] at unended
            exact absurd (List.mem_append_right _ (.head _)) unended

end Xv6.Lib.Lines
