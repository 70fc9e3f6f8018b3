import Mathlib.Tactic.Common
import Xv6.Public2.ProcTable

/-!
# The scan of scheduler() (xv6-public_2)

What the for loop over the table does to it, whatever the priorities are.
-/

set_option autoImplicit false

namespace Xv6.Public2.Scan

open Xv6.Public2.ProcTable

/-- What the loop has done when it has seen some of the slots: only waiting
times have moved, and the slot chosen so far is RUNNABLE and not suspended. -/
structure Scanned (proc : Slot → Proc) (s : Scan) : Prop where
  same : ∀ i, s.proc i = { proc i with waiting_time := (s.proc i).waiting_time }
  chosen : ∀ i, s.chosen = some i → (proc i).state = .RUNNABLE ∧ (proc i).b ≠ 1

theorem scanSlot_scanned {proc : Slot → Proc} {s : Scan} (scanned : Scanned proc s) (i : Slot) :
    Scanned proc (scanSlot s i) := by
  have fields := scanned.same i
  have stateEq : (s.proc i).state = (proc i).state := by rw [fields]
  have flagEq : (s.proc i).b = (proc i).b := by rw [fields]
  unfold scanSlot
  split
  · exact scanned
  · rename_i runnable
    split
    · exact scanned
    · rename_i unmarked
      rw [not_not, stateEq] at runnable
      rw [flagEq] at unmarked
      have updated : ∀ j, Function.update s.proc i
            { s.proc i with waiting_time := (s.proc i).waiting_time + 1 } j =
          { proc j with waiting_time := (Function.update s.proc i
            { s.proc i with waiting_time := (s.proc i).waiting_time + 1 } j).waiting_time } := by
        intro j
        by_cases here : j = i
        · subst here
          rw [Function.update_self, fields]
        · rw [Function.update_of_ne here]
          exact scanned.same j
      have picked : ∀ j, some i = some j → (proc j).state = .RUNNABLE ∧ (proc j).b ≠ 1 := by
        rintro j ⟨⟩
        exact ⟨runnable, unmarked⟩
      dsimp only
      split
      · exact ⟨updated, picked⟩
      · rename_i chosen old
        have keeps : ∀ j, s.chosen = some j → (proc j).state = .RUNNABLE ∧ (proc j).b ≠ 1 :=
          scanned.chosen
        split
        · exact ⟨updated, picked⟩
        · split
          · split
            · exact ⟨updated, picked⟩
            · exact ⟨updated, keeps⟩
          · exact ⟨updated, keeps⟩

theorem scan_scanned (proc : Slot → Proc) : Scanned proc (scan proc) := by
  have loop : ∀ (rest : List Slot) (s : Scan), Scanned proc s →
      Scanned proc (rest.foldl scanSlot s) := by
    intro rest
    induction rest with
    | nil => exact fun s scanned => scanned
    | cons i rest ih => exact fun s scanned => ih _ (scanSlot_scanned scanned i)
  exact loop slots _ ⟨fun _ => rfl, fun _ h => by cases h⟩

end Xv6.Public2.Scan
