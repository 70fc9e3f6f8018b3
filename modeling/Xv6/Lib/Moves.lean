import Mathlib.Data.List.Induction
import Mathlib.Data.List.Nodup
import Mathlib.Logic.Function.Basic

/-!
# Moves one after the other

A move takes the contents of one cell to another.  A list of moves made in order is
compared with the same moves made at once, each of the contents its source had at the
start.
-/

set_option autoImplicit false

namespace Xv6.Lib.Moves

universe u v

variable {A : Type u} {β : Type v}

structure Move (A : Type u) where
  dst : A
  src : A

variable [DecidableEq A]

def carry (mem : A → β) (move : Move A) : A → β :=
  Function.update mem move.dst (mem move.src)

def carryAll (mem : A → β) (moves : List (Move A)) : A → β := moves.foldl carry mem

@[simp] theorem carryAll_nil (mem : A → β) : carryAll mem [] = mem := rfl

@[simp] theorem carryAll_cons (mem : A → β) (move : Move A) (moves : List (Move A)) :
    carryAll mem (move :: moves) = carryAll (carry mem move) moves := rfl

theorem carryAll_append (mem : A → β) (first second : List (Move A)) :
    carryAll mem (first ++ second) = carryAll (carryAll mem first) second :=
  List.foldl_append

/-- The moves, made at once. -/
structure Moved (mem : A → β) (moves : List (Move A)) (mem' : A → β) : Prop where
  copied : ∀ move ∈ moves, mem' move.dst = mem move.src
  kept : ∀ a, (∀ move ∈ moves, move.dst ≠ a) → mem' a = mem a

omit [DecidableEq A] in
theorem Moved.perm {mem mem' : A → β} {moves moves' : List (Move A)}
    (same : ∀ move, move ∈ moves' ↔ move ∈ moves) (moved : Moved mem moves mem') :
    Moved mem moves' mem' where
  copied move listed := moved.copied move ((same move).mp listed)
  kept a away := moved.kept a fun move listed => away move ((same move).mpr listed)

/-- A cell that no move has as its destination is left alone. -/
theorem carryAll_kept (mem : A → β) (moves : List (Move A)) (a : A)
    (away : ∀ move ∈ moves, move.dst ≠ a) : carryAll mem moves a = mem a := by
  induction moves generalizing mem with
  | nil => rfl
  | cons move moves ih =>
      rw [carryAll_cons, ih _ fun later listed => away later (.tail _ listed), carry,
        Function.update_of_ne (away move (.head _)).symm]

/-- Two moves agree when the second does not read what the first wrote, or finds there
what it would have found before. -/
def Agree (mem : A → β) (first second : Move A) : Prop :=
  first.dst = second.src → mem first.src = mem second.src

/-- A move that agrees with all moves made so far finds what its source had at the
start. -/
theorem Moved.finds {mem mem' : A → β} {moves : List (Move A)} {move : Move A}
    (moved : Moved mem moves mem') (agree : ∀ earlier ∈ moves, Agree mem earlier move) :
    mem' move.src = mem move.src := by
  by_cases read : ∃ earlier ∈ moves, earlier.dst = move.src
  · obtain ⟨earlier, listed, wrote⟩ := read
    calc mem' move.src = mem' earlier.dst := congrArg mem' wrote.symm
      _ = mem earlier.src := moved.copied earlier listed
      _ = mem move.src := agree earlier listed wrote
  · exact moved.kept _ fun earlier listed wrote => read ⟨earlier, listed, wrote⟩

theorem Moved.carry {mem mem' : A → β} {moves : List (Move A)} {move : Move A}
    (moved : Moved mem moves mem') (apart : ∀ earlier ∈ moves, earlier.dst ≠ move.dst)
    (agree : ∀ earlier ∈ moves, Agree mem earlier move) :
    Moved mem (moves ++ [move]) (Moves.carry mem' move) where
  copied later listed := by
    rcases List.mem_append.mp listed with earlier | last
    · rw [Moves.carry, Function.update_of_ne (apart later earlier), moved.copied later earlier]
    · rw [List.mem_singleton.mp last, Moves.carry, Function.update_self, moved.finds agree]
  kept a away := by
    have last := away move (List.mem_append_right _ (.head _))
    rw [Moves.carry, Function.update_of_ne last.symm]
    exact moved.kept a fun earlier listed => away earlier (List.mem_append_left _ listed)

/-- The moves before the last one are made at once too. -/
theorem Moved.before {mem : A → β} {moves : List (Move A)} {last : Move A}
    (apart : ∀ earlier ∈ moves, earlier.dst ≠ last.dst)
    (moved : Moved mem (moves ++ [last]) (carryAll mem (moves ++ [last]))) :
    Moved mem moves (carryAll mem moves) where
  copied move listed := by
    rw [← moved.copied move (List.mem_append_left _ listed), carryAll_append, carryAll_cons,
      carryAll_nil, Moves.carry, Function.update_of_ne (apart move listed)]
  kept := carryAll_kept mem moves

/-- Moves with different destinations, made in order, are the moves made at once if and
only if each agrees with all before it. -/
theorem moved_iff (mem : A → β) (moves : List (Move A)) (apart : (moves.map Move.dst).Nodup) :
    Moved mem moves (carryAll mem moves) ↔ moves.Pairwise (Agree mem) := by
  induction moves using List.reverseRec with
  | nil => exact ⟨fun _ => .nil, fun _ => ⟨nofun, fun _ _ => rfl⟩⟩
  | append_singleton moves last ih =>
      rw [List.map_append, List.nodup_append] at apart
      obtain ⟨prior, -, other⟩ := apart
      have fresh : ∀ earlier ∈ moves, earlier.dst ≠ last.dst := fun earlier listed =>
        other _ (List.mem_map_of_mem listed) _ (.head _)
      rw [List.pairwise_append]
      constructor
      · intro moved
        have before := moved.before fresh
        refine ⟨(ih prior).mp before, List.pairwise_singleton _ _, ?_⟩
        intro earlier listed move single wrote
        rw [List.mem_singleton.mp single] at wrote ⊢
        have read := moved.copied last (List.mem_append_right _ (.head _))
        rw [carryAll_append, carryAll_cons, carryAll_nil, Moves.carry,
          Function.update_self] at read
        calc mem earlier.src = carryAll mem moves earlier.dst :=
              (before.copied earlier listed).symm
          _ = carryAll mem moves last.src := congrArg _ wrote
          _ = mem last.src := read
      · rintro ⟨paired, -, agree⟩
        rw [carryAll_append, carryAll_cons, carryAll_nil]
        exact ((ih prior).mpr paired).carry fresh fun earlier listed =>
          agree earlier listed last (.head _)

end Xv6.Lib.Moves
