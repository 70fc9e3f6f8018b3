import Mathlib.Data.List.Nodup
import Mathlib.Logic.Function.Basic
import Mathlib.Tactic.Common

/-!
# Families of processes

Slots that are allocated, get a parent, live, exit and are reaped by their
parent, with the numbers they are given and a log of the exits and the reapings.
When a parent exits its children go to the root, which never exits.
-/

set_option autoImplicit false

namespace Xv6.Lib.Families

universe u

inductive Phase where
  | free | embryo | living | zombie
  deriving DecidableEq

structure Member (S : Type u) where
  phase : Phase
  pid : Int
  parent : Option S

inductive Report (S : Type u) where
  | exited (pid : Int)
  | reaped (parent : S) (pid : Int)

structure Family (S : Type u) where
  member : S → Member S
  nextpid : Int
  log : List (Report S)

variable {S : Type u} [DecidableEq S]

def Family.set (f : Family S) (s : S) (m : Member S) : Family S :=
  { f with member := Function.update f.member s m }

/-- A free slot gets the next pid. -/
def Family.allocate (f : Family S) (s : S) : Family S :=
  { f with
    member := Function.update f.member s
      { f.member s with phase := .embryo, pid := f.nextpid }
    nextpid := f.nextpid + 1 }

/-- The children of `s` get the root as their parent. -/
def hand (root s : S) (m : Member S) : Member S :=
  if m.parent = some s then { m with parent := some root } else m

def Family.leave (f : Family S) (root s : S) : Family S :=
  { f with
    member := fun i => hand root s
      (Function.update f.member s { f.member s with phase := .zombie } i)
    log := f.log ++ [.exited (f.member s).pid] }

/-- The parent `p` reaps the child `s`. -/
def Family.reap (f : Family S) (p s : S) : Family S :=
  { f with
    member := Function.update f.member s { phase := .free, pid := 0, parent := none }
    log := f.log ++ [.reaped p (f.member s).pid] }

inductive Step (root : S) (f : Family S) : Family S → Prop where
  | allocate (s : S) (free : (f.member s).phase = .free) :
      Step root f (f.allocate s)
  | abandon (s : S) (embryo : (f.member s).phase = .embryo) (orphan : (f.member s).parent = none) :
      Step root f (f.set s { f.member s with phase := .free })
  | adopt (s p : S) (embryo : (f.member s).phase = .embryo)
      (living : (f.member p).phase = .living) :
      Step root f (f.set s { f.member s with parent := some p })
  | commit (s : S) (embryo : (f.member s).phase = .embryo)
      (child : (f.member s).parent ≠ none) :
      Step root f (f.set s { f.member s with phase := .living })
  | exit (s : S) (living : (f.member s).phase = .living) (other : s ≠ root) :
      Step root f (f.leave root s)
  | reap (p s : S) (zombie : (f.member s).phase = .zombie)
      (child : (f.member s).parent = some p) :
      Step root f (f.reap p s)

def reapedPid : Report S → Option Int
  | .exited _ => none
  | .reaped _ pid => some pid

/-- The pids that have been reaped, in the order of the reapings. -/
def Family.reaped (f : Family S) : List Int := f.log.filterMap reapedPid

structure Inv (root : S) (f : Family S) : Prop where
  parents : ∀ i j, (f.member i).parent = some j → (f.member j).phase = .living
  free : ∀ i, (f.member i).phase = .free → (f.member i).parent = none
  own : ∀ i, (f.member i).parent ≠ some i
  top : (f.member root).phase = .living ∧ (f.member root).parent = none
  orphans : ∀ i, i ≠ root → (f.member i).phase = .living ∨ (f.member i).phase = .zombie →
    (f.member i).parent ≠ none
  next : 0 < f.nextpid
  pids : ∀ i, (f.member i).phase ≠ .free → 0 < (f.member i).pid ∧ (f.member i).pid < f.nextpid
  distinct : ∀ i j, (f.member i).phase ≠ .free → (f.member j).phase ≠ .free →
    (f.member i).pid = (f.member j).pid → i = j
  zombies : ∀ i, (f.member i).phase = .zombie → .exited (f.member i).pid ∈ f.log
  exits : ∀ pid, .exited pid ∈ f.log → pid ∉ f.reaped →
    ∃ i, (f.member i).pid = pid ∧ (f.member i).phase = .zombie
  reapings : ∀ pid, pid ∈ f.reaped → .exited pid ∈ f.log ∧ pid < f.nextpid ∧
    ∀ i, (f.member i).phase ≠ .free → (f.member i).pid ≠ pid
  once : f.reaped.Nodup

section Steps
variable {root : S} {f : Family S}

theorem set_member (f : Family S) (s : S) (m : Member S) (i : S) :
    (f.set s m).member i = if i = s then m else f.member i :=
  Function.update_apply _ _ _ _

@[simp] theorem set_nextpid (f : Family S) (s : S) (m : Member S) :
    (f.set s m).nextpid = f.nextpid := rfl

@[simp] theorem set_log (f : Family S) (s : S) (m : Member S) : (f.set s m).log = f.log := rfl

theorem leave_member (f : Family S) (root s i : S) :
    (f.leave root s).member i = { f.member i with
      phase := if i = s then .zombie else (f.member i).phase
      parent := if (f.member i).parent = some s then some root else (f.member i).parent } := by
  unfold Family.leave hand
  by_cases here : i = s
  · subst here
    simp only [Function.update_self, if_true]
    split
    all_goals rfl
  · simp only [Function.update_of_ne here, if_neg here]
    split
    all_goals rfl

theorem leave_log (f : Family S) (root s : S) :
    (f.leave root s).log = f.log ++ [Report.exited (f.member s).pid] := rfl

theorem leave_reaped (f : Family S) (root s : S) : (f.leave root s).reaped = f.reaped := by
  simp [Family.reaped, leave_log, reapedPid]

theorem reap_member (f : Family S) (p s i : S) :
    (f.reap p s).member i =
      if i = s then { phase := .free, pid := 0, parent := none } else f.member i :=
  Function.update_apply _ _ _ _

theorem reap_log (f : Family S) (p s : S) :
    (f.reap p s).log = f.log ++ [Report.reaped p (f.member s).pid] := rfl

theorem reap_reaped (f : Family S) (p s : S) :
    (f.reap p s).reaped = f.reaped ++ [(f.member s).pid] := by
  simp [Family.reaped, reap_log, reapedPid]

theorem allocate_member (f : Family S) (s i : S) : (f.allocate s).member i =
    if i = s then { f.member s with phase := .embryo, pid := f.nextpid } else f.member i :=
  Function.update_apply _ _ _ _

theorem allocate_inv (inv : Inv root f) {s : S} (free : (f.member s).phase = .free) :
    Inv root (f.allocate s) := by
  obtain ⟨parents, unused, own, top, orphans, positive, pids, distinct, zombies, exits, reapings,
    once⟩ := inv
  have log : (f.allocate s).log = f.log := rfl
  have next : (f.allocate s).nextpid = f.nextpid + 1 := rfl
  constructor
  all_goals simp only [Family.reaped, allocate_member, log, next] at *
  case exits =>
    intro pid exited waits
    obtain ⟨i, pidEq, zombie⟩ := exits pid exited waits
    grind
  case reapings =>
    intro pid gone
    obtain ⟨exited, old, vanished⟩ := reapings pid gone
    -- The new pid is greater than those that have been reaped.
    grind
  all_goals grind

theorem abandon_inv (inv : Inv root f) {s : S} (embryo : (f.member s).phase = .embryo)
    (orphan : (f.member s).parent = none) :
    Inv root (f.set s { f.member s with phase := .free }) := by
  obtain ⟨parents, unused, own, top, orphans, positive, pids, distinct, zombies, exits, reapings,
    once⟩ := inv
  constructor
  all_goals simp only [Family.reaped, set_member, set_log, set_nextpid] at *
  case exits =>
    intro pid exited waits
    obtain ⟨i, pidEq, zombie⟩ := exits pid exited waits
    grind
  all_goals grind

theorem adopt_inv (inv : Inv root f) {s p : S} (embryo : (f.member s).phase = .embryo)
    (living : (f.member p).phase = .living) :
    Inv root (f.set s { f.member s with parent := some p }) := by
  obtain ⟨parents, unused, own, top, orphans, positive, pids, distinct, zombies, exits, reapings,
    once⟩ := inv
  constructor
  all_goals simp only [Family.reaped, set_member, set_log, set_nextpid] at *
  case exits =>
    intro pid exited waits
    obtain ⟨i, pidEq, zombie⟩ := exits pid exited waits
    grind
  all_goals grind

theorem commit_inv (inv : Inv root f) {s : S} (embryo : (f.member s).phase = .embryo)
    (child : (f.member s).parent ≠ none) :
    Inv root (f.set s { f.member s with phase := .living }) := by
  obtain ⟨parents, unused, own, top, orphans, positive, pids, distinct, zombies, exits, reapings,
    once⟩ := inv
  constructor
  all_goals simp only [Family.reaped, set_member, set_log, set_nextpid] at *
  case exits =>
    intro pid exited waits
    obtain ⟨i, pidEq, zombie⟩ := exits pid exited waits
    grind
  all_goals grind

theorem leave_inv (inv : Inv root f) {s : S} (living : (f.member s).phase = .living)
    (other : s ≠ root) : Inv root (f.leave root s) := by
  have next : (f.leave root s).nextpid = f.nextpid := rfl
  obtain ⟨parents, unused, own, top, orphans, positive, pids, distinct, zombies, exits, reapings,
    once⟩ := inv
  constructor
  all_goals simp only [leave_member, leave_reaped, next, leave_log, List.mem_append,
    List.mem_singleton]
  case exits =>
    intro pid exited waits
    rcases exited with before | now
    · obtain ⟨i, pidEq, zombie⟩ := exits pid before waits
      grind
    · exact ⟨s, (Report.exited.inj now).symm, if_pos rfl⟩
  case zombies =>
    intro i zombie
    by_cases here : i = s
    · rw [here]
      exact Or.inr rfl
    · rw [if_neg here] at zombie
      exact Or.inl (zombies i zombie)
  case once => exact once
  all_goals grind

theorem reap_inv (inv : Inv root f) {p s : S} (zombie : (f.member s).phase = .zombie)
    (child : (f.member s).parent = some p) :
    Inv root (f.reap p s) := by
  have dead := inv.zombies s zombie
  have next : (f.reap p s).nextpid = f.nextpid := rfl
  obtain ⟨parents, unused, own, top, orphans, positive, pids, distinct, zombies, exits, reapings,
    once⟩ := inv
  constructor
  all_goals simp only [reap_member, reap_reaped, reap_log, next, List.mem_append,
    List.mem_singleton, reduceCtorEq, or_false]
  case exits =>
    intro pid exited waits
    obtain ⟨i, pidEq, dead⟩ := exits pid exited fun gone => waits (Or.inl gone)
    grind
  case reapings =>
    rintro pid (before | rfl)
    · obtain ⟨exited, old, vanished⟩ := reapings pid before
      grind
    · grind
  case once =>
    refine List.nodup_append.mpr ⟨once, List.nodup_singleton _, ?_⟩
    rintro pid gone last here rfl
    rw [List.mem_singleton] at here
    exact (reapings pid gone).2.2 s (by simp [zombie]) here.symm
  all_goals grind

/-- Whoever has exited stays until his parent has reaped him. -/
theorem step_inv {f' : Family S} (inv : Inv root f) (step : Step root f f') : Inv root f' := by
  cases step with
  | allocate s free => exact allocate_inv inv free
  | abandon s embryo orphan => exact abandon_inv inv embryo orphan
  | adopt s p embryo living => exact adopt_inv inv embryo living
  | commit s embryo child => exact commit_inv inv embryo child
  | exit s living other => exact leave_inv inv living other
  | reap p s zombie child => exact reap_inv inv zombie child

end Steps

end Xv6.Lib.Families
