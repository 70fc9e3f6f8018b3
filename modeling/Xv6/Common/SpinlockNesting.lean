import Xv6.Common.Spinlocks

/-!
# Nested calls turn interrupts off and back on

What each call of spinlock.c does to the flag, to `ncli` and to its lock, and from it what
nested calls do: no panic, interrupts off whenever `ncli > 0`, and the flag as it was when
`ncli` is 0 again.  `ncli` is an `int`, so the nesting has a limit.
-/

set_option autoImplicit false

namespace Xv6.Common.Spinlocks

open Xv6.Lib
open Xv6.Lib.Rely
open Xv6.Lib.Words

variable {C L : Type}

/-! ## What is known at one point of the code -/

/-- How far this CPU has come with a lock. -/
inductive Stage where
  | apart
  /-- Between `xchg` and `lk->cpu = mycpu()`. -/
  | won
  | held
  /-- Between `lk->cpu = 0` and `movl`. -/
  | cleared

def Stage.Stands (me : C) (won : Bool) (lock : Spinlock C) : Stage → Prop
  | .apart => won = false ∧ lock.cpu ≠ some me
  | .won => won = true ∧ lock.locked = 1
  | .held => won = true ∧ lock.locked = 1 ∧ lock.cpu = some me
  | .cleared => won = true ∧ lock.locked = 1 ∧ lock.cpu = none

def Owns (me : C) (stage : L → Stage) (s : Machine C L) : Prop :=
  ∀ lk, (stage lk).Stands me (s.won lk) (s.locks lk)

structure Sits (me : C) (on : Bool) (cpu : Cpu) (stage : L → Stage) (s : Machine C L) :
    Prop where
  interrupts : s.interrupts = on
  cpu : s.cpu = cpu
  owns : Owns me stage s

/-- Interrupts are off when `ncli > 0`. -/
def Off (s : Machine C L) : Prop := 0 < s.cpu.ncli.toInt → s.interrupts = false

/-- No panic, and interrupts are off whenever `ncli > 0`, whatever the other CPUs do. -/
abbrev Safe {α : Type} (me : C) (P : Machine C L → Prop) (x : Code C L α)
    (Q : α → Machine C L → Prop) : Prop :=
  Triple (Others me) Off (fun _ => False) P x Q

theorem Owns.others {me : C} {stage : L → Stage} {s s' : Machine C L}
    (owns : Owns me stage s) (turn : Others me s s') : Owns me stage s' := by
  intro lk
  have stands := owns lk
  rw [turn.won]
  cases stands' : stage lk with
  | apart =>
      rw [stands'] at stands
      exact ⟨stands.1, turn.theirs lk stands.2⟩
  | won =>
      rw [stands'] at stands
      rw [turn.mine lk stands.1]
      exact stands
  | held | cleared =>
      rw [stands'] at stands
      rw [turn.mine lk stands.1]
      exact stands

section Locks

variable [DecidableEq L] {me : C} {stage : L → Stage} {s : Machine C L} {lk : L}

/-- The stage of one lock changes, with the lock. -/
theorem Owns.change {s' : Machine C L} {next : Stage} (owns : Owns me stage s)
    (locks : ∀ l, l ≠ lk → s'.locks l = s.locks l) (won : ∀ l, l ≠ lk → s'.won l = s.won l)
    (here : next.Stands me (s'.won lk) (s'.locks lk)) :
    Owns me (Function.update stage lk next) s' := by
  intro l
  by_cases same : l = lk
  · subst same
    rw [Function.update_self]
    exact here
  · rw [Function.update_of_ne same, locks l same, won l same]
    exact owns l

theorem Owns.setLock {lock : Spinlock C} {next : Stage} (owns : Owns me stage s)
    (here : next.Stands me (s.won lk) lock) :
    Owns me (Function.update stage lk next) (s.setLock lk lock) := by
  refine owns.change (fun l other => Function.update_of_ne other ..) (fun _ _ => rfl) ?_
  simp only [Machine.setLock, Function.update_self]
  exact here

theorem Owns.xchg (owns : Owns me stage s) (free : (s.locks lk).locked = 0) :
    Owns me (Function.update stage lk .won) (s.xchg lk) := by
  unfold Machine.xchg
  rw [if_pos free]
  refine owns.change (fun l other => Function.update_of_ne other ..)
    (fun l other => Function.update_of_ne other ..) ?_
  simp only [Machine.setLock, Function.update_self]
  exact ⟨rfl, rfl⟩

/-- An `xchg` that has not found 0. -/
theorem Owns.retry (owns : Owns me stage s) (apart : stage lk = .apart)
    (failed : (s.locks lk).locked ≠ 0) : Owns me stage (s.xchg lk) := by
  have stands := owns lk
  rw [apart] at stands
  have same : Function.update stage lk .apart = stage := by
    rw [← apart, Function.update_eq_self]
  rw [← same]
  unfold Machine.xchg
  rw [if_neg failed]
  exact owns.setLock stands

theorem Owns.unlock (owns : Owns me stage s) (cleared : stage lk = .cleared) :
    Owns me (Function.update stage lk .apart) (s.unlock lk) := by
  refine owns.change (fun l other => Function.update_of_ne other ..)
    (fun l other => Function.update_of_ne other ..) ?_
  simp only [Machine.unlock, Machine.setLock, Function.update_self]
  have stands := owns lk
  rw [cleared] at stands
  refine ⟨rfl, ?_⟩
  show (s.locks lk).cpu ≠ some me
  rw [stands.2.2]
  exact (Option.some_ne_none me).symm

end Locks

section Specs

variable {me : C} {on flag : Bool} {cpu : Cpu} {stage : L → Stage}

theorem steady_sits (off : 0 < cpu.ncli.toInt → on = false) :
    Steady (Others me) Off (Sits me on cpu stage) where
  stable s s' sits turn :=
    ⟨turn.interrupts.trans sits.interrupts, turn.cpu.trans sits.cpu, sits.owns.others turn⟩
  sees s sits positive := by
    rw [sits.interrupts]
    rw [sits.cpu] at positive
    exact off positive

theorem steady_off : Steady (Others me) Off (Sits me false cpu stage) :=
  steady_sits fun _ => rfl

/-- `eflags`, where only `FL_IF` is known. -/
def eflagsOf (on : Bool) : Word := if on then FL_IF else 0

theorem readeflags_spec (off : 0 < cpu.ncli.toInt → on = false) :
    Safe me (Sits me on cpu stage) (readeflags (C := C) (L := L))
      fun eflags s => eflags = eflagsOf on ∧ Sits me on cpu stage s :=
  triple_read (F := (· = eflagsOf on)) (steady_sits off) fun s sits => by
    rw [sits.interrupts, eflagsOf]

theorem mycpu_spec :
    Safe me (Sits me false cpu stage) (mycpu me)
      fun c s => c = me ∧ Sits me false cpu stage s := by
  refine triple_seq (readeflags_spec fun _ => rfl) ?_
  rw [if_neg (by decide)]
  exact triple_pure steady_off fun s sits => ⟨rfl, sits⟩

theorem ncli_spec :
    Safe me (Sits me false cpu stage) (read fun s : Machine C L => s.cpu.ncli)
      fun ncli s => ncli = cpu.ncli ∧ Sits me false cpu stage s :=
  triple_read (F := (· = cpu.ncli)) steady_off fun _ sits => congrArg Cpu.ncli sits.cpu

theorem intena_spec :
    Safe me (Sits me false cpu stage) (read fun s : Machine C L => s.cpu.intena)
      fun intena s => intena = cpu.intena ∧ Sits me false cpu stage s :=
  triple_read (F := (· = cpu.intena)) steady_off fun _ sits => congrArg Cpu.intena sits.cpu

theorem saveFlag_spec (old : Bool) :
    Safe me (Sits me false cpu stage) (saveFlag me (eflagsOf old))
      fun _ => Sits me false
        { cpu with intena := if cpu.ncli = 0 then eflagsOf old else cpu.intena } stage := by
  refine triple_seq mycpu_spec (triple_seq ncli_spec ?_)
  by_cases first : cpu.ncli = 0
  · have flag : eflagsOf old &&& FL_IF = eflagsOf old := by cases old <;> decide
    rw [if_pos first, if_pos first]
    refine triple_seq mycpu_spec (triple_write steady_off steady_off fun s sits => ?_)
    exact ⟨sits.interrupts, by rw [sits.cpu, flag], sits.owns⟩
  · rw [if_neg first, if_neg first]
    exact triple_pure steady_off fun s sits => sits

/-- pushcli() saves the flag at the outermost level. -/
theorem pushcli_spec (off : 0 < cpu.ncli.toInt → on = false) :
    Safe me (Sits me on cpu stage) (pushcli me)
      fun _ => Sits me false
        ⟨cpu.ncli + 1, if cpu.ncli = 0 then eflagsOf on else cpu.intena⟩ stage := by
  refine triple_seq (readeflags_spec off) (triple_bind (M := fun _ => Sits me false cpu stage)
    ?_ fun _ => triple_bind (saveFlag_spec on) fun _ => triple_seq mycpu_spec ?_)
  · refine triple_write (steady_sits off) steady_off fun s sits => ?_
    exact ⟨rfl, sits.cpu, sits.owns⟩
  · refine triple_write steady_off steady_off fun s sits => ?_
    exact ⟨sits.interrupts, by rw [sits.cpu], sits.owns⟩

/-- The flag that is there when a popcli() has come to `ncli`. -/
def restored (cpu : Cpu) : Bool := decide (cpu.ncli = 0 ∧ cpu.intena ≠ 0)

theorem restoreFlag_spec :
    Safe me (Sits me false cpu stage) (restoreFlag me)
      fun _ => Sits me (restored cpu) cpu stage := by
  refine triple_seq mycpu_spec (triple_seq ncli_spec ?_)
  by_cases last : cpu.ncli = 0
  · rw [if_pos last]
    refine triple_seq mycpu_spec (triple_seq intena_spec ?_)
    by_cases flag : cpu.intena = 0
    · rw [if_neg (not_not.mpr flag)]
      refine triple_pure steady_off fun s sits => ?_
      have unset : restored cpu = false := decide_eq_false fun both => both.2 flag
      rwa [unset]
    · have outer : 0 < cpu.ncli.toInt → restored cpu = false := by
        rw [last]
        exact fun positive => absurd positive (by decide)
      rw [if_pos flag]
      refine triple_write steady_off (steady_sits outer) fun s sits => ?_
      have set : restored cpu = true := decide_eq_true ⟨last, flag⟩
      exact ⟨set.symm, sits.cpu, sits.owns⟩
  · rw [if_neg last]
    refine triple_pure steady_off fun s sits => ?_
    have inner : restored cpu = false := decide_eq_false fun both => last both.1
    rwa [inner]

/-- popcli() with interrupts off, where `ncli` does not become negative. -/
theorem popcli_spec (nested : ¬ (cpu.ncli - 1).toInt < 0) :
    Safe me (Sits me false cpu stage) (popcli me)
      fun _ => Sits me (restored ⟨cpu.ncli - 1, cpu.intena⟩) ⟨cpu.ncli - 1, cpu.intena⟩
        stage := by
  refine triple_seq (readeflags_spec fun _ => rfl) ?_
  rw [if_neg (by decide)]
  refine triple_seq mycpu_spec (triple_bind
    (M := fun _ => Sits me false ⟨cpu.ncli - 1, cpu.intena⟩ stage) ?_ fun _ =>
      triple_seq ncli_spec ?_)
  · refine triple_write steady_off steady_off fun s sits => ?_
    exact ⟨sits.interrupts, by rw [sits.cpu], sits.owns⟩
  · rw [if_neg nested]
    exact restoreFlag_spec

variable [DecidableEq C]

/-- What `lock->locked && lock->cpu == mycpu()` finds of a lock that is not between two
stores of this CPU. -/
theorem heldHere_spec {lk : L} {here : Bool}
    (known : stage lk = if here then .held else .apart) :
    Safe me (Sits me false cpu stage) (heldHere me lk)
      fun r s => r = here ∧ Sits me false cpu stage s := by
  have locked : Safe me (Sits me false cpu stage) (read fun s => (s.locks lk).locked)
      fun locked s => (here = true → locked = 1) ∧ Sits me false cpu stage s := by
    refine triple_read (F := fun locked => here = true → locked = 1) steady_off
      fun s sits here => ?_
    rw [here] at known
    have stands := sits.owns lk
    rw [known] at stands
    exact stands.2.1
  have cpu : Safe me (Sits me false cpu stage) (read fun s => (s.locks lk).cpu)
      fun c s => (c == some me) = here ∧ Sits me false cpu stage s := by
    refine triple_read (F := fun c => (c == some me) = here) steady_off fun s sits => ?_
    have stands := sits.owns lk
    rw [known] at stands
    cases here with
    | true => exact beq_iff_eq.mpr stands.2.2
    | false => exact beq_eq_false_iff_ne.mpr stands.2
  refine triple_bind locked fun v => triple_known fun one => ?_
  by_cases zero : v = 0
  · rw [if_neg (not_not.mpr zero)]
    refine triple_pure steady_off fun s sits => ⟨?_, sits⟩
    cases here with
    | true => exact absurd ((one rfl).symm.trans zero) (by decide)
    | false => rfl
  · rw [if_pos zero]
    exact triple_bind cpu fun c => triple_known fun same =>
      triple_seq mycpu_spec (triple_pure steady_off fun s sits => ⟨same, sits⟩)

end Specs

/-! ## What is known between two calls -/

theorem level_nonneg {n : Nat} (shallow : n < 2 ^ 31) : ¬ (BitVec.ofNat 32 n).toInt < 0 := by
  rw [BitVec.toInt_eq_toNat_cond, BitVec.toNat_ofNat, Nat.mod_eq_of_lt (by omega)]
  split <;> omega

theorem level_eq_zero {n : Nat} (shallow : n < 2 ^ 32) : BitVec.ofNat 32 n = 0 ↔ n = 0 := by
  constructor
  · intro zero
    have value := congrArg BitVec.toNat zero
    rwa [BitVec.toNat_ofNat, Nat.mod_eq_of_lt shallow] at value
  · rintro rfl
    rfl

theorem level_up (n : Nat) : BitVec.ofNat 32 n + 1 = BitVec.ofNat 32 (n + 1) :=
  (BitVec.ofNat_add n 1).symm

theorem level_down (n : Nat) : BitVec.ofNat 32 (n + 1) - 1 = BitVec.ofNat 32 n := by
  rw [← level_up, BitVec.add_sub_cancel]

section Levels

variable {me : C} {flag : Bool} {stage : L → Stage} {n : Nat}

/-- With `n` calls of pushcli() to be answered. -/
def At (me : C) (flag : Bool) (stage : L → Stage) : Nat → Machine C L → Prop
  | 0 => fun s => ∃ intena, Sits me flag ⟨0, intena⟩ stage s
  | n + 1 => Sits me false ⟨BitVec.ofNat 32 (n + 1), eflagsOf flag⟩ stage

theorem pushcli_at (shallow : n < 2 ^ 32) :
    Safe me (At me flag stage n) (pushcli me) fun _ => At me flag stage (n + 1) := by
  cases n with
  | zero =>
      refine triple_exists fun intena => triple_mono (pushcli_spec ?_) (fun _ sits => sits) ?_
      · exact fun positive => absurd positive (by simp)
      · exact fun _ _ sits => sits
  | succ n =>
      refine triple_mono (pushcli_spec fun _ => rfl) (fun _ sits => sits) fun _ s sits => ?_
      rw [level_up, if_neg fun zero => Nat.succ_ne_zero n ((level_eq_zero shallow).mp zero)] at sits
      exact sits

/-- popcli() does not panic up to depth `2 ^ 31`. -/
theorem popcli_at (shallow : n < 2 ^ 31) :
    Safe me (At me flag stage (n + 1)) (popcli me) fun _ => At me flag stage n := by
  have nested : ¬ (BitVec.ofNat 32 (n + 1) - 1).toInt < 0 := by
    rw [level_down]
    exact level_nonneg shallow
  have popped := @popcli_spec C L me ⟨BitVec.ofNat 32 (n + 1), eflagsOf flag⟩ stage nested
  refine triple_mono popped (fun _ sits => sits) fun _ s sits => ?_
  rw [level_down] at sits
  cases n with
  | zero =>
      have back : restored ⟨BitVec.ofNat 32 0, eflagsOf flag⟩ = flag := by cases flag <;> decide
      rw [back] at sits
      exact ⟨_, sits⟩
  | succ n =>
      have inner : restored ⟨BitVec.ofNat 32 (n + 1), eflagsOf flag⟩ = false :=
        decide_eq_false fun both =>
          Nat.succ_ne_zero n ((level_eq_zero (by omega)).mp both.1)
      rw [inner] at sits
      exact sits

theorem steady_at {n : Nat} : Steady (Others me) Off (At me flag stage n) := by
  cases n with
  | zero =>
      refine ⟨?_, ?_⟩
      · rintro s s' ⟨intena, sits⟩ turn
        exact ⟨intena,
          (steady_sits fun positive => absurd positive (by simp)).stable s s' sits turn⟩
      · rintro s ⟨intena, sits⟩
        exact (steady_sits fun positive => absurd positive (by simp)).sees s sits
  | succ n => exact steady_off

variable [DecidableEq C]

theorem holding_at {lk : L} {here : Bool} (shallow : n < 2 ^ 31)
    (known : stage lk = if here then .held else .apart) :
    Safe me (At me flag stage n) (holding me lk) fun r s => r = here ∧ At me flag stage n s := by
  refine triple_bind (pushcli_at (by omega)) fun _ => triple_seq (heldHere_spec known) ?_
  exact triple_bind (popcli_at shallow) fun _ =>
    triple_pure steady_at fun s sits => ⟨rfl, sits⟩

variable [DecidableEq L]

theorem acquire_at {lk : L} (shallow : n + 1 < 2 ^ 31) (apart : stage lk = .apart) :
    Safe me (At me flag stage n) (acquire me lk)
      fun _ => At me flag (Function.update stage lk .held) (n + 1) := by
  have free : stage lk = if false = true then .held else .apart := apart
  refine triple_bind (pushcli_at (by omega)) fun _ =>
    triple_seq (holding_at shallow free) (triple_bind
      (M := fun _ => At me flag (Function.update stage lk .won) (n + 1)) ?_ fun _ =>
        triple_seq mycpu_spec ?_)
  · refine triple_spin steady_at steady_at (fun s sits failed => ?_) fun s sits won => ?_
    · exact ⟨sits.interrupts, sits.cpu, sits.owns.retry apart (bne_iff_ne.mp failed)⟩
    · have zero : (s.locks lk).locked = 0 := by simpa using won
      exact ⟨sits.interrupts, sits.cpu, sits.owns.xchg zero⟩
  · refine triple_write (steady_at (n := n + 1)) (steady_at (n := n + 1)) fun s sits => ?_
    have stands := sits.owns lk
    rw [Function.update_self] at stands
    have owns := @Owns.setLock _ _ _ _ _ _ lk { s.locks lk with cpu := some me } .held sits.owns
      ⟨stands.1, stands.2, rfl⟩
    rw [Function.update_idem] at owns
    exact ⟨sits.interrupts, sits.cpu, owns⟩

theorem release_at {lk : L} (shallow : n + 1 < 2 ^ 31) (held : stage lk = .held) :
    Safe me (At me flag stage (n + 1)) (release me lk)
      fun _ => At me flag (Function.update stage lk .apart) n := by
  have mine : stage lk = if true = true then .held else .apart := held
  refine triple_seq (holding_at shallow mine) (triple_bind
    (M := fun _ => At me flag (Function.update stage lk .cleared) (n + 1)) ?_ fun _ => triple_bind
      (M := fun _ => At me flag (Function.update stage lk .apart) (n + 1)) ?_ fun _ =>
        popcli_at (by omega))
  · refine triple_write steady_at steady_at fun s sits => ?_
    have stands := sits.owns lk
    rw [held] at stands
    exact ⟨sits.interrupts, sits.cpu, sits.owns.setLock ⟨stands.1, stands.2.1, rfl⟩⟩
  · refine triple_write steady_at steady_at fun s sits => ?_
    have owns := sits.owns.unlock (Function.update_self ..)
    rw [Function.update_idem] at owns
    exact ⟨sits.interrupts, sits.cpu, owns⟩

end Levels

/-! ## Sequences of calls -/

/-- The calls of pushcli() that are to be answered, and the locks that are held. -/
structure Nest (L : Type) where
  depth : Nat
  held : L → Bool

namespace Nest

variable [DecidableEq L]

def after (n : Nest L) (c : Call L) : Nest L where
  depth := c.depth n.depth
  held :=
    match c with
    | .acquire lk => Function.update n.held lk true
    | .release lk => Function.update n.held lk false
    | _ => n.held

/-- A call that may come next. -/
def Fits (n : Nest L) : Call L → Prop
  | .pushcli => True
  | .popcli => 0 < n.depth
  | .acquire lk => n.held lk = false
  | .release lk => 0 < n.depth ∧ n.held lk = true

def Fit : Nest L → List (Call L) → Prop
  | _, [] => True
  | n, c :: cs => n.Fits c ∧ Fit (n.after c) cs

def run (n : Nest L) (cs : List (Call L)) : Nest L := cs.foldl after n

theorem fit_append {n : Nest L} {first second : List (Call L)} :
    n.Fit (first ++ second) ↔ n.Fit first ∧ (n.run first).Fit second := by
  induction first generalizing n with
  | nil => exact ⟨fun h => ⟨trivial, h⟩, And.right⟩
  | cons c cs ih =>
      show n.Fits c ∧ (n.after c).Fit (cs ++ second) ↔ _
      rw [ih]
      exact and_assoc.symm

theorem run_append (n : Nest L) (first second : List (Call L)) :
    n.run (first ++ second) = (n.run first).run second := List.foldl_append

/-- A pair of calls around calls that leave the nest as it was. -/
theorem fit_pair {n : Nest L} {c c' : Call L} {body rest : List (Call L)} (first : n.Fits c)
    (inner : (n.after c).Fit body ∧ (n.after c).run body = n.after c)
    (last : (n.after c).Fits c') (back : (n.after c).after c' = n)
    (others : n.Fit rest ∧ n.run rest = n) :
    n.Fit (c :: body ++ c' :: rest) ∧ n.run (c :: body ++ c' :: rest) = n := by
  constructor
  · refine ⟨first, fit_append.mpr ⟨inner.1, ?_⟩⟩
    rw [inner.2]
    exact ⟨last, back.symm ▸ others.1⟩
  · calc n.run (c :: body ++ c' :: rest) = ((n.after c).run body).run (c' :: rest) :=
          run_append (n.after c) body (c' :: rest)
      _ = ((n.after c).after c').run rest := by rw [inner.2]; rfl
      _ = n := by rw [back, others.2]

/-- Nested calls fit, and leave the nest as it was. -/
theorem nested_fit {held : L → Bool} {cs : List (Call L)} (nested : Nested held cs)
    (d : Nat) : Fit ⟨d, held⟩ cs ∧ run ⟨d, held⟩ cs = ⟨d, held⟩ := by
  induction nested generalizing d with
  | nil => exact ⟨trivial, rfl⟩
  | cli _ _ inner others =>
      exact fit_pair trivial (inner (d + 1)) (Nat.succ_pos d) rfl (others d)
  | @lock held body rest lk distinct _ _ inner others =>
      have back : Function.update (Function.update held lk true) lk false = held := by
        rw [Function.update_idem, ← distinct, Function.update_eq_self]
      refine fit_pair distinct (inner (d + 1)) ⟨Nat.succ_pos d, Function.update_self ..⟩ ?_
        (others d)
      simp only [after, Call.depth, Nat.add_sub_cancel, back]

/-- Where this CPU stands with each lock between two calls. -/
def stage (n : Nest L) (lk : L) : Stage := if n.held lk then .held else .apart

theorem stage_after {n : Nest L} {lk : L} {value : Bool} :
    (fun l => if Function.update n.held lk value l = true then Stage.held else .apart) =
      Function.update n.stage lk (if value = true then .held else .apart) := by
  funext l
  by_cases same : l = lk
  · rw [same, Function.update_self, Function.update_self]
  · rw [Function.update_of_ne same, Function.update_of_ne same, stage]

end Nest

section Runs

variable [DecidableEq C] [DecidableEq L] {me : C} {flag : Bool}

/-- One call, where fewer than `2 ^ 31` calls of pushcli() are to be answered. -/
theorem call_at {n : Nest L} {c : Call L} (fits : n.Fits c)
    (shallow : c.peak n.depth ≤ 2 ^ 31) :
    Safe me (At me flag n.stage n.depth) (c.code me)
      fun _ => At me flag (n.after c).stage (n.after c).depth := by
  cases c with
  | pushcli =>
      have bound : n.depth + 1 ≤ 2 ^ 31 := shallow
      exact pushcli_at (by omega)
  | popcli =>
      have inside : 0 < n.depth := fits
      have bound : n.depth ≤ 2 ^ 31 := shallow
      have level : n.depth = n.depth - 1 + 1 := by omega
      rw [level]
      exact popcli_at (by omega)
  | acquire lk =>
      have bound : n.depth + 2 ≤ 2 ^ 31 := shallow
      have apart : n.stage lk = .apart := by
        have free : n.held lk = false := fits
        rw [Nest.stage, free, if_neg Bool.false_ne_true]
      have moved : (n.after (.acquire lk)).stage = Function.update n.stage lk .held :=
        Nest.stage_after
      rw [moved]
      exact acquire_at (by omega) apart
  | release lk =>
      obtain ⟨inside, mine⟩ : 0 < n.depth ∧ n.held lk = true := fits
      have bound : n.depth + 1 ≤ 2 ^ 31 := shallow
      have held : n.stage lk = .held := by rw [Nest.stage, if_pos mine]
      have moved : (n.after (.release lk)).stage = Function.update n.stage lk .apart :=
        Nest.stage_after
      have level : n.depth = n.depth - 1 + 1 := by omega
      rw [moved, level]
      exact release_at (by omega) held

theorem calls_at {n : Nest L} {cs : List (Call L)} (fit : n.Fit cs)
    (shallow : deepest n.depth cs ≤ 2 ^ 31) :
    Safe me (At me flag n.stage n.depth) (calls me cs)
      fun _ => At me flag (n.run cs).stage (n.run cs).depth := by
  induction cs generalizing n with
  | nil => exact triple_pure steady_at fun _ sits => sits
  | cons c cs ih =>
      obtain ⟨first, others⟩ := Nat.max_le.mp shallow
      exact triple_bind (call_at fit.1 first) fun _ => ih fit.2 others

omit [DecidableEq L] in
theorem deepest_append (d : Nat) (first second : List (Call L)) :
    deepest d first ≤ deepest d (first ++ second) := by
  induction first generalizing d with
  | nil =>
      cases second with
      | nil => exact Nat.le_refl d
      | cons c cs =>
          have grows : d ≤ c.peak d := by
            cases c <;> simp only [Call.peak] <;> omega
          exact Nat.le_trans grows (Nat.le_max_left ..)
  | cons c cs ih =>
      have others := ih (c.depth d)
      simp only [deepest, List.cons_append]
      omega

theorem depth_le_deepest (n : Nest L) (cs : List (Call L)) :
    (n.run cs).depth ≤ deepest n.depth cs := by
  induction cs generalizing n with
  | nil => exact Nat.le_refl _
  | cons c cs ih => exact Nat.le_trans (ih (n.after c)) (Nat.le_max_right ..)

/-- What holds at a point of a sequence of calls that has started with `start`. -/
structure Balanced (start : Machine C L) (config : Code C L Unit × Machine C L) : Prop where
  off : 0 < config.2.cpu.ncli.toInt → config.2.interrupts = false
  quiet : ∀ panic, config.1 ≠ .fail panic
  back : config.1 = .ret () → config.2.cpu.ncli = 0 → config.2.interrupts = start.interrupts

theorem nesting {start : Machine C L} {cs first rest : List (Call L)}
    {config : Code C L Unit × Machine C L} (nested : Nested (fun _ => false) cs)
    (shallow : deepest 0 cs ≤ 2 ^ 31) (split : cs = first ++ rest)
    (outermost : start.cpu.ncli = 0)
    (free : ∀ lk, start.won lk = false ∧ (start.locks lk).cpu ≠ some me)
    (run : Runs (Others me) (calls me first, start) config) :
    Balanced start config ∧ (rest = [] → config.1 = .ret () → config.2.cpu.ncli = 0) := by
  obtain ⟨x, s⟩ := config
  obtain ⟨fit, same⟩ := Nest.nested_fit nested 0
  rw [split, Nest.fit_append] at fit
  rw [split] at shallow
  have bound := Nat.le_trans (deepest_append 0 first rest) shallow
  have starts : At me start.interrupts (Nest.stage ⟨0, fun _ => false⟩) 0 start :=
    ⟨start.cpu.intena, rfl, by rw [← outermost], free⟩
  have here := wp_runs (calls_at fit.1 bound start starts) run
  refine ⟨⟨here.seen, ?_, ?_⟩, ?_⟩
  · rintro panic rfl
    exact here.failed
  · rintro rfl level
    have post := here.returned
    have limit := Nat.le_trans (depth_le_deepest ⟨0, fun _ => false⟩ first) bound
    cases depth : (Nest.run ⟨0, fun _ => false⟩ first).depth with
    | zero =>
        rw [depth] at post
        obtain ⟨intena, sits⟩ := post
        exact sits.interrupts
    | succ d =>
        rw [depth] at post limit
        have zero : BitVec.ofNat 32 (d + 1) = 0 := (congrArg Cpu.ncli post.cpu).symm.trans level
        exact absurd ((level_eq_zero (by omega)).mp zero) (Nat.succ_ne_zero d)
  · rintro rfl rfl
    have post := here.returned
    rw [List.append_nil] at split
    rw [← split, same] at post
    obtain ⟨intena, sits⟩ := post
    exact congrArg Cpu.ncli sits.cpu

/-- A machine with interrupts on and every lock free. -/
def idle : Machine Unit Bool := ⟨true, ⟨0, 0⟩, fun _ => ⟨0, none⟩, fun _ => false⟩

/-- Two locks and a pushcli(), one in the other. -/
def threeLevels : List (Call Bool) :=
  [.acquire true, .acquire false, .pushcli, .popcli, .release false, .release true]

theorem nesting_threeLevels : ∃ s, Nested (fun _ => false) threeLevels ∧
    deepest 0 threeLevels ≤ 2 ^ 31 ∧ idle.cpu.ncli = 0 ∧
    Runs (Others ()) (calls () threeLevels, idle) (.ret (), s) ∧
    Balanced idle (.ret (), s) ∧ s.cpu.ncli = 0 := by
  obtain ⟨s, finished⟩ : ∃ s, alone (calls () threeLevels) idle = some (.ok (), s) := ⟨_, rfl⟩
  have inner {held : Bool → Bool} : Nested held [.pushcli, .popcli] := .cli .nil .nil
  have nested : Nested (fun _ => false) threeLevels := .lock rfl (.lock rfl inner .nil) .nil
  have run := @runs_of_alone _ _ _ (Others ()) _ _ _ _ finished
  obtain ⟨balanced, level⟩ := nesting nested (by decide) (List.append_nil _).symm rfl
    (fun _ => ⟨rfl, (Option.some_ne_none ()).symm⟩) run
  exact ⟨s, nested, by decide, rfl, run, balanced, level rfl rfl⟩

end Runs

/-! ## The limit -/

section Limit

variable {me : C} {rely : Machine C L → Machine C L → Prop}

/-- pushcli() when nothing comes between. -/
theorem pushcli_alone (s : Machine C L) : ∃ s' : Machine C L,
    alone (pushcli me) s = some (.ok (), s') ∧ s'.interrupts = false ∧
      s'.cpu.ncli = s.cpu.ncli + 1 := by
  refine ⟨{ s with
    interrupts := false
    cpu := ⟨s.cpu.ncli + 1,
      if s.cpu.ncli = 0 then eflagsOf s.interrupts &&& FL_IF else s.cpu.intena⟩ }, ?_, rfl, rfl⟩
  by_cases first : s.cpu.ncli = 0#32 <;>
    simp [pushcli, saveFlag, mycpu, readeflags, cli, Rely.read, write, bind, Prog.bind, alone,
      pure, first, eflagsOf]

theorem popcli_alone {s : Machine C L} (off : s.interrupts = false)
    (negative : (s.cpu.ncli - 1).toInt < 0) : ∃ s',
    alone (popcli me) s = some (.error .popcli, s') := by
  have below : (s.cpu.ncli - 1#32).toInt < 0 := negative
  simp [popcli, mycpu, readeflags, Rely.read, write, bind, Prog.bind, alone, pure, off, below,
    -BitVec.toInt_sub]

variable [DecidableEq C] [DecidableEq L]

theorem pushes_run (n : Nat) (rest : List (Call L)) (s : Machine C L)
    (off : s.interrupts = false) : ∃ s' : Machine C L,
    Runs rely (calls me (List.replicate n .pushcli ++ rest), s) (calls me rest, s') ∧
      s'.interrupts = false ∧ s'.cpu.ncli = s.cpu.ncli + BitVec.ofNat 32 n := by
  induction n generalizing s with
  | zero => exact ⟨s, .refl, off, (BitVec.add_zero _).symm⟩
  | succ n ih =>
      obtain ⟨s₁, pushed, off₁, level₁⟩ := @pushcli_alone C L me s
      obtain ⟨s', run, off', level⟩ := ih s₁ off₁
      have first := (@runs_of_alone _ _ _ rely _ _ _ _ pushed).bind fun _ =>
        calls me (List.replicate n .pushcli ++ rest)
      refine ⟨s', first.trans run, off', level.trans ?_⟩
      rw [level₁, BitVec.add_assoc, Nat.add_comm n 1, BitVec.ofNat_add]
      rfl

theorem nested_replicate (held : L → Bool) (n : Nat) :
    Nested held (List.replicate n .pushcli ++ List.replicate n .popcli) := by
  induction n with
  | zero => exact .nil
  | succ n ih =>
      have last : List.replicate (n + 1) (Call.popcli : Call L) =
          List.replicate n .popcli ++ [.popcli] := List.replicate_succ'
      rw [last, ← List.append_assoc]
      exact .cli ih .nil

end Limit

/-- `2 ^ 31 + 1` calls of pushcli(), and as many of popcli(). -/
theorem nesting_overflow :
    ¬ ∀ (start : Machine Unit Unit) (cs first rest : List (Call Unit))
      (config : Code Unit Unit Unit × Machine Unit Unit), Nested (fun _ => false) cs →
      cs = first ++ rest → start.cpu.ncli = 0 →
      (∀ lk, start.won lk = false ∧ (start.locks lk).cpu ≠ some ()) →
      Runs (Others ()) (calls () first, start) config → Balanced start config := by
  intro claim
  obtain ⟨n, large⟩ : ∃ n, n = 2 ^ 31 := ⟨_, rfl⟩
  let start : Machine Unit Unit :=
    ⟨false, ⟨0, 0⟩, fun _ => ⟨0, none⟩, fun _ => false⟩
  have split : List.replicate (n + 1) Call.pushcli ++ List.replicate (n + 1) Call.popcli =
      (List.replicate (n + 1) (Call.pushcli : Call Unit) ++ [.popcli]) ++
        List.replicate n .popcli := by
    rw [List.append_assoc]
    rfl
  obtain ⟨s, run, off, level⟩ :=
    @pushes_run Unit Unit () (Others ()) _ _ (n + 1) [.popcli] start rfl
  have negative : (s.cpu.ncli - 1).toInt < 0 := by
    rw [level, large]
    decide
  obtain ⟨s', failed⟩ := @popcli_alone Unit Unit () s off negative
  have last := (@runs_of_alone _ _ _ (Others ()) _ _ _ _ failed).bind fun _ => calls () []
  have balanced := claim start _ _ _ _ (nested_replicate _ (n + 1)) split rfl
    (fun _ => ⟨rfl, (Option.some_ne_none ()).symm⟩) (run.trans last)
  exact balanced.quiet .popcli rfl

end Xv6.Common.Spinlocks
