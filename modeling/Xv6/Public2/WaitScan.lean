import Xv6.Public2.Kernel

/-!
# The table scan of wait() (xv6-public_2)

The loop of wait() with its early return for a suspended child of the shell.  `pid` of
wait() is assigned only where a dead child is found, so the early return gives back what
the variable happens to hold.
-/

set_option autoImplicit false

namespace Xv6.Public2.WaitScan

open Xv6.Public2.ProcTable
open Xv6.Public2.Kernel (zeroed)

/-- How the loop over the table ends. -/
inductive Pass where
  /-- A dead child is reaped and `pid` returned. -/
  | reaped (p : Slot) (pid : Int)
  /-- The early return of `pid`. -/
  | early (pid : Int)
  | finished (havekids : Bool)
  deriving DecidableEq

/-- The loop from a slot on; `pid` is not initialized. -/
def waitPass (proc : Slot → Proc) (curproc : Slot) (pid : Int) : List Slot → Bool → Pass
  | [], havekids => .finished havekids
  | p :: rest, havekids =>
      if (proc p).parent ≠ some curproc then waitPass proc curproc pid rest havekids
      else if (proc p).state = .ZOMBIE then .reaped p (proc p).pid
      else if (proc p).b = 1 ∧ (proc curproc).pid = 2 then .early pid
      else waitPass proc curproc pid rest true

/-- One round of the outer loop. -/
def waitRound (k : Kernel) (curproc : Slot) (pid : Int) : Pass :=
  waitPass k.proc curproc pid slots false

/-- What wait() returns after this round; `none` when it sleeps. -/
def returned (k : Kernel) (curproc : Slot) (pid : Int) : Option Int :=
  match waitRound k curproc pid with
  | .reaped _ pid => some pid
  | .early pid => some pid
  | .finished havekids =>
      if havekids = false ∨ (k.proc curproc).killed ≠ 0 then some (-1) else none

def Child (k : Kernel) (curproc i : Slot) : Prop := (k.proc i).parent = some curproc

def DeadChild (k : Kernel) (curproc i : Slot) : Prop :=
  Child k curproc i ∧ (k.proc i).state = .ZOMBIE

/-- A suspended child that is not dead. -/
def Job (k : Kernel) (curproc i : Slot) : Prop :=
  Child k curproc i ∧ (k.proc i).state ≠ .ZOMBIE ∧ (k.proc i).b = 1

/-- What is wanted of a round for the shell, whatever `pid` holds. -/
structure Waits (k : Kernel) (shell : Slot) : Prop where
  reaps : (∃ i, DeadChild k shell i) → ∃ i, DeadChild k shell i ∧
    ∀ pid, waitRound k shell pid = .reaped i (k.proc i).pid ∧
      returned k shell pid = some (k.proc i).pid
  early : ∀ pid, waitRound k shell pid = .early pid → ∀ i, ¬ DeadChild k shell i
  determined : ∃ value, (∀ pid, returned k shell pid = value) ∧
    (value = none ∨ value = some (-1) ∨ ∃ i, Child k shell i ∧ value = some (k.proc i).pid)
  /-- A job that is suspended does not keep the shell from waiting for another child. -/
  sleeps : (∃ i, Child k shell i) → (∀ i, ¬ DeadChild k shell i) →
    (k.proc shell).killed = 0 → ∀ pid, returned k shell pid = none

/-- Every suspended child comes after a dead one in the table. -/
def JobsLast (k : Kernel) (shell : Slot) : Prop :=
  ∀ i, Job k shell i → ∃ j, j < i ∧ DeadChild k shell j

/-! ## The loop -/

section Loop
variable {proc : Slot → Proc} {curproc : Slot} {pid : Int}

theorem pass_other {p : Slot} {rest : List Slot} {havekids : Bool}
    (other : (proc p).parent ≠ some curproc) :
    waitPass proc curproc pid (p :: rest) havekids = waitPass proc curproc pid rest havekids :=
  if_pos other

theorem pass_dead {p : Slot} {rest : List Slot} {havekids : Bool}
    (child : (proc p).parent = some curproc) (dead : (proc p).state = .ZOMBIE) :
    waitPass proc curproc pid (p :: rest) havekids = .reaped p (proc p).pid := by
  rw [waitPass, if_neg (not_not.mpr child), if_pos dead]

theorem pass_job {p : Slot} {rest : List Slot} {havekids : Bool}
    (child : (proc p).parent = some curproc) (alive : (proc p).state ≠ .ZOMBIE)
    (job : (proc p).b = 1 ∧ (proc curproc).pid = 2) :
    waitPass proc curproc pid (p :: rest) havekids = .early pid := by
  rw [waitPass, if_neg (not_not.mpr child), if_neg alive, if_pos job]

theorem pass_child {p : Slot} {rest : List Slot} {havekids : Bool}
    (child : (proc p).parent = some curproc) (alive : (proc p).state ≠ .ZOMBIE)
    (noJob : ¬ ((proc p).b = 1 ∧ (proc curproc).pid = 2)) :
    waitPass proc curproc pid (p :: rest) havekids = waitPass proc curproc pid rest true := by
  rw [waitPass, if_neg (not_not.mpr child), if_neg alive, if_neg noJob]

end Loop

/-- The loop stops where `waitStop` says, and there it reaps or returns early. -/
theorem waitPass_eq (proc : Slot → Proc) (curproc : Slot) (pid : Int) (rest : List Slot)
    (havekids : Bool) :
    waitPass proc curproc pid rest havekids =
      match rest.find? fun i => decide ((proc i).parent = some curproc) &&
          (decide ((proc i).state = .ZOMBIE) ||
            (decide ((proc i).b = 1) && decide ((proc curproc).pid = 2))) with
      | some i => if (proc i).state = .ZOMBIE then .reaped i (proc i).pid else .early pid
      | none => .finished
          (havekids || rest.any fun i => decide ((proc i).parent = some curproc)) := by
  induction rest generalizing havekids with
  | nil => simp [waitPass]
  | cons p rest ih =>
      by_cases child : (proc p).parent = some curproc
      · by_cases dead : (proc p).state = .ZOMBIE
        · rw [pass_dead child dead, List.find?_cons_of_pos (by simp [child, dead])]
          exact (if_pos dead).symm
        · by_cases job : (proc p).b = 1 ∧ (proc curproc).pid = 2
          · rw [pass_job child dead job, List.find?_cons_of_pos (by simp [child, job])]
            exact (if_neg dead).symm
          · rw [pass_child child dead job, ih,
              List.find?_cons_of_neg (by simpa [dead, child] using job)]
            simp [child]
      · rw [pass_other child, ih, List.find?_cons_of_neg (by simp [child])]
        simp [child]

/-- The round is the one of `wait`. -/
theorem waitRound_eq (k : Kernel) (curproc : Slot) (pid : Int) :
    waitRound k curproc pid =
      match waitStop k.proc curproc with
      | some i => if (k.proc i).state = .ZOMBIE then .reaped i (k.proc i).pid else .early pid
      | none => .finished (haveKids k.proc curproc) :=
  waitPass_eq k.proc curproc pid slots false

theorem wait_reaped {k : Kernel} {c : Cpu} {curproc i : Slot} {pid : Int}
    (reaped : waitRound k curproc pid = .reaped i (k.proc i).pid) (other : i ≠ curproc) :
    (wait k c curproc).proc i = reap (k.proc i) := by
  rw [waitRound_eq] at reaped
  cases stop : waitStop k.proc curproc with
  | none =>
      rw [stop] at reaped
      cases reaped
  | some j =>
      rw [stop] at reaped
      dsimp only at reaped
      split at reaped
      case isTrue dead =>
        cases reaped
        have same : (k.set curproc (setThread .user (k.proc curproc))).proc i = k.proc i :=
          Kernel.set_other k _ other
        simp only [wait, stop, same, if_pos dead, Kernel.set_same]
      case isFalse => cases reaped

/-! ## The rounds of the shell -/

section Shell
variable {k : Kernel} {shell : Slot}

theorem stop_none (shellPid : (k.proc shell).pid = 2) (stop : waitStop k.proc shell = none)
    (i : Slot) : ¬ DeadChild k shell i ∧ ¬ Job k shell i := by
  have passed := List.find?_eq_none.mp stop i (List.mem_finRange i)
  constructor
  · intro ⟨child, dead⟩
    exact passed (by simp [show (k.proc i).parent = some shell from child, dead])
  · intro ⟨child, _, job⟩
    exact passed (by simp [show (k.proc i).parent = some shell from child, job, shellPid])

/-- The loop would have stopped at a dead child or a job in front of the slot where it stops. -/
theorem stop_first (shellPid : (k.proc shell).pid = 2) {i : Slot}
    (stop : waitStop k.proc shell = some i) :
    (DeadChild k shell i ∨ Job k shell i) ∧
      ∀ j, j < i → ¬ DeadChild k shell j ∧ ¬ Job k shell j := by
  obtain ⟨here, n, inside, at_n, first⟩ := List.find?_eq_some_iff_getElem.mp stop
  have index : n = i.val := by simpa [slots] using congrArg Fin.val at_n
  constructor
  · simp only [Bool.and_eq_true, Bool.or_eq_true, decide_eq_true_eq] at here
    obtain ⟨child, dead | ⟨job, _⟩⟩ := here
    · exact Or.inl ⟨child, dead⟩
    · by_cases dead : (k.proc i).state = .ZOMBIE
      · exact Or.inl ⟨child, dead⟩
      · exact Or.inr ⟨child, dead, job⟩
  · intro j before
    have passed := first j.val (index ▸ before)
    simp only [slots, List.getElem_finRange, Fin.cast_mk, Fin.eta] at passed
    constructor
    · intro ⟨child, dead⟩
      simp [show (k.proc j).parent = some shell from child, dead] at passed
    · intro ⟨child, _, job⟩
      simp [show (k.proc j).parent = some shell from child, job, shellPid] at passed

theorem returned_reaped {i : Slot} {pid : Int}
    (reaped : waitRound k shell pid = .reaped i (k.proc i).pid) :
    returned k shell pid = some (k.proc i).pid := by
  rw [returned, reaped]

theorem returned_early {pid : Int} (early : waitRound k shell pid = .early pid) :
    returned k shell pid = some pid := by
  rw [returned, early]

theorem round_dead {i : Slot} (stop : waitStop k.proc shell = some i)
    (dead : (k.proc i).state = .ZOMBIE) (pid : Int) :
    waitRound k shell pid = .reaped i (k.proc i).pid := by
  rw [waitRound_eq, stop]
  exact if_pos dead

theorem round_job {i : Slot} (stop : waitStop k.proc shell = some i)
    (alive : (k.proc i).state ≠ .ZOMBIE) (pid : Int) : waitRound k shell pid = .early pid := by
  rw [waitRound_eq, stop]
  exact if_neg alive

theorem round_none (stop : waitStop k.proc shell = none) (pid : Int) :
    waitRound k shell pid = .finished (haveKids k.proc shell) := by
  rw [waitRound_eq, stop]

theorem waits_of_dead {i : Slot} (stop : waitStop k.proc shell = some i)
    (dead : DeadChild k shell i) : Waits k shell := by
  have reaped := round_dead stop dead.2
  constructor
  case reaps => exact fun _ => ⟨i, dead, fun pid => ⟨reaped pid, returned_reaped (reaped pid)⟩⟩
  case early =>
    intro pid early
    cases (reaped pid).symm.trans early
  case determined =>
    exact ⟨_, fun pid => returned_reaped (reaped pid), Or.inr (Or.inr ⟨i, dead.1, rfl⟩)⟩
  case sleeps => exact fun _ none => absurd dead (none i)

theorem waits_of_none (shellPid : (k.proc shell).pid = 2)
    (stop : waitStop k.proc shell = none) : Waits k shell := by
  have none := fun i => (stop_none shellPid stop i).1
  have ended := round_none stop
  constructor
  case reaps => exact fun ⟨i, dead⟩ => absurd dead (none i)
  case early => exact fun _ _ => none
  case determined =>
    have same : ∀ pid, returned k shell pid =
        if haveKids k.proc shell = false ∨ (k.proc shell).killed ≠ 0 then some (-1)
        else Option.none := by
      intro pid
      rw [returned, ended]
    refine ⟨_, same, ?_⟩
    split
    case isTrue => exact Or.inr (Or.inl rfl)
    case isFalse => exact Or.inl rfl
  case sleeps =>
    intro ⟨i, child⟩ _ alive pid
    have kids : haveKids k.proc shell = true :=
      List.any_eq_true.mpr ⟨i, List.mem_finRange i, decide_eq_true child⟩
    rw [returned, ended]
    simp [kids, alive]

end Shell

/-- A round of wait() for the shell is as it should be exactly when every suspended child comes
after a dead one in the table: otherwise wait() returns early, with a value of no meaning. -/
theorem waits_iff (k : Kernel) (shell : Slot) (shellPid : (k.proc shell).pid = 2) :
    Waits k shell ↔ JobsLast k shell := by
  cases stop : waitStop k.proc shell with
  | none =>
      refine ⟨fun _ i job => absurd job (stop_none shellPid stop i).2, fun _ => ?_⟩
      exact waits_of_none shellPid stop
  | some i =>
      obtain ⟨dead | job, first⟩ := stop_first shellPid stop
      · refine ⟨fun _ j job => ⟨i, ?_, dead⟩, fun _ => waits_of_dead stop dead⟩
        rcases lt_trichotomy i j with after | rfl | before
        · exact after
        · exact absurd dead.2 job.2.1
        · exact absurd job (first j before).2
      · constructor
        · intro waits
          obtain ⟨value, same, _⟩ := waits.determined
          have early := fun pid => returned_early (round_job stop job.2.1 pid)
          cases (early 0).symm.trans ((same 0).trans ((same 1).symm.trans (early 1)))
        · intro last
          obtain ⟨j, before, dead⟩ := last i job
          exact absurd dead (first j before).1

/-- The shell in slot 1, a job in slot 2 and a command that has finished in slot 3. -/
def jobFirst : Kernel :=
  { zeroed with
    proc := fun i =>
      if i = 1 then { state := .RUNNING, pid := 2, parent := some 0 }
      else if i = 2 then { state := .SLEEPING, pid := 3, parent := some 1, b := 1 }
      else if i = 3 then { state := .ZOMBIE, pid := 4, parent := some 1 }
      else {} }

/-- The same with the finished command in front of the job. -/
def jobLast : Kernel :=
  { jobFirst with
    proc := fun i => jobFirst.proc (if i = 2 then 3 else if i = 3 then 2 else i) }

theorem waits_jobLast : Waits jobLast 1 ↔ JobsLast jobLast 1 := waits_iff jobLast 1 rfl

theorem jobFirst_not_waits : ¬ ∀ (k : Kernel) (shell : Slot), (k.proc shell).pid = 2 →
    Waits k shell := by
  intro every
  obtain ⟨value, same, _⟩ := (every jobFirst 1 rfl).determined
  have value₀ : returned jobFirst 1 0 = some 0 := by decide
  have value₁ : returned jobFirst 1 1 = some 1 := by decide
  cases value₀.symm.trans ((same 0).trans ((same 1).symm.trans value₁))

end Xv6.Public2.WaitScan
