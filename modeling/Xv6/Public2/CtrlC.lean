import Mathlib.Tactic.Common
import Xv6.Public2.ProcTable

/-!
# Ctrl-C and kill() (xv6-public_2)

The Ctrl-C branch of consoleintr() against a kill() for each live process with a
pid of 3 or more.  The branch looks at the pid only: it marks free slots and
zombies that still have one, and does not wake a sleeping process.
-/

set_option autoImplicit false

namespace Xv6.Public2.CtrlC

open Xv6.Public2.ProcTable

/-- The slot holds a process that has not exited. -/
def Live (p : Proc) : Prop := p.state ≠ .UNUSED ∧ p.state ≠ .ZOMBIE

instance (p : Proc) : Decidable (Live p) := inferInstanceAs (Decidable (_ ∧ _))

/-- What kill() makes of the slot that it finds. -/
def victim (p : Proc) : Proc :=
  { p with
    killed := 1
    state := if p.state = .SLEEPING then .RUNNABLE else p.state }

/-- kill(p->pid) once for every slot with a live process of pid 3 or more. -/
def killLive (proc : Slot → Proc) : Slot → Proc :=
  slots.foldl (fun table i =>
    if Live (table i) ∧ (table i).pid ≥ 3 then kill (table i).pid table else table) proc

/-- Ctrl-C does what the kills do: each live process with a pid of 3 or more becomes a
victim, and free slots and the other processes stay as they are. -/
def Agrees (proc : Slot → Proc) : Prop :=
  ctrlC proc = killLive proc ∧
    (∀ i, Live (proc i) → (proc i).pid ≥ 3 → ctrlC proc i = victim (proc i)) ∧
    ∀ i, (proc i).state = .UNUSED ∨ (proc i).pid < 3 → ctrlC proc i = proc i

/-- The slot that kill(pid) finds. -/
def found (proc : Slot → Proc) (pid : Int) : Option Slot :=
  slots.find? fun i => decide ((proc i).pid = pid)

/-- The slots that the kills reach. -/
def Reached (proc : Slot → Proc) (i : Slot) : Prop :=
  found proc (proc i).pid = some i ∧ ∃ j, Live (proc j) ∧ (proc j).pid = (proc i).pid

/-- A slot that Ctrl-C treats right: it does not sleep, and if it is not marked yet, it
is one that the kills reach as well. -/
def Fit (proc : Slot → Proc) (i : Slot) : Prop :=
  (proc i).state ≠ .SLEEPING ∧
    ((proc i).killed = 1 ∨ (proc i).state ≠ .UNUSED ∧ Reached proc i)

/-! ## The kills -/

theorem victim_victim (p : Proc) : victim (victim p) = victim p := by
  unfold victim
  by_cases asleep : p.state = .SLEEPING
  · simp [asleep]
  · simp [asleep]

theorem victim_live (p : Proc) : Live (victim p) ↔ Live p := by
  unfold Live victim
  by_cases asleep : p.state = .SLEEPING
  · simp [asleep]
  · simp [asleep]

/-- The kills for the slots in `seen` have reached slot `i`. -/
def Hit (proc : Slot → Proc) (seen : List Slot) (i : Slot) : Prop :=
  found proc (proc i).pid = some i ∧
    ∃ j ∈ seen, Live (proc j) ∧ (proc j).pid ≥ 3 ∧ (proc j).pid = (proc i).pid

instance (proc : Slot → Proc) (seen : List Slot) (i : Slot) : Decidable (Hit proc seen i) :=
  inferInstanceAs (Decidable (_ ∧ _))

/-- The table after the kills for the slots in `seen`. -/
def struck (proc : Slot → Proc) (seen : List Slot) : Slot → Proc := fun i =>
  if Hit proc seen i then victim (proc i) else proc i

section Loop
variable {proc : Slot → Proc} {seen : List Slot}

theorem struck_pid (i : Slot) : (struck proc seen i).pid = (proc i).pid := by
  unfold struck
  split
  all_goals rfl

theorem struck_live (i : Slot) : Live (struck proc seen i) ↔ Live (proc i) := by
  unfold struck
  split
  · exact victim_live (proc i)
  · exact Iff.rfl

theorem victim_struck (i : Slot) : victim (struck proc seen i) = victim (proc i) := by
  unfold struck
  split
  · exact victim_victim (proc i)
  · rfl

theorem struck_found (pid : Int) : found (struck proc seen) pid = found proc pid := by
  simp only [found, struck_pid]

/-- A slot that is no live process, or one with a small pid, strikes nothing. -/
theorem hit_skip {j : Slot} (skipped : ¬ (Live (proc j) ∧ (proc j).pid ≥ 3)) (i : Slot) :
    Hit proc (j :: seen) i ↔ Hit proc seen i := by
  refine and_congr_right fun _ => ?_
  constructor
  · rintro ⟨j', member, live, high, same⟩
    rcases List.mem_cons.mp member with rfl | old
    · exact absurd ⟨live, high⟩ skipped
    · exact ⟨j', old, live, high, same⟩
  · rintro ⟨j', old, strikes⟩
    exact ⟨j', List.mem_cons_of_mem j old, strikes⟩

theorem kill_struck {j : Slot} (live : Live (proc j)) (high : (proc j).pid ≥ 3) :
    kill (proc j).pid (struck proc seen) = struck proc (j :: seen) := by
  have finds : ∃ f, found proc (proc j).pid = some f := by
    refine Option.isSome_iff_exists.mp ?_
    rw [found, List.find?_isSome]
    exact ⟨j, by simp [slots], by simp⟩
  obtain ⟨f, first⟩ := finds
  have pid : (proc f).pid = (proc j).pid := by
    have matched := List.find?_some first
    exact of_decide_eq_true matched
  have killed : kill (proc j).pid (struck proc seen) =
      Function.update (struck proc seen) f (victim (struck proc seen f)) := by
    have found' : slots.find? (fun i => decide ((struck proc seen i).pid = (proc j).pid)) =
      some f := (struck_found (proc j).pid).trans first
    simp only [kill, found', victim]
  rw [killed, victim_struck]
  funext i
  by_cases here : i = f
  · subst here
    have hit : Hit proc (j :: seen) i :=
      ⟨pid ▸ first, j, List.mem_cons_self, live, high, pid.symm⟩
    rw [Function.update_self, struck, if_pos hit]
  · have same : Hit proc (j :: seen) i ↔ Hit proc seen i := by
      constructor
      · rintro ⟨own, j', member, strikes⟩
        rcases List.mem_cons.mp member with rfl | old
        · rw [← strikes.2.2, first] at own
          exact absurd (Option.some.inj own).symm here
        · exact ⟨own, j', old, strikes⟩
      · rintro ⟨own, j', old, strikes⟩
        exact ⟨own, j', List.mem_cons_of_mem j old, strikes⟩
    rw [Function.update_of_ne here, struck, struck, if_congr same rfl rfl]

theorem killLive_struck (proc : Slot → Proc) : killLive proc = struck proc slots.reverse := by
  have loop : ∀ (rest seen : List Slot),
      rest.foldl (fun table i =>
        if Live (table i) ∧ (table i).pid ≥ 3 then kill (table i).pid table else table)
        (struck proc seen) = struck proc (rest.reverse ++ seen) := by
    intro rest
    induction rest with
    | nil => exact fun _ => rfl
    | cons j rest ih =>
        intro seen
        rw [List.foldl_cons, List.reverse_cons, List.append_assoc, List.singleton_append, ← ih]
        congr 1
        rw [struck_pid]
        by_cases strikes : Live (proc j) ∧ (proc j).pid ≥ 3
        · rw [if_pos ⟨(struck_live j).mpr strikes.1, strikes.2⟩]
          exact kill_struck strikes.1 strikes.2
        · rw [if_neg fun both => strikes ⟨(struck_live j).mp both.1, both.2⟩]
          funext i
          rw [struck, struck, if_congr (hit_skip strikes i) rfl rfl]
  have start : struck proc [] = proc := by
    funext i
    exact if_neg fun hit => by simp [Hit] at hit
  have done := loop slots []
  rw [start, List.append_nil] at done
  exact done

end Loop

/-- The kills turn the slots that they reach into victims, and no others. -/
theorem killLive_apply (proc : Slot → Proc) (i : Slot) (high : (proc i).pid ≥ 3) :
    (Reached proc i → killLive proc i = victim (proc i)) ∧
      (¬ Reached proc i → killLive proc i = proc i) := by
  have hit : Hit proc slots.reverse i ↔ Reached proc i := by
    refine and_congr_right fun _ => ?_
    constructor
    · rintro ⟨j, _, live, _, same⟩
      exact ⟨j, live, same⟩
    · rintro ⟨j, live, same⟩
      exact ⟨j, by simp [slots], live, same ▸ high, same⟩
  rw [killLive_struck, struck]
  exact ⟨fun reached => if_pos (hit.mpr reached), fun missed => if_neg fun is => missed (hit.mp is)⟩

theorem killLive_low (proc : Slot → Proc) (i : Slot) (low : (proc i).pid < 3) :
    killLive proc i = proc i := by
  rw [killLive_struck]
  refine if_neg ?_
  rintro ⟨_, j, _, _, high, same⟩
  omega

/-! ## The branch -/

theorem victim_awake {p : Proc} (awake : p.state ≠ .SLEEPING) :
    victim p = { p with killed := 1 } := by
  simp [victim, awake]

theorem marked_eq_iff (p : Proc) : ({ p with killed := 1 } : Proc) = p ↔ p.killed = 1 := by
  constructor
  · intro same
    rw [← same]
  · intro killed
    cases p
    simp only at killed
    rw [killed]

theorem marked_eq_victim_iff (p : Proc) :
    ({ p with killed := 1 } : Proc) = victim p ↔ p.state ≠ .SLEEPING := by
  constructor
  · intro same asleep
    have state := congrArg Proc.state same
    simp [victim, asleep] at state
  · intro awake
    rw [victim_awake awake]

/-- Ctrl-C agrees with the kills exactly when every slot with a pid of 3 or more is fit
for it. -/
theorem ctrlC_agrees_iff (proc : Slot → Proc) :
    Agrees proc ↔ ∀ i, (proc i).pid ≥ 3 → Fit proc i := by
  have marks : ∀ i, (proc i).pid ≥ 3 → ctrlC proc i = { proc i with killed := 1 } :=
    fun i high => if_pos high
  constructor
  · rintro ⟨same, wakes, keeps⟩ i high
    have here := congrFun same i
    rw [marks i high] at here
    have awake : (proc i).state ≠ .SLEEPING := by
      intro asleep
      have live : Live (proc i) := by simp [Live, asleep]
      have woken := wakes i live high
      rw [marks i high, marked_eq_victim_iff] at woken
      exact woken asleep
    refine ⟨awake, ?_⟩
    by_cases reached : Reached proc i
    · by_cases unused : (proc i).state = .UNUSED
      · have kept := keeps i (Or.inl unused)
        rw [marks i high, marked_eq_iff] at kept
        exact Or.inl kept
      · exact Or.inr ⟨unused, reached⟩
    · rw [(killLive_apply proc i high).2 reached, marked_eq_iff] at here
      exact Or.inl here
  · intro fit
    refine ⟨?_, fun i live high => ?_, fun i kept => ?_⟩
    · funext i
      by_cases high : (proc i).pid ≥ 3
      · obtain ⟨awake, marked⟩ := fit i high
        rw [marks i high]
        by_cases reached : Reached proc i
        · rw [(killLive_apply proc i high).1 reached, marked_eq_victim_iff]
          exact awake
        · rw [(killLive_apply proc i high).2 reached, marked_eq_iff]
          exact marked.resolve_right fun both => reached both.2
      · rw [killLive_low proc i (not_le.mp high)]
        exact if_neg high
    · rw [marks i high, marked_eq_victim_iff]
      exact (fit i high).1
    · by_cases high : (proc i).pid ≥ 3
      · rw [marks i high, marked_eq_iff]
        have unused := kept.resolve_right (not_lt.mpr high)
        exact (fit i high).2.resolve_right fun both => both.1 unused
      · exact if_neg high

/-- init and the shell wait, and the job of the shell sleeps. -/
def sleeper : Slot → Proc := fun i =>
  if i = 0 then { state := .SLEEPING, pid := 1, chan := some (.proc 0) }
  else if i = 1 then { state := .SLEEPING, pid := 2, chan := some (.proc 1), parent := some 0 }
  else if i = 2 then { state := .SLEEPING, pid := 3, chan := some (.addr 1), parent := some 1 }
  else {}

theorem sleeper_disagrees : ¬ ∀ proc : Slot → Proc, Agrees proc := by
  intro agrees
  have wakes := (agrees sleeper).2.1 2 (by decide) (by decide)
  have state := congrArg Proc.state wakes
  cases state

end Xv6.Public2.CtrlC
