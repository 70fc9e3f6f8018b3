import Mathlib.Algebra.BigOperators.Ring.Finset
import Mathlib.Tactic.Linarith
import Xv6.Lib.Potential
import Xv6.Public2.Changes

/-!
# The ageing priority (xv6-public_2)

A process that waits gains `BETA` on the process that is picked in each round of
scheduler(), and loses nothing to the others, so each other process is picked
only so often before it.  A process can be RUNNABLE on a CPU, after a Ctrl-B or
Ctrl-F; the timer does not preempt it then, so it pays for no burst while it stays
RUNNABLE.
-/

set_option autoImplicit false

namespace Xv6.Public2.Ageing

open Xv6.Lib.Potential
open Xv6.Lib.Runs
open Xv6.Public2.ProcTable
open Xv6.Public2.Kernel
open Xv6.Public2.Changes

abbrev prio : Proc → Int := calculate_dynamic_priority

/-- scheduler() does not skip the process. -/
def Eligible (p : Proc) : Prop := p.state = .RUNNABLE ∧ p.b ≠ 1

instance (p : Proc) : Decidable (Eligible p) := inferInstanceAs (Decidable (_ ∧ _))

def isRound : Event → Bool
  | .schedule _ => true
  | _ => false

/-- The round dispatches the process in slot `r`. -/
def Dispatches (r : Slot) (k : Kernel) (e : Event) : Prop :=
  isRound e = true ∧ (scan k.proc).chosen = some r

instance (r : Slot) (k : Kernel) (e : Event) : Decidable (Dispatches r k e) :=
  inferInstanceAs (Decidable (_ ∧ _))

/-- A stretch of fork() or custom_fork(). -/
def creates : Event → Bool
  | .fork _ _ | .forkStack _ _ | .forkCopy _ _ | .forkCommit _ => true
  | _ => false

/-- `q` is waiting to be dispatched, and the event neither dispatches it nor
creates a process. -/
def Waits (q : Slot) (k : Kernel) (e : Event) : Prop :=
  Eligible (k.proc q) ∧ creates e = false ∧ ¬ Dispatches q k e

instance (q : Slot) (k : Kernel) (e : Event) : Decidable (Waits q k e) :=
  inferInstanceAs (Decidable (_ ∧ _))

/-- How often `r` may be dispatched before `q`. -/
def turns (k : Kernel) (r q : Slot) : Int := max 0 (prio (k.proc r) - prio (k.proc q)) / BETA + 1

/-! ## The scan -/

def bump (p : Proc) : Proc := { p with waiting_time := p.waiting_time + 1 }

theorem prio_bump (p : Proc) : prio (bump p) = prio p + BETA := by
  simp only [prio, calculate_dynamic_priority, bump, BETA]
  omega

/-- What the loop has done when it has seen these slots. -/
structure Seen (proc : Slot → Proc) (seen : List Slot) (s : Scan) : Prop where
  counts : ∀ i, s.proc i = if i ∈ seen ∧ Eligible (proc i) then bump (proc i) else proc i
  picked : ∀ i, s.chosen = some i → Eligible (proc i) ∧ s.best_priority = prio (bump (proc i))
  best : ∀ i ∈ seen, Eligible (proc i) →
    s.chosen ≠ none ∧ prio (bump (proc i)) ≤ s.best_priority

section Loop
variable {proc : Slot → Proc} {seen : List Slot} {s : Scan} {i : Slot}

theorem Seen.skip (inv : Seen proc seen s) (skipped : ¬ Eligible (proc i)) :
    Seen proc (i :: seen) s := by
  constructor
  case counts =>
    intro j
    rw [inv.counts j]
    by_cases same : j = i
    · simp [same, skipped]
    · simp [same]
  case picked => exact inv.picked
  case best =>
    intro j member eligible
    rcases List.mem_cons.mp member with rfl | old
    · exact absurd eligible skipped
    · exact inv.best j old eligible

theorem Seen.counted (inv : Seen proc seen s) (fresh : i ∉ seen) (eligible : Eligible (proc i))
    (j : Slot) :
    Function.update s.proc i (bump (s.proc i)) j =
      if j ∈ i :: seen ∧ Eligible (proc j) then bump (proc j) else proc j := by
  by_cases same : j = i
  · subst same
    simp [inv.counts j, fresh, eligible]
  · simp [inv.counts j, same]

/-- The slot becomes the chosen one. -/
theorem Seen.take (inv : Seen proc seen s) (fresh : i ∉ seen) (eligible : Eligible (proc i))
    (better : s.chosen ≠ none → s.best_priority ≤ prio (bump (proc i))) :
    Seen proc (i :: seen) ⟨Function.update s.proc i (bump (s.proc i)), some i,
      prio (bump (proc i))⟩ := by
  constructor
  case counts => exact inv.counted fresh eligible
  case picked =>
    intro j chosen
    cases chosen
    exact ⟨eligible, rfl⟩
  case best =>
    intro j member waits
    refine ⟨by simp, ?_⟩
    rcases List.mem_cons.mp member with rfl | old
    · exact Int.le_refl _
    · obtain ⟨some, below⟩ := inv.best j old waits
      exact below.trans (better some)

/-- Another slot stays the chosen one. -/
theorem Seen.pass (inv : Seen proc seen s) (fresh : i ∉ seen) (eligible : Eligible (proc i))
    (other : s.chosen ≠ none) (worse : prio (bump (proc i)) ≤ s.best_priority) :
    Seen proc (i :: seen) { s with proc := Function.update s.proc i (bump (s.proc i)) } := by
  constructor
  case counts => exact inv.counted fresh eligible
  case picked => exact inv.picked
  case best =>
    intro j member waits
    rcases List.mem_cons.mp member with rfl | old
    · exact ⟨other, worse⟩
    · exact inv.best j old waits

theorem scanSlot_seen (inv : Seen proc seen s) (fresh : i ∉ seen) :
    Seen proc (i :: seen) (scanSlot s i) := by
  have here : s.proc i = proc i := by simp [inv.counts i, fresh]
  have take := inv.take (i := i) fresh
  have pass := inv.pass (i := i) fresh
  rw [here] at take pass
  unfold scanSlot
  rw [here]
  split
  case isTrue idle => exact inv.skip fun eligible => idle eligible.1
  case isFalse runnable =>
    split
    case isTrue marked => exact inv.skip fun eligible => eligible.2 marked
    case isFalse unmarked =>
      have eligible : Eligible (proc i) := ⟨not_not.mp runnable, unmarked⟩
      dsimp only
      split
      case h_1 none => exact take eligible fun some => absurd none some
      case h_2 chosen old =>
        have other : s.chosen ≠ none := by simp [old]
        split
        case isTrue above => exact take eligible fun _ => le_of_lt above
        case isFalse notAbove =>
          split
          case isTrue tie =>
            split
            case isTrue => exact take eligible fun _ => le_of_eq tie.symm
            case isFalse => exact pass eligible other (le_of_eq tie)
          case isFalse => exact pass eligible other (not_lt.mp notAbove)

end Loop

theorem seen_start (proc : Slot → Proc) : Seen proc [] ⟨proc, none, -0x7fffffff⟩ := by
  constructor
  case counts => simp
  case picked =>
    intro i chosen
    cases chosen
  case best => simp

theorem scan_seen (proc : Slot → Proc) : Seen proc slots.reverse (scan proc) :=
  Lib.Slots.foldl_seen_all (List.nodup_finRange NPROC) (seen_start proc)
    fun _ _ _ fresh inv => scanSlot_seen inv fresh

/-- The scan counts the wait of the eligible processes and of no others. -/
theorem scan_prio (proc : Slot → Proc) (i : Slot) :
    prio ((scan proc).proc i) = prio (proc i) + if Eligible (proc i) then BETA else 0 := by
  have member : i ∈ slots.reverse := by simp [slots]
  rw [(scan_seen proc).counts i]
  by_cases eligible : Eligible (proc i)
  · rw [if_pos ⟨member, eligible⟩, if_pos eligible, prio_bump]
  · rw [if_neg fun both => eligible both.2, if_neg eligible, add_zero]

/-- The process that is picked is eligible, and none that is has more priority. -/
theorem scan_chosen {proc : Slot → Proc} {r : Slot} (chosen : (scan proc).chosen = some r) :
    Eligible (proc r) ∧ ∀ q, Eligible (proc q) → prio (proc q) ≤ prio (proc r) := by
  have seen := scan_seen proc
  obtain ⟨eligible, priority⟩ := seen.picked r chosen
  refine ⟨eligible, fun q waits => ?_⟩
  obtain ⟨_, below⟩ := seen.best q (by simp [slots]) waits
  rw [priority, prio_bump, prio_bump] at below
  linarith

theorem scan_picks {proc : Slot → Proc} {q : Slot} (waits : Eligible (proc q)) :
    ∃ r, (scan proc).chosen = some r :=
  Option.ne_none_iff_exists'.mp ((scan_seen proc).best q (by simp [slots]) waits).1

/-! ## A round -/

theorem prio_update (proc : Slot → Proc) (j : Slot) (p : Proc) (same : prio p = prio (proc j))
    (i : Slot) : prio (Function.update proc j p i) = prio (proc i) :=
  Lib.Slots.update_observed prio proc j p same i

/-- wait() by a process whose burst is of no ticks. -/
theorem prio_wait {k : Kernel} {c : Cpu} (fresh : k.start_run c = k.ticks) (cur i : Slot) :
    prio ((wait k c cur).proc i) = prio (k.proc i) := by
  have user : ∀ i, prio ((k.set cur (setThread .user (k.proc cur))).proc i) = prio (k.proc i) :=
    prio_update k.proc cur _ rfl
  unfold wait
  cases waitStop k.proc cur with
  | some j =>
      dsimp only
      split
      · exact (prio_update _ j (reap _) rfl i).trans (user i)
      · exact user i
  | none =>
      dsimp only
      split
      · exact user i
      · refine prio_update k.proc cur _ ?_ i
        simp [prio, calculate_dynamic_priority, accountRun, fallAsleep, fresh]

theorem prio_switchTo (k : Kernel) (j i : Slot) :
    prio ((switchTo k j).proc i) = prio (k.proc i) := by
  have resumed : prio (resume (k.proc j)) = prio (k.proc j) := by
    unfold resume
    split
    all_goals rfl
  unfold switchTo
  split_ifs
  · rfl
  · rfl
  · rfl
  · exact prio_update k.proc j _ resumed i

theorem prio_startRun (ticks : Int) (p : Proc) : prio (startRun ticks p) = prio p - BETA := by
  simp only [prio, calculate_dynamic_priority, startRun, BETA]
  omega

/-- A round takes the count back from the process that it dispatches. -/
theorem scheduler_prio (k : Kernel) (c : Cpu) (i : Slot) :
    prio ((scheduler k c).proc i) =
      prio ((scan k.proc).proc i) - if (scan k.proc).chosen = some i then BETA else 0 := by
  unfold scheduler
  generalize entry : ({ k with proc := (scan k.proc).proc } : Kernel) = k₁
  have proc : (scan k.proc).proc = k₁.proc := by rw [← entry]
  rw [proc]
  cases chosen : (scan k.proc).chosen with
  | none => simp [chosen, entry]
  | some j =>
      simp only [chosen, entry]
      obtain ⟨started, whole⟩ : ∃ k₂, k₂ = dispatch k₁ c j := ⟨_, rfl⟩
      have run : prio (started.proc i) = prio (k₁.proc i) - if some j = some i then BETA else 0 := by
        rw [whole]
        by_cases here : i = j
        · subst here
          simp [dispatch, prio_startRun]
        · have other : ¬ some j = some i := fun same => here (Option.some.inj same).symm
          simp [dispatch, here, other]
      have fresh : (switchTo started j).start_run c = (switchTo started j).ticks := by
        obtain ⟨ticks, start, _⟩ := switchTo_fields started j
        rw [ticks, start, whole]
        simp [dispatch]
      rw [← whole]
      split
      · rw [prio_wait fresh, prio_switchTo, run]
      · rw [prio_switchTo, run]

/-! ## Other steps -/

/-- No burst has begun in the future. -/
def Clock (k : Kernel) : Prop := ∀ c, k.start_run c ≤ k.ticks

section Steps
variable {k next : Kernel} {e : Event} {i : Slot} {p p' : Proc}

theorem prio_accountRun (clock : Clock k) (c : Cpu) (slot : Slot) (p : Proc) :
    prio (accountRun k c slot p) ≤ prio p := by
  have burst := clock c
  simp only [prio, calculate_dynamic_priority, accountRun, ALPHA]
  omega

/-- Between the rounds no priority rises. -/
theorem prio_change (clock : Clock k) (quiet : isRound e = false) (old : creates e = false)
    (change : Change k e i p p') : prio p' ≤ prio p := by
  cases change with
  | count | start | resume | resleep => cases quiet
  | allocate | stack | copy | commit => cases old
  | yield | sleep | waitSleep | die => exact prio_accountRun clock _ _ _
  | reap | thread | finish | hand | wake | kill | release | signal | sigreturn | sigretFault
  | deliver | ctrlG | ctrlC | mark | shell | foreground | background => exact le_refl _

theorem prio_chain (clock : Clock k) (quiet : isRound e = false) (old : creates e = false)
    (chain : Chain k e i p p') : prio p' ≤ prio p := by
  induction chain with
  | refl => exact le_refl _
  | tail _ change ih => exact (prio_change clock quiet old change).trans ih

/-- The process has given up the CPU in this step and does not wait for it. -/
def Leaves (e : Event) (p : Proc) : Prop :=
  p.state = .ZOMBIE ∧ (∃ c, e = .exit c) ∨
    p.state = .SLEEPING ∧ ((∃ c, e = .wait c) ∨ ∃ c chan, e = .sleep c chan)

/-- A process that goes on waiting keeps its priority between the rounds. -/
theorem steady_change (quiet : isRound e = false) (old : creates e = false)
    (kept : ∀ c, e = .yield c → k.cpu c ≠ some i) (change : Change k e i p p') :
    Leaves e p' ∨ prio p' = prio p ∧ ¬ Leaves e p := by
  by_cases left : Leaves e p
  case pos =>
    -- Nothing of the same step brings it back.
    refine Or.inl ?_
    rcases left with ⟨zombie, c, rfl⟩ | ⟨asleep, event⟩
    · cases change with
      | thread => exact Or.inl ⟨zombie, c, rfl⟩
      | finish => exact Or.inl ⟨zombie, c, rfl⟩
      | hand => exact Or.inl ⟨zombie, c, rfl⟩
      | die => exact Or.inl ⟨rfl, c, rfl⟩
      | wake wakes asleep =>
          rw [zombie] at asleep
          cases asleep
      | reap event =>
          obtain ⟨_, event | event⟩ := event
          · cases event
          · cases event
    · rcases event with ⟨c, rfl⟩ | ⟨c, chan, rfl⟩
      · cases change with
        | thread => exact Or.inr ⟨asleep, Or.inl ⟨c, rfl⟩⟩
        | waitSleep => exact Or.inr ⟨rfl, Or.inl ⟨c, rfl⟩⟩
        | reap _ zombie =>
            rw [asleep] at zombie
            cases zombie
        | wake wakes => exact wakes.elim
      · cases change with
        | thread => exact Or.inr ⟨asleep, Or.inr ⟨c, chan, rfl⟩⟩
        | sleep => exact Or.inr ⟨rfl, Or.inr ⟨c, chan, rfl⟩⟩
        | wake wakes => exact wakes.elim
        | reap event =>
            obtain ⟨_, event | event⟩ := event
            · cases event
            · cases event
  case neg =>
    cases change with
    | count | start | resume | resleep => cases quiet
    | allocate | stack | copy | commit => cases old
    | @yield c _ _ current => exact absurd current (kept c rfl)
    | @sleep c _ _ chan => exact Or.inl (Or.inr ⟨rfl, Or.inr ⟨c, chan, rfl⟩⟩)
    | @waitSleep c => exact Or.inl (Or.inr ⟨rfl, Or.inl ⟨c, rfl⟩⟩)
    | @die c => exact Or.inl (Or.inl ⟨rfl, c, rfl⟩)
    | reap | thread | finish | hand | wake | kill | release | signal | sigreturn | sigretFault
    | deliver | ctrlG | ctrlC | mark | shell | foreground | background =>
        exact Or.inr ⟨rfl, left⟩

theorem steady_chain (quiet : isRound e = false) (old : creates e = false)
    (kept : ∀ c, e = .yield c → k.cpu c ≠ some i) (chain : Chain k e i p p') :
    Leaves e p' ∨ prio p' = prio p := by
  induction chain with
  | refl => exact Or.inr rfl
  | tail _ change ih =>
      rcases steady_change quiet old kept change with left | ⟨same, stays⟩
      · exact Or.inl left
      · exact Or.inr (same.trans (ih.resolve_left stays))

theorem leaves_not_eligible (left : Leaves e p) : ¬ Eligible p := by
  intro eligible
  rcases left with ⟨zombie, _⟩ | ⟨asleep, _⟩
  · cases zombie.symm.trans eligible.1
  · cases asleep.symm.trans eligible.1

/-! ## The clock -/

/-- Nothing has happened to the clock and to the starts of the bursts. -/
def SameClock (k k' : Kernel) : Prop := k'.ticks = k.ticks ∧ k'.start_run = k.start_run

theorem SameClock.clock {k' : Kernel} (same : SameClock k k') (clock : Clock k) : Clock k' := by
  intro c
  rw [same.1, same.2]
  exact clock c

theorem wait_clock (k : Kernel) (c : Cpu) (cur : Slot) : SameClock k (wait k c cur) := by
  unfold wait
  split
  · dsimp only
    split
    all_goals exact ⟨rfl, rfl⟩
  · split
    all_goals exact ⟨rfl, rfl⟩

theorem scheduler_clock (clock : Clock k) (c : Cpu) : Clock (scheduler k c) := by
  unfold scheduler
  generalize entry : ({ k with proc := (scan k.proc).proc } : Kernel) = k₁
  have same : SameClock k k₁ := by
    rw [← entry]
    exact ⟨rfl, rfl⟩
  cases chosen : (scan k.proc).chosen with
  | none =>
      simp only [chosen, entry]
      exact same.clock clock
  | some j =>
      simp only [chosen, entry]
      have started : Clock (dispatch k₁ c j) := by
        intro d
        simp only [dispatch]
        by_cases here : d = c
        · rw [here, Function.update_self]
        · rw [Function.update_of_ne here]
          exact same.clock clock d
      obtain ⟨ticks, start, _⟩ := switchTo_fields (dispatch k₁ c j) j
      have switched : SameClock (dispatch k₁ c j) (switchTo (dispatch k₁ c j) j) := ⟨ticks, start⟩
      split
      · exact (wait_clock _ c j).clock (switched.clock started)
      · exact switched.clock started

theorem step_clock (clock : Clock k) (taken : step k e = some next) : Clock next := by
  have same : ∀ {k' : Kernel}, SameClock k k' → Clock k' := fun same => same.clock clock
  cases kind : moves e with
  | false =>
      have still := step_still kind taken
      exact same ⟨still.ticks, still.start_run⟩
  | true =>
      obtain ⟨_, taken⟩ := step_some taken
      cases e with
      | schedule c =>
          simp only [act, Option.ite_none_right_eq_some, Option.some.injEq] at taken
          obtain ⟨_, rfl⟩ := taken
          exact scheduler_clock clock c
      | tick =>
          simp only [act] at taken
          cases Option.some.inj taken
          exact fun c => (clock c).trans (by simp)
      | yield c | sleep c chan =>
          simp only [act] at taken
          obtain ⟨p, _, _, rfl⟩ := onCpu_some taken
          exact same ⟨rfl, rfl⟩
      | exit c =>
          simp only [act] at taken
          obtain ⟨p, _, _, rfl⟩ := onCpu_some taken
          unfold ProcTable.exit
          split
          all_goals exact same ⟨rfl, rfl⟩
      | wait c =>
          simp only [act] at taken
          obtain ⟨p, _, _, rfl⟩ := onCpu_some taken
          exact same (wait_clock k c p)
      | _ => cases kind

end Steps

/-! ## Segments of a run -/

/-- The lead of `r` over `q`. -/
def lead (r q : Slot) (k : Kernel) : Int := prio (k.proc r) - prio (k.proc q)

section Segments
variable {k next : Kernel} {e e' : Event} {q r : Slot}

theorem dispatch_leads (fair : Waits q k e) (dispatches : Dispatches r k e) : 0 ≤ lead r q k := by
  have most := (scan_chosen dispatches.2).2 q fair.1
  simp only [lead]
  linarith

/-- In a round `q` gains on the process that is picked, and loses to none. -/
theorem round_lead {c : Cpu} (fair : Waits q k (.schedule c)) :
    lead r q (scheduler k c) + (if Dispatches r k (.schedule c) then BETA else 0) ≤ lead r q k := by
  obtain ⟨waits, _, passed⟩ := fair
  have notQ : (scan k.proc).chosen ≠ some q := fun chosen => passed ⟨rfl, chosen⟩
  have gains : prio ((scheduler k c).proc q) = prio (k.proc q) + BETA := by
    rw [scheduler_prio, scan_prio, if_pos waits, if_neg notQ, sub_zero]
  simp only [lead, gains]
  rw [scheduler_prio, scan_prio]
  by_cases chosen : (scan k.proc).chosen = some r
  · have dispatches : Dispatches r k (.schedule c) := ⟨rfl, chosen⟩
    rw [if_pos dispatches, if_pos chosen, if_pos (scan_chosen chosen).1]
    linarith
  · have other : ¬ Dispatches r k (.schedule c) := fun dispatches => chosen dispatches.2
    rw [if_neg other, if_neg chosen]
    have most : (if Eligible (k.proc r) then BETA else 0) ≤ BETA := by
      split
      · exact le_refl _
      · decide
    linarith

theorem step_lead (clock : Clock k) (fair : Waits q k e) (taken : step k e = some next)
    (after : Waits q next e') :
    lead r q next + (if Dispatches r k e then BETA else 0) ≤ lead r q k := by
  cases round : isRound e with
  | true =>
      cases e with
      | schedule c =>
          have scheduled := (step_some taken).2
          simp only [act, Option.ite_none_right_eq_some, Option.some.injEq] at scheduled
          rw [← scheduled.2]
          exact round_lead fair
      | _ => cases round
  | false =>
      have none : ¬ Dispatches r k e := fun dispatches => by
        rw [dispatches.1] at round
        cases round
      have falls := prio_chain clock round fair.2.1 (step_chained taken r)
      -- The timer preempts only a process that is RUNNING.
      have kept : ∀ c, e = .yield c → k.cpu c ≠ some q := by
        rintro c rfl current
        have yields := (step_some taken).2
        simp only [act] at yields
        obtain ⟨p, found, running, _⟩ := onCpu_some yields
        cases current.symm.trans found
        cases (of_decide_eq_true running).symm.trans fair.1.1
      have keeps := (steady_chain round fair.2.1 kept (step_chained taken q)).resolve_left
        fun left => leaves_not_eligible left after.1
      rw [if_neg none, add_zero]
      simp only [lead, keeps]
      linarith

/-- While `q` waits, each other process is dispatched at most so often. -/
theorem dispatches_le (clock : Clock k) {es : List Event} {final : Kernel}
    (fair : Guarded step (Waits q) k es) (ran : run step k es = some final) (r : Slot) :
    (count step (Dispatches r) k es : Int) ≤ turns k r q :=
  count_le (by decide) (fun _ _ _ clock taken => step_clock clock taken)
    (fun _ _ fair dispatches => dispatch_leads fair dispatches)
    (fun _ _ _ _ clock fair taken after => step_lead clock fair taken after) clock fair ran

end Segments

/-- In any segment of a run in which `q` waits to be dispatched and no process is
created, each other process is dispatched only as often as its lead allows, and so
many rounds are all there are. -/
theorem ageing_bound (before es : List Event) (k final : Kernel) (q : Slot)
    (reached : run step boot before = some k) (ran : run step k es = some final)
    (waits : Guarded step (Waits q) k es) :
    (∀ r, r ≠ q → (count step (Dispatches r) k es : Int) ≤ turns k r q) ∧
      (count step (fun _ e => isRound e = true) k es : Int) ≤
        ∑ r ∈ Finset.univ.erase q, turns k r q := by
  have clock : Clock k := by
    refine reachable_invariant step ?_ (fun _ _ _ clock taken => step_clock clock taken)
      ⟨before, reached⟩
    exact fun _ => le_refl _
  refine ⟨fun r _ => dispatches_le clock waits ran r, ?_⟩
  have rounds : count step (fun _ e => isRound e = true) k es ≤
      ∑ r ∈ Finset.univ.erase q, count step (Dispatches r) k es := by
    refine @count_le_sum _ _ step (Waits q) _ _ _ _ Dispatches _ ?_ es k waits
    intro k e fair round
    obtain ⟨r, chosen⟩ := scan_picks fair.1
    refine ⟨r, ?_, round, chosen⟩
    refine Finset.mem_erase.mpr ⟨fun same => ?_, Finset.mem_univ r⟩
    exact fair.2.2 ⟨round, same ▸ chosen⟩
  calc (count step (fun _ e => isRound e = true) k es : Int)
      ≤ ((∑ r ∈ Finset.univ.erase q, count step (Dispatches r) k es : Nat) : Int) := by
        exact_mod_cast rounds
    _ = ∑ r ∈ Finset.univ.erase q, (count step (Dispatches r) k es : Int) := Nat.cast_sum _ _
    _ ≤ ∑ r ∈ Finset.univ.erase q, turns k r q :=
      Finset.sum_le_sum fun r _ => dispatches_le clock waits ran r

/-- init has started the shell. -/
def forkRun : List Event := .schedule cpu0 :: forkEvents cpu0 none 3 4

/-- init is dispatched once more before the shell. -/
def turnSegment : List Event := [.yield cpu0, .tick, .schedule cpu0]

/-- The slot of the shell. -/
def shell : Slot := 1

theorem forkRun_completes : (run step boot forkRun).isSome = true := by decide +kernel

theorem turnSegment_completes :
    (run step ((run step boot forkRun).get forkRun_completes) turnSegment).isSome = true := by
  decide +kernel

theorem turnSegment_bounded :
    (∀ r, r ≠ shell → (count step (Dispatches r)
        ((run step boot forkRun).get forkRun_completes) turnSegment : Int) ≤
        turns ((run step boot forkRun).get forkRun_completes) r shell) ∧
      (count step (fun _ e => isRound e = true)
        ((run step boot forkRun).get forkRun_completes) turnSegment : Int) ≤
        ∑ r ∈ Finset.univ.erase shell,
          turns ((run step boot forkRun).get forkRun_completes) r shell :=
  ageing_bound forkRun turnSegment _ _ shell (Option.some_get forkRun_completes).symm
    (Option.some_get turnSegment_completes).symm (by decide +kernel)

end Xv6.Public2.Ageing
