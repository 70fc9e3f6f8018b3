import Xv6.Public2.Ageing

/-!
# The choice of scheduler() (xv6-public_2)

The scan counts the wait of every process that it may pick before it compares, and takes it
back from the one that it picks.  So what it picks is the best by the priorities before the
scan, and of two with the same priority the one with the smaller pid.
-/

set_option autoImplicit false

namespace Xv6.Public2.Choice

open Xv6.Public2.ProcTable
open Xv6.Public2.Ageing
open Xv6.Public2.Kernel (zeroed)

/-- `q` comes after `r`. -/
def After (q r : Proc) : Prop := prio q < prio r ∨ prio q = prio r ∧ r.pid < q.pid

/-- The first of all processes that are RUNNABLE with `b != 1`. -/
def First (proc : Slot → Proc) (r : Slot) : Prop :=
  Eligible (proc r) ∧ ∀ q, Eligible (proc q) → q ≠ r → After (proc q) (proc r)

/-- No two RUNNABLE processes have one pid. -/
def DistinctPids (proc : Slot → Proc) : Prop :=
  ∀ i j, (proc i).state = .RUNNABLE → (proc j).state = .RUNNABLE → (proc i).pid = (proc j).pid →
    i = j

/-- The table when scheduler() has picked a process. -/
def selected (k : Kernel) (c : Cpu) : Slot → Proc :=
  match (scan k.proc).chosen with
  | none => (scan k.proc).proc
  | some r => (dispatch { k with proc := (scan k.proc).proc } c r).proc

theorem After.trans {p q r : Proc} (first : After p q) (second : After q r) : After p r := by
  rcases first with lower | ⟨same, pid⟩
  · rcases second with lower' | ⟨same', _⟩
    · exact Or.inl (lower.trans lower')
    · exact Or.inl (same' ▸ lower)
  · rcases second with lower' | ⟨same', pid'⟩
    · exact Or.inl (same ▸ lower')
    · exact Or.inr ⟨same.trans same', pid'.trans pid⟩

/-- The chosen one so far is the first of those that the loop has seen. -/
structure Leads (proc : Slot → Proc) (seen : List Slot) (s : Scan) : Prop where
  member : ∀ r, s.chosen = some r → r ∈ seen
  first : ∀ r, s.chosen = some r →
    ∀ q ∈ seen, Eligible (proc q) → q ≠ r → After (proc q) (proc r)

section Loop
variable {proc : Slot → Proc} {seen : List Slot} {s : Scan} {i : Slot}

theorem leads_skip (leads : Leads proc seen s) (skipped : ¬ Eligible (proc i)) :
    Leads proc (i :: seen) s where
  member := fun r chosen => List.mem_cons_of_mem i (leads.member r chosen)
  first := by
    intro r chosen q member eligible other
    rcases List.mem_cons.mp member with rfl | old
    · exact absurd eligible skipped
    · exact leads.first r chosen q old eligible other

/-- The slot becomes the chosen one. -/
theorem leads_take (inv : Seen proc seen s) (leads : Leads proc seen s)
    (better : ∀ r, s.chosen = some r → After (proc r) (proc i)) (proc' : Slot → Proc)
    (best : Int) : Leads proc (i :: seen) ⟨proc', some i, best⟩ where
  member := by
    intro r chosen
    cases chosen
    exact List.mem_cons_self
  first := by
    intro r chosen q member eligible other
    cases chosen
    rcases List.mem_cons.mp member with rfl | old
    · exact absurd rfl other
    · obtain ⟨r, chosen⟩ := Option.ne_none_iff_exists'.mp (inv.best q old eligible).1
      by_cases same : q = r
      · exact same ▸ better r chosen
      · exact (leads.first r chosen q old eligible same).trans (better r chosen)

/-- Another slot stays the chosen one. -/
theorem leads_pass (leads : Leads proc seen s)
    (worse : ∀ r, s.chosen = some r → After (proc i) (proc r)) (proc' : Slot → Proc) :
    Leads proc (i :: seen) { s with proc := proc' } where
  member := fun r chosen => List.mem_cons_of_mem i (leads.member r chosen)
  first := by
    intro r chosen q member eligible other
    rcases List.mem_cons.mp member with rfl | old
    · exact worse r chosen
    · exact leads.first r chosen q old eligible other

theorem scanSlot_leads (distinct : DistinctPids proc) (inv : Seen proc seen s)
    (leads : Leads proc seen s) (fresh : i ∉ seen) : Leads proc (i :: seen) (scanSlot s i) := by
  have here : s.proc i = proc i := by simp [inv.counts i, fresh]
  have pids : ∀ j, (s.proc j).pid = (proc j).pid := by
    intro j
    rw [inv.counts j]
    split
    all_goals rfl
  unfold scanSlot
  rw [here]
  split
  case isTrue idle => exact leads_skip leads fun eligible => idle eligible.1
  case isFalse runnable =>
    split
    case isTrue marked => exact leads_skip leads fun eligible => eligible.2 marked
    case isFalse unmarked =>
      have eligible : Eligible (proc i) := ⟨not_not.mp runnable, unmarked⟩
      have own : calculate_dynamic_priority { proc i with
          waiting_time := (proc i).waiting_time + 1 } = prio (proc i) + BETA := prio_bump (proc i)
      dsimp only
      rw [own]
      split
      case h_1 none =>
        refine leads_take inv leads (fun r chosen => ?_) _ _
        rw [none] at chosen
        cases chosen
      case h_2 r chosen =>
        obtain ⟨waits, best⟩ := inv.picked r chosen
        rw [prio_bump] at best
        have only : ∀ {P : Slot → Prop}, P r → ∀ r', s.chosen = some r' → P r' := by
          intro P holds r' chosen'
          cases chosen.symm.trans chosen'
          exact holds
        split
        case isTrue above =>
          exact leads_take inv leads (only (Or.inl (by omega))) _ _
        case isFalse notAbove =>
          split
          case isTrue tie =>
            have same : prio (proc i) = prio (proc r) := by omega
            have pid : (Function.update s.proc i { proc i with
                waiting_time := (proc i).waiting_time + 1 } r).pid = (proc r).pid := by
              refine (Lib.Slots.update_observed Proc.pid s.proc i _ ?_ r).trans (pids r)
              rw [here]
            rw [pid]
            split
            case isTrue smaller =>
              exact leads_take inv leads (only (Or.inr ⟨same.symm, smaller⟩)) _ _
            case isFalse notSmaller =>
              have other : (proc r).pid ≠ (proc i).pid := by
                intro equal
                have again := distinct r i waits.1 eligible.1 equal
                exact fresh (again ▸ leads.member r chosen)
              exact leads_pass leads (only (Or.inr ⟨same, by omega⟩)) _
          case isFalse noTie =>
            exact leads_pass leads (only (Or.inl (by omega))) _

end Loop

theorem scan_leads {proc : Slot → Proc} (distinct : DistinctPids proc) :
    Leads proc slots.reverse (scan proc) := by
  have start : Leads proc [] ⟨proc, none, -0x7fffffff⟩ :=
    ⟨(fun _ chosen => by cases chosen), (fun _ chosen => by cases chosen)⟩
  have step : ∀ i seen s, i ∉ seen → Seen proc seen s ∧ Leads proc seen s →
      Seen proc (i :: seen) (scanSlot s i) ∧ Leads proc (i :: seen) (scanSlot s i) :=
    fun i seen s fresh both =>
      ⟨scanSlot_seen both.1 fresh, scanSlot_leads distinct both.1 both.2 fresh⟩
  exact (Lib.Slots.foldl_seen_all (List.nodup_finRange NPROC) ⟨seen_start proc, start⟩ step).2

theorem first_unique {proc : Slot → Proc} {r r' : Slot} (first : First proc r)
    (first' : First proc r') : r' = r := by
  by_contra other
  have before := first.2 r' first'.1 other
  have before' := first'.2 r first.1 (Ne.symm other)
  rcases before with lower | ⟨same, pid⟩
  · rcases before' with lower' | ⟨same', _⟩
    all_goals omega
  · rcases before' with lower' | ⟨_, pid'⟩
    all_goals omega

theorem dispatch_own (k : Kernel) (c : Cpu) (r : Slot) :
    (dispatch k c r).proc r = startRun k.ticks (k.proc r) :=
  Function.update_self ..

theorem selected_some {k : Kernel} {c : Cpu} {r : Slot} (chosen : (scan k.proc).chosen = some r) :
    selected k c = (dispatch { k with proc := (scan k.proc).proc } c r).proc := by
  unfold selected
  rw [chosen]

/-- scheduler() picks the first of the processes that it may pick, if there is one; the wait of
the others is counted, and nothing else of them changes. -/
theorem scheduler_choice (k : Kernel) (c : Cpu) (distinct : DistinctPids k.proc) :
    ((scan k.proc).chosen.isSome ↔ ∃ i, Eligible (k.proc i)) ∧
      (∀ r, (scan k.proc).chosen = some r ↔ First k.proc r) ∧
      (∀ r, (scan k.proc).chosen = some r →
        (selected k c r).waiting_time = (k.proc r).waiting_time) ∧
      ∀ i, (scan k.proc).chosen ≠ some i →
        selected k c i = if Eligible (k.proc i) then bump (k.proc i) else k.proc i := by
  have seen := scan_seen k.proc
  have everyone : ∀ i, i ∈ slots.reverse := fun i => by simp [slots]
  have picks : ∀ r, (scan k.proc).chosen = some r → First k.proc r := fun r chosen =>
    ⟨(seen.picked r chosen).1, fun q eligible other =>
      (scan_leads distinct).first r chosen q (everyone q) eligible other⟩
  have some : ((scan k.proc).chosen.isSome ↔ ∃ i, Eligible (k.proc i)) := by
    constructor
    · intro chosen
      obtain ⟨r, chosen⟩ := Option.isSome_iff_exists.mp chosen
      exact ⟨r, (picks r chosen).1⟩
    · intro some
      obtain ⟨i, eligible⟩ := some
      obtain ⟨r, chosen⟩ := scan_picks eligible
      rw [chosen]
      rfl
  have counted : ∀ i, (scan k.proc).proc i =
      if Eligible (k.proc i) then bump (k.proc i) else k.proc i := by
    intro i
    rw [seen.counts i]
    simp only [everyone i, true_and]
  refine ⟨some, fun r => ⟨picks r, fun first => ?_⟩, fun r chosen => ?_, fun i other => ?_⟩
  · obtain ⟨r', chosen⟩ := scan_picks first.1
    rw [chosen, first_unique first (picks r' chosen)]
  · rw [selected_some chosen, dispatch_own]
    dsimp only
    rw [counted r, if_pos (picks r chosen).1]
    exact Int.add_sub_cancel ..
  · unfold selected
    cases chosen : (scan k.proc).chosen with
    | none => exact counted i
    | some r =>
        have notPicked : i ≠ r := fun same => other (same ▸ chosen)
        simp only [dispatch, Function.update_of_ne notPicked]
        exact counted i

/-- Two processes of one priority, and one that is suspended. -/
def twoWaiting : Kernel :=
  { zeroed with
    proc := fun i =>
      if i = 0 then { state := .RUNNABLE, pid := 2, init_priority := 50 }
      else if i = 1 then { state := .RUNNABLE, pid := 1, init_priority := 50 }
      else if i = 2 then { state := .RUNNABLE, pid := 3, b := 1, init_priority := 60 }
      else {} }

instance (proc : Slot → Proc) : Decidable (DistinctPids proc) :=
  inferInstanceAs (Decidable (∀ _, _))

theorem twoWaiting_distinct : DistinctPids twoWaiting.proc := by decide +kernel

theorem twoWaiting_choice :
    ((scan twoWaiting.proc).chosen.isSome ↔ ∃ i, Eligible (twoWaiting.proc i)) ∧
      (∀ r, (scan twoWaiting.proc).chosen = some r ↔ First twoWaiting.proc r) ∧
      (∀ r, (scan twoWaiting.proc).chosen = some r →
        (selected twoWaiting 0 r).waiting_time = (twoWaiting.proc r).waiting_time) ∧
      ∀ i, (scan twoWaiting.proc).chosen ≠ some i →
        selected twoWaiting 0 i =
          if Eligible (twoWaiting.proc i) then bump (twoWaiting.proc i) else twoWaiting.proc i :=
  scheduler_choice twoWaiting 0 twoWaiting_distinct

end Xv6.Public2.Choice
