import Xv6.Lib.Tickets
import Xv6.Public2.Handlers

/-!
# Pages for saved trap frames (xv6-public_2)

The pages that trap() gets for `saved_tf`, as tickets of the process in the slot: kalloc()
issues one, both ways back from a handler return it, and wait() closes the account of
the process that it reaps.  Delivery stores over a `saved_tf` that is not null, and neither
exit() nor wait() looks at it.
-/

set_option autoImplicit false

namespace Xv6.Public2.SavedFrames

open Xv6.Lib.Runs
open Xv6.Lib.Tickets
open Xv6.Machine
open Xv6.Public2.Signals
open Xv6.Public2.ProcTable
open Xv6.Public2.Kernel (zeroed userinit forkEvents step_some ownStore_some)
open Xv6.Public2.Changes
open Xv6.Public2.Handlers (Event exec delivers act_exec)

structure State where
  kernel : ProcTable.Kernel
  pages : Ledger Slot

/-- The child that the scan of wait() stops at, if it is to be reaped. -/
def deadChild (k : ProcTable.Kernel) (cur : Slot) : Option Slot :=
  match waitStop k.proc cur with
  | none => none
  | some i => if (k.proc i).state = .ZOMBIE then some i else none

/-- The process that a step reaps: in wait(), or in a wait() that scheduler() resumes. -/
def reaps (k : ProcTable.Kernel) : Event → Option Slot
  | .kernel (.wait c) =>
      match k.cpu c with
      | none => none
      | some cur => deadChild k cur
  | .kernel (.schedule c) =>
      match (scan k.proc).chosen with
      | none => none
      | some slot =>
          let k := switchTo (dispatch { k with proc := (scan k.proc).proc } c slot) slot
          if k.panic = none ∧ (k.proc slot).thread = .waiting then deadChild k slot else none
  | _ => none

/-- The CPU on which a process returns from its handler, in either way. -/
def returns : Event → Option Cpu
  | .kernel (.sigreturn c) => some c
  | .kernel (.sigretFault c) => some c
  | _ => none

def gotPage : Event → Bool
  | .kernel (.deliver _ kalloc) => kalloc
  | _ => false

def pagesAfter (k : ProcTable.Kernel) (pages : Ledger Slot) (e : Event) : Ledger Slot :=
  match (delivers e).bind k.cpu, (returns e).bind k.cpu, reaps k e with
  | some cur, _, _ => if gotPage e then pages.issue cur else pages.lose cur
  | none, some cur, _ => pages.giveBack cur
  | none, none, some i => pages.close i
  | none, none, none => pages

def step (s : State) (e : Event) : Option State :=
  match Handlers.act s.kernel e with
  | none => none
  | some kernel => some ⟨kernel, pagesAfter s.kernel s.pages e⟩

def boot : State := ⟨Kernel.boot, Ledger.empty⟩

/-- A signal is delivered only to a process that is in no handler, and wait() reaps no
process that died in one. -/
def SaveSafe (s : State) (e : Event) : Prop :=
  (∀ cur ∈ (delivers e).bind s.kernel.cpu, (s.kernel.proc cur).saved_tf = none) ∧
    ∀ i ∈ reaps s.kernel e, (s.kernel.proc i).saved_tf = none

instance (s : State) (e : Event) : Decidable (SaveSafe s e) :=
  inferInstanceAs (Decidable (_ ∧ _))

/-! ## Steps of the kernel -/

/-- Only delivery and the two ways back from a handler write `saved_tf`. -/
theorem saved_change {k : ProcTable.Kernel} {e : Kernel.Event} {i : Slot} {p p' : Proc}
    (notDelivers : delivers (.kernel e) = none) (notReturns : returns (.kernel e) = none)
    (change : Change k e i p p') : p'.saved_tf = p.saved_tf := by
  cases change with
  | deliver => cases notDelivers
  | sigreturn | sigretFault => cases notReturns
  | count | start | resleep | yield | sleep | waitSleep | reap | thread | finish | hand | die
  | wake | allocate | kill | release | ctrlG | ctrlC | mark | shell | foreground
  | background => rfl
  | signal handler =>
      cases handler
      all_goals rfl
  | resume =>
      unfold resume
      split
      all_goals rfl
  | stack page =>
      cases page
      all_goals rfl
  | @copy _ _ _ call _ page =>
      cases page with
      | none => rfl
      | some page =>
          unfold copyProcess
          dsimp only
          split
          all_goals rfl
  | @commit _ _ _ call =>
      unfold commitProcess
      split
      · rfl
      · split
        all_goals rfl

theorem saved_act {k next : ProcTable.Kernel} {e : Event} (notDelivers : delivers e = none)
    (notReturns : returns e = none) (acted : Handlers.act k e = some next) (i : Slot) :
    (next.proc i).saved_tf = (k.proc i).saved_tf := by
  cases e with
  | kernel e =>
      simp only [Handlers.act] at acted
      have chain := step_chained acted i
      generalize next.proc i = p at chain
      induction chain with
      | refl => rfl
      | tail _ change ih => exact (saved_change notDelivers notReturns change).trans ih
  | exec c pgdir entry sp =>
      obtain ⟨cur, _, rfl⟩ := act_exec acted
      by_cases here : i = cur
      · subst here
        rw [Kernel.set_same]
        rfl
      · rw [Kernel.set_other _ _ here]

theorem deliver_saved {k next : ProcTable.Kernel} {c : Cpu} {kalloc : Bool}
    (acted : Handlers.act k (.kernel (.deliver c kalloc)) = some next) :
    ∃ cur, k.cpu c = some cur ∧ ∀ i, (next.proc i).saved_tf.isSome =
      Function.update (fun j => (k.proc j).saved_tf.isSome) cur kalloc i := by
  simp only [Handlers.act] at acted
  obtain ⟨_, acted⟩ := step_some acted
  simp only [Kernel.act] at acted
  obtain ⟨cur, current, _, rfl⟩ := ownStore_some acted
  refine ⟨cur, current, fun i => ?_⟩
  by_cases here : i = cur
  · subst here
    rw [Kernel.set_same, Function.update_self]
    cases kalloc
    all_goals rfl
  · rw [Kernel.set_other _ _ here, Function.update_of_ne here]

theorem return_saved {k next : ProcTable.Kernel} {e : Event} {c : Cpu} (returning : returns e = some c)
    (acted : Handlers.act k e = some next) :
    ∃ cur, k.cpu c = some cur ∧
      ∀ i, (next.proc i).saved_tf = Function.update (fun j => (k.proc j).saved_tf) cur none i := by
  have stored : ∃ f : SigState → SigState, (∀ p, (f p).saved_tf = none) ∧
      Kernel.ownStore k c Kernel.inUser (Kernel.setSig f) = some next := by
    unfold returns at returning
    split at returning
    · cases returning
      simp only [Handlers.act] at acted
      refine ⟨_, fun p => ?_, (step_some acted).2⟩
      unfold sys_sigreturn
      split
      case h_1 nothing => exact nothing
      case h_2 => rfl
    · cases returning
      simp only [Handlers.act] at acted
      refine ⟨_, fun p => ?_, (step_some acted).2⟩
      unfold restoreOnFault
      cases saved : p.saved_tf with
      | none => exact saved
      | some => rfl
    · cases returning
  obtain ⟨f, clears, stored⟩ := stored
  obtain ⟨cur, current, _, rfl⟩ := ownStore_some stored
  refine ⟨cur, current, fun i => ?_⟩
  by_cases here : i = cur
  · subst here
    rw [Kernel.set_same, Function.update_self]
    exact clears _
  · rw [Kernel.set_other _ _ here, Function.update_of_ne here]

theorem wait_reaps {k : ProcTable.Kernel} {c : Cpu} {cur i : Slot}
    (dead : deadChild k cur = some i) : ((wait k c cur).proc i).state = .UNUSED := by
  unfold deadChild at dead
  cases stop : waitStop k.proc cur with
  | none => simp [stop] at dead
  | some j =>
      simp only [stop, Option.ite_none_right_eq_some, Option.some.injEq] at dead
      obtain ⟨zombie, rfl⟩ := dead
      have still : ((k.set cur (setThread .user (k.proc cur))).proc j).state = .ZOMBIE := by
        by_cases here : j = cur
        · subst here
          rw [Kernel.set_same]
          exact zombie
        · rw [Kernel.set_other _ _ here]
          exact zombie
      simp only [wait, stop, if_pos still, Kernel.set_same, reap]

/-- What `reaps` names is the slot that the step frees. -/
theorem reaps_freed {k next : ProcTable.Kernel} {e : Event} {i : Slot}
    (acted : Handlers.act k e = some next) (reaped : reaps k e = some i) :
    (next.proc i).state = .UNUSED := by
  unfold reaps at reaped
  split at reaped
  · rename_i c
    simp only [Handlers.act] at acted
    obtain ⟨_, acted⟩ := step_some acted
    simp only [Kernel.act] at acted
    obtain ⟨cur, current, _, rfl⟩ := Kernel.onCpu_some acted
    simp only [current] at reaped
    exact wait_reaps reaped
  · rename_i c
    simp only [Handlers.act] at acted
    obtain ⟨_, acted⟩ := step_some acted
    simp only [Kernel.act, Option.ite_none_right_eq_some, Option.some.injEq] at acted
    obtain ⟨_, rfl⟩ := acted
    unfold scheduler
    cases chosen : (scan k.proc).chosen with
    | none => simp [chosen] at reaped
    | some slot =>
        simp only [chosen] at reaped ⊢
        generalize switchTo (dispatch { k with proc := (scan k.proc).proc } c slot) slot = k₁
          at reaped ⊢
        split at reaped
        · rename_i waits
          rw [if_pos waits]
          exact wait_reaps reaped
        · cases reaped
  · cases reaped

/-! ## What a step does to the pages -/

section Pages
variable {k : ProcTable.Kernel} {pages : Ledger Slot} {e : Event}

theorem reaps_quiet {i : Slot} (reaped : reaps k e = some i) :
    delivers e = none ∧ returns e = none := by
  unfold reaps at reaped
  split at reaped
  · exact ⟨rfl, rfl⟩
  · exact ⟨rfl, rfl⟩
  · cases reaped

theorem pagesAfter_reaps {i : Slot} (reaped : reaps k e = some i) :
    pagesAfter k pages e = pages.close i := by
  obtain ⟨notDelivers, notReturns⟩ := reaps_quiet reaped
  simp only [pagesAfter, notDelivers, notReturns, reaped, Option.bind_none]

theorem pagesAfter_returns {c : Cpu} {cur : Slot} (returning : returns e = some c)
    (current : k.cpu c = some cur) : pagesAfter k pages e = pages.giveBack cur := by
  have notDelivers : delivers e = none := by
    unfold returns at returning
    split at returning
    · rfl
    · rfl
    · cases returning
  simp only [pagesAfter, notDelivers, returning, current, Option.bind_none, Option.bind_some]

theorem pagesAfter_deliver {c : Cpu} {kalloc : Bool} {cur : Slot} (current : k.cpu c = some cur) :
    pagesAfter k pages (.kernel (.deliver c kalloc)) =
      if kalloc then pages.issue cur else pages.lose cur := by
  simp only [pagesAfter, delivers, current, Option.bind_some]
  rfl

theorem pagesAfter_quiet (notDelivers : delivers e = none) (notReturns : returns e = none)
    (reaped : reaps k e = none) : pagesAfter k pages e = pages := by
  simp only [pagesAfter, notDelivers, notReturns, reaped, Option.bind_none]

end Pages

theorem step_acts {s next : State} {e : Event} (taken : step s e = some next) :
    Handlers.act s.kernel e = some next.kernel ∧ next.pages = pagesAfter s.kernel s.pages e := by
  unfold step at taken
  cases acted : Handlers.act s.kernel e with
  | none => simp [acted] at taken
  | some kernel =>
      simp only [acted, Option.some.injEq] at taken
      subst taken
      exact ⟨rfl, rfl⟩

/-! ## The invariant -/

/-- `saved_tf` is not null exactly when the process has a page out. -/
structure Inv (s : State) : Prop where
  sound : Sound s.pages
  saved : ∀ i, (s.pages.held i).isSome = (s.kernel.proc i).saved_tf.isSome

theorem Inv.free {s : State} (inv : Inv s) (i : Slot) :
    s.pages.held i = none ↔ (s.kernel.proc i).saved_tf = none := by
  rw [← Option.not_isSome_iff_eq_none, inv.saved i, Option.not_isSome_iff_eq_none]

theorem inv_kept (s : State) (e : Event) (next : State) (inv : Inv s) (safe : SaveSafe s e)
    (taken : step s e = some next) : Inv next := by
  obtain ⟨acted, pages⟩ := step_acts taken
  cases returning : returns e with
  | some c =>
      obtain ⟨cur, current, saved⟩ := return_saved returning acted
      rw [pagesAfter_returns returning current] at pages
      refine ⟨pages ▸ inv.sound.giveBack, fun i => ?_⟩
      rw [pages, saved i]
      by_cases here : i = cur
      · subst here
        rw [giveBack_held, Function.update_self, Function.update_self]
        rfl
      · rw [giveBack_held, Function.update_of_ne here, Function.update_of_ne here]
        exact inv.saved i
  | none =>
      cases delivered : delivers e with
      | some c =>
          obtain ⟨kalloc, rfl⟩ : ∃ kalloc, e = .kernel (.deliver c kalloc) := by
            unfold delivers at delivered
            split at delivered
            · cases delivered
              exact ⟨_, rfl⟩
            · cases delivered
          obtain ⟨cur, current, saved⟩ := deliver_saved acted
          have none : s.pages.held cur = none := (inv.free cur).mpr
            (safe.1 cur (by simp [delivered, current]))
          rw [pagesAfter_deliver current] at pages
          cases kalloc with
          | false =>
              rw [if_neg Bool.false_ne_true, lose_none none] at pages
              refine ⟨pages ▸ inv.sound, fun i => ?_⟩
              rw [pages, saved i, inv.saved i]
              by_cases here : i = cur
              · subst here
                rw [Function.update_self, (inv.free i).mp none]
                rfl
              · rw [Function.update_of_ne here]
          | true =>
              rw [if_pos rfl] at pages
              refine ⟨pages ▸ inv.sound.issue none, fun i => ?_⟩
              rw [pages, saved i]
              by_cases here : i = cur
              · subst here
                simp [Ledger.issue]
              · simp only [Ledger.issue, Function.update_of_ne here]
                exact inv.saved i
      | none =>
          have saved := saved_act delivered returning acted
          cases reaped : reaps s.kernel e with
          | none =>
              rw [pagesAfter_quiet delivered returning reaped] at pages
              refine ⟨pages ▸ inv.sound, fun i => ?_⟩
              rw [pages, saved i]
              exact inv.saved i
          | some i =>
              rw [pagesAfter_reaps reaped] at pages
              have none := (inv.free i).mpr (safe.2 i reaped)
              refine ⟨pages ▸ inv.sound.close none, fun j => ?_⟩
              rw [pages, saved j]
              exact inv.saved j

theorem safe_of_good (s : State) (e : Event) (next : State) (inv : Inv s)
    (taken : step s e = some next) (good : Conserved next.pages) : SaveSafe s e := by
  obtain ⟨acted, pages⟩ := step_acts taken
  rw [pages] at good
  constructor
  · intro cur found
    obtain ⟨c, delivered, current⟩ := Option.bind_eq_some_iff.mp (Option.mem_def.mp found)
    refine (inv.free cur).mp ?_
    unfold delivers at delivered
    split at delivered
    · cases delivered
      rw [pagesAfter_deliver current] at good
      split at good
      · exact conserved_issue inv.sound good
      · exact conserved_lose inv.sound good
    · cases delivered
  · intro i reaped
    rw [pagesAfter_reaps (Option.mem_def.mp reaped)] at good
    exact (inv.free i).mp (conserved_close inv.sound good)

theorem boot_inv : Inv boot where
  sound := empty_sound
  saved := by
    intro i
    show false = ((zeroed.set zeroed.initproc userinit).proc i).saved_tf.isSome
    by_cases here : i = zeroed.initproc
    · subst here
      rw [Kernel.set_same]
      rfl
    · rw [Kernel.set_other _ _ here]
      rfl

/-- In a run no page is lost or returned twice, and none is out when its process has been
reaped, exactly when no signal is delivered in a handler and no process reaped that died in
one. -/
theorem pages_conserved_iff (es : List Event) (final : State)
    (ran : run step boot es = some final) :
    Always step (fun s => Conserved s.pages) boot es ↔ Guarded step SaveSafe boot es :=
  always_iff_guarded step (fun _ inv => inv.sound.conserved) inv_kept safe_of_good es boot final
    boot_inv ran

/-- The first process has a child; the child registers a handler, and the signal sends it
there. -/
def toHandler : List Event :=
  .kernel (.schedule 0) :: (forkEvents 0 none 3 4).map .kernel ++
    [.kernel (.wait 0), .kernel (.schedule 0), .kernel (.signal 0 (some 0x100)),
      .kernel (.ctrlG 0), .kernel (.deliver 0 true)]

/-- The child exits, and its parent reaps it. -/
def toReap : List Event := [.kernel (.exit 0), .kernel (.schedule 0)]

def returnRun : List Event := toHandler ++ .kernel (.sigreturn 0) :: toReap

theorem returnRun_completes : (run step boot returnRun).isSome = true := by decide +kernel

theorem returnRun_conserved :
    Always step (fun s => Conserved s.pages) boot returnRun ↔
      Guarded step SaveSafe boot returnRun :=
  pages_conserved_iff returnRun ((run step boot returnRun).get returnRun_completes)
    (Option.some_get _).symm

/-- The child dies in its handler, and the page stays out. -/
theorem exit_leaks :
    ¬ ∀ (es : List Event) (final : State), run step boot es = some final →
      Always step (fun s => Conserved s.pages) boot es := by
  intro all
  have lost : (run step boot (toHandler ++ toReap)).any (fun s =>
      decide (s.pages.issued = 1) && decide (s.pages.owner 0 = none) &&
        decide (s.pages.returned 0 = 0)) = true := by decide +kernel
  obtain ⟨final, ran, lost⟩ := Option.any_eq_true _ _ |>.mp lost
  simp only [Bool.and_eq_true, decide_eq_true_eq] at lost
  obtain ⟨⟨issued, reaped⟩, out⟩ := lost
  have good := always_last step (toHandler ++ toReap) boot final (all _ final ran) ran
  have returned := good.closed 0 (by omega) reaped
  omega

end Xv6.Public2.SavedFrames
