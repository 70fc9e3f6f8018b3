import Xv6.Public2.TableInv

/-!
# What scheduler() dispatches (xv6-public_2)

The slot that a scan of scheduler() picks holds a committed process that has
not exited and is on no CPU, as long as no Ctrl-B or Ctrl-F stores a state over
that of a process which is not parked.  Ctrl-F tests only the flag `b`, so a job
that was marked while it ran and has exited since is made RUNNABLE again.
-/

set_option autoImplicit false

namespace Xv6.Public2.Dispatch

open Xv6.Lib.Runs
open Xv6.Public2.ProcTable
open Xv6.Public2.Kernel
open Xv6.Public2.Scan
open Xv6.Public2.TableInv

/-- If scheduler() ran now, the process it picks would be fit to run. -/
def DispatchSafe (k : ProcTable.Kernel) : Prop :=
  ∀ p, (scan k.proc).chosen = some p →
    (k.proc p).life = .live ∧ Built (k.proc p) ∧ ∀ c, k.cpu c ≠ some p

/-- None of the panics of a wrong dispatch has been reached. -/
def NoDispatchPanic (k : ProcTable.Kernel) : Prop :=
  k.panic ≠ some .zombieExit ∧ k.panic ≠ some .noKstack ∧ k.panic ≠ some .noPgdir

theorem dispatchSafe_of_inv {k : ProcTable.Kernel} (inv : Inv k) : DispatchSafe k := by
  intro p chosen
  have runnable := ((scan_scanned k.proc).chosen p chosen).1
  have living : (k.proc p).life = .live := by
    rw [inv.live, runnable]
    rfl
  refine ⟨living, inv.built p living, fun c current => ?_⟩
  have running := (inv.running p).mpr ⟨c, current⟩
  rw [runnable] at running
  cases running

theorem noDispatchPanic_of_inv {k : ProcTable.Kernel} (inv : Inv k) : NoDispatchPanic k := by
  rcases inv.calm with calm | exiting
  · simp [NoDispatchPanic, calm]
  · simp [NoDispatchPanic, exiting]

/-- In a run in which every key finds the processes it writes to parked,
whatever scheduler() picks at any moment is fit to run. -/
theorem run_dispatches_safely (es : List Event) (k : ProcTable.Kernel)
    (keys : Guarded step KeySafe boot es) (ran : run step boot es = some k) :
    DispatchSafe k ∧ NoDispatchPanic k := by
  have inv := run_invariant step step_inv es boot k boot_inv keys ran
  exact ⟨dispatchSafe_of_inv inv, noDispatchPanic_of_inv inv⟩

/-- init starts the shell and the shell a job; both wait. -/
def jobRun : List Event :=
  [.schedule cpu0] ++ forkEvents cpu0 none 3 4 ++ [.wait cpu0, .schedule cpu0] ++
    forkEvents cpu0 none 5 6 ++ [.wait cpu0, .schedule cpu0]

/-- The job sleeps when Ctrl-B and later Ctrl-F are pressed. -/
def suspendRun : List Event := jobRun ++ [.sleep cpu0 (.addr 1), .ctrlB, .ctrlBWake, .ctrlF]

theorem suspendRun_completes : (run step boot suspendRun).isSome = true := by decide +kernel

theorem suspendRun_dispatches_safely :
    DispatchSafe ((run step boot suspendRun).get suspendRun_completes) ∧
      NoDispatchPanic ((run step boot suspendRun).get suspendRun_completes) :=
  run_dispatches_safely suspendRun _ (by decide +kernel) (Option.some_get _).symm

/-- The job is on the CPU when Ctrl-B marks it, and exits before Ctrl-F. -/
def zombieRun : List Event := jobRun ++ [.ctrlB, .ctrlBWake, .exit cpu0, .ctrlF]

/-- The next round of scheduler() picks the zombie and runs into the panic. -/
theorem zombieRun_dispatches_zombie :
    ¬ (∀ (es : List Event) (k : ProcTable.Kernel), run step boot es = some k →
      DispatchSafe k ∧ NoDispatchPanic k) ∧
    (run step boot (zombieRun ++ [.schedule cpu0])).map (fun k => k.panic) =
      some (some .zombieExit) := by
  have picked : (run step boot zombieRun).any (fun k =>
      (scan k.proc).chosen.any fun p => decide ((k.proc p).life = .exited)) = true := by
    decide +kernel
  refine ⟨fun safe => ?_, by decide +kernel⟩
  obtain ⟨k, ran, exited⟩ := (Option.any_eq_true _ _).mp picked
  obtain ⟨p, chosen, exited⟩ := (Option.any_eq_true _ _).mp exited
  have living := ((safe zombieRun k ran).1 p chosen).1
  rw [of_decide_eq_true exited] at living
  cases living

end Xv6.Public2.Dispatch
