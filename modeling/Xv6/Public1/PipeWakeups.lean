import Xv6.Public1.PipeStreams

/-!
# Wakeups on pipes (xv6-public_1)

A pipewrite() that finds the ring full when its process has been killed returns without a
wakeup, after the bytes that it has stored.
-/

set_option autoImplicit false

namespace Xv6.Public1.PipeWakeups

open Xv6.Common
open Xv6.Lib.Runs
open Xv6.Lib.Words
open Xv6.Public1.PipeRuns
open Xv6.Public1.PipeStreams (Inv pipeclose_holds)

section Property
variable {P : Type}

/-- A reader that is SLEEPING has nothing to read yet, a writer no room. -/
def Justified (pipe : Pipe) (call : Call) : Prop :=
  if call.write then pipe.full ∧ pipe.readopen = true else pipe.empty ∧ pipe.writeopen = true

/-- No wakeup is lost. -/
def NoneLost (s : State P) : Prop :=
  ∀ p call, s.calls p = some call → call.asleep = true → Justified s.pipe call

/-- The pipewrite() that an event lets go on, and from which byte. -/
def writes (s : State P) : Event P → Option (P × Args × Nat)
  | .call p write args =>
      match s.calls p with
      | none => if write = true then some (p, args, 0) else none
      | some _ => none
  | .resume p =>
      match s.calls p with
      | none => none
      | some call => if call.write = true then some (p, call.args, call.i) else none
  | .kill _ | .close _ => none

def readerAsleep [Fintype P] (s : State P) : Prop :=
  ∃ p, (s.calls p).any (fun call => !call.write && call.asleep) = true

instance [Fintype P] (s : State P) : Decidable (readerAsleep s) :=
  inferInstanceAs (Decidable (∃ _, _))

/-- No killed process goes on with a pipewrite() of more bytes than there is room for while a
reader sleeps. -/
def Heard [Fintype P] (s : State P) (e : Event P) : Prop :=
  ∀ w ∈ writes s e, s.killed w.1 = true →
    PIPESIZE - (s.pipe.nwrite - s.pipe.nread).toNat < w.2.1.count - w.2.2 → ¬ readerAsleep s

instance [Fintype P] (s : State P) (e : Event P) : Decidable (Heard s e) :=
  inferInstanceAs (Decidable (∀ _ ∈ _, _))

theorem readerAsleep_iff [Fintype P] (s : State P) :
    readerAsleep s ↔
      ∃ p call, s.calls p = some call ∧ call.write = false ∧ call.asleep = true := by
  unfold readerAsleep
  simp only [Option.any_eq_true, Bool.and_eq_true, Bool.not_eq_true']

end Property

section Turns
variable {P : Type} {s : State P} {bytes : List Byte}

/-- A call that is asleep after a wakeup() slept before it, on the other side. -/
theorem wakeup_asleep {write : Bool} {calls : P → Option Call} {q : P} {call : Call}
    (going : wakeup write calls q = some call) (asleep : call.asleep = true) :
    calls q = some call ∧ call.write ≠ write := by
  obtain ⟨old, was, now⟩ := Option.map_eq_some_iff.mp going
  by_cases side : old.write = write
  · rw [if_pos side] at now
    cases now
    cases asleep
  · rw [if_neg side] at now
    exact ⟨now ▸ was, now ▸ side⟩

/-- A sleeping reader finds the ring empty, a sleeping writer finds it full. -/
theorem asleep_bytes (holds : Holds s.pipe bytes) (kept : NoneLost s) {q : P} {call : Call}
    (going : s.calls q = some call) (asleep : call.asleep = true) :
    if call.write then bytes.length = PIPESIZE ∧ s.pipe.readopen = true
    else bytes = [] ∧ s.pipe.writeopen = true := by
  have justified := kept q call going asleep
  unfold Justified at justified
  rwa [holds.full_iff, holds.empty_iff] at justified

/-- A writer that sleeps while another one has its turn: the ring stays full. -/
theorem justified_writer {pipe : Pipe} {more : List Byte} {now : Call} (holds : Holds s.pipe bytes)
    (after : Holds pipe (bytes ++ more)) (ends : SameEnds s.pipe pipe) (kept : NoneLost s) {q : P}
    (going : s.calls q = some now) (asleep : now.asleep = true) (write : now.write = true) :
    Justified pipe now := by
  have was := asleep_bytes holds kept going asleep
  have fits := after.fits
  rw [if_pos write] at was
  rw [List.length_append] at fits
  unfold Justified
  rw [if_pos write, after.full_iff, List.length_append, ends.readopen]
  exact ⟨by omega, was.2⟩

variable [DecidableEq P]

/-- What is left to show when the call of `p` has had its turn. -/
theorem noneLost_update {s' : State P} {calls : P → Option Call} {p : P} {call : Option Call}
    (after : s'.calls = Function.update calls p call)
    (own : ∀ now, call = some now → now.asleep = true → Justified s'.pipe now)
    (others : ∀ q now, q ≠ p → calls q = some now → now.asleep = true → Justified s'.pipe now) :
    NoneLost s' := by
  intro q now going asleep
  rw [after] at going
  by_cases same : q = p
  · subst same
    rw [Function.update_self] at going
    exact own now going asleep
  · rw [Function.update_of_ne same] at going
    exact others q now same going asleep

theorem writeTurn_noneLost [Fintype P] {p : P} {args : Args} {i : Nat} {sent : List Byte}
    (inv : Inv s bytes) (kept : NoneLost s)
    (heard : s.killed p = true → PIPESIZE - bytes.length < args.count - i → ¬ readerAsleep s) :
    NoneLost (writeTurn s p args i sent) := by
  obtain ⟨k, pipe, few, after, ends, ended⟩ := writeTurn_ends p args i sent inv.holds
  have writer : ∀ q now, s.calls q = some now → now.asleep = true → now.write = true →
      Justified pipe now := fun q now going asleep write =>
    justified_writer inv.holds after ends kept going asleep write
  have woken : ∀ q now, q ≠ p → wakeup false s.calls q = some now → now.asleep = true →
      Justified pipe now := by
    intro q now _ going asleep
    obtain ⟨was, side⟩ := wakeup_asleep going asleep
    exact writer q now was asleep (Bool.eq_true_of_not_eq_false side)
  rcases ended with ⟨_, stored⟩ | ⟨less, room, stop, stored⟩ | ⟨_, room, goes, stored⟩
  · refine noneLost_update stored.calls (fun _ impossible => by cases impossible) ?_
    rw [stored.pipe]
    exact woken
  · refine noneLost_update stored.calls (fun _ impossible => by cases impossible) ?_
    rw [stored.pipe]
    intro q now _ going asleep
    by_cases write : now.write = true
    · exact writer q now going asleep write
    · have reads : now.write = false := Bool.eq_false_iff.mpr write
      have open_ := (inv.calls q now going).1
      rw [reads] at open_
      -- The read end is open, so that the writer has been killed.
      rcases stop with closed | killed
      · cases closed.symm.trans open_
      · have sleeps := (readerAsleep_iff s).mpr ⟨q, now, going, reads, asleep⟩
        exact absurd sleeps (heard killed (room ▸ less))
  · refine noneLost_update stored.calls ?_ ?_
    · intro now same _
      cases same
      have full : bytes.length + (load args.mem (args.addr + BitVec.ofNat 32 i) k).length =
          PIPESIZE := by
        have fits := inv.holds.fits
        rw [load_length]
        omega
      rw [stored.pipe]
      show pipe.full ∧ pipe.readopen = true
      rw [after.full_iff, List.length_append, ends.readopen]
      exact ⟨full, Bool.eq_true_of_not_eq_false fun closed => goes (Or.inl closed)⟩
    · rw [stored.pipe]
      exact woken

/-- The readers that sleep when a killed writer returns from a full ring stay asleep. -/
theorem writeTurn_loses [Fintype P] {p : P} {args : Args} {i : Nat} {sent : List Byte}
    (holds : Holds s.pipe bytes) (kept : NoneLost s) (killed : s.killed p = true)
    (more : PIPESIZE - bytes.length < args.count - i)
    (writes : ∀ call, s.calls p = some call → call.write = true) (asleep : readerAsleep s) :
    ¬ NoneLost (writeTurn s p args i sent) := by
  obtain ⟨q, reader, going, reads, sleeping⟩ := (readerAsleep_iff s).mp asleep
  have empty := asleep_bytes holds kept going sleeping
  rw [if_neg (by rw [reads]; exact Bool.false_ne_true)] at empty
  obtain ⟨k, pipe, few, after, ends, ended⟩ := writeTurn_ends p args i sent holds
  have fits := after.fits
  rw [List.length_append, load_length] at fits
  intro none
  rcases ended with ⟨all, _⟩ | ⟨_, room, _, stored⟩ | ⟨_, _, goes, _⟩
  · omega
  · have other : q ≠ p := by
      intro same
      cases (writes reader (same ▸ going)).symm.trans reads
    have still : (writeTurn s p args i sent).calls q = some reader := by
      rw [stored.calls, Function.update_of_ne other]
      exact going
    have justified := none q reader still sleeping
    rw [Justified, if_neg (by rw [reads]; exact Bool.false_ne_true), stored.pipe,
      after.empty_iff] at justified
    have length := congrArg List.length justified.1
    rw [List.length_append, load_length, empty.1, List.length_nil] at length
    rw [empty.1, List.length_nil] at room
    unfold PIPESIZE at room
    omega
  · exact goes (Or.inr killed)

theorem readTurn_noneLost {p : P} {args : Args} (holds : Holds s.pipe bytes) (kept : NoneLost s) :
    NoneLost (readTurn s p args) := by
  rcases readTurn_ends p args holds with
    ⟨_, _, _, took⟩ | ⟨empty, open_, _, took⟩ | ⟨goes, pipe, after, ends, took⟩
  · refine noneLost_update took.calls (fun _ impossible => by cases impossible) ?_
    rw [took.pipe]
    exact fun q now _ going asleep => kept q now going asleep
  · refine noneLost_update took.calls ?_ ?_
    · intro now same _
      cases same
      rw [took.pipe]
      exact ⟨holds.empty_iff.mpr empty, open_⟩
    · rw [took.pipe]
      exact fun q now _ going asleep => kept q now going asleep
  · refine noneLost_update took.calls (fun _ impossible => by cases impossible) ?_
    intro q now _ going asleep
    obtain ⟨was, side⟩ := wakeup_asleep going asleep
    have found := asleep_bytes holds kept was asleep
    rw [if_neg side] at found
    exact absurd found goes

end Turns

/-! ## Steps and runs -/

section Steps
variable {P : Type} {s next : State P} {bytes : List Byte}

theorem kill_noneLost [DecidableEq P] (kept : NoneLost s) (p : P) : NoneLost (kill s p) := by
  refine noneLost_update rfl ?_ fun q now _ going asleep => kept q now going asleep
  intro now same asleep
  obtain ⟨old, _, woken⟩ := Option.map_eq_some_iff.mp same
  cases woken
  cases asleep

/-- Those that sleep at the other end of a pipe are woken when an end is closed. -/
theorem close_noneLost [Fintype P] {writable : Bool} (quiet : idle s writable) :
    NoneLost (close s writable) := by
  intro q call going asleep
  obtain ⟨was, side⟩ := wakeup_asleep going asleep
  have own := quiet q call was
  cases writable
  all_goals cases write : call.write
  all_goals simp_all

theorem start_noneLost [DecidableEq P] (pipe : Pipe) :
    (∃ bytes, Inv (start pipe : State P) bytes) ∧ NoneLost (start pipe : State P) :=
  ⟨⟨[], PipeStreams.start_inv pipe⟩, fun _ _ going => by cases going⟩

variable [Fintype P] [DecidableEq P]

/-- The turn of an event that lets a pipewrite() go on. -/
theorem step_writes {e : Event P} {w : P × Args × Nat} (write : writes s e = some w)
    (taken : step s e = some next) :
    ∃ sent, next = writeTurn s w.1 w.2.1 w.2.2 sent ∧
      ∀ call, s.calls w.1 = some call → call.write = true := by
  cases e with
  | call p side args =>
      cases going : s.calls p with
      | some call => simp [writes, going] at write
      | none =>
          simp only [writes, going, Option.ite_none_right_eq_some, Option.some.injEq] at write
          obtain ⟨rfl, rfl⟩ := write
          simp only [step, going, Option.ite_none_right_eq_some, Option.some.injEq] at taken
          exact ⟨[], taken.2.symm, fun call impossible => by
            cases going.symm.trans impossible⟩
  | resume p =>
      cases going : s.calls p with
      | none => simp [writes, going] at write
      | some call =>
          simp only [writes, going, Option.ite_none_right_eq_some, Option.some.injEq] at write
          obtain ⟨side, rfl⟩ := write
          simp only [step, going, Option.ite_none_left_eq_some, Option.some.injEq] at taken
          obtain ⟨_, rfl⟩ := taken
          refine ⟨call.sent, if_pos side, fun other same => ?_⟩
          cases going.symm.trans same
          exact side
  | kill p => cases write
  | close writable => cases write

theorem step_noneLost {e : Event P} (inv : Inv s bytes) (kept : NoneLost s) (heard : Heard s e)
    (taken : step s e = some next) : NoneLost next := by
  cases write : writes s e with
  | some w =>
      obtain ⟨sent, rfl, _⟩ := step_writes write taken
      have quiet := heard w write
      rw [inv.holds.size] at quiet
      exact writeTurn_noneLost inv kept quiet
  | none =>
      cases e with
      | call p side args =>
          cases going : s.calls p with
          | some call => simp [step, going] at taken
          | none =>
              simp only [step, going, Option.ite_none_right_eq_some, Option.some.injEq] at taken
              obtain ⟨_, rfl⟩ := taken
              simp only [writes, going, ite_eq_right_iff, reduceCtorEq, imp_false] at write
              rw [turn, if_neg write]
              exact readTurn_noneLost inv.holds kept
      | resume p =>
          cases going : s.calls p with
          | none => simp [step, going] at taken
          | some call =>
              simp only [step, going, Option.ite_none_left_eq_some, Option.some.injEq] at taken
              obtain ⟨_, rfl⟩ := taken
              simp only [writes, going, ite_eq_right_iff, reduceCtorEq, imp_false] at write
              rw [turn, if_neg write]
              exact readTurn_noneLost inv.holds kept
      | kill p =>
          cases taken
          exact kill_noneLost kept p
      | close writable =>
          simp only [step, Option.ite_none_right_eq_some, Option.some.injEq] at taken
          obtain ⟨⟨_, quiet⟩, rfl⟩ := taken
          exact close_noneLost quiet

theorem step_heard {e : Event P} (inv : Inv s bytes) (kept : NoneLost s)
    (taken : step s e = some next) (none : NoneLost next) : Heard s e := by
  intro w write killed more asleep
  obtain ⟨sent, rfl, writer⟩ := step_writes write taken
  rw [inv.holds.size] at more
  exact writeTurn_loses inv.holds kept killed more writer asleep none

theorem noneLost_iff_heard (es : List (Event P)) (s final : State P)
    (start : (∃ bytes, Inv s bytes) ∧ NoneLost s) (ran : run step s es = some final) :
    Always step NoneLost s es ↔ Guarded step Heard s es := by
  have kept : ∀ (s : State P) (e : Event P) (next : State P),
      (∃ bytes, Inv s bytes) ∧ NoneLost s → Heard s e → step s e = some next → (∃ bytes, Inv next bytes) ∧ NoneLost next := by
    intro s e next both heard taken
    obtain ⟨⟨bytes, inv⟩, none⟩ := both
    exact ⟨PipeStreams.step_inv s e next ⟨bytes, inv⟩ taken, step_noneLost inv none heard taken⟩
  have broken : ∀ (s : State P) (e : Event P) (next : State P),
      (∃ bytes, Inv s bytes) ∧ NoneLost s → step s e = some next → NoneLost next → Heard s e := by
    intro s e next both taken good
    obtain ⟨⟨bytes, inv⟩, none⟩ := both
    exact step_heard inv none taken good
  exact always_iff_guarded step (fun _ both => both.2) kept broken es s final start ran

/-- No wakeup on a pipe is lost exactly in the runs in which no killed process goes on with a
pipewrite() that fills the ring while a reader sleeps. -/
theorem pipe_wakeups_iff (pipe : Pipe) (es : List (Event P)) (s : State P)
    (ran : run step (start pipe) es = some s) :
    Always step NoneLost (start pipe : State P) es ↔ Guarded step Heard (start pipe) es :=
  noneLost_iff_heard es (start pipe) s (start_noneLost pipe) ran

end Steps

/-! ## Two processes -/

def zeros (n : Word) : Args := ⟨fun _ => 0, 0, n⟩

def newPipe : Pipe := ⟨fun _ => 0, 0, 0, true, true⟩

/-- One process waits for a byte and gets the one that the other writes. -/
def heardRun : List (Event Bool) :=
  [.call false false (zeros 1), .call true true (zeros 1), .resume false]

theorem heardRun_completes : (run step (start newPipe) heardRun).isSome = true := by
  decide +kernel

theorem pipe_wakeups_heardRun :
    Always step NoneLost (start newPipe) heardRun ↔ Guarded step Heard (start newPipe) heardRun :=
  pipe_wakeups_iff newPipe heardRun _ (Option.some_get heardRun_completes).symm

/-- The other process is killed before its pipewrite() of a byte more than fits. -/
def unheardRun : List (Event Bool) :=
  [.call false false (zeros 1), .kill true, .call true true (zeros 513)]

theorem unheardRun_completes : (run step (start newPipe) unheardRun).isSome = true := by
  decide +kernel

theorem unheardRun_loses : ¬ ∀ (pipe : Pipe) (es : List (Event Bool)),
    Always step NoneLost (start pipe) es := by
  intro every
  have heard := (noneLost_iff_heard unheardRun (start newPipe) _ (start_noneLost newPipe)
    (Option.some_get unheardRun_completes).symm).mp (every newPipe unheardRun)
  exact absurd heard (by decide +kernel)

end Xv6.Public1.PipeWakeups
