import Xv6.Public1.PipeRuns

/-!
# Pipes are lossless (xv6-public_1)

What readers get is what writers have put in, in the same order; the rest of it is in the
ring.
-/

set_option autoImplicit false

namespace Xv6.Public1.PipeStreams

open Xv6.Common
open Xv6.Lib.Runs
open Xv6.Lib.Words
open Xv6.Public1.PipeRuns

variable {P : Type}

/-! ## The property -/

section Property
variable [DecidableEq P]

def ownBytes (pieces : List (Piece P)) (p : P) : List Byte :=
  stream (pieces.filter fun piece => decide (piece.owner = p))

def ownWritten (written : List (Written P)) (p : P) : List Byte :=
  (written.filter fun w => decide (w.owner = p)).flatMap Written.sent

def ownReceived (received : List (Received P)) (p : P) : List Byte :=
  (received.filter fun r => decide (r.owner = p)).flatMap Received.bytes

/-- What the call of `p` that is going on has put in. -/
def ownCall (calls : P → Option Call) (p : P) : List Byte :=
  match calls p with
  | none => []
  | some call => call.sent

/-- A pipewrite() that returns `n` has put in its `n` bytes, any other the first of them. -/
structure WriteRight (w : Written P) : Prop where
  whole : w.ret = w.args.n → w.sent = load w.args.mem w.args.addr w.args.count
  part : ∃ k, k ≤ w.args.count ∧ w.sent = load w.args.mem w.args.addr k

/-- What a piperead() returns is what it has taken and stored at `addr`. -/
structure ReadRight (r : Received P) : Prop where
  count : r.ret ≠ -1 → r.ret = BitVec.ofNat 32 r.bytes.length ∧ r.bytes.length ≤ r.args.count
  failed : r.ret = -1 → r.bytes = []
  stored : r.mem = overlay r.args.mem r.args.addr r.bytes
  zero : r.ret = 0 → 0 < r.args.n.toInt → r.pipe.empty ∧ r.pipe.writeopen = false

structure Lossless (s : State P) : Prop where
  bounds : (s.pipe.nwrite - s.pipe.nread).toNat ≤ PIPESIZE
  /-- What has been accepted and not delivered is in the ring. -/
  fifo : stream s.accepted = stream s.delivered ++
    slice s.pipe s.pipe.nread (s.pipe.nwrite - s.pipe.nread).toNat
  sent : ∀ p, ownBytes s.accepted p = ownWritten s.written p ++ ownCall s.calls p
  got : ∀ p, ownBytes s.delivered p = ownReceived s.received p
  written : ∀ w ∈ s.written, WriteRight w
  received : ∀ r ∈ s.received, ReadRight r
  freed : s.freed = if s.pipe.readopen = false ∧ s.pipe.writeopen = false then 1 else 0
  /-- A call that is going on has its end of the pipe open. -/
  used : ∀ p call, s.calls p = some call → isOpen s.pipe call.write = true

/-! ## The invariant -/

/-- A call has put in the first `i` bytes. -/
def Progress (call : Call) : Prop :=
  call.i ≤ call.args.count ∧
    call.sent = if call.write then load call.args.mem call.args.addr call.i else []

structure Inv (s : State P) (bytes : List Byte) : Prop where
  holds : Holds s.pipe bytes
  fifo : stream s.accepted = stream s.delivered ++ bytes
  sent : ∀ p, ownBytes s.accepted p = ownWritten s.written p ++ ownCall s.calls p
  got : ∀ p, ownBytes s.delivered p = ownReceived s.received p
  written : ∀ w ∈ s.written, WriteRight w
  received : ∀ r ∈ s.received, ReadRight r
  freed : s.freed = if s.pipe.readopen = false ∧ s.pipe.writeopen = false then 1 else 0
  calls : ∀ p call, s.calls p = some call → isOpen s.pipe call.write = true ∧ Progress call

theorem Inv.lossless {s : State P} {bytes : List Byte} (inv : Inv s bytes) : Lossless s where
  bounds := by
    rw [inv.holds.size]
    exact inv.holds.fits
  fifo := by
    rw [inv.holds.size, inv.holds.cells]
    exact inv.fifo
  sent := inv.sent
  got := inv.got
  written := inv.written
  received := inv.received
  freed := inv.freed
  used := fun p call going => (inv.calls p call going).1

end Property

/-! ## Histories -/

theorem stream_append (pieces : List (Piece P)) (piece : Piece P) :
    stream (pieces ++ [piece]) = stream pieces ++ piece.bytes := by
  simp [stream]

section Histories
variable [DecidableEq P] (p q : P)

theorem ownBytes_append (pieces : List (Piece P)) (bytes : List Byte) :
    ownBytes (pieces ++ [⟨p, bytes⟩]) q = ownBytes pieces q ++ if p = q then bytes else [] := by
  unfold ownBytes
  by_cases same : p = q
  · simp [same, stream]
  · simp [same, stream]

theorem ownWritten_append (written : List (Written P)) (w : Written P) :
    ownWritten (written ++ [w]) q =
      ownWritten written q ++ if w.owner = q then w.sent else [] := by
  unfold ownWritten
  by_cases same : w.owner = q
  · simp [same]
  · simp [same]

theorem ownReceived_append (received : List (Received P)) (r : Received P) :
    ownReceived (received ++ [r]) q =
      ownReceived received q ++ if r.owner = q then r.bytes else [] := by
  unfold ownReceived
  by_cases same : r.owner = q
  · simp [same]
  · simp [same]

theorem ownCall_update (calls : P → Option Call) (call : Option Call) :
    ownCall (Function.update calls p call) q =
      if p = q then (call.map Call.sent).getD [] else ownCall calls q := by
  unfold ownCall
  by_cases same : p = q
  · subst same
    rw [Function.update_self, if_pos rfl]
    cases call with
    | none => rfl
    | some call => rfl
  · rw [Function.update_of_ne (Ne.symm same), if_neg same]

end Histories

/-! ## Calls that are only woken -/

/-- The calls are the same but for `asleep`. -/
def Woken (calls calls' : P → Option Call) : Prop :=
  ∀ p, calls' p = calls p ∨
    ∃ call, calls p = some call ∧ calls' p = some { call with asleep := false }

theorem Woken.refl (calls : P → Option Call) : Woken calls calls := fun _ => Or.inl rfl

theorem woken_wakeup (write : Bool) (calls : P → Option Call) :
    Woken calls (wakeup write calls) := by
  intro p
  unfold wakeup
  cases going : calls p with
  | none => exact Or.inl rfl
  | some call =>
      by_cases side : call.write = write
      · exact Or.inr ⟨call, rfl, congrArg some (if_pos side)⟩
      · exact Or.inl (congrArg some (if_neg side))

theorem Woken.ownCall {calls calls' : P → Option Call} (woken : Woken calls calls') (p : P) :
    ownCall calls' p = ownCall calls p := by
  unfold PipeStreams.ownCall
  rcases woken p with same | ⟨call, going, woken⟩
  · rw [same]
  · rw [going, woken]

theorem Woken.keeps {calls calls' : P → Option Call} {good : Call → Prop}
    (woken : Woken calls calls') (blind : ∀ call, good call → good { call with asleep := false })
    (all : ∀ p call, calls p = some call → good call) :
    ∀ p call, calls' p = some call → good call := by
  intro p call going
  rcases woken p with same | ⟨old, was, now⟩
  · exact all p call (same ▸ going)
  · cases now.symm.trans going
    exact blind old (all p old was)

section
variable [DecidableEq P]

theorem woken_kill (calls : P → Option Call) (p : P) :
    Woken calls (Function.update calls p
      ((calls p).map fun call => { call with asleep := false })) := by
  intro q
  by_cases same : q = p
  · subst same
    rw [Function.update_self]
    cases going : calls q with
    | none => exact Or.inl rfl
    | some call => exact Or.inr ⟨call, rfl, rfl⟩
  · exact Or.inl (Function.update_of_ne same _ _)

theorem keeps_update {calls : P → Option Call} {good : Call → Prop} {p : P}
    {call : Option Call} (all : ∀ q old, calls q = some old → good old)
    (new : ∀ now, call = some now → good now) :
    ∀ q now, Function.update calls p call q = some now → good now := by
  intro q now going
  by_cases same : q = p
  · subst same
    rw [Function.update_self] at going
    exact new now going
  · rw [Function.update_of_ne same] at going
    exact all q now going

end

/-! ## A stretch of pipewrite() -/

section Write
variable [DecidableEq P] {s s' : State P} {bytes : List Byte} {p : P} {args : Args} {i k : Nat}
  {sent : List Byte}

theorem ownWritten_concat (written : List (Written P)) (w : List (Written P)) (q : P) :
    ownWritten (written ++ w) q = ownWritten written q ++ ownWritten w q := by
  simp [ownWritten]

theorem Inv.stored {pipe : Pipe} {calls : P → Option Call} {call : Option Call}
    {written : List (Written P)} (inv : Inv s bytes)
    (stored : Stored s p args i k sent pipe calls call written s')
    (after : Holds pipe (bytes ++ load args.mem (args.addr + BitVec.ofNat 32 i) k))
    (ends : SameEnds s.pipe pipe) (woken : Woken s.calls calls)
    (own : ownCall s.calls p = sent)
    (mine : ownWritten written p ++ (call.map Call.sent).getD [] =
      sent ++ load args.mem (args.addr + BitVec.ofNat 32 i) k)
    (others : ∀ q, p ≠ q → ownWritten written q = [])
    (right : ∀ w ∈ written, WriteRight w)
    (going : ∀ now, call = some now → isOpen s.pipe now.write = true ∧ Progress now) :
    Inv s' (bytes ++ load args.mem (args.addr + BitVec.ofNat 32 i) k) := by
  have sameOpen : ∀ write, isOpen pipe write = isOpen s.pipe write := by
    intro write
    simp only [isOpen, ends.readopen, ends.writeopen]
  constructor
  case holds =>
    rw [stored.pipe]
    exact after
  case fifo =>
    rw [stored.accepted, stored.delivered, stream_append, inv.fifo, List.append_assoc]
  case sent =>
    intro q
    rw [stored.accepted, stored.written, stored.calls, ownBytes_append, ownWritten_concat,
      ownCall_update, inv.sent q]
    by_cases same : p = q
    · subst same
      rw [if_pos rfl, if_pos rfl, own, List.append_assoc, List.append_assoc, mine]
    · rw [if_neg same, if_neg same, woken.ownCall q, others q same, List.append_nil,
        List.append_nil]
  case got =>
    rw [stored.delivered, stored.received]
    exact inv.got
  case written =>
    intro w member
    rw [stored.written] at member
    rcases List.mem_append.mp member with old | new
    · exact inv.written w old
    · exact right w new
  case received =>
    rw [stored.received]
    exact inv.received
  case freed =>
    rw [stored.freed, stored.pipe, ends.readopen, ends.writeopen]
    exact inv.freed
  case calls =>
    rw [stored.calls, stored.pipe]
    simp only [sameOpen]
    exact keeps_update (woken.keeps (fun _ good => good) inv.calls) going

theorem ownWritten_single (w : Written P) (q : P) :
    ownWritten [w] q = if w.owner = q then w.sent else [] := by
  have appended := ownWritten_append q [] w
  simpa [ownWritten] using appended

/-- A call that fails has had something to write. -/
theorem ret_ne (few : k < args.count - i) : (-1 : Word) ≠ args.n := by
  intro same
  have none : args.count = 0 := by
    rw [Args.count, ← same]
    rfl
  omega

theorem writeTurn_inv (inv : Inv s bytes) (open_ : isOpen s.pipe true = true)
    (started : i ≤ args.count) (first : sent = load args.mem args.addr i)
    (own : ownCall s.calls p = sent) : ∃ bytes', Inv (writeTurn s p args i sent) bytes' := by
  obtain ⟨k, pipe, few, after, ends, ended⟩ := writeTurn_ends p args i sent inv.holds
  have bytesOf : sent ++ load args.mem (args.addr + BitVec.ofNat 32 i) k =
      load args.mem args.addr (i + k) := by
    rw [first, load_append]
  have others : ∀ (ret : Word) (all : List Byte) (q : P), p ≠ q →
      ownWritten [(⟨p, args, ret, all⟩ : Written P)] q = [] := by
    intro ret all q other
    rw [ownWritten_single]
    exact if_neg other
  have mine : ∀ (ret : Word) (all : List Byte),
      ownWritten [(⟨p, args, ret, all⟩ : Written P)] p ++
        ((none : Option Call).map Call.sent).getD [] = all := by
    intro ret all
    rw [ownWritten_single, if_pos rfl]
    exact List.append_nil all
  have none : ∀ now, (none : Option Call) = some now →
      isOpen s.pipe now.write = true ∧ Progress now := fun _ impossible => by cases impossible
  rcases ended with ⟨all, stored⟩ | ⟨less, _, _, stored⟩ | ⟨less, _, _, stored⟩
  · refine ⟨_, inv.stored stored after ends (woken_wakeup false s.calls) own (mine _ _)
      (others _ _) ?_ none⟩
    intro w member
    cases List.mem_singleton.mp member
    have whole : i + k = args.count := by omega
    exact ⟨fun _ => whole ▸ bytesOf, i + k, Nat.le_of_eq whole, bytesOf⟩
  · refine ⟨_, inv.stored stored after ends (Woken.refl s.calls) own (mine _ _)
      (others _ _) ?_ none⟩
    intro w member
    cases List.mem_singleton.mp member
    have part : i + k ≤ args.count := by omega
    exact ⟨fun same => absurd same (ret_ne less), i + k, part, bytesOf⟩
  · refine ⟨_, inv.stored stored after ends (woken_wakeup false s.calls) own rfl
      (fun _ _ => rfl) (fun _ member => absurd member List.not_mem_nil) ?_⟩
    intro now same
    cases same
    have part : i + k ≤ args.count := by omega
    exact ⟨open_, part, bytesOf⟩

end Write

/-! ## A stretch of piperead() -/

section Read
variable {s s' : State P} {bytes rest first : List Byte} {p : P} {args : Args}

/-- What a piperead() that does not wait returns. -/
theorem readRight_taken {pipe : Pipe} (holds : Holds s.pipe bytes)
    (after : Holds pipe (bytes.drop args.count)) (ends : SameEnds s.pipe pipe)
    (goes : ¬ (bytes = [] ∧ s.pipe.writeopen = true)) :
    ReadRight (⟨p, args, BitVec.ofNat 32 (bytes.take args.count).length,
      overlay args.mem args.addr (bytes.take args.count), bytes.take args.count, pipe⟩ :
      Received P) := by
  have fits := holds.fits
  have length : (bytes.take args.count).length ≤ PIPESIZE :=
    (List.length_take_le' args.count bytes).trans fits
  have value : (BitVec.ofNat 32 (bytes.take args.count).length).toNat =
      (bytes.take args.count).length :=
    (BitVec.toNat_ofNat ..).trans (Nat.mod_eq_of_lt (Nat.lt_of_le_of_lt length (by decide)))
  constructor
  case count => exact fun _ => ⟨rfl, List.length_take_le args.count bytes⟩
  case failed =>
    intro failed
    have top := (congrArg BitVec.toNat failed).symm.trans value
    have large : (-1 : Word).toNat = 4294967295 := by decide
    rw [large] at top
    unfold PIPESIZE at length
    omega
  case stored => rfl
  case zero =>
    intro zero some
    have none : (bytes.take args.count).length = 0 := by
      rw [← value]
      exact congrArg BitVec.toNat zero
    have count : 0 < args.count := by
      have positive : 0 < args.n.toInt := some
      unfold Args.count
      omega
    have empty : bytes = [] := by
      rw [List.length_take] at none
      exact List.length_eq_zero_iff.mp (by omega)
    rw [empty, List.drop_nil] at after
    refine ⟨after.empty_iff.mpr rfl, ?_⟩
    show pipe.writeopen = false
    rw [ends.writeopen]
    exact Bool.eq_false_iff.mpr fun open_ => goes ⟨empty, open_⟩

variable [DecidableEq P]

theorem Inv.taken {pipe : Pipe} {calls : P → Option Call} {call : Option Call}
    {received : List (Received P)} (inv : Inv s (first ++ rest))
    (took : Taken s p first pipe calls call received s')
    (after : Holds pipe rest) (ends : SameEnds s.pipe pipe) (woken : Woken s.calls calls)
    (own : ownCall s.calls p = []) (silent : (call.map Call.sent).getD [] = [])
    (bytesOf : ∀ q, ownReceived received q = if p = q then first else [])
    (right : ∀ r ∈ received, ReadRight r)
    (going : ∀ now, call = some now → isOpen s.pipe now.write = true ∧ Progress now) :
    Inv s' rest := by
  have sameOpen : ∀ write, isOpen pipe write = isOpen s.pipe write := by
    intro write
    simp only [isOpen, ends.readopen, ends.writeopen]
  constructor
  case holds =>
    rw [took.pipe]
    exact after
  case fifo =>
    rw [took.accepted, took.delivered, stream_append, inv.fifo, List.append_assoc]
  case sent =>
    intro q
    rw [took.accepted, took.written, took.calls, ownCall_update, inv.sent q]
    by_cases same : p = q
    · subst same
      rw [if_pos rfl, own, silent]
    · rw [if_neg same, woken.ownCall q]
  case got =>
    intro q
    rw [took.delivered, took.received, ownBytes_append, inv.got q]
    have appended : ownReceived (s.received ++ received) q =
        ownReceived s.received q ++ ownReceived received q := by
      simp [ownReceived]
    rw [appended, bytesOf q]
  case written =>
    rw [took.written]
    exact inv.written
  case received =>
    intro r member
    rw [took.received] at member
    rcases List.mem_append.mp member with old | new
    · exact inv.received r old
    · exact right r new
  case freed =>
    rw [took.freed, took.pipe, ends.readopen, ends.writeopen]
    exact inv.freed
  case calls =>
    rw [took.calls, took.pipe]
    simp only [sameOpen]
    exact keeps_update (woken.keeps (fun _ good => good) inv.calls) going

theorem ownReceived_single (r : Received P) (q : P) :
    ownReceived [r] q = if r.owner = q then r.bytes else [] := by
  have appended := ownReceived_append q [] r
  simpa [ownReceived] using appended

theorem readTurn_inv (inv : Inv s bytes) (open_ : isOpen s.pipe false = true)
    (own : ownCall s.calls p = []) : ∃ bytes', Inv (readTurn s p args) bytes' := by
  have none : ∀ now, (none : Option Call) = some now →
      isOpen s.pipe now.write = true ∧ Progress now := fun _ impossible => by cases impossible
  have same : SameEnds s.pipe s.pipe := ⟨rfl, rfl⟩
  rcases readTurn_ends p args inv.holds with
    ⟨empty, _, _, took⟩ | ⟨empty, _, _, took⟩ | ⟨goes, pipe, after, ends, took⟩
  · refine ⟨bytes, inv.taken took inv.holds same (Woken.refl s.calls) own rfl
      (fun q => ?_) ?_ none⟩
    · rw [ownReceived_single]
    · intro r member
      cases List.mem_singleton.mp member
      exact ⟨fun failed => absurd rfl failed, fun _ => rfl, (overlay_nil _ _).symm,
        fun zero => by cases zero⟩
  · refine ⟨bytes, inv.taken took inv.holds same (Woken.refl s.calls) own rfl
      (fun q => ?_) (fun _ member => absurd member List.not_mem_nil) ?_⟩
    · rw [ite_self]
      rfl
    · intro now same
      cases same
      exact ⟨open_, Nat.zero_le _, rfl⟩
  · have split : Inv s (bytes.take args.count ++ bytes.drop args.count) := by
      rwa [List.take_append_drop]
    refine ⟨bytes.drop args.count, split.taken took after ends (woken_wakeup true s.calls) own rfl
      (fun q => ?_) ?_ none⟩
    · rw [ownReceived_single]
    · intro r member
      cases List.mem_singleton.mp member
      exact readRight_taken inv.holds after ends goes

end Read

/-! ## Steps and runs -/

section Steps
variable [DecidableEq P] {s : State P} {bytes : List Byte}

theorem turn_inv (inv : Inv s bytes) (p : P) {call : Call}
    (open_ : isOpen s.pipe call.write = true) (progress : Progress call)
    (own : ownCall s.calls p = call.sent) :
    ∃ bytes', Inv (turn s p call.write call.args call.i call.sent) bytes' := by
  obtain ⟨started, sent⟩ := progress
  unfold turn
  cases side : call.write with
  | true =>
      rw [side, if_pos rfl] at sent
      rw [side] at open_
      exact writeTurn_inv inv open_ started sent own
  | false =>
      rw [side, if_neg Bool.false_ne_true] at sent
      rw [side] at open_
      exact readTurn_inv inv open_ (own.trans sent)

theorem kill_inv (inv : Inv s bytes) (p : P) : Inv (kill s p) bytes where
  holds := inv.holds
  fifo := inv.fifo
  sent := by
    intro q
    exact (inv.sent q).trans (congrArg (_ ++ ·) ((woken_kill s.calls p).ownCall q).symm)
  got := inv.got
  written := inv.written
  received := inv.received
  freed := inv.freed
  calls := (woken_kill s.calls p).keeps (fun _ good => good) inv.calls

theorem pipeclose_holds {pipe : Pipe} (holds : Holds pipe bytes) (writable : Bool) :
    Holds (pipe.pipeclose writable) bytes := by
  unfold Pipe.pipeclose
  split
  · exact ⟨holds.fits, holds.nwrite, holds.cells⟩
  · exact ⟨holds.fits, holds.nwrite, holds.cells⟩

/-- The other end stays as it is. -/
theorem pipeclose_open (pipe : Pipe) {writable write : Bool} (other : write ≠ writable) :
    isOpen (pipe.pipeclose writable) write = isOpen pipe write := by
  cases writable with
  | true =>
      cases write with
      | true => exact absurd rfl other
      | false => rfl
  | false =>
      cases write with
      | true => rfl
      | false => exact absurd rfl other

theorem close_inv [Fintype P] (inv : Inv s bytes) {writable : Bool}
    (open_ : isOpen s.pipe writable = true) (quiet : idle s writable) :
    Inv (close s writable) bytes where
  holds := pipeclose_holds inv.holds writable
  fifo := inv.fifo
  sent := by
    intro q
    have same := (woken_wakeup (!writable) s.calls).ownCall q
    exact (inv.sent q).trans (congrArg (_ ++ ·) same.symm)
  got := inv.got
  written := inv.written
  received := inv.received
  freed := by
    have before : s.freed = 0 := by
      rw [inv.freed]
      refine if_neg fun closed => ?_
      cases writable with
      | true => cases closed.2.symm.trans open_
      | false => cases closed.1.symm.trans open_
    unfold close
    dsimp only
    rw [before]
  calls := by
    have others : ∀ p call, s.calls p = some call →
        isOpen (s.pipe.pipeclose writable) call.write = true ∧ Progress call := by
      intro p call going
      obtain ⟨own, progress⟩ := inv.calls p call going
      rw [pipeclose_open s.pipe (quiet p call going)]
      exact ⟨own, progress⟩
    exact (woken_wakeup (!writable) s.calls).keeps (fun _ good => good) others

theorem step_inv [Fintype P] (s : State P) (e : Event P) (next : State P)
    (holds : ∃ bytes, Inv s bytes) (taken : step s e = some next) : ∃ bytes, Inv next bytes := by
  obtain ⟨bytes, inv⟩ := holds
  cases e with
  | call p write args =>
      cases going : s.calls p with
      | some call => simp [step, going] at taken
      | none =>
          simp only [step, going, Option.ite_none_right_eq_some, Option.some.injEq] at taken
          obtain ⟨open_, rfl⟩ := taken
          have nothing : ownCall s.calls p = [] := by
            unfold ownCall
            rw [going]
          have first : Progress ⟨write, args, 0, false, []⟩ := by
            refine ⟨Nat.zero_le _, ?_⟩
            cases write
            all_goals rfl
          exact @turn_inv _ _ _ _ inv p ⟨write, args, 0, false, []⟩ open_ first nothing
  | resume p =>
      cases going : s.calls p with
      | none => simp [step, going] at taken
      | some call =>
          simp only [step, going, Option.ite_none_left_eq_some, Option.some.injEq] at taken
          obtain ⟨_, rfl⟩ := taken
          obtain ⟨open_, progress⟩ := inv.calls p call going
          have own : ownCall s.calls p = call.sent := by
            unfold ownCall
            rw [going]
          exact turn_inv inv p open_ progress own
  | kill p =>
      cases taken
      exact ⟨bytes, kill_inv inv p⟩
  | close writable =>
      simp only [step, Option.ite_none_right_eq_some, Option.some.injEq] at taken
      obtain ⟨⟨open_, quiet⟩, rfl⟩ := taken
      exact ⟨bytes, close_inv inv open_ quiet⟩

theorem start_inv (pipe : Pipe) : Inv (start pipe : State P) [] where
  holds := ⟨Nat.zero_le _, rfl, rfl⟩
  fifo := rfl
  sent := fun _ => rfl
  got := fun _ => rfl
  written := fun _ member => absurd member List.not_mem_nil
  received := fun _ member => absurd member List.not_mem_nil
  freed := rfl
  calls := fun _ _ going => by cases going

/-- However the calls of the processes on a pipe interleave, it is a lossless channel all
along. -/
theorem pipe_lossless [Fintype P] (pipe : Pipe) (es : List (Event P)) :
    Always step Lossless (start pipe : State P) es :=
  always_of_invariant step (fun _ holds => holds.elim fun _ inv => inv.lossless) step_inv es _
    ⟨[], start_inv pipe⟩

end Steps

end Xv6.Public1.PipeStreams
