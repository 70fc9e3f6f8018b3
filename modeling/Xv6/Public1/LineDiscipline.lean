import Xv6.Common.Console
import Xv6.Lib.Ring
import Xv6.Lib.Runs

/-!
# The console line discipline (xv6-public_1)

consoleintr() and consoleread() on the input ring.  A consoleread() holds cons.lock from
its entry, or from its return from sleep(), to its next sleep() or its return; a call that
sleeps can have taken characters already, when a full buffer was committed.  `editor` is the
reference line editor, driven by the same characters, and `log` the history of what the
calls have taken.
-/

set_option autoImplicit false

namespace Xv6.Public1.LineDiscipline

open Xv6.Common
open Xv6.Lib.Runs
open Xv6.Lib.Words

/-! ## The code -/

/-- The switch of consoleintr(). -/
def consoleKey (input : Input) (c : Byte) : Input :=
  if c = C 'P' then input else input.edit c

/-- consoleintr() when getc() yields these characters and then -1. -/
def consoleintr (input : Input) (chars : List Byte) : Input := chars.foldl consoleKey input

/-- The variables of a consoleread(). -/
structure Call where
  target : Int
  n : Int
  dst : List Byte

inductive Stop where
  | returns
  /-- `input.r == input.w` -/
  | nothing
  deriving DecidableEq

/-- A turn of the loop of consoleread(), with at most so many characters. -/
def readLoop : Nat → Input → Call → Stop × Input × Call
  | 0, input, call => if call.n > 0 then (.nothing, input, call) else (.returns, input, call)
  | left + 1, input, call =>
      if call.n > 0 then
        if input.r = input.w then (.nothing, input, call)
        else
          let c := input.buf (Input.index input.r)
          let input := { input with r := input.r + 1 }
          if c = C 'D' then
            (.returns, if call.n < call.target then { input with r := input.r - 1 } else input,
              call)
          else
            let call := { call with dst := call.dst ++ [c], n := call.n - 1 }
            if c = newline then (.returns, input, call) else readLoop left input call
      else (.returns, input, call)

/-- The loop stops at `w` at the latest. -/
def consoleread (input : Input) (call : Call) : Stop × Input × Call :=
  readLoop (input.w - input.r).toNat input call

/-- `n` is an argument of read(). -/
def consolereadStart (n : Int) : Call := ⟨n, n, []⟩

/-! ## The reference line editor -/

/-- All that has been committed, and the line that is being edited. -/
structure Editor where
  stream : List Byte
  line : List Byte

namespace Editor

/-- The characters that no call has taken, when `taken` of the stream have been. -/
def unread (taken : Nat) (ed : Editor) : Nat := ed.stream.length - taken + ed.line.length

def commit (ed : Editor) : Editor := ⟨ed.stream ++ ed.line, []⟩

def append (taken : Nat) (ed : Editor) (c : Byte) : Editor :=
  let ed := { ed with line := ed.line ++ [c] }
  if c = newline ∨ c = C 'D' ∨ ed.unread taken = INPUT_BUF then ed.commit else ed

/-- A character that is typed. -/
def key (taken : Nat) (ed : Editor) (c : Byte) : Editor :=
  if c = C 'P' then ed
  else if c = C 'U' then { ed with line := [] }
  else if c = C 'H' ∨ c = delete then { ed with line := ed.line.dropLast }
  else if c ≠ 0 ∧ ed.unread taken < INPUT_BUF then ed.append taken (Input.translate c)
  else ed

end Editor

/-! ## Runs -/

section System
variable {P : Type}

/-- What a call has taken in one turn. -/
structure Piece (P : Type) where
  reader : P
  chars : List Byte

/-- A call that sleeps, with what it has taken from the ring. -/
structure Reading where
  call : Call
  raw : List Byte

structure Result (P : Type) where
  reader : P
  target : Int
  ret : Int
  dst : List Byte
  raw : List Byte
  /-- The number of characters taken by all calls up to the return. -/
  upTo : Nat

structure State (P : Type) where
  input : Input
  calls : P → Option Reading
  results : List (Result P)
  log : List (Piece P)
  editor : Editor

inductive Event (P : Type) where
  | intr (chars : List Byte)
  /-- A consoleread() begins; `killed` is what it finds if it has to wait. -/
  | read (p : P) (n : Int) (killed : Bool)
  /-- A sleeping call goes on. -/
  | resume (p : P) (killed : Bool)

def taken (log : List (Piece P)) : List Byte := log.flatMap Piece.chars

/-- The cells that `r` has gone over. -/
def passed (before after : Input) : List Byte :=
  Lib.Ring.slice (Nat.succ_pos 127) before.buf before.r (after.r - before.r).toNat

variable [DecidableEq P]

/-- A turn of the call of `p`. -/
def turn (s : State P) (p : P) (reading : Reading) (killed : Bool) : State P :=
  let (stop, input, call) := consoleread s.input reading.call
  let chars := passed s.input input
  let log := s.log ++ [⟨p, chars⟩]
  let raw := reading.raw ++ chars
  if stop = .nothing ∧ killed = false then
    { s with input := input, log := log, calls := Function.update s.calls p (some ⟨call, raw⟩) }
  else
    let ret := if stop = .nothing then -1 else call.target - call.n
    let result := ⟨p, call.target, ret, call.dst, raw, (taken log).length⟩
    { s with
      input := input
      log := log
      calls := Function.update s.calls p none
      results := s.results ++ [result] }

def step (s : State P) : Event P → Option (State P)
  | .intr chars =>
      some { s with
        input := consoleintr s.input chars
        editor := chars.foldl (Editor.key (taken s.log).length) s.editor }
  | .read p n killed =>
      match s.calls p with
      | none => some (turn s p ⟨consolereadStart n, []⟩ killed)
      | some _ => none
  | .resume p killed =>
      match s.calls p with
      | none => none
      | some reading => some (turn s p reading killed)

/-- Nothing typed and nobody reading, with the indices anywhere. -/
def start (buf : Fin INPUT_BUF → Byte) (i : Word) : State P where
  input := ⟨buf, i, i, i⟩
  calls := fun _ => none
  results := []
  log := []
  editor := ⟨[], []⟩

/-! ## The property -/

/-- A call that did not return -1: it has taken what it returns, or one Ctrl-D and nothing
else, and it stops only where a read may stop. -/
structure Cut (stream : List Byte) (r : Result P) : Prop where
  count : r.ret = r.dst.length
  size : (r.dst.length : Int) ≤ max 0 r.target
  raw : r.raw = r.dst ∨ r.dst = [] ∧ r.raw = [C 'D']
  plain : C 'D' ∉ r.dst
  lines : newline ∉ r.dst.dropLast
  ends : r.raw = [C 'D'] ∨ r.target ≤ r.dst.length ∨ r.dst.getLast? = some newline ∨
    r.dst ≠ [] ∧ stream[r.upTo]? = some (C 'D')

def ownPieces (s : State P) (p : P) : List Byte :=
  (s.log.filter fun piece => decide (piece.reader = p)).flatMap Piece.chars

def ownResults (s : State P) (p : P) : List Byte :=
  (s.results.filter fun result => decide (result.reader = p)).flatMap Result.raw

def ownCall (s : State P) (p : P) : List Byte :=
  match s.calls p with
  | none => []
  | some reading => reading.raw

structure Disciplined (s : State P) : Prop where
  inOrder : (s.input.w - s.input.r).toNat ≤ (s.input.e - s.input.r).toNat
  room : (s.input.e - s.input.r).toNat ≤ INPUT_BUF
  /-- What is committed and unread is still there, and so is the line. -/
  kept : Lib.Ring.slice (Nat.succ_pos 127) s.input.buf s.input.r
      (s.input.w - s.input.r).toNat = s.editor.stream.drop (taken s.log).length
  line : Lib.Ring.slice (Nat.succ_pos 127) s.input.buf s.input.w
      (s.input.e - s.input.w).toNat = s.editor.line
  delivered : taken s.log <+: s.editor.stream
  pieces : ∀ p, ownPieces s p = ownResults s p ++ ownCall s p
  cut : ∀ r ∈ s.results, r.ret ≠ -1 → Cut s.editor.stream r
  killed : ∀ r ∈ s.results, r.ret = -1 → C 'D' ∉ r.raw

/-- The call that an event lets go on. -/
def reads (s : State P) : Event P → Option Reading
  | .intr _ => none
  | .read p n _ =>
      match s.calls p with
      | none => some ⟨consolereadStart n, []⟩
      | some _ => none
  | .resume p _ => s.calls p

/-- No call takes characters and then finds nothing more where it may not stop. -/
def Unsplit (s : State P) (e : Event P) : Prop :=
  ∀ reading ∈ reads s e, (consoleread s.input reading.call).1 = .nothing →
    (consoleread s.input reading.call).2.2.dst = reading.call.dst

/-- The calls that did not return -1 have taken all, in the order of their returns. -/
def Whole (s : State P) : Prop :=
  (s.results.filter fun r => decide (r.ret ≠ -1)).flatMap Result.raw = taken s.log

end System

/-! ## The ring and the editor -/

theorem divides : INPUT_BUF ∣ 2 ^ 32 := ⟨2 ^ 25, rfl⟩

abbrev slice (input : Input) (from_ : Word) (len : Nat) : List Byte :=
  Lib.Ring.slice (Nat.succ_pos 127) input.buf from_ len

/-- The ring holds these characters, the first of them committed. -/
structure Holds (input : Input) (pending line : List Byte) : Prop where
  fits : pending.length + line.length ≤ INPUT_BUF
  w : input.w = input.r + BitVec.ofNat 32 pending.length
  e : input.e = input.r + BitVec.ofNat 32 (pending.length + line.length)
  cells : slice input input.r (pending.length + line.length) = pending ++ line
  oneLine : newline ∉ line

section Editing
variable {input : Input} {pending line : List Byte}

theorem Holds.small (holds : Holds input pending line) :
    pending.length + line.length < 2 ^ 32 :=
  Nat.lt_of_le_of_lt holds.fits (by decide)

theorem Holds.unread (holds : Holds input pending line) :
    input.unread = pending.length + line.length := by
  rw [Input.unread, holds.e, Lib.Ring.sub_start input.r holds.small]

theorem Holds.edge (holds : Holds input pending line) :
    input.e = input.w + BitVec.ofNat 32 line.length := by
  rw [holds.e, holds.w, BitVec.ofNat_add, BitVec.add_assoc]

theorem Holds.edge_iff (holds : Holds input pending line) : input.e = input.w ↔ line = [] := by
  have small := holds.small
  rw [holds.edge, Lib.Ring.add_eq_self_iff input.w (by omega), List.length_eq_zero_iff]

/-- One character less in the line. -/
theorem Holds.erase (holds : Holds input pending line) (some : line ≠ []) :
    Holds { input with e := input.e - 1 } pending line.dropLast ∧
      input.buf (Input.index (input.e - 1)) = line.getLast some := by
  obtain ⟨before, last, rfl⟩ : ∃ before last, line = before ++ [last] :=
    ⟨line.dropLast, line.getLast some, (List.dropLast_concat_getLast some).symm⟩
  have fits := holds.fits
  have e := holds.e
  have cells := holds.cells
  simp only [List.length_append, List.length_singleton, ← Nat.add_assoc] at fits e cells
  have back : input.e - 1 = input.r + BitVec.ofNat 32 (pending.length + before.length) := by
    rw [e, BitVec.ofNat_add, ← BitVec.add_assoc]
    exact BitVec.add_sub_cancel _ _
  rw [slice, Lib.Ring.slice_succ, ← List.append_assoc] at cells
  obtain ⟨rest, lastCell⟩ := List.append_inj' cells rfl
  rw [List.dropLast_concat, List.getLast_concat, back]
  constructor
  · constructor
    case fits => omega
    case w => exact holds.w
    case e => rfl
    case cells => exact rest
    case oneLine => exact fun member => holds.oneLine (List.mem_append_left _ member)
  · exact List.head_eq_of_cons_eq lastCell

theorem backspace_holds (holds : Holds input pending line) :
    Holds input.backspace pending line.dropLast := by
  unfold Input.backspace
  by_cases none : line = []
  · rw [if_neg (not_not.mpr (holds.edge_iff.mpr none)), none, List.dropLast_nil]
    exact none ▸ holds
  · rw [if_pos fun edge => none (holds.edge_iff.mp edge)]
    exact (holds.erase none).1

theorem killLineLoop_holds (left : Nat) (holds : Holds input pending line)
    (enough : line.length ≤ left) : Holds (Input.killLineLoop left input) pending [] := by
  induction left generalizing input line with
  | zero =>
      have none : line = [] := List.length_eq_zero_iff.mp (Nat.le_zero.mp enough)
      exact none ▸ holds
  | succ left ih =>
      unfold Input.killLineLoop
      by_cases none : line = []
      · rw [if_neg fun both => both.1 (holds.edge_iff.mpr none)]
        exact none ▸ holds
      · obtain ⟨erased, last⟩ := holds.erase none
        have other : line.getLast none ≠ newline := fun same =>
          holds.oneLine (same ▸ List.getLast_mem none)
        rw [if_pos ⟨fun edge => none (holds.edge_iff.mp edge), last ▸ other⟩]
        exact ih erased (by rw [List.length_dropLast]; omega)

theorem killLine_holds (holds : Holds input pending line) : Holds input.killLine pending [] := by
  have small := holds.small
  refine killLineLoop_holds _ holds ?_
  rw [holds.edge, Lib.Ring.sub_start input.w (by omega)]

/-- A character is stored behind the line. -/
theorem store_cells (holds : Holds input pending line)
    (room : pending.length + line.length < INPUT_BUF) (c : Byte) :
    slice (input.store c) input.r (pending.length + line.length + 1) =
      pending ++ (line ++ [c]) := by
  have stored : (input.store c).buf =
      Function.update input.buf (Lib.Ring.cell (Nat.succ_pos 127)
        (input.r + BitVec.ofNat 32 (pending.length + line.length))) c := by
    rw [← holds.e]
    rfl
  rw [slice, stored, Lib.Ring.slice_succ,
    Lib.Ring.slice_update _ _ _ divides (Nat.le_refl _) room, Function.update_self,
    ← List.append_assoc]
  exact congrArg (· ++ [c]) holds.cells

theorem store_edge (holds : Holds input pending line) (c : Byte) :
    (input.store c).e = input.r + BitVec.ofNat 32 (pending.length + line.length + 1) := by
  rw [BitVec.ofNat_add, ← BitVec.add_assoc, ← holds.e]
  rfl

theorem completes_iff (holds : Holds input pending line)
    (room : pending.length + line.length < INPUT_BUF) (c : Byte) :
    (input.store c).completes c ↔
      c = newline ∨ c = C 'D' ∨ pending.length + line.length + 1 = INPUT_BUF := by
  refine or_congr Iff.rfl (or_congr Iff.rfl ?_)
  rw [store_edge holds]
  exact Lib.Ring.add_inj input.r (Nat.lt_of_le_of_lt room (by decide)) (by decide)

/-- A character that stays in the line. -/
theorem store_line (holds : Holds input pending line)
    (room : pending.length + line.length < INPUT_BUF) {c : Byte} (other : c ≠ newline) :
    Holds (input.store c) pending (line ++ [c]) where
  fits := by
    rw [List.length_append, List.length_singleton]
    exact room
  w := holds.w
  e := by
    rw [List.length_append, List.length_singleton]
    exact store_edge holds c
  cells := by
    rw [List.length_append, List.length_singleton]
    exact store_cells holds room c
  oneLine := by
    intro member
    rcases List.mem_append.mp member with old | new
    · exact holds.oneLine old
    · exact other (List.mem_singleton.mp new).symm

/-- A character that commits the line. -/
theorem store_commit (holds : Holds input pending line)
    (room : pending.length + line.length < INPUT_BUF) (c : Byte) :
    Holds { input.store c with w := (input.store c).e } (pending ++ (line ++ [c])) [] := by
  have length : (pending ++ (line ++ [c])).length = pending.length + line.length + 1 := by
    simp only [List.length_append, List.length_singleton, Nat.add_assoc]
  constructor
  case fits =>
    rw [length]
    exact room
  case w =>
    rw [length]
    exact store_edge holds c
  case e =>
    rw [length]
    exact store_edge holds c
  case cells =>
    rw [length, List.append_nil]
    exact store_cells holds room c
  case oneLine => exact List.not_mem_nil

/-- The ring is what the editor has committed and `done` does not have, and its line. -/
def Tracks (input : Input) (done : List Byte) (ed : Editor) : Prop :=
  ∃ pending, ed.stream = done ++ pending ∧ Holds input pending ed.line

theorem unread_length {done : List Byte} {ed : Editor} (stream : ed.stream = done ++ pending) :
    ed.unread done.length = pending.length + ed.line.length := by
  rw [Editor.unread, stream, List.length_append, Nat.add_sub_cancel_left]

theorem typed_tracks {done : List Byte} {ed : Editor} (tracks : Tracks input done ed) (c : Byte) :
    Tracks (input.typed c) done
      (if c ≠ 0 ∧ ed.unread done.length < INPUT_BUF then
        ed.append done.length (Input.translate c) else ed) := by
  obtain ⟨pending, stream, holds⟩ := tracks
  have unread := unread_length stream
  unfold Input.typed
  by_cases accepted : input.accepts c
  · have notNul := accepted.1
    have room := accepted.2
    rw [holds.unread] at room
    have taken : c ≠ 0 ∧ ed.unread done.length < INPUT_BUF := by
      rw [unread]
      exact ⟨notNul, room⟩
    rw [if_pos accepted, if_pos taken]
    have completes := completes_iff holds room (Input.translate c)
    have length : (⟨ed.stream, ed.line ++ [Input.translate c]⟩ : Editor).unread done.length =
        pending.length + ed.line.length + 1 := by
      have longer := @unread_length pending done ⟨ed.stream, ed.line ++ [Input.translate c]⟩ stream
      rwa [List.length_append, List.length_singleton, ← Nat.add_assoc] at longer
    unfold Editor.append
    dsimp only
    rw [length]
    by_cases whole : (input.store (Input.translate c)).completes (Input.translate c)
    · rw [if_pos whole, if_pos (completes.mp whole)]
      refine ⟨pending ++ (ed.line ++ [Input.translate c]), ?_, store_commit holds room _⟩
      simp only [Editor.commit, stream, List.append_assoc]
    · rw [if_neg whole, if_neg fun ends => whole (completes.mpr ends)]
      have other : Input.translate c ≠ newline := fun same =>
        whole (completes.mpr (Or.inl same))
      exact ⟨pending, stream, store_line holds room other⟩
  · have refused : ¬ (c ≠ 0 ∧ ed.unread done.length < INPUT_BUF) := by
      rw [unread, ← holds.unread]
      exact accepted
    rw [if_neg accepted, if_neg refused]
    exact ⟨pending, stream, holds⟩

theorem consoleKey_tracks {done : List Byte} {ed : Editor} (tracks : Tracks input done ed)
    (c : Byte) : Tracks (consoleKey input c) done (ed.key done.length c) := by
  unfold consoleKey Editor.key Input.edit
  by_cases listing : c = C 'P'
  · rw [if_pos listing, if_pos listing]
    exact tracks
  · rw [if_neg listing, if_neg listing]
    by_cases kill : c = C 'U'
    · rw [if_pos kill, if_pos kill]
      obtain ⟨pending, stream, holds⟩ := tracks
      exact ⟨pending, stream, killLine_holds holds⟩
    · rw [if_neg kill, if_neg kill]
      by_cases erase : c = C 'H' ∨ c = delete
      · rw [if_pos erase, if_pos erase]
        obtain ⟨pending, stream, holds⟩ := tracks
        exact ⟨pending, stream, backspace_holds holds⟩
      · rw [if_neg erase, if_neg erase]
        exact typed_tracks tracks c

theorem consoleintr_tracks {done : List Byte} {ed : Editor} (tracks : Tracks input done ed)
    (chars : List Byte) :
    Tracks (consoleintr input chars) done (chars.foldl (Editor.key done.length) ed) := by
  unfold consoleintr
  induction chars generalizing input ed with
  | nil => exact tracks
  | cons c rest ih => exact ih (consoleKey_tracks tracks c)

end Editing

/-! ## Reading -/

/-- The loop of consoleread() on the list of the committed characters: what it takes. -/
def readList : List Byte → Call → Stop × List Byte × Call
  | [], call => if call.n > 0 then (.nothing, [], call) else (.returns, [], call)
  | c :: rest, call =>
      if call.n > 0 then
        if c = C 'D' then (.returns, if call.n < call.target then [] else [c], call)
        else
          let call := { call with dst := call.dst ++ [c], n := call.n - 1 }
          if c = newline then (.returns, [c], call)
          else
            let (stop, took, call) := readList rest call
            (stop, c :: took, call)
      else (.returns, [], call)

def advance (input : Input) (n : Nat) : Input := { input with r := input.r + BitVec.ofNat 32 n }

section Reading
variable {input : Input} {pending line : List Byte}

theorem readList_prefix (pending : List Byte) (call : Call) :
    (readList pending call).2.1 <+: pending := by
  induction pending generalizing call with
  | nil =>
      unfold readList
      split
      all_goals exact List.prefix_rfl
  | cons c rest ih =>
      unfold readList
      split_ifs
      · exact List.nil_prefix
      · exact List.prefix_append [c] rest
      · exact List.prefix_append [c] rest
      · exact List.cons_prefix_cons.mpr ⟨rfl, ih _⟩
      · exact List.nil_prefix

/-- The ring when `r` has gone over the first of the characters. -/
theorem Holds.advance {first rest : List Byte} (holds : Holds input (first ++ rest) line) :
    Holds (advance input first.length) rest line := by
  have fits := holds.fits
  have w := holds.w
  have e := holds.e
  have cells := holds.cells
  rw [List.length_append] at fits w e cells
  rw [Nat.add_assoc] at fits e cells
  rw [BitVec.ofNat_add, ← BitVec.add_assoc] at w e
  rw [slice, Lib.Ring.slice_add, List.append_assoc] at cells
  constructor
  case fits => omega
  case w => exact w
  case e => exact e
  case cells => exact (List.append_inj cells (Lib.Ring.slice_length _ _ _ _)).2
  case oneLine => exact holds.oneLine

theorem Holds.head {c : Byte} {rest : List Byte} (holds : Holds input (c :: rest) line) :
    input.r ≠ input.w ∧ input.buf (Input.index input.r) = c := by
  have cells := holds.cells
  have small := holds.small
  constructor
  · intro same
    have short : (c :: rest).length < 2 ^ 32 := by omega
    have none := (Lib.Ring.add_eq_self_iff input.r short).mp (holds.w.symm.trans same.symm)
    cases none
  · rw [slice, List.length_cons, Nat.succ_add, Lib.Ring.slice, List.cons_append] at cells
    exact List.head_eq_of_cons_eq cells

theorem Holds.empty (holds : Holds input [] line) : input.r = input.w := by
  rw [holds.w]
  exact (BitVec.add_zero _).symm

/-- The loop on the ring is the loop on the list. -/
theorem readLoop_list (left : Nat) (call : Call) (holds : Holds input pending line)
    (enough : pending.length ≤ left) :
    readLoop left input call =
      ((readList pending call).1, advance input (readList pending call).2.1.length,
        (readList pending call).2.2) := by
  have still : ∀ input, advance input 0 = input := fun input => by
    simp [LineDiscipline.advance]
  induction pending generalizing left input call with
  | nil =>
      cases left with
      | zero =>
          unfold readLoop readList
          split_ifs
          all_goals simp [still]
      | succ left =>
          unfold readLoop readList
          rw [if_pos holds.empty]
          split_ifs
          all_goals simp [still]
  | cons c rest ih =>
      cases left with
      | zero => cases enough
      | succ left =>
          obtain ⟨some, here⟩ := holds.head
          have after := @Holds.advance input line [c] rest holds
          have one : advance input 1 = { input with r := input.r + 1 } := rfl
          rw [List.length_singleton, one] at after
          unfold readLoop readList
          rw [if_neg some, here]
          by_cases wants : call.n > 0
          · rw [if_pos wants, if_pos wants]
            by_cases eof : c = C 'D'
            · rw [if_pos eof, if_pos eof]
              have back : { input with r := input.r + 1 - 1 } = input := by
                rw [BitVec.add_sub_cancel]
              dsimp only
              split_ifs
              · rw [back]
                simp [still]
              · rfl
            · rw [if_neg eof, if_neg eof]
              dsimp only
              split_ifs
              · rfl
              · rw [ih left _ after (Nat.le_of_succ_le_succ enough)]
                simp only [LineDiscipline.advance, List.length_cons, Lib.Ring.add_ofNat_succ]
          · rw [if_neg wants, if_neg wants]
            simp [still]

/-- What `r` goes over is what is taken. -/
theorem passed_advance {first rest : List Byte} (holds : Holds input (first ++ rest) line) :
    passed input (advance input first.length) = first := by
  have small := holds.small
  have cells := holds.cells
  rw [List.length_append] at small cells
  rw [Nat.add_assoc, slice, Lib.Ring.slice_add, List.append_assoc] at cells
  have moved : ((advance input first.length).r - input.r).toNat = first.length :=
    Lib.Ring.sub_start input.r (by omega)
  rw [passed, moved]
  exact (List.append_inj cells (Lib.Ring.slice_length _ _ _ _)).1

/-- A call that may take more characters. -/
structure Unfinished (call : Call) : Prop where
  n : call.n = call.target - call.dst.length
  size : (call.dst.length : Int) ≤ max 0 call.target
  plain : C 'D' ∉ call.dst
  lines : newline ∉ call.dst

/-- A call that returns after it has taken `took` from `pending`. -/
structure Returned (pending : List Byte) (call : Call) (took : List Byte) (after : Call) :
    Prop where
  n : after.n = after.target - after.dst.length
  size : (after.dst.length : Int) ≤ max 0 after.target
  plain : C 'D' ∉ after.dst
  lines : newline ∉ after.dst.dropLast
  raw : after.dst = call.dst ++ took ∨ call.dst = [] ∧ after.dst = [] ∧ took = [C 'D']
  ends : call.dst = [] ∧ took = [C 'D'] ∨ after.target ≤ after.dst.length ∨
    after.dst.getLast? = some newline ∨ after.dst ≠ [] ∧ pending[took.length]? = some (C 'D')

theorem unfinished_take {call : Call} (unfinished : Unfinished call) {c : Byte}
    (wants : call.n > 0) (notEof : c ≠ C 'D') (notLine : c ≠ newline) :
    Unfinished { call with dst := call.dst ++ [c], n := call.n - 1 } := by
  have n := unfinished.n
  have length : ((call.dst ++ [c]).length : Int) = call.dst.length + 1 := by simp
  constructor
  case n =>
    dsimp only
    omega
  case size =>
    dsimp only
    omega
  case plain =>
    intro member
    rcases List.mem_append.mp member with old | new
    · exact unfinished.plain old
    · exact notEof (List.mem_singleton.mp new).symm
  case lines =>
    intro member
    rcases List.mem_append.mp member with old | new
    · exact unfinished.lines old
    · exact notLine (List.mem_singleton.mp new).symm

theorem newline_ne_eof : newline ≠ C 'D' := by decide

theorem readList_target (pending : List Byte) (call : Call) :
    (readList pending call).2.2.target = call.target := by
  induction pending generalizing call with
  | nil =>
      unfold readList
      split
      all_goals rfl
  | cons c rest ih =>
      unfold readList
      split_ifs
      all_goals first | rfl | exact ih _

theorem readList_unfinished (pending : List Byte) {call : Call} (unfinished : Unfinished call)
    (stops : (readList pending call).1 = .nothing) :
    Unfinished (readList pending call).2.2 ∧
      (readList pending call).2.2.dst = call.dst ++ (readList pending call).2.1 := by
  induction pending generalizing call with
  | nil =>
      unfold readList at stops ⊢
      split
      · exact ⟨unfinished, (List.append_nil _).symm⟩
      · exact ⟨unfinished, (List.append_nil _).symm⟩
  | cons c rest ih =>
      unfold readList at stops ⊢
      split_ifs at stops ⊢ with wants eof line
      have more := ih (unfinished_take unfinished wants eof line) stops
      refine ⟨more.1, ?_⟩
      rw [more.2, List.append_assoc]
      rfl

/-- The call takes nothing more. -/
theorem unfinished_returns (pending : List Byte) {call : Call} (unfinished : Unfinished call)
    (ends : call.n ≤ 0 ∨ call.dst ≠ [] ∧ pending[0]? = some (C 'D')) :
    Returned pending call [] call where
  n := unfinished.n
  size := unfinished.size
  plain := unfinished.plain
  lines := fun member => unfinished.lines (List.dropLast_subset _ member)
  raw := Or.inl (List.append_nil _).symm
  ends := by
    have n := unfinished.n
    rcases ends with enough | left
    · exact Or.inr (Or.inl (by omega))
    · exact Or.inr (Or.inr (Or.inr left))

theorem readList_returned (pending : List Byte) {call : Call} (unfinished : Unfinished call)
    (stops : (readList pending call).1 = .returns) :
    Returned pending call (readList pending call).2.1 (readList pending call).2.2 := by
  induction pending generalizing call with
  | nil =>
      unfold readList at stops ⊢
      split_ifs at stops ⊢ with wants
      exact unfinished_returns [] unfinished (Or.inl (Int.not_lt.mp wants))
  | cons c rest ih =>
      have n := unfinished.n
      unfold readList at stops ⊢
      by_cases wants : call.n > 0
      · rw [if_pos wants] at stops ⊢
        by_cases eof : c = C 'D'
        · rw [if_pos eof]
          dsimp only
          split_ifs with begun
          · -- The Ctrl-D is left for the next call.
            have some : call.dst ≠ [] := by
              intro none
              rw [none] at n
              simp only [List.length_nil] at n
              omega
            exact unfinished_returns _ unfinished
              (Or.inr ⟨some, congrArg Option.some eof⟩)
          · have none : call.dst = [] := by
              rw [← List.length_eq_zero_iff]
              omega
            refine ⟨n, unfinished.size, unfinished.plain, ?_, ?_, ?_⟩
            · exact fun member => unfinished.lines (List.dropLast_subset _ member)
            · exact Or.inr ⟨none, none, congrArg (fun x => [x]) eof⟩
            · exact Or.inl ⟨none, congrArg (fun x => [x]) eof⟩
        · rw [if_neg eof] at stops ⊢
          dsimp only at stops ⊢
          by_cases line : c = newline
          · rw [if_pos line]
            have length : ((call.dst ++ [c]).length : Int) = call.dst.length + 1 := by simp
            have size := unfinished.size
            refine ⟨?_, ?_, ?_, ?_, Or.inl rfl, Or.inr (Or.inr (Or.inl ?_))⟩
            · dsimp only
              omega
            · dsimp only
              omega
            · intro member
              rcases List.mem_append.mp member with old | new
              · exact unfinished.plain old
              · exact eof (List.mem_singleton.mp new).symm
            · dsimp only
              rw [List.dropLast_concat]
              exact unfinished.lines
            · dsimp only
              rw [List.getLast?_concat, line]
          · rw [if_neg line] at stops ⊢
            have longer := unfinished_take unfinished wants eof line
            have more := ih longer stops
            have begun : call.dst ++ [c] ≠ [] := by simp
            refine ⟨more.n, more.size, more.plain, more.lines, ?_, ?_⟩
            · rcases more.raw with took | ⟨none, _⟩
              · left
                rw [took, List.append_assoc]
                rfl
              · exact absurd none begun
            · rcases more.ends with ⟨none, _⟩ | full | line | left
              · exact absurd none begun
              · exact Or.inr (Or.inl full)
              · exact Or.inr (Or.inr (Or.inl line))
              · exact Or.inr (Or.inr (Or.inr left))
      · rw [if_neg wants]
        exact unfinished_returns _ unfinished (Or.inl (Int.not_lt.mp wants))

/-- A turn takes the first characters that are committed and unread. -/
theorem consoleread_tracks {done : List Byte} {ed : Editor} (tracks : Tracks input done ed)
    (call : Call) :
    ∃ pending, ed.stream = done ++ pending ∧
      (consoleread input call).1 = (readList pending call).1 ∧
      (consoleread input call).2.2 = (readList pending call).2.2 ∧
      passed input (consoleread input call).2.1 = (readList pending call).2.1 ∧
      Tracks (consoleread input call).2.1 (done ++ (readList pending call).2.1) ed := by
  obtain ⟨pending, stream, holds⟩ := tracks
  have small := holds.small
  have enough : pending.length ≤ (input.w - input.r).toNat := by
    rw [holds.w, Lib.Ring.sub_start input.r (by omega)]
  have turn := readLoop_list _ call holds enough
  obtain ⟨rest, split⟩ := readList_prefix pending call
  have split_holds := holds
  rw [← split] at split_holds
  refine ⟨pending, stream, ?_⟩
  rw [consoleread, turn]
  refine ⟨rfl, rfl, passed_advance split_holds, rest, ?_, split_holds.advance⟩
  rw [stream, List.append_assoc, split]

end Reading

/-! ## The invariant -/

section Runs
variable {P : Type} [DecidableEq P] {s : State P}

theorem append_stream (count : Nat) (ed : Editor) (c : Byte) :
    ed.stream <+: (ed.append count c).stream := by
  unfold Editor.append
  dsimp only
  split
  · exact List.prefix_append _ _
  · exact List.prefix_rfl

theorem keys_stream (count : Nat) (ed : Editor) (chars : List Byte) :
    ed.stream <+: (chars.foldl (Editor.key count) ed).stream := by
  induction chars generalizing ed with
  | nil => exact List.prefix_rfl
  | cons c rest ih =>
      refine List.IsPrefix.trans ?_ (ih (ed.key count c))
      unfold Editor.key
      split_ifs
      · exact List.prefix_rfl
      · exact List.prefix_rfl
      · exact List.prefix_rfl
      · exact append_stream count ed _
      · exact List.prefix_rfl

omit [DecidableEq P] in
theorem Cut.later {stream more : List Byte} {r : Result P} (cut : Cut stream r)
    (grows : stream <+: more) : Cut more r where
  count := cut.count
  size := cut.size
  raw := cut.raw
  plain := cut.plain
  lines := cut.lines
  ends := cut.ends.imp_right (Or.imp_right (Or.imp_right fun left =>
    ⟨left.1, by
      obtain ⟨_, rfl⟩ := grows
      rw [List.getElem?_append_left (List.getElem?_eq_some_iff.mp left.2).1, left.2]⟩))

structure Inv (s : State P) : Prop where
  tracks : Tracks s.input (taken s.log) s.editor
  unfinished : ∀ p reading, s.calls p = some reading →
    Unfinished reading.call ∧ reading.raw = reading.call.dst
  pieces : ∀ p, ownPieces s p = ownResults s p ++ ownCall s p
  cut : ∀ r ∈ s.results, r.ret ≠ -1 → Cut s.editor.stream r
  killed : ∀ r ∈ s.results, r.ret = -1 → C 'D' ∉ r.raw

omit [DecidableEq P] in
theorem taken_concat (log : List (Piece P)) (p : P) (chars : List Byte) :
    taken (log ++ [⟨p, chars⟩]) = taken log ++ chars := by
  simp [taken]

omit [DecidableEq P] in
theorem filter_concat {A : Type} (mine : A → Bool) (chars : A → List Byte) (xs : List A) (x : A) :
    ((xs ++ [x]).filter mine).flatMap chars =
      (xs.filter mine).flatMap chars ++ if mine x then chars x else [] := by
  rw [List.filter_append, List.flatMap_append]
  cases own : mine x
  all_goals simp [own]

theorem intr_inv (inv : Inv s) (chars : List Byte) :
    Inv { s with
      input := consoleintr s.input chars
      editor := chars.foldl (Editor.key (taken s.log).length) s.editor } where
  tracks := consoleintr_tracks inv.tracks chars
  unfinished := inv.unfinished
  pieces := inv.pieces
  cut := fun r member fine => (inv.cut r member fine).later (keys_stream _ _ _)
  killed := inv.killed

/-- What belongs to the call of `p`, before and after its turn. -/
theorem turn_pieces (inv : Inv s) {p : P} {reading : Reading} {next : State P}
    (own : reading.raw = ownCall s p) {chars : List Byte}
    (log : next.log = s.log ++ [⟨p, chars⟩])
    (others : ∀ q, q ≠ p → next.calls q = s.calls q)
    (results : next.results = s.results ∧ ownCall next p = reading.raw ++ chars ∨
      (∃ r, next.results = s.results ++ [r] ∧ r.reader = p ∧ r.raw = reading.raw ++ chars) ∧
        ownCall next p = []) (q : P) :
    ownPieces next q = ownResults next q ++ ownCall next q := by
  have before := inv.pieces q
  unfold ownPieces at before ⊢
  rw [log, filter_concat, before]
  by_cases here : p = q
  · subst here
    simp only [decide_true, if_true, List.append_assoc]
    rcases results with ⟨same, call⟩ | ⟨⟨r, more, reader, raw⟩, call⟩
    · rw [call, own, ownResults, ownResults, same]
    · rw [call, ownResults, ownResults, more, filter_concat, reader, raw, own]
      simp
  · have call : ownCall next q = ownCall s q := by
      rw [ownCall, ownCall, others q fun same => here same.symm]
    simp only [here, decide_false, Bool.false_eq_true, if_false, List.append_nil]
    rcases results with ⟨same, _⟩ | ⟨⟨r, more, reader, _⟩, _⟩
    · rw [call, ownResults, ownResults, same]
    · rw [call, ownResults, ownResults, more, filter_concat, reader]
      simp [here]

/-- The turn in terms of what the loop does. -/
theorem turn_eq (s : State P) (p : P) (reading : Reading) (killed : Bool) :
    turn s p reading killed =
      (let result := consoleread s.input reading.call
      let chars := passed s.input result.2.1
      let log := s.log ++ [⟨p, chars⟩]
      if result.1 = .nothing ∧ killed = false then
        { s with
          input := result.2.1
          log := log
          calls := Function.update s.calls p (some ⟨result.2.2, reading.raw ++ chars⟩) }
      else
        { s with
          input := result.2.1
          log := log
          calls := Function.update s.calls p none
          results := s.results ++ [⟨p, result.2.2.target,
            if result.1 = .nothing then -1 else result.2.2.target - result.2.2.n,
            result.2.2.dst, reading.raw ++ chars, (taken log).length⟩] }) := rfl

theorem turn_inv (inv : Inv s) {p : P} {reading : Reading} (killed : Bool)
    (unfinished : Unfinished reading.call) (raw : reading.raw = reading.call.dst)
    (own : reading.raw = ownCall s p) : Inv (turn s p reading killed) := by
  obtain ⟨pending, stream, stops, after, passes, tracks⟩ :=
    consoleread_tracks inv.tracks reading.call
  have goesOn := readList_unfinished pending unfinished
  have returns := readList_returned pending unfinished
  rw [turn_eq]
  dsimp only
  rw [stops, after, passes]
  generalize (consoleread s.input reading.call).2.1 = input at tracks
  generalize readList pending reading.call = read at tracks goesOn returns
  obtain ⟨stop, chars, call⟩ := read
  dsimp only at tracks goesOn returns ⊢
  have others : ∀ (call : Option Reading) (q : P), q ≠ p →
      Function.update s.calls p call q = s.calls q :=
    fun call q other => Function.update_of_ne other call s.calls
  split
  case isTrue asleep =>
    obtain ⟨goes, dst⟩ := goesOn asleep.1
    constructor
    case tracks =>
      dsimp only
      rw [taken_concat]
      exact tracks
    case unfinished =>
      intro q other found
      dsimp only at found
      by_cases here : q = p
      · subst here
        rw [Function.update_self] at found
        cases found
        exact ⟨goes, by rw [raw, dst]⟩
      · rw [others _ q here] at found
        exact inv.unfinished q other found
    case pieces =>
      refine turn_pieces inv own rfl (others _) (Or.inl ⟨rfl, ?_⟩)
      simp only [ownCall, Function.update_self]
    case cut => exact inv.cut
    case killed => exact inv.killed
  case isFalse awake =>
    constructor
    case tracks =>
      dsimp only
      rw [taken_concat]
      exact tracks
    case unfinished =>
      intro q other found
      dsimp only at found
      by_cases here : q = p
      · subst here
        rw [Function.update_self] at found
        cases found
      · rw [others _ q here] at found
        exact inv.unfinished q other found
    case pieces =>
      refine turn_pieces inv own rfl (others _) (Or.inr ⟨⟨_, rfl, rfl, rfl⟩, ?_⟩)
      simp only [ownCall, Function.update_self]
    case cut =>
      intro r member fine
      rcases List.mem_append.mp member with old | new
      · exact inv.cut r old fine
      · cases List.mem_singleton.mp new
        cases stop with
        | nothing => exact absurd rfl fine
        | returns =>
            have done := returns rfl
            have count : call.target - call.n = call.dst.length := by
              have n := done.n
              omega
            constructor
            case count => exact count
            case size => exact done.size
            case raw =>
              rcases done.raw with took | ⟨none, empty, took⟩
              · exact Or.inl (by rw [raw, took])
              · exact Or.inr ⟨empty, by rw [raw, none, took]; rfl⟩
            case plain => exact done.plain
            case lines => exact done.lines
            case ends =>
              rcases done.ends with ⟨none, took⟩ | full | line | ⟨begun, left⟩
              · exact Or.inl (by rw [raw, none, took]; rfl)
              · exact Or.inr (Or.inl full)
              · exact Or.inr (Or.inr (Or.inl line))
              · refine Or.inr (Or.inr (Or.inr ⟨begun, ?_⟩))
                dsimp only
                rw [taken_concat, stream, List.length_append,
                  List.getElem?_append_right (Nat.le_add_right _ _), Nat.add_sub_cancel_left]
                exact left
    case killed =>
      intro r member gone
      rcases List.mem_append.mp member with old | new
      · exact inv.killed r old gone
      · cases List.mem_singleton.mp new
        dsimp only at gone ⊢
        cases stop with
        | nothing =>
            obtain ⟨goes, dst⟩ := goesOn rfl
            rw [raw, ← dst]
            exact goes.plain
        | returns =>
            have n := (returns rfl).n
            simp only [reduceCtorEq, if_false] at gone
            omega

theorem inv_step (s : State P) (e : Event P) (next : State P) (inv : Inv s)
    (taken : step s e = some next) : Inv next := by
  cases e with
  | intr chars =>
      cases Option.some.inj taken
      exact intr_inv inv chars
  | read p n killed =>
      simp only [step] at taken
      cases found : s.calls p with
      | some reading => simp [found] at taken
      | none =>
          simp only [found, Option.some.injEq] at taken
          subst taken
          have unfinished : Unfinished (consolereadStart n) :=
            ⟨by simp [consolereadStart], by simp [consolereadStart], List.not_mem_nil,
              List.not_mem_nil⟩
          exact turn_inv inv killed unfinished rfl (by simp [ownCall, found])
  | resume p killed =>
      simp only [step] at taken
      cases found : s.calls p with
      | none => simp [found] at taken
      | some reading =>
          simp only [found, Option.some.injEq] at taken
          subst taken
          obtain ⟨unfinished, raw⟩ := inv.unfinished p reading found
          exact turn_inv inv killed unfinished raw (by simp [ownCall, found])

theorem inv_disciplined (s : State P) (inv : Inv s) : Disciplined s := by
  obtain ⟨pending, stream, holds⟩ := inv.tracks
  have small := holds.small
  have cells := holds.cells
  have committed : (s.input.w - s.input.r).toNat = pending.length := by
    rw [holds.w, Lib.Ring.sub_start s.input.r (by omega)]
  have all : (s.input.e - s.input.r).toNat = pending.length + s.editor.line.length :=
    holds.unread
  have edited : (s.input.e - s.input.w).toNat = s.editor.line.length := by
    rw [holds.edge, Lib.Ring.sub_start s.input.w (by omega)]
  rw [slice, Lib.Ring.slice_add] at cells
  obtain ⟨kept, line⟩ := List.append_inj cells (Lib.Ring.slice_length _ _ _ _)
  constructor
  case inOrder => omega
  case room =>
    rw [all]
    exact holds.fits
  case kept =>
    rw [committed, stream, List.drop_left]
    exact kept
  case line =>
    rw [edited, holds.w]
    exact line
  case delivered =>
    rw [stream]
    exact List.prefix_append _ _
  case pieces => exact inv.pieces
  case cut => exact inv.cut
  case killed => exact inv.killed

omit [DecidableEq P] in
theorem start_holds (buf : Fin INPUT_BUF → Byte) (i : Word) : Holds ⟨buf, i, i, i⟩ [] [] where
  fits := Nat.zero_le _
  w := (BitVec.add_zero i).symm
  e := (BitVec.add_zero i).symm
  cells := rfl
  oneLine := List.not_mem_nil

theorem start_inv (buf : Fin INPUT_BUF → Byte) (i : Word) :
    Inv (start buf i : State P) where
  tracks := ⟨[], rfl, start_holds buf i⟩
  unfinished := fun _ _ found => by cases found
  pieces := fun _ => rfl
  cut := fun _ member => by cases member
  killed := fun _ member => by cases member

/-! ## Calls in one turn -/

structure WholeInv (s : State P) : Prop where
  inv : Inv s
  idle : ∀ p reading, s.calls p = some reading → reading.raw = []
  whole : Whole s

theorem turn_whole (inv : WholeInv s) {p : P} {reading : Reading} (killed : Bool)
    (unfinished : Unfinished reading.call) (raw : reading.raw = [])
    (unsplit : (consoleread s.input reading.call).1 = .nothing →
      (consoleread s.input reading.call).2.2.dst = reading.call.dst) :
    Whole (turn s p reading killed) ∧
      ∀ q other, (turn s p reading killed).calls q = some other → other.raw = [] := by
  obtain ⟨pending, stream, stops, after, passes, _⟩ :=
    consoleread_tracks inv.inv.tracks reading.call
  have goesOn := readList_unfinished pending unfinished
  have returns := readList_returned pending unfinished
  rw [stops, after] at unsplit
  rw [turn_eq]
  dsimp only
  rw [stops, after, passes]
  generalize (consoleread s.input reading.call).2.1 = input
  generalize readList pending reading.call = read at goesOn returns unsplit
  obtain ⟨stop, chars, call⟩ := read
  dsimp only at goesOn returns unsplit ⊢
  have nothing : stop = .nothing → chars = [] := by
    intro stops
    have dst := (goesOn stops).2
    rw [unsplit stops] at dst
    exact List.append_cancel_left (dst.symm.trans (List.append_nil _).symm)
  have others : ∀ (call : Option Reading) (q : P), q ≠ p →
      Function.update s.calls p call q = s.calls q :=
    fun call q other => Function.update_of_ne other call s.calls
  have whole := inv.whole
  unfold Whole at whole ⊢
  split
  case isTrue asleep =>
    dsimp only
    rw [taken_concat, nothing asleep.1, List.append_nil]
    refine ⟨whole, fun q other found => ?_⟩
    by_cases here : q = p
    · subst here
      rw [Function.update_self] at found
      cases found
      exact (List.append_nil _).trans raw
    · rw [others _ q here] at found
      exact inv.idle q other found
  case isFalse awake =>
    constructor
    · dsimp only
      rw [taken_concat, filter_concat, whole]
      cases stop with
      | nothing =>
          rw [nothing rfl]
          simp
      | returns =>
          have n := (returns rfl).n
          have fine : call.target - call.n ≠ -1 := by omega
          simp [fine, raw]
    · intro q other found
      dsimp only at found
      by_cases here : q = p
      · subst here
        rw [Function.update_self] at found
        cases found
      · rw [others _ q here] at found
        exact inv.idle q other found

theorem whole_step (s : State P) (e : Event P) (next : State P) (inv : WholeInv s)
    (unsplit : Unsplit s e) (taken : step s e = some next) : WholeInv next := by
  have after := inv_step s e next inv.inv taken
  cases e with
  | intr chars =>
      cases Option.some.inj taken
      exact ⟨after, inv.idle, inv.whole⟩
  | read p n killed =>
      simp only [step] at taken
      cases found : s.calls p with
      | some reading => simp [found] at taken
      | none =>
          simp only [found, Option.some.injEq] at taken
          subst taken
          have unfinished : Unfinished (consolereadStart n) :=
            ⟨by simp [consolereadStart], by simp [consolereadStart], List.not_mem_nil,
              List.not_mem_nil⟩
          obtain ⟨whole, idle⟩ := @turn_whole _ _ _ inv p ⟨consolereadStart n, []⟩ killed
            unfinished rfl (unsplit _ (by simp [reads, found]))
          exact ⟨after, idle, whole⟩
  | resume p killed =>
      simp only [step] at taken
      cases found : s.calls p with
      | none => simp [found] at taken
      | some reading =>
          simp only [found, Option.some.injEq] at taken
          subst taken
          obtain ⟨unfinished, _⟩ := inv.inv.unfinished p reading found
          obtain ⟨whole, idle⟩ := @turn_whole _ _ _ inv p reading killed unfinished
            (inv.idle p reading found) (unsplit reading found)
          exact ⟨after, idle, whole⟩

/-- In every run, wherever the indices start, the ring is in order and what the calls take is
what the line editor has committed, cut where a read may stop; and it is what the calls that
do not return -1 have taken, if each takes its characters in one turn. -/
theorem line_discipline (buf : Fin INPUT_BUF → Byte) (i : Word) (es : List (Event P)) :
    Always step Disciplined (start buf i) es ∧
      (Guarded step Unsplit (start buf i) es → Always step Whole (start buf i) es) := by
  have begins : Inv (start buf i : State P) := start_inv buf i
  constructor
  · exact always_of_invariant step inv_disciplined inv_step es _ begins
  · have idle : WholeInv (start buf i : State P) := ⟨begins, (fun _ _ found => by cases found), rfl⟩
    exact always_of_guarded step (fun _ inv => inv.whole) whole_step es _ idle

end Runs

/-- What the calls that did not return -1 have delivered is a prefix of the stream. -/
def Delivers (s : State Nat) : Prop :=
  (s.results.filter fun r => decide (r.ret ≠ -1)).flatMap Result.dst <+:
    s.editor.stream.filter fun c => decide (c ≠ C 'D')

/-- A full buffer is taken by a call that is then killed, and a line by another. -/
def killedRun : List (Event Nat) :=
  [.intr (List.replicate 128 97), .read 0 200 false, .resume 0 true, .intr [98, 10],
    .read 1 10 false]

theorem killedRun_loses :
    ¬ ∀ (buf : Fin INPUT_BUF → Byte) (i : Word) (es : List (Event Nat)),
      Always step Delivers (start buf i) es := by
  intro all
  have lost : (run step (start (fun _ => 0) 0) killedRun).any (fun s =>
      decide ((s.results.filter fun r => decide (r.ret ≠ -1)).flatMap Result.dst = [98, 10]) &&
        decide ((s.editor.stream.filter fun c => decide (c ≠ C 'D')).head? = some 97)) = true := by
    decide +kernel
  obtain ⟨final, ran, lost⟩ := Option.any_eq_true _ _ |>.mp lost
  simp only [Bool.and_eq_true, decide_eq_true_eq] at lost
  obtain ⟨delivered, first⟩ := lost
  have good := always_last step killedRun _ final (all _ _ killedRun) ran
  unfold Delivers at good
  rw [delivered] at good
  obtain ⟨rest, split⟩ := good
  rw [← split] at first
  cases first

end Xv6.Public1.LineDiscipline
