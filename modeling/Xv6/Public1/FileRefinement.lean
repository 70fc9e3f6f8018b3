import Xv6.Lib.Splice
import Xv6.Public1.FileContents

/-!
# Files are byte arrays (readi() and writei() of xv6-public_1)

readi() and writei() of a list of calls do to the inodes what reading and
overlaying do to byte arrays, one for each inode.
-/

set_option autoImplicit false

namespace Xv6.Public1.Blocks

open Xv6.Lib.Words
open Xv6.Lib.Splice
open Xv6.Lib.Outcome

def T_DIR : Int := 1

def T_FILE : Int := 2

variable {sb : Superblock}

/-! ## Byte arrays -/

inductive Call (sb : Superblock) where
  | readi (i : Inum sb) (off n : Word)
  | writei (i : Inum sb) (src : Nat → Byte) (off n : Word)

def Call.inum : Call sb → Inum sb
  | .readi i _ _ | .writei i _ _ _ => i

inductive Answer where
  /-- -1 -/
  | failed
  | read (data : List Byte)
  | wrote (n : Word)
  deriving DecidableEq

abbrev Files (sb : Superblock) := Inum sb → List Byte

/-- What the calls do to byte arrays. -/
def Files.perform (f : Files sb) : Call sb → Files sb × Answer
  | .readi i off n =>
      if (f i).length < off.toNat ∨ 2 ^ 32 ≤ off.toNat + n.toNat then (f, .failed)
      else (f, .read (((f i).drop off.toNat).take n.toNat))
  | .writei i src off n =>
      if (f i).length < off.toNat ∨ 2 ^ 32 ≤ off.toNat + n.toNat ∨
          MAXFILE * BSIZE < off.toNat + n.toNat then (f, .failed)
      else
        (Function.update f i (splice (f i) off.toNat ((List.range n.toNat).map src)), .wrote n)

def Files.run (f : Files sb) : List (Call sb) → Files sb × List Answer
  | [] => (f, [])
  | c :: rest =>
      let (f, answer) := f.perform c
      let (f, answers) := Files.run f rest
      (f, answer :: answers)

/-! ## The file system -/

namespace Fs

def perform (devsw : Devsw) (s : Fs sb) : Call sb → Except Panic (Fs sb × Answer)
  | .readi i off n => do
      let (s, data) ← s.readi devsw i off n
      pure (s, match data with | none => .failed | some data => .read data)
  | .writei i src off n => do
      let (s, count) ← s.writei devsw i src off n
      pure (s, match count with | none => .failed | some n => .wrote n)

def runCalls (devsw : Devsw) (s : Fs sb) : List (Call sb) → Except Panic (Fs sb × List Answer)
  | [] => pure (s, [])
  | c :: rest => do
      let (s, answer) ← s.perform devsw c
      let (s, answers) ← runCalls devsw s rest
      pure (s, answer :: answers)

/-- The bytes below the size. -/
def contents (s : Fs sb) (i : Inum sb) : List Byte :=
  (List.range (s.ip i).size.toNat).map (s.peek i)

end Fs

/-- A locked file or directory whose blocks below the size have been allocated. -/
structure Ready (s : Fs sb) (i : Inum sb) : Prop where
  loaded : (s.inode i).valid = true
  type : (s.ip i).type = T_DIR ∨ (s.ip i).type = T_FILE
  whole : ∀ p, p < (s.ip i).size.toNat → (s.byte i p).isSome = true

section Ready
variable {s s' : Fs sb} {i : Inum sb}

theorem Ready.typed (ready : Ready s i) : (s.ip i).type ≠ 0 := by
  obtain dir | file := ready.type
  · rw [dir]
    decide
  · rw [file]
    decide

theorem Ready.not_dev (ready : Ready s i) : (s.ip i).type ≠ T_DEV := by
  obtain dir | file := ready.type
  · rw [dir]
    decide
  · rw [file]
    decide

@[simp] theorem contents_length (s : Fs sb) (i : Inum sb) :
    (s.contents i).length = (s.ip i).size.toNat := by
  simp [Fs.contents]

theorem contents_getElem? (s : Fs sb) (i : Inum sb) (p : Nat) :
    (s.contents i)[p]? = if p < (s.ip i).size.toNat then some (s.peek i p) else none := by
  unfold Fs.contents
  rw [List.getElem?_map]
  split
  · rename_i inside
    rw [List.getElem?_range inside]
    rfl
  · rename_i outside
    rw [List.getElem?_eq_none (by simpa using outside)]
    rfl

/-- Bytes that are the same make the same contents. -/
theorem contents_congr (size : (s'.ip i).size = (s.ip i).size)
    (same : ∀ p, p < (s.ip i).size.toNat → s'.byte i p = s.byte i p) :
    s'.contents i = s.contents i := by
  unfold Fs.contents Fs.peek
  rw [size]
  apply List.map_congr_left
  intro p member
  rw [same p (List.mem_range.mp member)]

theorem Ready.of_same (ready : Ready s i) (inode : s'.inode i = s.inode i)
    (same : ∀ p, s'.byte i p = s.byte i p) : Ready s' i := by
  have copy : s'.ip i = s.ip i := congrArg Inode.copy inode
  constructor
  case loaded => rw [inode]; exact ready.loaded
  case type => rw [copy]; exact ready.type
  case whole =>
    intro p small
    rw [copy] at small
    rw [same]
    exact ready.whole p small

end Ready

/-! ## readi() -/

theorem wraps_iff {off n : Word} : off + n < off ↔ 2 ^ 32 ≤ off.toNat + n.toNat := by
  rw [BitVec.lt_def, BitVec.toNat_add]
  have first := off.isLt
  have second := n.isLt
  omega

section Calls
variable {devsw : Devsw} {s : Fs sb} {i : Inum sb} {off n : Word}

theorem readi_eq (ready : Ready s i) :
    s.readi devsw i off n =
      .ok (s, if (s.ip i).size.toNat < off.toNat ∨ 2 ^ 32 ≤ off.toNat + n.toNat then none
        else some (((s.contents i).drop off.toNat).take n.toNat)) := by
  unfold Fs.readi
  rw [if_neg ready.not_dev]
  by_cases refused : (s.ip i).size.toNat < off.toNat ∨ 2 ^ 32 ≤ off.toNat + n.toNat
  · have refused' : off > (s.ip i).size ∨ off + n < off := by
      rw [wraps_iff]
      exact refused
    rw [if_pos refused', if_pos refused]
    rfl
  · have allowed : ¬ (off > (s.ip i).size ∨ off + n < off) := by
      rw [wraps_iff]
      exact refused
    rw [if_neg allowed, if_neg refused]
    obtain ⟨low, fits⟩ := not_or.mp refused
    have sum : (off + n).toNat = off.toNat + n.toNat := by
      rw [BitVec.toNat_add, Nat.mod_eq_of_lt (Nat.lt_of_not_le fits)]
    have count : (if off + n > (s.ip i).size then (s.ip i).size - off else n).toNat =
        min n.toNat ((s.ip i).size.toNat - off.toNat) := by
      split
      · rename_i over_end
        have larger : (s.ip i).size.toNat < off.toNat + n.toNat := by
          rw [← sum]
          exact over_end
        rw [BitVec.toNat_sub_of_le (BitVec.le_def.mpr (Nat.le_of_not_lt low))]
        omega
      · rename_i inside
        have smaller : off.toNat + n.toNat ≤ (s.ip i).size.toNat := by
          rw [← sum]
          exact Nat.le_of_not_lt inside
        omega
    have loop := readLoop_whole ready.loaded
      (if off + n > (s.ip i).size then (s.ip i).size - off else n).toNat off.toNat
      (if off + n > (s.ip i).size then (s.ip i).size - off else n).toNat ?_ (Nat.le_refl _)
    · dsimp only
      rw [loop]
      change Except.ok _ = _
      congr 3
      apply List.ext_getElem?
      intro q
      rw [count, List.getElem?_take, List.getElem?_drop, contents_getElem?, List.getElem?_map]
      by_cases inside : q < min n.toNat ((s.ip i).size.toNat - off.toNat)
      · rw [List.getElem?_range inside, if_pos (by omega), if_pos (by omega)]
        rfl
      · rw [List.getElem?_eq_none (by rw [List.length_range]; omega)]
        split
        · rw [if_neg (by omega)]
          rfl
        · rfl
    · intro q small
      rw [count] at small
      exact ready.whole _ (by omega)

/-! ## writei() -/

/-- What writei() does when it does not return -1. -/
structure Overlaid (i : Inum sb) (src : Nat → Byte) (off n : Word) (s s' : Fs sb) : Prop where
  sound : Sound s'
  ready : Ready s' i
  contents : s'.contents i = splice (s.contents i) off.toNat ((List.range n.toNat).map src)
  inode : ∀ j, j ≠ i → s'.inode j = s.inode j
  dinode : ∀ j, j ≠ i → s'.dinode j = s.dinode j
  coherent : s.dinode i = s.ip i → s'.dinode i = s'.ip i
  others : ∀ j p, j ≠ i → s'.byte j p = s.byte j p

/-- The loop of writei() and the new size. -/
theorem Written.overlaid {src : Nat → Byte} {s' : Fs sb} (size : Word) (ready : Ready s i)
    (written : Written i off.toNat n.toNat src s s') (low : off.toNat ≤ (s.ip i).size.toNat)
    (larger : size.toNat = max (s.ip i).size.toNat (off.toNat + n.toNat))
    {s'' : Fs sb} (sound : Sound s'') (inode : ∀ j, j ≠ i → s''.inode j = s'.inode j)
    (valid : (s''.inode i).valid = (s'.inode i).valid)
    (copy : s''.ip i = { s'.ip i with size := size })
    (dinode : ∀ j, j ≠ i → s''.dinode j = s'.dinode j)
    (coherent : s.dinode i = s.ip i → s''.dinode i = s''.ip i)
    (byte : ∀ j p, s''.byte j p = s'.byte j p) :
    Overlaid i src off n s s'' := by
  have every : ∀ p, p < size.toNat → s''.byte i p =
      if p < off.toNat then s.byte i p
      else if p < off.toNat + n.toNat then some (src (p - off.toNat)) else s.byte i p := by
    intro p small
    rw [byte]
    by_cases before : p < off.toNat
    · rw [if_pos before]
      obtain ⟨x, found⟩ := Option.isSome_iff_exists.mp (ready.whole p (by omega))
      rw [found]
      exact written.outside p x (Or.inl before) found
    · rw [if_neg before]
      by_cases inside : p < off.toNat + n.toNat
      · obtain ⟨q, rfl⟩ := Nat.exists_eq_add_of_le (Nat.le_of_not_lt before)
        rw [if_pos inside, Nat.add_sub_cancel_left]
        exact written.inside q (by omega)
      · rw [if_neg inside]
        obtain ⟨x, found⟩ := Option.isSome_iff_exists.mp (ready.whole p (by omega))
        rw [found]
        exact written.outside p x (Or.inr (by omega)) found
  obtain ⟨addrs, same⟩ := written.copy
  constructor
  case sound => exact sound
  case ready =>
    constructor
    case loaded => exact (valid.trans written.valid).trans ready.loaded
    case type =>
      rw [copy, same]
      exact ready.type
    case whole =>
      intro p small
      rw [copy] at small
      have there := every p small
      rw [there]
      split_ifs
      · exact ready.whole p (by omega)
      · rfl
      · exact ready.whole p (by dsimp only at small; omega)
  case contents =>
    apply List.ext_getElem?
    intro p
    rw [getElem?_splice (by simpa using low), contents_getElem?, contents_getElem?, copy]
    simp only [List.length_map, List.length_range, List.getElem?_map]
    by_cases small : p < size.toNat
    · have there := every p small
      rw [if_pos small]
      unfold Fs.peek
      rw [there]
      by_cases before : p < off.toNat
      · rw [if_pos before, if_pos before, if_pos (by omega)]
      · rw [if_neg before, if_neg before]
        by_cases inside : p < off.toNat + n.toNat
        · rw [if_pos inside, if_pos inside, List.getElem?_range (by omega)]
          rfl
        · rw [if_neg inside, if_neg inside, if_pos (by omega)]
    · rw [if_neg small, if_neg (by omega), if_neg (by omega), if_neg (by omega)]
  case inode => exact fun j other => (inode j other).trans (written.inode j other)
  case dinode => exact fun j other => (dinode j other).trans (congrFun written.dinode j)
  case coherent => exact coherent
  case others =>
    intro j p other
    rw [byte]
    exact written.others j p other

theorem writei_ends {src : Nat → Byte} (h : Sound s) (ready : Ready s i) :
    Ends (s.writei devsw i src off n)
      (fun e => e = .outOfBlocks ∧ s.free < touched off.toNat n.toNat + s.reserve i) fun r =>
        if (s.ip i).size.toNat < off.toNat ∨ 2 ^ 32 ≤ off.toNat + n.toNat ∨
            MAXFILE * BSIZE < off.toNat + n.toNat then r = (s, none)
        else r.2 = some n ∧ Overlaid i src off n s r.1 := by
  unfold Fs.writei
  rw [if_neg ready.not_dev]
  by_cases refused : off > (s.ip i).size ∨ off + n < off
  · rw [if_pos refused]
    rw [wraps_iff] at refused
    have low : (s.ip i).size.toNat < off.toNat ∨ 2 ^ 32 ≤ off.toNat + n.toNat ∨
        MAXFILE * BSIZE < off.toNat + n.toNat := refused.imp_right Or.inl
    apply ends_pure
    rw [if_pos low]
  · rw [if_neg refused]
    rw [wraps_iff] at refused
    obtain ⟨low, fits⟩ := not_or.mp refused
    have low : off.toNat ≤ (s.ip i).size.toNat := Nat.le_of_not_lt low
    have sum : (off + n).toNat = off.toNat + n.toNat := by
      rw [BitVec.toNat_add, Nat.mod_eq_of_lt (Nat.lt_of_not_le fits)]
    rw [sum]
    by_cases big : off.toNat + n.toNat > MAXFILE * BSIZE
    · rw [if_pos big]
      apply ends_pure
      rw [if_pos (Or.inr (Or.inr big))]
    · rw [if_neg big]
      have allowed : ¬ ((s.ip i).size.toNat < off.toNat ∨ 2 ^ 32 ≤ off.toNat + n.toNat ∨
          MAXFILE * BSIZE < off.toNat + n.toNat) := by omega
      apply ends_bind
      refine ends_mono (writeLoop_ends n.toNat s off.toNat n.toNat src h ready.loaded ready.typed
        (Nat.le_of_not_lt big) (Nat.le_refl _)) (fun e full => full) ?_
      intro t written
      obtain ⟨addrs, same⟩ := written.copy
      have size : (t.ip i).size = (s.ip i).size := by rw [same]
      simp only [if_neg allowed]
      split
      · rename_i grown
        apply ends_pure
        have loaded : (t.inode i).valid = true := written.valid.trans ready.loaded
        have held := held_update { t.ip i with size := off + n } loaded rfl rfl
        have larger : (off + n).toNat = max (s.ip i).size.toNat (off.toNat + n.toNat) := by
          have more : (t.ip i).size.toNat < (off + n).toNat := grown.2
          rw [size, sum] at more
          rw [sum]
          omega
        refine ⟨rfl, written.overlaid _ ready low larger (written.sound.congr held rfl)
          ?_ ?_ ?_ ?_ ?_ ?_⟩
        · exact fun j other => Function.update_of_ne other _ _
        · simp [Fs.iupdate, Fs.setDinode, Fs.setCopy, Fs.setInode]
        · simp [Fs.iupdate, Fs.setDinode, Fs.setCopy, Fs.setInode, Fs.ip]
        · exact fun j other => Function.update_of_ne other _ _
        · exact fun _ => Function.update_self i _ _
        · intro j p
          unfold Fs.byte Fs.lookup
          rw [held]
          rfl
      · rename_i kept
        apply ends_pure
        have inside : off.toNat + n.toNat ≤ (s.ip i).size.toNat := by
          by_cases some_byte : n > 0
          · have inside : ¬ (s.ip i).size.toNat < (off + n).toNat := by
              rw [← size]
              exact fun larger => kept ⟨some_byte, larger⟩
            omega
          · have zero : n.toNat = 0 := Nat.eq_zero_of_not_pos some_byte
            omega
        refine ⟨rfl, written.overlaid (s.ip i).size ready low (by omega) written.sound
          (fun _ _ => rfl) rfl ?_ (fun _ _ => rfl) ?_ fun _ _ => rfl⟩
        · rw [← size]
        · -- no block below the size has been allocated now
          intro coherent
          have still := written.still fun q small => ready.whole _ (by omega)
          rw [written.dinode, coherent]
          exact congrArg Inode.copy (congrFun still i).symm

end Calls

/-! ## Lists of calls -/

theorem reserve_le (s : Fs sb) (i : Inum sb) : s.reserve i ≤ 1 := by
  unfold Fs.reserve
  split
  · exact Nat.le_refl 1
  · exact Nat.zero_le 1

/-- A write finds fewer free blocks than it can need. -/
def Starved (s : Fs sb) (c : Call sb) : Prop :=
  ∃ i src off n, c = .writei i src off n ∧ s.free < touched off.toNat n.toNat + 1

/-- The files are the byte arrays. -/
structure Refines (A : Set (Inum sb)) (s : Fs sb) (f : Files sb) : Prop where
  sound : Sound s
  ready : ∀ i ∈ A, Ready s i
  contents : ∀ i ∈ A, s.contents i = f i

section Run
variable {devsw : Devsw} {A : Set (Inum sb)} {s : Fs sb} {f : Files sb}

theorem Refines.length (h : Refines A s f) {i : Inum sb} (member : i ∈ A) :
    (f i).length = (s.ip i).size.toNat := by
  rw [← h.contents i member, contents_length]

/-- Another inode has been written. -/
theorem Refines.update (h : Refines A s f) {i : Inum sb} (member : i ∈ A) {src : Nat → Byte}
    {off n : Word} {s' : Fs sb} (overlaid : Overlaid i src off n s s') :
    Refines A s' (Function.update f i
      (splice (f i) off.toNat ((List.range n.toNat).map src))) := by
  have same : ∀ j, j ≠ i → s'.ip j = s.ip j :=
    fun j other => congrArg Inode.copy (overlaid.inode j other)
  constructor
  case sound => exact overlaid.sound
  case ready =>
    intro j mine
    by_cases here : j = i
    · subst here
      exact overlaid.ready
    · exact (h.ready j mine).of_same (overlaid.inode j here) fun p => overlaid.others j p here
  case contents =>
    intro j mine
    by_cases here : j = i
    · subst here
      rw [Function.update_self, ← h.contents j mine]
      exact overlaid.contents
    · rw [Function.update_of_ne here, ← h.contents j mine]
      exact contents_congr (by rw [same j here]) fun p _ => overlaid.others j p here

theorem perform_ends (devsw : Devsw) (h : Refines A s f) {c : Call sb} (member : c.inum ∈ A) :
    Ends (s.perform devsw c) (fun e => e = .outOfBlocks ∧ Starved s c) fun r =>
      Refines A r.1 (f.perform c).1 ∧ r.2 = (f.perform c).2 := by
  cases c with
  | readi i off n =>
      have length : (f i).length = (s.ip i).size.toNat := h.length member
      simp only [Fs.perform, Files.perform]
      rw [readi_eq (h.ready i member), length]
      split
      · exact ends_pure ⟨h, rfl⟩
      · refine ends_pure ⟨h, ?_⟩
        rw [h.contents i member]
  | writei i src off n =>
      have length : (f i).length = (s.ip i).size.toNat := h.length member
      simp only [Fs.perform, Files.perform]
      rw [length]
      apply ends_bind
      refine ends_mono (writei_ends h.sound (h.ready i member)) ?_ ?_
      · intro e full
        have reserve := reserve_le s i
        exact ⟨full.1, i, src, off, n, rfl, by omega⟩
      · rintro ⟨t, count⟩ done
        by_cases refused : (s.ip i).size.toNat < off.toNat ∨ 2 ^ 32 ≤ off.toNat + n.toNat ∨
            MAXFILE * BSIZE < off.toNat + n.toNat
        · rw [if_pos refused] at done ⊢
          cases done
          exact ends_pure ⟨h, rfl⟩
        · rw [if_neg refused] at done ⊢
          obtain ⟨rfl, overlaid⟩ : count = some n ∧ Overlaid i src off n s t := done
          exact ends_pure ⟨h.update member overlaid, rfl⟩

/-- Every list of reads and writes does to the files what it does to byte arrays; it
panics only where a write finds too few free blocks. -/
theorem files_refine (h : Refines A s f) (cs : List (Call sb)) (member : ∀ c ∈ cs, c.inum ∈ A) :
    Ends (s.runCalls devsw cs)
      (fun e => e = .outOfBlocks ∧ ∃ before c after t answers, cs = before ++ c :: after ∧
        s.runCalls devsw before = .ok (t, answers) ∧ Starved t c)
      fun r => Refines A r.1 (f.run cs).1 ∧ r.2 = (f.run cs).2 := by
  induction cs generalizing s f with
  | nil => exact ends_pure ⟨h, rfl⟩
  | cons c rest ih =>
      rw [Fs.runCalls]
      have first := perform_ends devsw h (member c List.mem_cons_self)
      cases done : s.perform devsw c with
      | error e =>
          obtain ⟨full, starved⟩ := first.error done
          exact ends_error ⟨full, [], c, rest, s, [], rfl, rfl, starved⟩
      | ok r =>
          obtain ⟨t, answer⟩ := r
          obtain ⟨refines, same⟩ := first.ok done
          change Ends (t.runCalls devsw rest >>= _) _ _
          apply ends_bind
          refine ends_mono (ih refines fun c later => member c (List.mem_cons_of_mem _ later)) ?_ ?_
          · rintro e ⟨full, before, c', after, t', answers, rfl, reached, starved⟩
            refine ⟨full, c :: before, c', after, t', answer :: answers, rfl, ?_, starved⟩
            rw [Fs.runCalls, done]
            change (t.runCalls devsw before >>= _) = _
            rw [reached]
            rfl
          · rintro ⟨u, answers⟩ ⟨refines', same'⟩
            exact ends_pure ⟨refines', congrArg₂ List.cons same same'⟩

theorem writei_refused {i : Inum sb} (ready : Ready s i) {src : Nat → Byte} {off n : Word}
    (refused : (s.ip i).size.toNat < off.toNat ∨ 2 ^ 32 ≤ off.toNat + n.toNat ∨
      MAXFILE * BSIZE < off.toNat + n.toNat) : s.writei devsw i src off n = .ok (s, none) := by
  unfold Fs.writei
  rw [if_neg ready.not_dev]
  by_cases first : off > (s.ip i).size ∨ off + n < off
  · rw [if_pos first]
    rfl
  · rw [if_neg first]
    rw [wraps_iff] at first
    obtain ⟨low, fits⟩ := not_or.mp first
    have big : MAXFILE * BSIZE < off.toNat + n.toNat :=
      (refused.resolve_left low).resolve_left fits
    have sum : (off + n).toNat = off.toNat + n.toNat := by
      rw [BitVec.toNat_add, Nat.mod_eq_of_lt (Nat.lt_of_not_le fits)]
    rw [sum, if_pos big]
    rfl

/-- Where no block number is in two places, the files that are whole are byte arrays. -/
theorem files_are_byte_arrays (h : Sound s) (ready : ∀ i ∈ A, Ready s i) (cs : List (Call sb))
    (member : ∀ c ∈ cs, c.inum ∈ A) :
    (∀ i ∈ A, ∀ src off n, (s.contents i).length < off.toNat ∨ 2 ^ 32 ≤ off.toNat + n.toNat ∨
        MAXFILE * BSIZE < off.toNat + n.toNat → s.writei devsw i src off n = .ok (s, none)) ∧
      Ends (s.runCalls devsw cs)
        (fun e => e = .outOfBlocks ∧ ∃ before c after t answers, cs = before ++ c :: after ∧
          s.runCalls devsw before = .ok (t, answers) ∧ Starved t c)
        fun r => (∀ i ∈ A, r.1.contents i = (Files.run s.contents cs).1 i) ∧
          r.2 = (Files.run s.contents cs).2 := by
  constructor
  · intro i mine src off n refused
    rw [contents_length] at refused
    exact writei_refused (ready i mine) refused
  · have start : Refines A s s.contents := ⟨h, ready, fun _ _ => rfl⟩
    refine ends_mono (files_refine start cs member) (fun e full => full) ?_
    exact fun r done => ⟨done.1.contents, done.2⟩

end Run

/-! ## An empty file -/

/-- The super block of mkfs. -/
def fsImg : Superblock where
  size := 1000
  ninodes := 200
  bmapstart := 58
  boot_block := Nat.succ_pos 57
  metadata := by decide
  size_uint := by decide

def freeInode : Dinode :=
  { type := 0, major := 0, minor := 0, nlink := 0, size := 0, mode := 0, addrs := fun _ => 0 }

def emptyFile : Dinode := { freeInode with type := T_FILE, nlink := 1, mode := 7 }

theorem two_lt_ninodes : 2 < fsImg.ninodes := by decide

def two : Inum fsImg := ⟨2, two_lt_ninodes⟩

/-- Only the metadata is in use, and inode 2 is open. -/
def oneFile : Fs fsImg where
  bitmap b := decide (b.toNat < 59)
  block _ := fun _ => 0
  dinode i := if i = two then emptyFile else freeInode
  inode i := if i = two then { ref := 1, valid := true, copy := emptyFile }
    else { ref := 0, valid := false, copy := freeInode }

def noDevice : Devsw := { read := fun _ => none, write := fun _ => none }

theorem oneFile_ip : oneFile.ip two = emptyFile := by
  simp [Fs.ip, oneFile]

theorem oneFile_view (i : Inum fsImg) : (oneFile.view i).addrs = fun _ => 0 := by
  by_cases here : i = two
  · simp [Fs.view, Fs.ip, oneFile, here, emptyFile, freeInode]
  · simp [Fs.view, oneFile, here, freeInode]

theorem oneFile_sound : Sound oneFile := by
  have nothing : ∀ slot, oneFile.held slot = none := by
    intro slot
    cases slot with
    | direct i k => simp [Fs.held, oneFile_view, nonzero]
    | indirect i => simp [Fs.held, oneFile_view, nonzero]
    | entry i j => simp [Fs.held, oneFile_view, nonzero]
  have used : oneFile.used = ∅ := by
    ext b
    simp only [Fs.used, Superblock.data, oneFile, Set.mem_ofPred_eq, Set.mem_empty_iff_false,
      iff_false, decide_eq_true_eq]
    intro both
    exact absurd both.2 (Nat.not_lt.mpr both.1.1)
  constructor
  case blocks =>
    rw [used]
    exact .empty nothing (Set.empty_subset _)
  case metadata => exact fun b low => decide_eq_true low

theorem oneFile_ready : ∀ i ∈ ({two} : Set (Inum fsImg)), Ready oneFile i := by
  intro i here
  obtain rfl := Set.mem_singleton_iff.mp here
  constructor
  case loaded => simp [oneFile]
  case type =>
    rw [oneFile_ip]
    exact Or.inr rfl
  case whole =>
    intro p small
    rw [oneFile_ip] at small
    exact absurd small (Nat.not_lt_zero p)

theorem files_are_byte_arrays_oneFile :
    (∀ i ∈ ({two} : Set (Inum fsImg)), ∀ src off n,
        (oneFile.contents i).length < off.toNat ∨ 2 ^ 32 ≤ off.toNat + n.toNat ∨
          MAXFILE * BSIZE < off.toNat + n.toNat →
        oneFile.writei noDevice i src off n = .ok (oneFile, none)) ∧
      Ends (oneFile.runCalls noDevice [.writei two (fun _ => 7) 0 3, .readi two 1 5])
        (fun e => e = .outOfBlocks ∧ ∃ before c after t answers,
          [.writei two (fun _ => 7) 0 3, .readi two 1 5] = before ++ c :: after ∧
            oneFile.runCalls noDevice before = .ok (t, answers) ∧ Starved t c)
        fun r => (∀ i ∈ ({two} : Set (Inum fsImg)), r.1.contents i =
            (Files.run oneFile.contents [.writei two (fun _ => 7) 0 3, .readi two 1 5]).1 i) ∧
          r.2 = (Files.run oneFile.contents [.writei two (fun _ => 7) 0 3, .readi two 1 5]).2 :=
  files_are_byte_arrays oneFile_sound oneFile_ready _ (by simp [Call.inum])

/-- readi() beyond the end of a file returns -1, not no bytes. -/
theorem readi_beyond_end : Sound oneFile ∧ Ready oneFile two ∧
    ¬ ∀ off n : Word, ∃ t, oneFile.perform noDevice (.readi two off n) =
      .ok (t, .read (((oneFile.contents two).take
        (min (off + n).toNat (oneFile.contents two).length)).drop off.toNat)) := by
  refine ⟨oneFile_sound, oneFile_ready two rfl, fun every => ?_⟩
  obtain ⟨t, same⟩ := every 1 1
  simp only [Fs.perform, readi_eq (oneFile_ready two rfl), oneFile_ip] at same
  rw [if_pos (by decide)] at same
  cases same

end Xv6.Public1.Blocks
