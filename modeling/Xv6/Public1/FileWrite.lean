import Mathlib.Algebra.Group.Int.Defs
import Mathlib.Data.Finset.Card
import Xv6.Public1.FileRefinement

/-!
# filewrite() writes in chunks (file.c of xv6-public_1)

The loop of filewrite() over writei() does to the file what one write of the bytes that
fit does, for as long as there are enough free blocks.
-/

set_option autoImplicit false

namespace Xv6.Public1.Blocks

open Xv6.Lib.Words
open Xv6.Lib.Splice
open Xv6.Lib.Outcome

variable {sb : Superblock}

/-! ## The blocks that a write takes -/

/-- The blocks with a byte of `[off, off + n)` that the inode does not have. -/
def Fs.missing (s : Fs sb) (i : Inum sb) (off n : Nat) : Finset Nat :=
  (Finset.range MAXFILE).filter fun bn =>
    s.lookup i bn = none ∧ 0 < n ∧ off / BSIZE ≤ bn ∧ bn ≤ (off + n - 1) / BSIZE

section Counts
variable {s t : Fs sb} {i : Inum sb} {off n k bn : Nat}

theorem mem_missing : bn ∈ s.missing i off n ↔ bn < MAXFILE ∧ s.lookup i bn = none ∧
    0 < n ∧ off / BSIZE ≤ bn ∧ bn ≤ (off + n - 1) / BSIZE := by
  rw [Fs.missing, Finset.mem_filter, Finset.mem_range]

/-- What a first write has put in place, a second one does not take again. -/
theorem missing_append (more : ∀ bn, (s.lookup i bn).isSome = true → (t.lookup i bn).isSome = true)
    (present : ∀ bn, 0 < n → off / BSIZE ≤ bn → bn ≤ (off + n - 1) / BSIZE →
      (t.lookup i bn).isSome = true) :
    (s.missing i off n).card + (t.missing i (off + n) k).card ≤
      (s.missing i off (n + k)).card := by
  rw [← Finset.card_union_of_disjoint]
  · refine Finset.card_le_card fun bn member => ?_
    rw [mem_missing]
    rcases Finset.mem_union.mp member with first | second
    · obtain ⟨small, absent, some_byte, low, high⟩ := mem_missing.mp first
      refine ⟨small, absent, by omega, low, Nat.le_trans high (Nat.div_le_div_right (by omega))⟩
    · obtain ⟨small, absent, some_byte, low, high⟩ := mem_missing.mp second
      refine ⟨small, ?_, by omega, Nat.le_trans (Nat.div_le_div_right (by omega)) low, ?_⟩
      · cases found : s.lookup i bn with
        | none => rfl
        | some b =>
            have there := more bn (by rw [found]; rfl)
            rw [absent] at there
            cases there
      · rwa [Nat.add_assoc] at high
  · refine Finset.disjoint_left.mpr fun bn first second => ?_
    obtain ⟨-, -, some_byte, low, high⟩ := mem_missing.mp first
    have there := present bn some_byte low high
    rw [(mem_missing.mp second).2.1] at there
    cases there

theorem missing_le (fewer : n ≤ k) : (s.missing i off n).card ≤ (s.missing i off k).card := by
  refine Finset.card_le_card fun bn member => ?_
  obtain ⟨small, absent, some_byte, low, high⟩ := mem_missing.mp member
  exact mem_missing.mpr ⟨small, absent, by omega, low,
    Nat.le_trans high (Nat.div_le_div_right (by omega))⟩

/-- One for a block that has to be taken. -/
def Fs.lacks (s : Fs sb) (i : Inum sb) (bn : Nat) : Nat := if s.lookup i bn = none then 1 else 0

theorem mapped_of_lookup (h : Sound s) {b : Word} (found : s.lookup i bn = some b) :
    Mapped i bn s b s where
  grows := .refl h
  here := found
  still := fun _ => rfl
  zeroed := fun absent => absurd (found.symm.trans absent) (Option.some_ne_none b)
  free := by omega

theorem bmap_counts (h : Sound s) (loaded : (s.inode i).valid = true)
    (typed : (s.ip i).type ≠ 0) (small : bn < MAXFILE) :
    Ends (s.bmap i bn)
      (fun e => e = .outOfBlocks ∧ s.free < s.lacks i bn + s.reserve i) fun r =>
        Mapped i bn s r.1 r.2 ∧ s.free + r.2.reserve i ≤ r.2.free + s.lacks i bn + s.reserve i := by
  unfold Fs.lacks
  cases found : s.lookup i bn with
  | some b =>
      rw [bmap_of_lookup loaded found]
      refine ends_pure ⟨mapped_of_lookup h found, ?_⟩
      dsimp only
      omega
  | none =>
      rw [if_pos rfl]
      refine ends_mono (bmap_ends h loaded typed small) (fun _ full => full) ?_
      exact fun r mapped => ⟨mapped, mapped.free⟩

theorem lacks_le (more : 0 < n) (fits : off + n ≤ MAXFILE * BSIZE) :
    s.lacks i (off / BSIZE) ≤ (s.missing i off n).card := by
  unfold Fs.lacks
  split
  · rename_i absent
    refine Finset.card_pos.mpr ⟨off / BSIZE, mem_missing.mpr ⟨?_, absent, more, ?_, ?_⟩⟩
    · simp only [BSIZE] at *
      omega
    · exact Nat.le_refl _
    · exact Nat.div_le_div_right (by omega)
  · exact Nat.zero_le _

/-- The first block of a write, and the blocks after it. -/
theorem missing_round (more : n ≠ 0) (fits : off + n ≤ MAXFILE * BSIZE)
    (grown : ∀ bn, (s.lookup i bn).isSome = true → (t.lookup i bn).isSome = true)
    (here : (t.lookup i (off / BSIZE)).isSome = true) :
    s.lacks i (off / BSIZE) + (t.missing i (off + min n (BSIZE - off % BSIZE))
      (n - min n (BSIZE - off % BSIZE))).card ≤ (s.missing i off n).card := by
  obtain ⟨some_byte, within, -⟩ := @round_fits off n more
  have one : ∀ bn, off / BSIZE ≤ bn → bn ≤ (off + min n (BSIZE - off % BSIZE) - 1) / BSIZE →
      bn = off / BSIZE := by
    intro bn low high
    simp only [BSIZE] at *
    omega
  have parts := @missing_append sb s t i off (min n (BSIZE - off % BSIZE))
    (n - min n (BSIZE - off % BSIZE)) grown fun bn _ low high => by rwa [one bn low high]
  have whole : min n (BSIZE - off % BSIZE) + (n - min n (BSIZE - off % BSIZE)) = n := by omega
  rw [whole] at parts
  exact Nat.le_trans (Nat.add_le_add_right (lacks_le some_byte (by omega)) _) parts

theorem writeLoop_counts (fuel : Nat) : ∀ (s : Fs sb) (off left : Nat) (src : Nat → Byte),
    Sound s → (s.inode i).valid = true → (s.ip i).type ≠ 0 → off + left ≤ MAXFILE * BSIZE →
    left ≤ fuel →
    Ends (Fs.writeLoop i fuel s off left src)
      (fun e => e = .outOfBlocks ∧ s.free < (s.missing i off left).card + s.reserve i)
      fun s' => (∀ bn, (s.lookup i bn).isSome = true → (s'.lookup i bn).isSome = true) ∧
        s.free + s'.reserve i ≤ s'.free + (s.missing i off left).card + s.reserve i := by
  induction fuel with
  | zero =>
      intro s off left src h _ _ _ enough
      exact ends_pure ⟨fun _ present => present, by omega⟩
  | succ fuel ih =>
      intro s off left src h loaded typed fits enough
      rw [Fs.writeLoop]
      split
      · exact ends_pure ⟨fun _ present => present, by omega⟩
      · rename_i more
        obtain ⟨some_byte, within, -⟩ := @round_fits off left more
        have small : off / BSIZE < MAXFILE := by
          simp only [BSIZE] at *
          omega
        apply ends_bind
        refine ends_mono (bmap_counts h loaded typed small) ?_ ?_
        · rintro e ⟨full, less⟩
          have first := @lacks_le sb s i off left (Nat.pos_of_ne_zero more) fits
          exact ⟨full, by omega⟩
        · rintro ⟨b, t⟩ ⟨mapped, used⟩
          have first : Written i off _ src s _ := Written.round mapped some_byte within
          dsimp only at first used ⊢
          obtain ⟨u, stored⟩ : ∃ u, t.setBlock b (memmove (t.block b) (off % BSIZE)
              (min left (BSIZE - off % BSIZE)) src) = u := ⟨_, rfl⟩
          rw [stored] at first ⊢
          have lookup : ∀ bn, u.lookup i bn = t.lookup i bn := fun bn =>
            stored ▸ lookup_setBlock mapped.grows.sound mapped.here _ i bn
          have reserve : u.reserve i = t.reserve i := by
            rw [← stored]
            unfold Fs.reserve
            rw [held_setBlock (mapped.grows.sound.not_indirect mapped.here)]
          have free : u.free = t.free := by
            rw [← stored]
            rfl
          have grown : ∀ bn, (s.lookup i bn).isSome = true → (u.lookup i bn).isSome = true := by
            intro bn present
            obtain ⟨c, found⟩ := Option.isSome_iff_exists.mp present
            rw [lookup, mapped.grows.lookup found]
            rfl
          have here : (u.lookup i (off / BSIZE)).isSome = true := by
            rw [lookup, mapped.here]
            rfl
          have counts := missing_round more fits grown here
          have typed' : (u.ip i).type ≠ 0 := by
            obtain ⟨addrs, same⟩ := first.copy
            rw [same]
            exact typed
          refine ends_mono (ih u _ _ _ first.sound (first.valid.trans loaded) typed' (by omega)
            (by omega)) ?_ ?_
          · rintro e ⟨full, less⟩
            exact ⟨full, by omega⟩
          · rintro s' ⟨grown', used'⟩
            exact ⟨fun bn present => grown' bn (grown bn present), by omega⟩

theorem writei_counts {devsw : Devsw} {src : Nat → Byte} {off n : Word} (h : Sound s)
    (ready : Ready s i) :
    Ends (s.writei devsw i src off n)
      (fun e => e = .outOfBlocks ∧ s.free < (s.missing i off.toNat n.toNat).card + s.reserve i)
      fun r => (r.1.inode i).ref = (s.inode i).ref ∧
        (∀ bn, (s.lookup i bn).isSome = true → (r.1.lookup i bn).isSome = true) ∧
        s.free + r.1.reserve i ≤
          r.1.free + (s.missing i off.toNat n.toNat).card + s.reserve i := by
  unfold Fs.writei
  rw [if_neg ready.not_dev]
  split
  · exact ends_pure ⟨rfl, fun _ present => present, by dsimp only; omega⟩
  · rename_i passes
    split
    · exact ends_pure ⟨rfl, fun _ present => present, by dsimp only; omega⟩
    · rename_i fits
      have sum : (off + n).toNat = off.toNat + n.toNat := by
        have small := (not_or.mp passes).2
        rw [wraps_iff] at small
        rw [BitVec.toNat_add, Nat.mod_eq_of_lt (Nat.lt_of_not_le small)]
      rw [sum] at fits
      have fits := Nat.le_of_not_lt fits
      have counts := writeLoop_counts n.toNat s off.toNat n.toNat src h ready.loaded ready.typed
        fits (Nat.le_refl _)
      have written := writeLoop_ends n.toNat s off.toNat n.toNat src h ready.loaded ready.typed
        fits (Nat.le_refl _)
      apply ends_bind
      refine ends_mono (counts.and written) (fun _ full => full) ?_
      rintro t ⟨⟨grown, used⟩, written⟩
      split
      · have loaded : (t.inode i).valid = true := written.valid.trans ready.loaded
        have held := held_update { t.ip i with size := off + n } loaded rfl rfl
        refine ends_pure ⟨?_, ?_, ?_⟩
        · exact (by simp [Fs.iupdate, Fs.setDinode, Fs.setCopy, Fs.setInode] :
            _ = (t.inode i).ref).trans written.ref
        · intro bn present
          have there := grown bn present
          unfold Fs.lookup at there ⊢
          rw [held]
          exact there
        · unfold Fs.reserve at used ⊢
          rw [held]
          exact used
      · exact ends_pure ⟨written.ref, grown, used⟩

end Counts

/-! ## Two writes one after the other -/

section Overlaid
variable {s t u : Fs sb} {i : Inum sb} {src : Nat → Byte} {off n k : Word}

theorem Overlaid.nothing (h : Sound s) (ready : Ready s i) (src : Nat → Byte) (off : Word) :
    Overlaid i src off 0 s s where
  sound := h
  ready := ready
  contents := by simp [splice]
  inode := fun _ _ => rfl
  dinode := fun _ _ => rfl
  coherent := fun same => same
  others := fun _ _ _ => rfl

theorem Overlaid.append (first : Overlaid i src off n s t)
    (second : Overlaid i (fun q => src (n.toNat + q)) (off + n) k t u)
    (low : off.toNat ≤ (s.ip i).size.toNat) (room : off.toNat + n.toNat < 2 ^ 32)
    (sum : (n + k).toNat = n.toNat + k.toNat) : Overlaid i src off (n + k) s u where
  sound := second.sound
  ready := second.ready
  contents := by
    have start : (off + n).toNat = off.toNat + n.toNat := by
      rw [BitVec.toNat_add, Nat.mod_eq_of_lt room]
    have length : ((List.range n.toNat).map src).length = n.toNat := by simp
    have within : off.toNat ≤ (s.contents i).length := by simpa using low
    have joined := splice_splice within ((List.range n.toNat).map src)
      ((List.range k.toNat).map fun q => src (n.toNat + q))
    rw [length] at joined
    rw [second.contents, first.contents, start, joined, sum, List.range_add, List.map_append,
      List.map_map]
    rfl
  inode := fun j other => (second.inode j other).trans (first.inode j other)
  dinode := fun j other => (second.dinode j other).trans (first.dinode j other)
  coherent := fun same => second.coherent (first.coherent same)
  others := fun j p other => (second.others j p other).trans (first.others j p other)

theorem Overlaid.size (h : Overlaid i src off n s t) (low : off.toNat ≤ (s.ip i).size.toNat) :
    (t.ip i).size.toNat = max (s.ip i).size.toNat (off.toNat + n.toNat) := by
  have length := congrArg List.length h.contents
  rw [contents_length, splice_length (by simpa using low)] at length
  simpa using length

/-- The blocks that have been written are there. -/
theorem Overlaid.present (h : Overlaid i src off n s t) (low : off.toNat ≤ (s.ip i).size.toNat)
    (bn : Nat) (some_byte : 0 < n.toNat) (first : off.toNat / BSIZE ≤ bn)
    (last : bn ≤ (off.toNat + n.toNat - 1) / BSIZE) : (t.lookup i bn).isSome = true := by
  have size := h.size low
  have block : max off.toNat (bn * BSIZE) / BSIZE = bn := by
    simp only [BSIZE] at *
    omega
  have byte := h.ready.whole (max off.toNat (bn * BSIZE)) (by
    simp only [BSIZE] at *
    omega)
  rw [byte_isSome, block] at byte
  exact byte

end Overlaid

/-! ## filewrite() -/

inductive FileType where
  | FD_NONE | FD_PIPE | FD_INODE
  deriving DecidableEq

structure File (sb : Superblock) where
  type : FileType
  writable : Bool
  ip : Inum sb
  off : Word

inductive Stop where
  | fs (e : Panic)
  /-- short filewrite -/
  | shortFilewrite
  | filewrite

/-- `((MAXOPBLOCKS-1-1-2) / 2) * 512` -/
def maxChunk : Nat := 1536

/-- The `int` that writei() returns. -/
def returned : Option Word → Int
  | none => -1
  | some r => r.toInt

/-- The loop of filewrite() with `i` bytes written. -/
def filewriteLoop (devsw : Devsw) (addr : Nat → Byte) (n : Int) (s : Fs sb) (f : File sb)
    (i : Nat) : Except Stop (Fs sb × File sb × Nat) :=
  if _more : (i : Int) < n then do
    let n1 := min (n.toNat - i) maxChunk
    let s ← (s.ilock f.ip).mapError .fs
    let (s, r) ←
      (s.writei devsw f.ip (fun q => addr (i + q)) f.off (BitVec.ofNat 32 n1)).mapError .fs
    let r : Int := returned r
    let f := if r > 0 then { f with off := f.off + BitVec.ofInt 32 r } else f
    if r < 0 then pure (s, f, i)
    else if r ≠ n1 then .error .shortFilewrite
    else filewriteLoop devsw addr n s f (i + n1)
  else pure (s, f, i)
termination_by n.toNat - i
decreasing_by
  simp only [maxChunk]
  omega

def filewrite (devsw : Devsw) (pipewrite : Int) (s : Fs sb) (f : File sb) (addr : Nat → Byte)
    (n : Int) : Except Stop (Fs sb × File sb × Int) :=
  if f.writable = false then pure (s, f, -1)
  else
    match f.type with
    | .FD_PIPE => pure (s, f, pipewrite)
    | .FD_INODE => do
        let (s, f, i) ← filewriteLoop devsw addr n s f 0
        pure (s, f, if (i : Int) = n then n else -1)
    | .FD_NONE => .error .filewrite

/-- The bytes that filewrite() writes: all of them, or as many chunks as fit. -/
def written (off n : Nat) : Nat :=
  if off + n ≤ MAXFILE * BSIZE then n
  else (MAXFILE * BSIZE - off) / maxChunk * maxChunk

theorem written_le (off n : Nat) : written off n ≤ n := by
  unfold written
  simp only [maxChunk, MAXFILE, NDIRECT, NINDIRECT, BSIZE] at *
  split <;> omega

/-- The largest number of chunks that fit, where not everything does. -/
theorem written_largest {off n : Nat} (low : off ≤ MAXFILE * BSIZE)
    (large : MAXFILE * BSIZE < off + n) :
    maxChunk ∣ written off n ∧ off + written off n ≤ MAXFILE * BSIZE ∧
      ∀ m, maxChunk ∣ m → off + m ≤ MAXFILE * BSIZE → m ≤ written off n := by
  rw [written, if_neg (Nat.not_le_of_lt large)]
  refine ⟨Nat.dvd_mul_left _ _, ?_, ?_⟩
  · have fits := Nat.div_mul_le_self (MAXFILE * BSIZE - off) maxChunk
    omega
  · rintro m ⟨k, rfl⟩ fits
    rw [Nat.mul_comm]
    refine Nat.mul_le_mul_right _ ((Nat.le_div_iff_mul_le (by decide)).mpr ?_)
    rw [Nat.mul_comm]
    omega

/-- One round of the loop is within what is written in the end, or it is refused there. -/
theorem written_round {off n i : Nat} (more : i < n) (whole : i % maxChunk = 0)
    (within : i ≤ written off n) (low : off ≤ MAXFILE * BSIZE) :
    if off + i + min (n - i) maxChunk ≤ MAXFILE * BSIZE then
      i + min (n - i) maxChunk ≤ written off n ∧
        ((i + min (n - i) maxChunk) % maxChunk = 0 ∨ i + min (n - i) maxChunk = n)
    else i = written off n ∧ written off n < n := by
  unfold written at *
  simp only [maxChunk, MAXFILE, NDIRECT, NINDIRECT, BSIZE] at *
  by_cases all : off + n ≤ (11 + 128) * 512
  · simp only [if_pos all] at *
    rw [if_pos (by omega)]
    omega
  · simp only [if_neg all] at *
    by_cases fits : off + i + min (n - i) 1536 ≤ (11 + 128) * 512
    · rw [if_pos fits]
      omega
    · rw [if_neg fits]
      omega

section Filewrite
variable {devsw : Devsw} {s t : Fs sb} {f : File sb} {addr : Nat → Byte} {n : Int}

/-- The size of a file whose blocks are there. -/
theorem Ready.size_le {i : Inum sb} (ready : Ready s i) :
    (s.ip i).size.toNat ≤ MAXFILE * BSIZE := by
  by_contra large
  have small := lookup_small (byte_isSome.symm.trans (ready.whole (MAXFILE * BSIZE) (by omega)))
  simp only [BSIZE, MAXFILE, NDIRECT, NINDIRECT] at small
  omega

/-- Where the loop stands after `i` bytes. -/
structure Writing (s : Fs sb) (f : File sb) (addr : Nat → Byte) (n : Nat) (t : Fs sb)
    (g : File sb) (i : Nat) : Prop where
  overlaid : Overlaid f.ip addr f.off (BitVec.ofNat 32 i) s t
  file : g = { f with off := f.off + BitVec.ofNat 32 i }
  ref : (t.inode f.ip).ref = (s.inode f.ip).ref
  within : i ≤ written f.off.toNat n
  grown : ∀ bn, (s.lookup f.ip bn).isSome = true → (t.lookup f.ip bn).isSome = true
  used : s.free + t.reserve f.ip ≤
    t.free + (s.missing f.ip f.off.toNat i).card + s.reserve f.ip

/-- The loop writes the bytes that fit. -/
theorem filewriteLoop_ends (ready : Ready s f.ip)
    (referenced : 1 ≤ (s.inode f.ip).ref) (low : f.off.toNat ≤ (s.ip f.ip).size.toNat)
    (small : n < 2 ^ 31) (nonneg : 0 ≤ n) (g : File sb) (i : Nat)
    (writing : Writing s f addr n.toNat t g i) (whole : i % maxChunk = 0 ∨ (i : Int) = n) :
    Ends (filewriteLoop devsw addr n t g i)
      (fun e => e = .fs .outOfBlocks ∧ s.free <
        (s.missing f.ip f.off.toNat (written f.off.toNat n.toNat)).card + s.reserve f.ip)
      fun r => Writing s f addr n.toNat r.1 r.2.1 r.2.2 ∧
        r.2.2 = written f.off.toNat n.toNat := by
  obtain ⟨left, count⟩ : ∃ left, n.toNat - i = left := ⟨_, rfl⟩
  induction left using Nat.strong_induction_on generalizing t g i with
  | _ left ih =>
    have limit := ready.size_le
    rw [filewriteLoop]
    split
    · rename_i more
      obtain ⟨overlaid, rfl, ref, within, grown, used⟩ := writing
      have whole : i % maxChunk = 0 := whole.resolve_right (by omega)
      have round := @written_round f.off.toNat n.toNat i (by omega) whole within
        (Nat.le_trans low limit)
      have size := overlaid.size low
      have bytes : (BitVec.ofNat 32 i).toNat = i := Nat.mod_eq_of_lt (by omega)
      rw [bytes] at size
      have reached : f.off.toNat + i ≤ MAXFILE * BSIZE := by
        have after := overlaid.ready.size_le
        omega
      obtain ⟨n1, chunk⟩ : ∃ n1, min (n.toNat - i) maxChunk = n1 := ⟨_, rfl⟩
      have positive : 0 < n1 ∧ n1 ≤ 1536 := by
        simp only [maxChunk] at chunk
        omega
      have count : (BitVec.ofNat 32 n1).toNat = n1 := Nat.mod_eq_of_lt (by omega)
      have off : (f.off + BitVec.ofNat 32 i).toNat = f.off.toNat + i := by
        simp only [MAXFILE, BSIZE, NDIRECT, NINDIRECT] at reached
        rw [BitVec.toNat_add, bytes, Nat.mod_eq_of_lt (by omega)]
      have locked : t.ilock f.ip = .ok t := by
        unfold Fs.ilock
        rw [if_neg (by omega), if_pos overlaid.ready.loaded]
        rfl
      rw [chunk] at round ⊢
      rw [locked]
      change Ends ((t.writei devsw f.ip (fun q => addr (i + q)) (f.off + BitVec.ofNat 32 i)
        (BitVec.ofNat 32 n1)).mapError Stop.fs >>= _) _ _
      by_cases fits : f.off.toNat + i + n1 ≤ MAXFILE * BSIZE
      · rw [if_pos fits] at round
        have present := overlaid.present low
        rw [bytes] at present
        have parts := @missing_append sb s t f.ip f.off.toNat i n1 grown present
        have all := @missing_le sb s f.ip f.off.toNat _ _ round.1
        have counts := @writei_counts sb t f.ip devsw (fun q => addr (i + q))
          (f.off + BitVec.ofNat 32 i) (BitVec.ofNat 32 n1) overlaid.sound overlaid.ready
        have wrote := counts.and (writei_ends overlaid.sound overlaid.ready)
        rw [off, count] at wrote
        apply ends_bind
        refine ends_mono (ends_mapError Stop.fs wrote) ?_ ?_
        · rintro e ⟨e', rfl, full, less⟩
          exact ⟨congrArg Stop.fs full, by omega⟩
        · rintro ⟨u, r⟩ ⟨⟨ref', grown', used'⟩, done⟩
          have passes : ¬ ((t.ip f.ip).size.toNat < f.off.toNat + i ∨
              2 ^ 32 ≤ f.off.toNat + i + n1 ∨ MAXFILE * BSIZE < f.off.toNat + i + n1) := by
            simp only [MAXFILE, BSIZE, NDIRECT, NINDIRECT] at *
            omega
          rw [if_neg passes] at done
          obtain ⟨rfl, overlaid'⟩ := done
          have answer : returned (some (BitVec.ofNat 32 n1)) = n1 := by
            rw [returned, BitVec.toInt_eq_toNat_of_lt (by omega), count]
          dsimp only at ref' grown' used' ⊢
          have some_byte : (n1 : Int) > 0 := by omega
          have no_error : ¬ (n1 : Int) < 0 := by omega
          rw [answer, if_pos some_byte, if_neg no_error, if_neg (not_not.mpr rfl)]
          have sum : BitVec.ofNat 32 i + BitVec.ofNat 32 n1 = BitVec.ofNat 32 (i + n1) :=
            (BitVec.ofNat_add i n1).symm
          refine ih (n.toNat - (i + n1)) (by omega) _ (i + n1) ?_ ?_ rfl
          · constructor
            case overlaid =>
              rw [← sum]
              have shifted : (fun q => addr ((BitVec.ofNat 32 i).toNat + q)) =
                  fun q => addr (i + q) := by rw [bytes]
              refine overlaid.append (shifted ▸ overlaid') low (by omega) ?_
              rw [sum, bytes, count]
              exact Nat.mod_eq_of_lt (by omega)
            case file =>
              rw [← sum, ← BitVec.add_assoc]
              rfl
            case ref => exact ref'.trans ref
            case within => exact round.1
            case grown => exact fun bn there => grown' bn (grown bn there)
            case used => omega
          · rcases round.2 with on | all
            · exact Or.inl on
            · exact Or.inr (by omega)
      · rw [if_neg fits] at round
        rw [writei_refused overlaid.ready (Or.inr (Or.inr (by omega)))]
        exact ends_pure ⟨⟨overlaid, rfl, ref, within, grown, used⟩, round.1⟩
    · rename_i done
      have within := writing.within
      have bound := written_le f.off.toNat n.toNat
      exact ends_pure ⟨writing, by dsimp only; omega⟩

/-- filewrite() does to the file what one write of the bytes that fit does, and moves the
offset as far.  The only panic is that of balloc(), where the blocks that are missing are more
than those that are free. -/
theorem filewrite_chunks (devsw : Devsw) (pipewrite : Int) (addr : Nat → Byte) (h : Sound s)
    (ready : Ready s f.ip) (referenced : 1 ≤ (s.inode f.ip).ref) (type : f.type = .FD_INODE)
    (writable : f.writable = true) (low : f.off.toNat ≤ (s.ip f.ip).size.toNat) (nonneg : 0 ≤ n)
    (small : n < 2 ^ 31) :
    Ends (filewrite devsw pipewrite s f addr n)
      (fun e => e = .fs .outOfBlocks ∧ s.free <
        (s.missing f.ip f.off.toNat (written f.off.toNat n.toNat)).card + s.reserve f.ip)
      fun r =>
        r.1.contents f.ip = splice (s.contents f.ip) f.off.toNat
          ((List.range (written f.off.toNat n.toNat)).map addr) ∧
        (∀ t count, s.writei devsw f.ip addr f.off
            (BitVec.ofNat 32 (written f.off.toNat n.toNat)) = .ok (t, count) →
          r.1.contents f.ip = t.contents f.ip) ∧
        Overlaid f.ip addr f.off (BitVec.ofNat 32 (written f.off.toNat n.toNat)) s r.1 ∧
        r.2.1 = { f with off := r.2.1.off } ∧
        r.2.1.off.toNat = f.off.toNat + written f.off.toNat n.toNat ∧
        r.2.2 = if (written f.off.toNat n.toNat : Int) = n then n else -1 := by
  have start : Writing s f addr n.toNat s f 0 := by
    constructor
    case overlaid => exact .nothing h ready addr f.off
    case file =>
      rw [BitVec.add_zero]
    case ref => rfl
    case within => exact Nat.zero_le _
    case grown => exact fun _ present => present
    case used => omega
  unfold filewrite
  rw [if_neg (by simp [writable]), type]
  apply ends_bind
  refine ends_mono (filewriteLoop_ends ready referenced low small nonneg f 0 start (Or.inl rfl))
    (fun _ full => full) ?_
  rintro ⟨t, g, i⟩ ⟨writing, whole⟩
  dsimp only at writing whole
  subst whole
  obtain ⟨overlaid, same, -⟩ := writing
  have size := ready.size_le
  have inside : f.off.toNat + written f.off.toNat n.toNat ≤ MAXFILE * BSIZE := by
    have after := overlaid.ready.size_le
    have larger := overlaid.size low
    have bound := written_le f.off.toNat n.toNat
    rw [BitVec.toNat_ofNat, Nat.mod_eq_of_lt (by omega)] at larger
    omega
  have bytes : (BitVec.ofNat 32 (written f.off.toNat n.toNat)).toNat =
      written f.off.toNat n.toNat := by
    simp only [MAXFILE, BSIZE, NDIRECT, NINDIRECT] at inside
    exact Nat.mod_eq_of_lt (by omega)
  have contents := overlaid.contents
  rw [bytes] at contents
  refine ends_pure ⟨contents, ?_, overlaid, ?_, ?_, rfl⟩
  · intro t' count single
    have once := (writei_ends h ready).ok single
    rw [bytes, if_neg] at once
    · rw [contents, once.2.contents, bytes]
    · simp only [MAXFILE, BSIZE, NDIRECT, NINDIRECT] at *
      omega
  · subst same
    simp only [type]
  · subst same
    dsimp only
    rw [BitVec.toNat_add, bytes, Nat.mod_eq_of_lt]
    simp only [MAXFILE, BSIZE, NDIRECT, NINDIRECT] at inside
    omega

end Filewrite

/-- Inode 2, open for writing at its start. -/
def openFile : File fsImg := { type := .FD_INODE, writable := true, ip := two, off := 0 }

theorem filewrite_chunks_oneFile :
    Ends (filewrite noDevice 0 oneFile openFile (fun _ => 7) 2000) (fun e => e = .fs .outOfBlocks)
      fun r => r.1.contents two = splice (oneFile.contents two) 0
        ((List.range 2000).map fun _ => 7) ∧ r.2.2 = 2000 := by
  have low : openFile.off.toNat ≤ (oneFile.ip openFile.ip).size.toNat := by
    have start : openFile.off.toNat = 0 := rfl
    rw [start]
    exact Nat.zero_le _
  have referenced : 1 ≤ (oneFile.inode openFile.ip).ref := by
    have one : (oneFile.inode two).ref = 1 := by simp [oneFile]
    exact Int.le_of_eq one.symm
  have all : written openFile.off.toNat (2000 : Int).toNat = 2000 := by
    have start : openFile.off.toNat = 0 := rfl
    rw [start]
    exact if_pos (by decide)
  refine ends_mono (filewrite_chunks noDevice 0 (fun _ => 7) oneFile_sound
    (oneFile_ready two rfl) referenced rfl rfl low (by decide) (by decide)) ?_ ?_
  · exact fun e full => full.1
  · rintro r ⟨contents, -, -, -, -, count⟩
    rw [all] at contents count
    exact ⟨contents, count⟩

end Xv6.Public1.Blocks
