import Mathlib.Data.Finset.Card
import Xv6.Lib.Outcome
import Xv6.Public1.Blocks

/-!
# Which blocks the inodes have (xv6-public_1)

A block number can stand in three places: among the direct addresses of an
inode, as its indirect block, and in the indirect block.  Every data block whose
bit is set stands in one place, and nothing else stands in any: balloc() with
the store that follows it, and bfree() with the one that goes with it, keep that.
-/

set_option autoImplicit false

namespace Xv6.Public1.Blocks

open Xv6.Lib.Words
open Xv6.Lib.Allocation
open Xv6.Lib.Outcome

/-! ## Words of a block -/

theorem word_setWord (b : Block) (j k : Fin NINDIRECT) (w : Word) :
    word (setWord b j w) k = if k = j then w else word b k := by
  have quarter : ∀ q, q < 4 → (4 * k.val + q) / 4 = k.val ∧ (4 * k.val + q) % 4 = q := by
    intro q small
    omega
  unfold word setWord
  simp only [quarter 0 (by decide), quarter 1 (by decide), quarter 2 (by decide),
    quarter 3 (by decide), Fin.val_inj]
  split
  · exact wordBytes_joined w
  · rfl

theorem word_zero (j : Fin NINDIRECT) : word (fun _ => 0) j = 0 := by
  change (0 : Byte) ++ (0 : Byte) ++ (0 : Byte) ++ (0 : Byte) = (0 : Word)
  decide

/-! ## Places of a block number -/

variable {sb : Superblock}

inductive Slot (sb : Superblock) where
  | direct (i : Inum sb) (k : Fin NDIRECT)
  | indirect (i : Inum sb)
  | entry (i : Inum sb) (j : Fin NINDIRECT)
  deriving DecidableEq

def Slot.inum : Slot sb → Inum sb
  | .direct i _ | .indirect i | .entry i _ => i

/-- A block number that is not 0. -/
def nonzero (b : Word) : Option Word := if b = 0 then none else some b

theorem nonzero_zero : nonzero 0 = none := if_pos rfl

theorem nonzero_of_ne {b : Word} (other : b ≠ 0) : nonzero b = some b := if_neg other

theorem nonzero_some {b c : Word} : nonzero b = some c ↔ b = c ∧ b ≠ 0 := by
  by_cases zero : b = 0
  · rw [zero, nonzero_zero]
    simp
  · rw [nonzero_of_ne zero, Option.some.injEq]
    exact (and_iff_left zero).symm

theorem nonzero_none {b : Word} : nonzero b = none ↔ b = 0 := by
  by_cases zero : b = 0
  · rw [zero, nonzero_zero]
    simp
  · rw [nonzero_of_ne zero]
    simpa using zero

namespace Fs

/-- The inode that counts: in memory if it has been loaded. -/
def view (s : Fs sb) (i : Inum sb) : Dinode :=
  if (s.inode i).valid = true then s.ip i else s.dinode i

/-- The block number in a place of an allocated inode. -/
def held (s : Fs sb) : Slot sb → Option Word
  | .direct i k => if (s.view i).type = 0 then none else nonzero ((s.view i).addrs k.castSucc)
  | .indirect i =>
      if (s.view i).type = 0 then none else nonzero ((s.view i).addrs (Fin.last NDIRECT))
  | .entry i j =>
      if (s.view i).type = 0 then none
      else (nonzero ((s.view i).addrs (Fin.last NDIRECT))).bind fun b => nonzero (word (s.block b) j)

end Fs

/-- The data area. -/
def Superblock.data (sb : Superblock) : Set Word := {b | sb.nmeta ≤ b.toNat ∧ b.toNat < sb.size}

def Fs.used (s : Fs sb) : Set Word := {b | b ∈ sb.data ∧ s.bitmap b = true}

/-- The number of free blocks. -/
def Fs.free (s : Fs sb) : Nat :=
  ((Finset.range sb.size).filter fun b => s.bitmap (BitVec.ofNat 32 b) = false).card

structure Sound (s : Fs sb) : Prop where
  blocks : Holds sb.data s.held ∅ s.used
  metadata : ∀ b : Word, b.toNat < sb.nmeta → s.bitmap b = true

theorem nmeta_pos : 0 < sb.nmeta := Nat.add_pos_left sb.boot_block _

theorem zero_not_data : (0 : Word) ∉ sb.data := fun member =>
  absurd member.1 (Nat.not_le.mpr nmeta_pos)

section Sound
variable {s : Fs sb} (h : Sound s)
include h

theorem Sound.data {slot : Slot sb} {b : Word} (held : s.held slot = some b) : b ∈ sb.data :=
  h.blocks.member held

theorem Sound.bit {slot : Slot sb} {b : Word} (held : s.held slot = some b) : s.bitmap b = true :=
  (h.blocks.mem held).2

theorem Sound.fresh {b : Word} (clear : s.bitmap b = false) (slot : Slot sb) :
    s.held slot ≠ some b := by
  intro held
  rw [h.bit held] at clear
  cases clear

end Sound

/-! ## Stores -/

section Stores
variable {s : Fs sb} {i : Inum sb} {b : Word}

theorem used_setBit_true (member : b ∈ sb.data) : (s.setBit b true).used = insert b s.used := by
  ext c
  by_cases here : c = b
  · subst here
    simp [Fs.used, Fs.setBit, member]
  · simp [Fs.used, Fs.setBit, here]

theorem used_setBit_false : (s.setBit b false).used = s.used \ {b} := by
  ext c
  by_cases here : c = b
  · subst here
    simp [Fs.used, Fs.setBit]
  · simp [Fs.used, Fs.setBit, here]

/-- A store to a block that is nobody's indirect block. -/
theorem held_setBlock (away : ∀ i, s.held (.indirect i) ≠ some b) (data : Block) :
    (s.setBlock b data).held = s.held := by
  funext slot
  cases slot with
  | direct i k => rfl
  | indirect i => rfl
  | entry i j =>
      have other := away i
      simp only [Fs.held] at other ⊢
      change (if (s.view i).type = 0 then none else
        (nonzero ((s.view i).addrs (Fin.last NDIRECT))).bind fun c =>
          nonzero (word (Function.update s.block b data c) j)) = _
      split
      · rfl
      · rename_i typed
        rw [if_neg typed] at other
        cases found : nonzero ((s.view i).addrs (Fin.last NDIRECT)) with
        | none => rfl
        | some c =>
            have elsewhere : c ≠ b := by
              rintro rfl
              exact other found
            simp only [Option.bind_some, Function.update_of_ne elsewhere]

/-- The places depend on the type and the addresses of the inodes, and on the blocks. -/
theorem held_congr {s' : Fs sb} (type : ∀ i, (s'.view i).type = (s.view i).type)
    (addrs : ∀ i, (s'.view i).addrs = (s.view i).addrs) (block : s'.block = s.block) :
    s'.held = s.held := by
  funext slot
  cases slot with
  | direct i k => simp only [Fs.held, type, addrs]
  | indirect i => simp only [Fs.held, type, addrs]
  | entry i j => simp only [Fs.held, type, addrs, block]

theorem Sound.congr {s' : Fs sb} (h : Sound s) (held : s'.held = s.held)
    (bitmap : s'.bitmap = s.bitmap) : Sound s' := by
  have used : s'.used = s.used := by
    unfold Fs.used
    rw [bitmap]
  constructor
  case blocks => exact held ▸ used ▸ h.blocks
  case metadata => exact bitmap ▸ h.metadata

/-- Fields other than the type and the addresses are stored and written back. -/
theorem held_update (copy : Dinode) (loaded : (s.inode i).valid = true)
    (type : copy.type = (s.ip i).type) (addrs : copy.addrs = (s.ip i).addrs) :
    ((s.setCopy i copy).iupdate i).held = s.held := by
  have view : ∀ j, ((s.setCopy i copy).iupdate i).view j = if j = i then copy else s.view j := by
    intro j
    by_cases here : j = i
    · subst here
      simp [Fs.view, Fs.iupdate, Fs.setDinode, Fs.setCopy, Fs.setInode, Fs.ip, loaded]
    · simp [Fs.view, Fs.iupdate, Fs.setDinode, Fs.setCopy, Fs.setInode, Fs.ip, here]
  have mine : s.view i = s.ip i := if_pos loaded
  apply held_congr
  · intro j
    rw [view]
    split
    · rename_i here
      rw [here, mine, type]
    · rfl
  · intro j
    rw [view]
    split
    · rename_i here
      rw [here, mine, addrs]
    · rfl
  · rfl

theorem view_setAddr (loaded : (s.inode i).valid = true) (k : Fin (NDIRECT + 1)) (addr : Word)
    (j : Inum sb) : (s.setAddr i k addr).view j =
      if j = i then { s.view i with addrs := Function.update (s.view i).addrs k addr }
      else s.view j := by
  by_cases here : j = i
  · subst here
    simp [Fs.view, Fs.setAddr, Fs.setCopy, Fs.setInode, Fs.ip, loaded]
  · simp [Fs.view, Fs.setAddr, Fs.setCopy, Fs.setInode, Fs.ip, here]

/-- A direct address is stored. -/
theorem held_setDirect (loaded : (s.inode i).valid = true) (typed : (s.view i).type ≠ 0)
    (k : Fin NDIRECT) (addr : Word) : (s.setAddr i k.castSucc addr).held =
      Function.update s.held (.direct i k) (nonzero addr) := by
  funext slot
  cases slot with
  | direct j k' =>
      by_cases here : j = i
      · subst here
        by_cases same : k' = k
        · subst same
          simp [Fs.held, view_setAddr loaded, typed]
        · simp [Fs.held, view_setAddr loaded, typed, same]
      · simp [Fs.held, view_setAddr loaded, here]
  | indirect j =>
      by_cases here : j = i
      · subst here
        have last : Fin.last NDIRECT ≠ k.castSucc := (Fin.castSucc_ne_last k).symm
        simp [Fs.held, view_setAddr loaded, typed, Function.update_of_ne last]
      · simp [Fs.held, view_setAddr loaded, here]
  | entry j k' =>
      by_cases here : j = i
      · subst here
        have last : Fin.last NDIRECT ≠ k.castSucc := (Fin.castSucc_ne_last k).symm
        simp [Fs.held, view_setAddr loaded, typed, Function.update_of_ne last]
        rfl
      · simp [Fs.held, view_setAddr loaded, here]
        rfl

/-- A zeroed block becomes the indirect block. -/
theorem held_setIndirect (loaded : (s.inode i).valid = true) (typed : (s.view i).type ≠ 0)
    (before : s.held (.indirect i) = none) (zeroed : s.block b = fun _ => 0) :
    (s.setAddr i (Fin.last NDIRECT) b).held =
      Function.update s.held (.indirect i) (nonzero b) := by
  have absent : nonzero ((s.view i).addrs (Fin.last NDIRECT)) = none := by
    simpa [Fs.held, typed] using before
  funext slot
  cases slot with
  | direct j k =>
      by_cases here : j = i
      · subst here
        simp [Fs.held, view_setAddr loaded]
      · simp [Fs.held, view_setAddr loaded, here]
  | indirect j =>
      by_cases here : j = i
      · subst here
        simp [Fs.held, view_setAddr loaded, typed]
      · simp [Fs.held, view_setAddr loaded, here]
  | entry j k =>
      by_cases here : j = i
      · subst here
        have words : ∀ c, nonzero b = some c →
            nonzero (word ((s.setAddr j (Fin.last NDIRECT) b).block c) k) = none := by
          intro c same
          obtain ⟨rfl, _⟩ := nonzero_some.mp same
          change nonzero (word (s.block b) k) = none
          rw [zeroed, word_zero, nonzero_zero]
        cases found : nonzero b with
        | none => simp [Fs.held, view_setAddr loaded, found, absent]
        | some c => simp [Fs.held, view_setAddr loaded, found, words c found, absent]
      · simp [Fs.held, view_setAddr loaded, here]
        rfl

/-- A word of the indirect block is stored. -/
theorem held_setEntry (once : ∀ j, s.held (.indirect j) = some b → j = i)
    (indirect : s.held (.indirect i) = some b) (k : Fin NINDIRECT) (addr : Word) :
    (s.setBlock b (setWord (s.block b) k addr)).held =
      Function.update s.held (.entry i k) (nonzero addr) := by
  have typed : (s.view i).type ≠ 0 := by
    intro zero
    simp [Fs.held, zero] at indirect
  have mine : nonzero ((s.view i).addrs (Fin.last NDIRECT)) = some b := by
    simpa [Fs.held, typed] using indirect
  funext slot
  cases slot with
  | direct j k' =>
      have other : Slot.direct j k' ≠ .entry i k := by simp
      rw [Function.update_of_ne other]
      rfl
  | indirect j =>
      have other : Slot.indirect j ≠ .entry i k := by simp
      rw [Function.update_of_ne other]
      rfl
  | entry j k' =>
      change (if (s.view j).type = 0 then none else
        (nonzero ((s.view j).addrs (Fin.last NDIRECT))).bind fun c =>
          nonzero (word (Function.update s.block b (setWord (s.block b) k addr) c) k')) = _
      by_cases here : j = i
      · subst here
        rw [if_neg typed, mine, Option.bind_some, Function.update_self, word_setWord]
        by_cases same : k' = k
        · subst same
          simp
        · simp [same, Fs.held, typed, mine]
      · have other : Slot.entry j k' ≠ .entry i k := by simp [here]
        rw [Function.update_of_ne other]
        simp only [Fs.held]
        split
        · rfl
        · rename_i allocated
          cases found : nonzero ((s.view j).addrs (Fin.last NDIRECT)) with
          | none => rfl
          | some c =>
              have elsewhere : c ≠ b := by
                rintro rfl
                exact here (once j (by simpa [Fs.held, allocated] using found))
              simp only [Option.bind_some, Function.update_of_ne elsewhere]

end Stores

/-! ## balloc() -/

section Balloc
variable {s : Fs sb} {i : Inum sb} {b : Word}

theorem free_setBit (small : b.toNat < sb.size) (clear : s.bitmap b = false) :
    (s.setBit b true).free + 1 = s.free := by
  have same : ∀ {n}, n < sb.size → (BitVec.ofNat 32 n = b ↔ n = b.toNat) := by
    intro n inside
    have bound := sb.size_uint
    constructor
    · rintro rfl
      rw [BitVec.toNat_ofNat, Nat.mod_eq_of_lt (by omega)]
    · rintro rfl
      exact BitVec.eq_of_toNat_eq (by simp)
  have mine : b.toNat ∈ (Finset.range sb.size).filter fun n =>
      s.bitmap (BitVec.ofNat 32 n) = false := by
    simp [small, clear]
  have erased : ((Finset.range sb.size).filter fun n =>
        (s.setBit b true).bitmap (BitVec.ofNat 32 n) = false) =
      ((Finset.range sb.size).filter fun n => s.bitmap (BitVec.ofNat 32 n) = false).erase
        b.toNat := by
    ext n
    rw [Finset.mem_filter, Finset.mem_erase, Finset.mem_filter, Finset.mem_range]
    change _ ∧ Function.update s.bitmap b true (BitVec.ofNat 32 n) = false ↔ _
    by_cases inside : n < sb.size
    · by_cases here : n = b.toNat
      · subst here
        simp
      · have other : BitVec.ofNat 32 n ≠ b := fun eq => here ((same inside).mp eq)
        simp [inside, here, Function.update_of_ne other]
    · simp [inside]
  unfold Fs.free
  rw [erased, Finset.card_erase_add_one mine]

/-- balloc() zeroes a free data block, and panics only when there is none. -/
theorem balloc_ends (h : Sound s) :
    Ends s.balloc (fun e => e = .outOfBlocks ∧ s.free = 0) fun r =>
      r.1 ∈ sb.data ∧ s.bitmap r.1 = false ∧
        r.2 = (s.setBit r.1 true).setBlock r.1 (fun _ => 0) := by
  unfold Fs.balloc
  split
  · rename_i full
    refine ends_error ⟨rfl, Finset.card_eq_zero.mpr ?_⟩
    ext n
    simp only [Finset.mem_filter, Finset.mem_range, Finset.notMem_empty, iff_false, not_and]
    intro inside clear
    have every := List.find?_eq_none.mp full n (List.mem_range.mpr inside)
    simp [clear] at every
  · rename_i n found
    have clear : s.bitmap (BitVec.ofNat 32 n) = false := by
      simpa using List.find?_some found
    have inside := List.mem_range.mp (List.mem_of_find?_eq_some found)
    have bound := sb.size_uint
    have value : (BitVec.ofNat 32 n).toNat = n := by
      rw [BitVec.toNat_ofNat, Nat.mod_eq_of_lt (by omega)]
    have low : sb.nmeta ≤ (BitVec.ofNat 32 n).toNat := by
      by_contra low
      rw [h.metadata _ (Nat.lt_of_not_le low)] at clear
      cases clear
    exact ends_pure ⟨⟨low, by rw [value]; exact inside⟩, clear, rfl⟩

/-- The block from balloc() is in no place yet. -/
theorem held_balloc (h : Sound s) (clear : s.bitmap b = false) :
    ((s.setBit b true).setBlock b fun _ => 0).held = s.held := by
  have away : ∀ i, (s.setBit b true).held (.indirect i) ≠ some b := by
    intro i
    exact h.fresh clear (.indirect i)
  rw [held_setBlock away]
  rfl

/-- A free block has got its place. -/
theorem Sound.claim {s' : Fs sb} (h : Sound s) (member : b ∈ sb.data) (clear : s.bitmap b = false)
    {slot : Slot sb} (empty : s.held slot = none)
    (bitmap : s'.bitmap = Function.update s.bitmap b true)
    (held : s'.held = Function.update s.held slot (some b)) : Sound s' := by
  have used : s'.used = insert b s.used := by
    rw [← used_setBit_true member]
    unfold Fs.used
    rw [bitmap]
    rfl
  constructor
  case blocks =>
    rw [held, used]
    refine h.blocks.insert member ?_ empty
    intro already
    rw [already.2] at clear
    cases clear
  case metadata =>
    intro c low
    have away : c ≠ b := by
      rintro rfl
      exact absurd member.1 (Nat.not_le.mpr low)
    rw [bitmap, Function.update_of_ne away]
    exact h.metadata c low

end Balloc

/-! ## bmap() -/

/-- The inode has got blocks, and nothing else has changed. -/
structure Grows (i : Inum sb) (s s' : Fs sb) : Prop where
  sound : Sound s'
  more : ∀ slot b, s.held slot = some b → s'.held slot = some b
  others : ∀ slot : Slot sb, slot.inum ≠ i → s'.held slot = s.held slot
  content : ∀ slot b, s.held slot = some b → (∀ j, slot ≠ .indirect j) → s'.block b = s.block b
  dinode : s'.dinode = s.dinode
  inode : ∀ j, j ≠ i → s'.inode j = s.inode j
  ref : (s'.inode i).ref = (s.inode i).ref
  valid : (s'.inode i).valid = (s.inode i).valid
  copy : ∃ addrs, s'.ip i = { s.ip i with addrs := addrs }

namespace Grows

variable {i : Inum sb} {s s' s'' : Fs sb}

theorem refl (h : Sound s) : Grows i s s := by
  constructor
  case sound => exact h
  case more => exact fun _ _ held => held
  case others => exact fun _ _ => rfl
  case content => exact fun _ _ _ _ => rfl
  case dinode => rfl
  case inode => exact fun _ _ => rfl
  case ref => rfl
  case valid => rfl
  case copy => exact ⟨(s.ip i).addrs, rfl⟩

theorem trans (first : Grows i s s') (second : Grows i s' s'') : Grows i s s'' := by
  constructor
  case sound => exact second.sound
  case more => exact fun slot b held => second.more slot b (first.more slot b held)
  case others => exact fun slot other => (second.others slot other).trans (first.others slot other)
  case content =>
    intro slot b held data
    exact (second.content slot b (first.more slot b held) data).trans
      (first.content slot b held data)
  case dinode => exact second.dinode.trans first.dinode
  case inode => exact fun j other => (second.inode j other).trans (first.inode j other)
  case ref => exact second.ref.trans first.ref
  case valid => exact second.valid.trans first.valid
  case copy =>
    obtain ⟨addrs, same⟩ := first.copy
    obtain ⟨addrs', same'⟩ := second.copy
    exact ⟨addrs', by rw [same', same]⟩

theorem type (h : Grows i s s') : (s'.ip i).type = (s.ip i).type := by
  obtain ⟨addrs, same⟩ := h.copy
  rw [same]

theorem size (h : Grows i s s') : (s'.ip i).size = (s.ip i).size := by
  obtain ⟨addrs, same⟩ := h.copy
  rw [same]

end Grows

section Bmap
variable {s : Fs sb} {i : Inum sb}

theorem view_loaded (loaded : (s.inode i).valid = true) : s.view i = s.ip i := if_pos loaded

/-- Whether the block was there, or has been allocated and zeroed. -/
structure Claimed (i : Inum sb) (s : Fs sb) (slot : Slot sb) (b : Word) (s' : Fs sb) : Prop where
  grows : Grows i s s'
  here : s'.held slot = some b
  how : s.held slot = some b ∧ s' = s ∨
    s.held slot = none ∧ s'.held = Function.update s.held slot (some b) ∧
      s'.block b = (fun _ => 0) ∧ s'.free + 1 = s.free

/-- balloc() and the store of its result. -/
theorem Claimed.insert {s' : Fs sb} (h : Sound s) {slot : Slot sb} {b : Word}
    (mine : slot.inum = i) (member : b ∈ sb.data) (clear : s.bitmap b = false)
    (empty : s.held slot = none) (bitmap : s'.bitmap = Function.update s.bitmap b true)
    (held : s'.held = Function.update s.held slot (some b))
    (content : ∀ slot c, s.held slot = some c → (∀ j, slot ≠ .indirect j) →
      s'.block c = s.block c)
    (zeroed : s'.block b = fun _ => 0) (dinode : s'.dinode = s.dinode)
    (inode : ∀ j, j ≠ i → s'.inode j = s.inode j)
    (ref : (s'.inode i).ref = (s.inode i).ref) (valid : (s'.inode i).valid = (s.inode i).valid)
    (copy : ∃ addrs, s'.ip i = { s.ip i with addrs := addrs }) :
    Claimed i s slot b s' := by
  have there : s'.held slot = some b := by
    rw [held]
    exact Function.update_self slot _ _
  have free : s'.free = (s.setBit b true).free := by
    unfold Fs.free
    rw [bitmap]
    rfl
  refine ⟨?_, there, Or.inr ⟨empty, held, zeroed, ?_⟩⟩
  · constructor
    case sound => exact h.claim member clear empty bitmap held
    case more =>
      intro other c before
      have elsewhere : other ≠ slot := by
        rintro rfl
        rw [empty] at before
        cases before
      rw [held, Function.update_of_ne elsewhere]
      exact before
    case others =>
      intro other apart
      have elsewhere : other ≠ slot := by
        rintro rfl
        exact apart mine
      rw [held, Function.update_of_ne elsewhere]
    case content => exact content
    case dinode => exact dinode
    case inode => exact inode
    case ref => exact ref
    case valid => exact valid
    case copy => exact copy
  · rw [free]
    exact free_setBit member.2 clear

/-- An address of the inode, which is `slot`. -/
theorem bmapAddr_ends (h : Sound s) {k : Fin (NDIRECT + 1)} {slot : Slot sb}
    (mine : slot.inum = i) (here : s.held slot = nonzero ((s.ip i).addrs k))
    (store : ∀ (t : Fs sb) b, t.inode = s.inode → t.held slot = none → t.view i = s.view i →
      t.block b = (fun _ => 0) →
      (t.setAddr i k b).held = Function.update t.held slot (nonzero b)) :
    Ends (s.bmapAddr i k) (fun e => e = .outOfBlocks ∧ s.free = 0) fun r =>
      Claimed i s slot r.1 r.2 := by
  unfold Fs.bmapAddr
  split
  · rename_i zero
    have empty : s.held slot = none := here.trans (nonzero_none.mpr zero)
    apply ends_bind
    refine ends_mono (balloc_ends h) (fun e full => full) ?_
    rintro ⟨b, t⟩ ⟨member, clear, same⟩
    dsimp only at member clear same ⊢
    have nonnull : b ≠ 0 := by
      rintro rfl
      exact zero_not_data member
    have kept := held_balloc h clear
    rw [← same] at kept
    have zeroed : t.block b = fun _ => 0 := by
      rw [same]
      exact Function.update_self b _ _
    have inode : t.inode = s.inode := by rw [same]; rfl
    have view : t.view i = s.view i := by rw [same]; rfl
    apply ends_pure
    apply Claimed.insert h mine member clear empty
    case bitmap =>
      rw [same]
      rfl
    case held =>
      rw [store t b inode (kept ▸ empty) view zeroed, kept, nonzero_of_ne nonnull]
    case content =>
      intro other c before _
      have elsewhere : c ≠ b := by
        rintro rfl
        exact h.fresh clear other before
      rw [same]
      exact Function.update_of_ne elsewhere _ _
    case zeroed => exact zeroed
    case dinode =>
      rw [same]
      rfl
    case inode =>
      intro j other
      rw [same]
      exact Function.update_of_ne other _ _
    case ref =>
      rw [same]
      simp [Fs.setAddr, Fs.setCopy, Fs.setInode, Fs.setBlock, Fs.setBit]
    case valid =>
      rw [same]
      simp [Fs.setAddr, Fs.setCopy, Fs.setInode, Fs.setBlock, Fs.setBit]
    case copy =>
      refine ⟨Function.update (s.ip i).addrs k b, ?_⟩
      rw [same]
      simp [Fs.setAddr, Fs.setCopy, Fs.setInode, Fs.setBlock, Fs.setBit, Fs.ip]
  · rename_i present
    have found : s.held slot = some ((s.ip i).addrs k) := here.trans (nonzero_of_ne present)
    exact ends_pure ⟨.refl h, found, Or.inl ⟨found, rfl⟩⟩

/-- An entry of the indirect block. -/
theorem bmapEntry_ends (h : Sound s) {indirect : Word} (there : s.held (.indirect i) = some indirect)
    (j : Fin NINDIRECT) :
    Ends (s.bmapEntry indirect j) (fun e => e = .outOfBlocks ∧ s.free = 0) fun r =>
      Claimed i s (.entry i j) r.1 r.2 := by
  have typed : (s.view i).type ≠ 0 := by
    intro zero
    simp [Fs.held, zero] at there
  have addr : nonzero ((s.view i).addrs (Fin.last NDIRECT)) = some indirect := by
    simpa [Fs.held, typed] using there
  have here : s.held (.entry i j) = nonzero (word (s.block indirect) j) := by
    simp [Fs.held, typed, addr]
  have once : ∀ j, s.held (.indirect j) = some indirect → j = i :=
    fun j other => Slot.indirect.inj (h.blocks.once other there)
  unfold Fs.bmapEntry
  split
  · rename_i zero
    have empty : s.held (.entry i j) = none := here.trans (nonzero_none.mpr zero)
    apply ends_bind
    refine ends_mono (balloc_ends h) (fun e full => full) ?_
    rintro ⟨b, t⟩ ⟨member, clear, same⟩
    dsimp only at member clear same ⊢
    have nonnull : b ≠ 0 := by
      rintro rfl
      exact zero_not_data member
    have apart : b ≠ indirect := by
      rintro rfl
      exact h.fresh clear _ there
    have kept := held_balloc h clear
    rw [← same] at kept
    have store : (t.setBlock indirect (setWord (t.block indirect) j b)).held =
        Function.update t.held (.entry i j) (nonzero b) := by
      apply held_setEntry
      · intro j other
        rw [kept] at other
        exact once j other
      · rw [kept]
        exact there
    apply ends_pure
    apply Claimed.insert h rfl member clear empty
    case bitmap =>
      rw [same]
      rfl
    case held => rw [store, kept, nonzero_of_ne nonnull]
    case content =>
      intro other c before data
      have elsewhere : c ≠ b := by
        rintro rfl
        exact h.fresh clear other before
      have away : c ≠ indirect := by
        rintro rfl
        exact data i (h.blocks.once before there)
      rw [same]
      exact (Function.update_of_ne away _ _).trans (Function.update_of_ne elsewhere _ _)
    case zeroed =>
      rw [same]
      exact (Function.update_of_ne apart _ _).trans (Function.update_self b _ _)
    case dinode =>
      rw [same]
      rfl
    case inode =>
      intro j other
      rw [same]
      rfl
    case ref =>
      rw [same]
      rfl
    case valid =>
      rw [same]
      rfl
    case copy =>
      rw [same]
      exact ⟨(s.ip i).addrs, rfl⟩
  · rename_i present
    have found : s.held (.entry i j) = some (word (s.block indirect) j) :=
      here.trans (nonzero_of_ne present)
    exact ends_pure ⟨.refl h, found, Or.inl ⟨found, rfl⟩⟩

end Bmap

/-- The place of the `bn`th block of an inode. -/
def place (i : Inum sb) (bn : Nat) : Option (Slot sb) :=
  if direct : bn < NDIRECT then some (.direct i ⟨bn, direct⟩)
  else if inside : bn - NDIRECT < NINDIRECT then some (.entry i ⟨bn - NDIRECT, inside⟩)
  else none

/-- The `bn`th block of an inode, if it has been allocated. -/
def Fs.lookup (s : Fs sb) (i : Inum sb) (bn : Nat) : Option Word := (place i bn).bind s.held

theorem place_inum {i : Inum sb} {bn : Nat} {slot : Slot sb} (there : place i bn = some slot) :
    slot.inum = i ∧ ∀ j, slot ≠ .indirect j := by
  unfold place at there
  split_ifs at there
  · cases there
    exact ⟨rfl, by simp⟩
  · cases there
    exact ⟨rfl, by simp⟩

theorem place_inj {i : Inum sb} {bn bn' : Nat} {slot : Slot sb} (first : place i bn = some slot)
    (second : place i bn' = some slot) : bn = bn' := by
  unfold place at first second
  split_ifs at first second
  · cases first
    cases second
    rfl
  · cases first
    cases second
  · cases first
    cases second
  · cases first
    simp only [Option.some.injEq, Slot.entry.injEq, Fin.mk.injEq, true_and] at second
    omega

/-- The blocks that bmap() may take besides the one it returns. -/
def Fs.reserve (s : Fs sb) (i : Inum sb) : Nat := if s.held (.indirect i) = none then 1 else 0

/-- What bmap() does for a block within MAXFILE. -/
structure Mapped (i : Inum sb) (bn : Nat) (s : Fs sb) (b : Word) (s' : Fs sb) : Prop where
  grows : Grows i s s'
  here : s'.lookup i bn = some b
  still : (s.lookup i bn).isSome = true → s' = s
  zeroed : s.lookup i bn = none → s'.block b = fun _ => 0
  free : s.free + s'.reserve i ≤ s'.free + 1 + s.reserve i

section Bmap
variable {s : Fs sb} {i : Inum sb}

/-- A block of the indirect block needs the indirect block. -/
theorem indirect_of_entry {j : Fin NINDIRECT} {b : Word} (found : s.held (.entry i j) = some b) :
    s.held (.indirect i) ≠ none := by
  intro absent
  simp only [Fs.held] at found absent
  split at found
  · cases found
  · rename_i typed
    rw [if_neg typed] at absent
    rw [absent] at found
    cases found

/-- The direct blocks, and an indirect block that exists. -/
theorem Claimed.mapped {bn : Nat} {slot : Slot sb} {b : Word} {s' : Fs sb}
    (claimed : Claimed i s slot b s') (there : place i bn = some slot) : Mapped i bn s b s' := by
  have lookup : ∀ t : Fs sb, t.lookup i bn = t.held slot := by
    intro t
    unfold Fs.lookup
    rw [there]
    rfl
  constructor
  case grows => exact claimed.grows
  case here => exact (lookup s').trans claimed.here
  case still =>
    intro present
    obtain ⟨_, same⟩ | ⟨absent, _⟩ := claimed.how
    · exact same
    · rw [lookup, absent] at present
      cases present
  case zeroed =>
    intro absent
    obtain ⟨found, _⟩ | ⟨_, _, zeroed, _⟩ := claimed.how
    · rw [lookup, found] at absent
      cases absent
    · exact zeroed
  case free =>
    obtain ⟨_, rfl⟩ | ⟨_, held, _, less⟩ := claimed.how
    · omega
    · have same : s'.reserve i = s.reserve i := by
        unfold Fs.reserve
        rw [held, Function.update_of_ne ((place_inum there).2 i).symm]
      omega

theorem bmap_ends (h : Sound s) (loaded : (s.inode i).valid = true) (typed : (s.ip i).type ≠ 0)
    {bn : Nat} (small : bn < MAXFILE) :
    Ends (s.bmap i bn) (fun e => e = .outOfBlocks ∧ s.free < 1 + s.reserve i) fun r =>
      Mapped i bn s r.1 r.2 := by
  have view := view_loaded loaded
  unfold Fs.bmap
  split
  · rename_i direct
    have there : place i bn = some (.direct i ⟨bn, direct⟩) := dif_pos direct
    have here : s.held (.direct i ⟨bn, direct⟩) =
        nonzero ((s.ip i).addrs (Fin.castSucc ⟨bn, direct⟩)) := by
      simp only [Fs.held, view, if_neg typed]
    refine ends_mono (bmapAddr_ends h rfl here ?_) ?_ ?_
    · intro t b inode _ same _
      exact held_setDirect (inode ▸ loaded) (by rw [same, view]; exact typed) _ b
    · exact fun e full => ⟨full.1, by omega⟩
    · exact fun r claimed => claimed.mapped there
  · rename_i direct
    have inside : bn - NDIRECT < NINDIRECT := by
      simp only [MAXFILE, NDIRECT, NINDIRECT] at *
      omega
    have there : place i bn = some (.entry i ⟨bn - NDIRECT, inside⟩) :=
      (dif_neg direct).trans (dif_pos inside)
    have here : s.held (.indirect i) = nonzero ((s.ip i).addrs (Fin.last NDIRECT)) := by
      simp only [Fs.held, view, if_neg typed]
    rw [dif_pos inside]
    apply ends_bind
    refine ends_mono (bmapAddr_ends h rfl here ?_) ?_ ?_
    · intro t b inode absent same zeroed
      exact held_setIndirect (inode ▸ loaded) (by rw [same, view]; exact typed) absent zeroed
    · exact fun e full => ⟨full.1, by omega⟩
    · rintro ⟨indirect, t⟩ first
      refine ends_mono (bmapEntry_ends first.grows.sound first.here _) ?_ ?_
      · intro e full
        refine ⟨full.1, ?_⟩
        obtain ⟨_, rfl⟩ | ⟨absent, _, _, less⟩ := first.how
        · have none_left : t.free = 0 := full.2
          omega
        · have none_left : t.free = 0 := full.2
          simp only [Fs.reserve, absent, if_true]
          omega
      · rintro ⟨b, u⟩ second
        have mapped := second.mapped there
        obtain ⟨_, rfl⟩ | ⟨absent, held, _, less⟩ := first.how
        · exact mapped
        · have empty : s.held (.entry i ⟨bn - NDIRECT, inside⟩) = none := by
            cases found : s.held (.entry i ⟨bn - NDIRECT, inside⟩) with
            | none => rfl
            | some c => exact absurd absent (indirect_of_entry found)
          have lookup : ∀ v : Fs sb, v.lookup i bn = v.held (.entry i ⟨bn - NDIRECT, inside⟩) := by
            intro v
            unfold Fs.lookup
            rw [there]
            rfl
          constructor
          case grows => exact first.grows.trans second.grows
          case here => exact mapped.here
          case still =>
            intro present
            rw [lookup, empty] at present
            cases present
          case zeroed =>
            intro _
            refine mapped.zeroed ?_
            rw [lookup, held, Function.update_of_ne (by simp)]
            exact empty
          case free =>
            have free := mapped.free
            dsimp only at free less ⊢
            have before : s.reserve i = 1 := by simp [Fs.reserve, absent]
            have after : t.reserve i = 0 := by simp [Fs.reserve, held]
            omega

end Bmap

end Xv6.Public1.Blocks
