import Mathlib.Algebra.BigOperators.Group.Finset.Basic
import Mathlib.Algebra.Order.BigOperators.Group.Finset
import Mathlib.Order.Interval.Finset.Nat
import Xv6.Public1.BlockAppends
import Xv6.Public1.BlockRuns
import Xv6.Public1.Mkfs

/-!
# What iappend() does to the image (mkfs.c of xv6-public_1)

The image that mkfs is writing, read as the kernel reads a file system: iappend()
puts a block into a file as bmap() does, and which places have a block is known from
the sizes of the files.
-/

set_option autoImplicit false

namespace Xv6.Public1.Mkfs

open Xv6.Lib.Words
open Xv6.Lib.Outcome
open Xv6.Public1.Blocks

/-! ## Inodes in their blocks -/

section Codec
variable {buf : Block} {k l : Fin IPB} {d : Dinode}

theorem word_setDinode (j : Nat) (small : j < 16) :
    Blocks.word (setDinode buf k d) ⟨16 * k.val + j, dinode_inside k small⟩ = d.word j := by
  have place : ∀ q, q < 4 → (4 * (16 * k.val + j) + q) / 64 = k.val ∧
      (4 * (16 * k.val + j) + q) % 64 / 4 = j ∧ (4 * (16 * k.val + j) + q) % 4 = q := by
    intro q inside
    omega
  unfold Blocks.word setDinode
  simp only [place 0 (by decide), place 1 (by decide), place 2 (by decide), place 3 (by decide),
    if_true]
  exact wordBytes_joined (d.word j)

theorem word_setDinode_other (other : l ≠ k) (j : Nat) (small : j < 16) :
    Blocks.word (setDinode buf k d) ⟨16 * l.val + j, dinode_inside l small⟩ =
      Blocks.word buf ⟨16 * l.val + j, dinode_inside l small⟩ := by
  have place : ∀ q, q < 4 → (4 * (16 * l.val + j) + q) / 64 = l.val := by
    intro q inside
    omega
  have away : l.val ≠ k.val := fun same => other (Fin.ext same)
  unfold Blocks.word setDinode
  simp only [place 0 (by decide), place 1 (by decide), place 2 (by decide), place 3 (by decide),
    if_neg away]

theorem dinodeAt_setDinode : dinodeAt (setDinode buf k d) k = d := by
  have addr : ∀ a : Fin (NDIRECT + 1), d.word (3 + a.val) = d.addrs a := by
    intro a
    have inside : 3 + a.val - 3 < NDIRECT + 1 := by
      rw [Nat.add_sub_cancel_left]
      exact a.isLt
    unfold Dinode.word
    rw [if_neg (by omega), if_neg (by omega), if_neg (by omega), dif_pos inside]
    congr 1
    exact Fin.ext (Nat.add_sub_cancel_left 3 a.val)
  unfold dinodeAt
  simp only [word_setDinode 0 (by decide), word_setDinode 1 (by decide),
    word_setDinode 2 (by decide), word_setDinode 15 (by decide),
    word_setDinode _ (addr_inside _), addr]
  have low : ∀ x y : BitVec 16, (x ++ y).extractLsb' 0 16 = y := by
    intro x y
    rw [BitVec.extractLsb'_append_eq_of_add_le (by decide)]
    exact BitVec.extractLsb'_eq_self
  have high : ∀ x y : BitVec 16, (x ++ y).extractLsb' 16 16 = x := by
    intro x y
    exact BitVec.extractLsb'_append_eq_left
  cases d
  simp [Dinode.word, low, high]

theorem dinodeAt_setDinode_other (other : l ≠ k) :
    dinodeAt (setDinode buf k d) l = dinodeAt buf l := by
  unfold dinodeAt
  simp only [word_setDinode_other other 0 (by decide), word_setDinode_other other 1 (by decide),
    word_setDinode_other other 2 (by decide), word_setDinode_other other 15 (by decide),
    word_setDinode_other other _ (addr_inside _)]

end Codec

/-! ## The image as a file system -/

theorem boot_block : 0 < bmapstart := by decide

theorem metadata_inside : bmapstart + (FSSIZE / BPB + 1) ≤ FSSIZE := by decide

theorem size_uint : FSSIZE < 2 ^ 32 := by decide

def sb : Superblock where
  size := FSSIZE
  ninodes := NINODES
  bmapstart := bmapstart
  boot_block := boot_block
  metadata := metadata_inside
  size_uint := size_uint

/-- What ilock() makes of a dinode. -/
def Dinode.copy (d : Dinode) : Blocks.Dinode where
  type := d.type.toInt
  major := d.major.toInt
  minor := d.minor.toInt
  nlink := d.nlink.toInt
  size := d.size
  mode := d.mode
  addrs := d.addrs

namespace State

def dinode (s : State) (inum : Nat) : Dinode :=
  dinodeAt (s.sector (IBLOCK inum)) ⟨inum % IPB, inum_inside inum⟩

/-- The blocks below `freeblock` are those in use. -/
def fs (s : State) : Fs sb where
  bitmap := fun b => decide (b.toNat < s.freeblock.toNat)
  block := s.sector
  dinode := fun i => (s.dinode i.val).copy
  inode := fun i => ⟨0, false, (s.dinode i.val).copy⟩

/-- The same with an inode that is being changed. -/
def loaded (s : State) (i : Inum sb) (din : Dinode) : Fs sb := s.fs.setInode i ⟨1, true, din.copy⟩

/-- Nothing has been written past the blocks in use. -/
structure Fresh (s : State) : Prop where
  zero : ∀ b : Word, s.freeblock.toNat ≤ b.toNat → s.sector b = fun _ => 0
  inside : s.freeblock.toNat ≤ FSSIZE

end State

theorem IBLOCK_toNat {inum : Nat} (small : inum < NINODES) :
    (IBLOCK inum).toNat = inum / IPB + inodestart := by
  unfold IBLOCK
  rw [BitVec.toNat_ofNat, Nat.mod_eq_of_lt]
  simp only [NINODES, IPB, inodestart, nlog, LOGSIZE] at *
  omega

/-- The blocks of inodes are not in the data area. -/
theorem IBLOCK_small {inum : Nat} (small : inum < NINODES) : (IBLOCK inum).toNat < sb.nmeta := by
  rw [IBLOCK_toNat small]
  change _ < 59
  simp only [NINODES, IPB, inodestart, nlog, LOGSIZE] at *
  omega

section Simulation
variable {s : State} {i : Inum sb} {din : Dinode}

/-- A free block is taken. -/
def State.take (s : State) : State := { s with freeblock := s.freeblock + 1 }

theorem take_toNat (room : s.freeblock.toNat < FSSIZE) :
    s.take.freeblock.toNat = s.freeblock.toNat + 1 := by
  have step : s.take.freeblock.toNat = (s.freeblock + 1).toNat := rfl
  rw [step, BitVec.toNat_add]
  simp only [FSSIZE] at room
  change (s.freeblock.toNat + 1) % 2 ^ 32 = _
  omega

theorem State.Fresh.take (h : s.Fresh) (room : s.freeblock.toNat < FSSIZE) : s.take.Fresh := by
  constructor
  case zero =>
    intro b past
    rw [take_toNat room] at past
    exact h.zero b (Nat.le_of_succ_le past)
  case inside =>
    rw [take_toNat room]
    exact room

theorem State.Fresh.wsect (h : s.Fresh) {sec : Word} (used : sec.toNat < s.freeblock.toNat)
    (buf : Block) : (s.wsect sec buf).Fresh := by
  constructor
  case zero =>
    intro b past
    have away : b ≠ sec := by
      rintro rfl
      exact absurd past (Nat.not_le.mpr used)
    exact (Function.update_of_ne away buf s.sector).trans (h.zero b past)
  case inside => exact h.inside

theorem loaded_wsect {sec : Word} (data : sec ∈ sb.data) (buf : Block) :
    (s.wsect sec buf).loaded i din = (s.loaded i din).setBlock sec buf := by
  have dinode : ∀ j : Inum sb, (s.wsect sec buf).dinode j.val = s.dinode j.val := by
    intro j
    have away : IBLOCK j.val ≠ sec := by
      intro same
      have low := IBLOCK_small j.isLt
      rw [same] at low
      exact absurd data.1 (Nat.not_le.mpr low)
    have sector : (s.wsect sec buf).sector (IBLOCK j.val) = s.sector (IBLOCK j.val) :=
      Function.update_of_ne away _ _
    unfold State.dinode
    rw [sector]
  unfold State.loaded State.fs
  simp only [dinode]
  rfl

theorem loaded_free (h : s.Fresh) :
    (s.loaded i din).free + s.freeblock.toNat = FSSIZE := by
  have blocks : ((Finset.range FSSIZE).filter fun b =>
      (s.loaded i din).bitmap (BitVec.ofNat 32 b) = false) =
        Finset.Ico s.freeblock.toNat FSSIZE := by
    ext b
    rw [Finset.mem_filter, Finset.mem_range, Finset.mem_Ico]
    change _ ∧ decide ((BitVec.ofNat 32 b).toNat < s.freeblock.toNat) = false ↔ _
    rw [decide_eq_false_iff_not, BitVec.toNat_ofNat]
    simp only [FSSIZE]
    omega
  have inside := h.inside
  have count : (s.loaded i din).free = FSSIZE - s.freeblock.toNat := by
    unfold Fs.free
    change ((Finset.range FSSIZE).filter _).card = _
    rw [blocks, Nat.card_Ico]
  omega

/-- balloc() of the kernel gives the next block. -/
theorem balloc_loaded (h : s.Fresh) {r : Word × Fs sb} (done : (s.loaded i din).balloc = .ok r) :
    s.freeblock.toNat < FSSIZE ∧ r = (s.freeblock, s.take.loaded i din) := by
  unfold Fs.balloc at done
  split at done
  · cases done
  · rename_i b found
    obtain ⟨clear, inside, before⟩ := List.find?_range_eq_some.mp found
    have small : b < FSSIZE := List.mem_range.mp inside
    have used : ∀ c, c ≤ b → ((!(s.loaded i din).bitmap (BitVec.ofNat 32 c)) = true ↔
        s.freeblock.toNat ≤ c) := by
      intro c below
      have value : (BitVec.ofNat 32 c).toNat = c := by
        rw [BitVec.toNat_ofNat]
        simp only [FSSIZE] at small
        omega
      change (!decide ((BitVec.ofNat 32 c).toNat < s.freeblock.toNat)) = true ↔ _
      rw [value]
      simp
    have low : s.freeblock.toNat ≤ b := (used b (Nat.le_refl b)).mp clear
    have high : b ≤ s.freeblock.toNat := by
      by_contra past
      have less : s.freeblock.toNat < b := Nat.lt_of_not_le past
      have taken := before s.freeblock.toNat less
      rw [(used _ (Nat.le_of_lt less)).mpr (Nat.le_refl _)] at taken
      cases taken
    obtain rfl : b = s.freeblock.toNat := Nat.le_antisymm high low
    refine ⟨small, ?_⟩
    have number : BitVec.ofNat 32 s.freeblock.toNat = s.freeblock := by simp
    rw [number] at done
    cases done
    refine Prod.ext rfl ?_
    -- The block is zero already, and its bit is the next one.
    have block : Function.update s.sector s.freeblock (fun _ => 0) = s.sector := by
      rw [← h.zero s.freeblock (Nat.le_refl _)]
      exact Function.update_eq_self s.freeblock s.sector
    have bitmap : Function.update (fun b : Word => decide (b.toNat < s.freeblock.toNat))
        s.freeblock true = fun b => decide (b.toNat < s.take.freeblock.toNat) := by
      funext b
      rw [take_toNat small]
      by_cases here : b = s.freeblock
      · rw [here, Function.update_self]
        simp
      · have other : b.toNat ≠ s.freeblock.toNat := fun same => here (BitVec.eq_of_toNat_eq same)
        rw [Function.update_of_ne here, decide_eq_decide]
        omega
    have same : (((s.loaded i din).setBit s.freeblock true).setBlock s.freeblock fun _ => 0) =
        { s.take.loaded i din with
          bitmap := Function.update (fun b : Word => decide (b.toNat < s.freeblock.toNat))
            s.freeblock true
          block := Function.update s.sector s.freeblock fun _ => 0 } := rfl
    rw [same, block, bitmap]
    rfl

theorem loaded_ip : (s.loaded i din).ip i = din.copy := by
  simp [Fs.ip, State.loaded, Fs.setInode]

theorem loaded_valid : ((s.loaded i din).inode i).valid = true := by
  simp [State.loaded, Fs.setInode]

theorem loaded_setAddr (k : Fin (NDIRECT + 1)) (addr : Word) :
    (s.loaded i din).setAddr i k addr =
      s.loaded i { din with addrs := Function.update din.addrs k addr } := by
  unfold Fs.setAddr Fs.setCopy
  rw [loaded_ip]
  simp [State.loaded, Fs.setInode, Dinode.copy]

theorem iappendAddr_of_bmapAddr (h : s.Fresh) {k : Fin (NDIRECT + 1)} {r : Word × Fs sb}
    (done : (s.loaded i din).bmapAddr i k = .ok r) :
    ∃ x din' s', s.iappendAddr din k = (x, din', s') ∧ r = (x, s'.loaded i din') ∧ s'.Fresh ∧
      s'.freeinode = s.freeinode := by
  have addrs : ((s.loaded i din).ip i).addrs k = din.addrs k := by
    rw [loaded_ip]
    rfl
  unfold Fs.bmapAddr at done
  unfold State.iappendAddr
  rw [addrs] at done
  by_cases zero : din.addrs k = 0
  · rw [if_pos zero] at done ⊢
    cases call : (s.loaded i din).balloc with
    | error e =>
        rw [call] at done
        cases done
    | ok q =>
        obtain ⟨room, rfl⟩ := balloc_loaded h call
        rw [call] at done
        cases done
        refine ⟨_, _, _, rfl, ?_, h.take room, rfl⟩
        exact Prod.ext rfl (loaded_setAddr k s.freeblock)
  · rw [if_neg zero] at done ⊢
    cases done
    exact ⟨_, _, _, rfl, rfl, h, rfl⟩

theorem iappendEntry_of_bmapEntry (h : s.Fresh) {sec : Word} (data : sec ∈ sb.data)
    (used : sec.toNat < s.freeblock.toNat) {j : Fin NINDIRECT} {r : Word × Fs sb}
    (done : (s.loaded i din).bmapEntry sec j = .ok r) :
    ∃ x s', s.iappendEntry sec j = .ok (x, s') ∧ r = (x, s'.loaded i din) ∧ s'.Fresh ∧
      s'.freeinode = s.freeinode := by
  have read : s.rsect sec = .ok (s.sector sec) := if_pos data.2
  unfold Fs.bmapEntry at done
  unfold State.iappendEntry
  have block : (s.loaded i din).block sec = s.sector sec := rfl
  rw [block] at done
  rw [read]
  change ∃ x s', (if word (s.sector sec) j = 0 then _ else _) = _ ∧ _
  by_cases zero : word (s.sector sec) j = 0
  · rw [if_pos zero] at done ⊢
    cases call : (s.loaded i din).balloc with
    | error e =>
        rw [call] at done
        cases done
    | ok q =>
        obtain ⟨room, rfl⟩ := balloc_loaded h call
        rw [call] at done
        cases done
        have below : sec.toNat < s.take.freeblock.toNat := by
          rw [take_toNat room]
          exact Nat.lt_succ_of_lt used
        refine ⟨_, _, rfl, ?_, (h.take room).wsect below _, rfl⟩
        refine Prod.ext rfl ?_
        exact (loaded_wsect data _).symm
  · rw [if_neg zero] at done ⊢
    cases done
    exact ⟨_, _, rfl, rfl, h, rfl⟩

/-- The bits are those of the blocks below `freeblock`. -/
theorem used_of_held (sound : Sound (s.loaded i din)) {slot : Slot sb} {b : Word}
    (held : (s.loaded i din).held slot = some b) : b.toNat < s.freeblock.toNat :=
  of_decide_eq_true (sound.bit held)

/-- iappend() puts a block into the file as bmap() does. -/
theorem iappendBlock_of_bmap (h : s.Fresh) (sound : Sound (s.loaded i din))
    (typed : din.copy.type ≠ 0) {bn : Nat} {r : Word × Fs sb}
    (done : (s.loaded i din).bmap i bn = .ok r) :
    ∃ x din' s', s.iappendBlock din bn = .ok (x, din', s') ∧ r = (x, s'.loaded i din') ∧
      s'.Fresh ∧ s'.freeinode = s.freeinode := by
  have view : (s.loaded i din).view i = (s.loaded i din).ip i := view_loaded loaded_valid
  unfold Fs.bmap at done
  unfold State.iappendBlock
  split at done
  · rename_i direct
    obtain ⟨x, din', s', appended, same, kept⟩ := iappendAddr_of_bmapAddr h done
    rw [dif_pos direct, appended]
    exact ⟨x, din', s', rfl, same, kept⟩
  · rename_i direct
    rw [dif_neg direct]
    split at done
    · rename_i inside
      rw [dif_pos inside]
      cases call : (s.loaded i din).bmapAddr i (Fin.last NDIRECT) with
      | error e =>
          rw [call] at done
          cases done
      | ok q =>
          have here : (s.loaded i din).held (.indirect i) =
              nonzero (((s.loaded i din).ip i).addrs (Fin.last NDIRECT)) := by
            simp only [Fs.held, view, loaded_ip, if_neg typed]
          have viewed : ((s.loaded i din).view i).type ≠ 0 := by
            rw [view, loaded_ip]
            exact typed
          have ends := bmapAddr_ends sound rfl here fun t b inode absent same zeroed =>
            held_setIndirect (inode ▸ loaded_valid) (by rw [same]; exact viewed) absent zeroed
          have claimed := ends.ok call
          obtain ⟨sec, din', s', appended, rfl, fresh, inum⟩ := iappendAddr_of_bmapAddr h call
          rw [call] at done
          have sound' := claimed.grows.sound
          obtain ⟨x, s'', entered, same, fresh', inum'⟩ := iappendEntry_of_bmapEntry fresh
            (sound'.data claimed.here) (used_of_held sound' claimed.here) done
          refine ⟨x, din', s'', ?_, same, fresh', inum'.trans inum⟩
          simp only [appended, entered]
          rfl
    · cases done

theorem need_mono {a b : Nat} (le : a ≤ b) : need a ≤ need b := by
  unfold need
  simp only [NDIRECT, BSIZE]
  split_ifs <;> omega

/-- One round, once the block is known. -/
theorem iappendLoop_round {s' : State} {din' : Dinode} {x : Word} {off m fuel : Nat}
    {p : List Byte} (more : p ≠ [])
    (appended : s.iappendBlock din (off / BSIZE) = .ok (x, din', s')) (inside : x.toNat < FSSIZE)
    (cut : m = min p.length (BSIZE - off % BSIZE)) :
    State.iappendLoop (fuel + 1) s din off p =
      State.iappendLoop fuel (s'.wsect x (memmove (s'.sector x) (off % BSIZE) m fun q => p.getD q 0))
        din' (off + m) (p.drop m) := by
  have piece : min p.length ((off / BSIZE + 1) * BSIZE - off) = m := by
    rw [cut]
    simp only [BSIZE]
    omega
  have offset : off - off / BSIZE * BSIZE = off % BSIZE := by
    simp only [BSIZE]
    omega
  have read : s'.rsect x = .ok (s'.sector x) := if_pos inside
  rw [State.iappendLoop, if_neg more]
  simp only [appended]
  change (s'.rsect x >>= fun buf => State.iappendLoop fuel (s'.wsect x (memmove buf
    (off - off / BSIZE * BSIZE) (min p.length ((off / BSIZE + 1) * BSIZE - off))
      fun q => p.getD q 0)) din' (off + min p.length ((off / BSIZE + 1) * BSIZE - off))
      (p.drop (min p.length ((off / BSIZE + 1) * BSIZE - off)))) = _
  rw [read, piece, offset]
  rfl

/-- The rounds of iappend() put the bytes where writei() puts them. -/
theorem iappendLoop_appends (fuel : Nat) : ∀ (s : State) (din : Dinode) (off : Nat)
    (p : List Byte), s.Fresh → Sound (s.loaded i din) → din.copy.type ≠ 0 →
    Appended i off (s.loaded i din) → off + p.length ≤ MAXFILE * BSIZE → p.length ≤ fuel →
    s.freeblock.toNat + need (off + p.length) ≤ FSSIZE + need off →
    ∃ din' s', State.iappendLoop fuel s din off p = .ok (din', off + p.length, s') ∧
      Appends i off p.length (fun q => p.getD q 0) (s.loaded i din) (s'.loaded i din') ∧
      s'.Fresh ∧ s'.freeinode = s.freeinode := by
  induction fuel with
  | zero =>
      intro s din off p fresh sound _ before _ enough _
      obtain rfl := List.eq_nil_of_length_eq_zero (Nat.le_zero.mp enough)
      exact ⟨din, s, rfl, .nothing sound before _, fresh, rfl⟩
  | succ fuel ih =>
      intro s din off p fresh sound typed before fits enough room
      by_cases done : p = []
      · subst done
        exact ⟨din, s, rfl, .nothing sound before _, fresh, rfl⟩
      · have more : p.length ≠ 0 := fun zero => done (List.eq_nil_of_length_eq_zero zero)
        obtain ⟨some_byte, within, _⟩ := @round_fits off p.length more
        have small : off / BSIZE < MAXFILE := by
          simp only [BSIZE] at *
          omega
        obtain ⟨m, cut⟩ : ∃ m, m = min p.length (BSIZE - off % BSIZE) := ⟨_, rfl⟩
        rw [← cut] at some_byte within
        have short : m ≤ p.length := cut ▸ Nat.min_le_left _ _
        have typed' : ((s.loaded i din).ip i).type ≠ 0 := loaded_ip ▸ typed
        have cost := before.cost some_byte within
        have later := need_mono (Nat.add_le_add_left short off)
        have free : (s.loaded i din).free + s.freeblock.toNat = FSSIZE := loaded_free fresh
        have enough_blocks : ¬ (s.loaded i din).free < (s.loaded i din).cost i (off / BSIZE) := by
          omega
        cases call : (s.loaded i din).bmap i (off / BSIZE) with
        | error e =>
            exact absurd ((bmap_takes sound loaded_valid typed' small).error call) enough_blocks
        | ok r =>
            have mapped := (bmap_ends sound loaded_valid typed' small).ok call
            have taken := (bmap_takes sound loaded_valid typed' small).ok call
            obtain ⟨x, din₁, s₁, appended, rfl, fresh₁, inum₁⟩ :=
              iappendBlock_of_bmap fresh sound typed call
            obtain ⟨slot, _, held⟩ := lookup_some mapped.here
            have data := mapped.grows.sound.data held
            have used := used_of_held mapped.grows.sound held
            have first := Appends.round (fun q => p.getD q 0) before mapped taken some_byte within
            dsimp only at first
            rw [← loaded_wsect data] at first
            obtain ⟨s₂, stored⟩ : ∃ s₂, s₂ = s₁.wsect x (memmove ((s₁.loaded i din₁).block x)
              (off % BSIZE) m fun q => p.getD q 0) := ⟨_, rfl⟩
            have fresh₂ : s₂.Fresh := stored ▸ fresh₁.wsect used _
            rw [← stored] at first
            have typed₂ : din₁.copy.type ≠ 0 := by
              obtain ⟨addrs, same⟩ := first.written.copy
              rw [loaded_ip, loaded_ip] at same
              rw [same]
              exact typed
            have left : (p.drop m).length = p.length - m := List.length_drop
            have free₂ : (s₂.loaded i din₁).free + s₂.freeblock.toNat = FSSIZE := loaded_free fresh₂
            have total := first.free
            have whole : off + m + (p.length - m) = off + p.length := by omega
            obtain ⟨din', s', looped, rest, fresh', inum'⟩ := ih s₂ din₁ (off + m) (p.drop m)
              fresh₂ first.written.sound typed₂ first.here (by omega) (by omega)
              (by rw [left, whole]; omega)
            rw [left, whole] at looped
            have source : (fun q => (p.drop m).getD q 0) = fun q => p.getD (m + q) 0 := by
              funext q
              simp [List.getD_eq_getElem?_getD, List.getElem?_drop]
            rw [left, source] at rest
            have both := first.append rest
            rw [Nat.add_sub_cancel' short] at both
            have inum₂ : s₂.freeinode = s₁.freeinode := by
              rw [stored]
              rfl
            refine ⟨din', s', ?_, both, fresh', inum'.trans (inum₂.trans inum₁)⟩
            rw [iappendLoop_round done appended data.2 cut, ← looped, stored]
            rfl

end Simulation

/-! ## The blocks of the inodes -/

section Inodes
variable {s : State} {i : Inum sb} {d : Dinode}

theorem not_data_of_low {b : Word} (low : b.toNat < sb.nmeta) : b ∉ sb.data := fun data =>
  absurd data.1 (Nat.not_le.mpr low)

/-- A store to a block that is not in the data area. -/
theorem held_outside {t : Fs sb} (sound : Sound t) {b : Word} (outside : b ∉ sb.data)
    (data : Block) : (t.setBlock b data).held = t.held :=
  held_setBlock (fun _ held => outside (sound.data held)) data

theorem byte_outside {t : Fs sb} (sound : Sound t) {b : Word} (outside : b ∉ sb.data)
    (data : Block) (j : Inum sb) (p : Nat) : (t.setBlock b data).byte j p = t.byte j p := by
  have lookup : (t.setBlock b data).lookup j (p / BSIZE) = t.lookup j (p / BSIZE) := by
    unfold Fs.lookup
    rw [held_outside sound outside]
  unfold Fs.byte
  rw [lookup]
  cases looked : t.lookup j (p / BSIZE) with
  | none => rfl
  | some c =>
      obtain ⟨slot, _, held⟩ := lookup_some looked
      have away : c ≠ b := by
        rintro rfl
        exact outside (sound.data held)
      simp [Fs.setBlock, Function.update_of_ne away]

namespace State

/-- The image after winode(). -/
def put (s : State) (inum : Nat) (d : Dinode) : State :=
  s.wsect (IBLOCK inum)
    (setDinode (s.sector (IBLOCK inum)) ⟨inum % IPB, inum_inside inum⟩ d)

theorem rsect_inode (s : State) {inum : Nat} (small : inum < NINODES) :
    s.rsect (IBLOCK inum) = .ok (s.sector (IBLOCK inum)) :=
  if_pos (Nat.lt_trans (IBLOCK_small small) (by decide))

theorem rinode_eq (s : State) {inum : Nat} (small : inum < NINODES) :
    s.rinode inum = .ok (s.dinode inum) := by
  unfold rinode
  rw [s.rsect_inode small]
  rfl

theorem winode_eq (s : State) {inum : Nat} (small : inum < NINODES) (d : Dinode) :
    s.winode inum d = .ok (s.put inum d) := by
  unfold winode
  rw [s.rsect_inode small]
  rfl

theorem dinode_put {inum other : Nat} (small : inum < NINODES) (small' : other < NINODES) :
    (s.put inum d).dinode other = if other = inum then d else s.dinode other := by
  unfold dinode put wsect
  dsimp only
  by_cases block : IBLOCK other = IBLOCK inum
  · have same : other / IPB = inum / IPB := by
      have numbers := congrArg BitVec.toNat block
      rw [IBLOCK_toNat small, IBLOCK_toNat small'] at numbers
      omega
    rw [block, Function.update_self]
    by_cases here : other = inum
    · subst here
      rw [if_pos rfl, dinodeAt_setDinode]
    · rw [if_neg here, dinodeAt_setDinode_other]
      intro index
      have index : other % IPB = inum % IPB := congrArg Fin.val index
      simp only [IPB] at same index
      omega
  · have here : other ≠ inum := by
      rintro rfl
      exact block rfl
    rw [Function.update_of_ne block, if_neg here]

end State

/-- What the kernel sees of the inode that has been written. -/
theorem held_put (sound : Sound (s.loaded i d)) :
    (s.put i.val d).fs.held = (s.loaded i d).held := by
  have view : ∀ j, (s.put i.val d).fs.view j = (s.loaded i d).view j := by
    intro j
    have here : (s.put i.val d).fs.view j = ((s.put i.val d).dinode j.val).copy := rfl
    rw [here, State.dinode_put i.isLt j.isLt]
    by_cases same : j = i
    · subst same
      simp [Fs.view, Fs.ip, State.loaded, Fs.setInode]
    · have other : j.val ≠ i.val := fun eq => same (Fin.ext eq)
      simp [Fs.view, Fs.ip, State.loaded, Fs.setInode, same, other]
      rfl
  rw [← held_outside sound (not_data_of_low (IBLOCK_small i.isLt))
    (setDinode (s.sector (IBLOCK i.val)) ⟨i.val % IPB, inum_inside i.val⟩ d)]
  apply held_congr
  · intro j
    rw [view]
    rfl
  · intro j
    rw [view]
    rfl
  · rfl

theorem sound_put (sound : Sound (s.loaded i d)) : Sound (s.put i.val d).fs :=
  sound.congr (held_put sound) rfl

theorem byte_put (sound : Sound (s.loaded i d)) (j : Inum sb) (p : Nat) :
    (s.put i.val d).fs.byte j p = (s.loaded i d).byte j p := by
  have outside := not_data_of_low (IBLOCK_small i.isLt)
  rw [← byte_outside sound outside
    (setDinode (s.sector (IBLOCK i.val)) ⟨i.val % IPB, inum_inside i.val⟩ d)]
  apply byte_congr
  · rw [held_put sound, held_outside sound outside]
  · rfl

end Inodes

end Xv6.Public1.Mkfs
