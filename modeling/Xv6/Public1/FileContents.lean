import Xv6.Public1.BlockMap

/-!
# The bytes of a file (readi() and writei() of xv6-public_1)

The loops of readi() and writei() through the blocks that bmap() finds: which
bytes an inode has before and after them, and that the bytes of every other
inode stay.
-/

set_option autoImplicit false

namespace Xv6.Public1.Blocks

open Xv6.Lib.Words
open Xv6.Lib.Outcome

variable {sb : Superblock}

theorem offset_inside (p : Nat) : p % BSIZE < BSIZE := Nat.mod_lt p (Nat.succ_pos 511)

namespace Fs

/-- The byte of an inode at a position, if its block has been allocated. -/
def byte (s : Fs sb) (i : Inum sb) (p : Nat) : Option Byte :=
  (s.lookup i (p / BSIZE)).map fun b => s.block b ⟨p % BSIZE, offset_inside p⟩

def peek (s : Fs sb) (i : Inum sb) (p : Nat) : Byte := (s.byte i p).getD 0

end Fs

section Byte
variable {s s' : Fs sb} {i : Inum sb}

theorem lookup_some {bn : Nat} {b : Word} (found : s.lookup i bn = some b) :
    ∃ slot, place i bn = some slot ∧ s.held slot = some b := by
  obtain ⟨slot, there, held⟩ := Option.bind_eq_some_iff.mp found
  exact ⟨slot, there, held⟩

theorem lookup_of_held {bn : Nat} {slot : Slot sb} (there : place i bn = some slot) :
    s.lookup i bn = s.held slot := by
  unfold Fs.lookup
  rw [there]
  rfl

theorem lookup_small {bn : Nat} (found : (s.lookup i bn).isSome = true) : bn < MAXFILE := by
  obtain ⟨b, found⟩ := Option.isSome_iff_exists.mp found
  obtain ⟨slot, there, _⟩ := lookup_some found
  unfold place at there
  split_ifs at there with direct inside
  · exact Nat.lt_of_lt_of_le direct (Nat.le_add_right NDIRECT NINDIRECT)
  · have bound : bn - 11 < 128 := inside
    change bn < 139
    omega

theorem byte_of_lookup {p : Nat} {b : Word} (found : s.lookup i (p / BSIZE) = some b) :
    s.byte i p = some (s.block b ⟨p % BSIZE, offset_inside p⟩) := by
  unfold Fs.byte
  rw [found]
  rfl

theorem byte_isSome {p : Nat} : (s.byte i p).isSome = (s.lookup i (p / BSIZE)).isSome :=
  Option.isSome_map

theorem peek_of_byte {p : Nat} {x : Byte} (found : s.byte i p = some x) : s.peek i p = x := by
  unfold Fs.peek
  rw [found]
  rfl

theorem Grows.lookup (h : Grows i s s') {j : Inum sb} {bn : Nat} {b : Word}
    (found : s.lookup j bn = some b) : s'.lookup j bn = some b := by
  obtain ⟨slot, there, held⟩ := lookup_some found
  exact (lookup_of_held there).trans (h.more slot b held)

theorem Grows.byte (h : Grows i s s') {j : Inum sb} {p : Nat} {x : Byte}
    (found : s.byte j p = some x) : s'.byte j p = some x := by
  obtain ⟨b, looked, same⟩ := Option.map_eq_some_iff.mp found
  obtain ⟨slot, there, held⟩ := lookup_some looked
  rw [byte_of_lookup (h.lookup looked), h.content slot b held (place_inum there).2, same]

theorem Grows.byte_other (h : Grows i s s') {j : Inum sb} (other : j ≠ i) (p : Nat) :
    s'.byte j p = s.byte j p := by
  cases found : s.byte j p with
  | some x => exact h.byte found
  | none =>
      have absent : s.lookup j (p / BSIZE) = none := Option.map_eq_none_iff.mp found
      have same : s'.lookup j (p / BSIZE) = s.lookup j (p / BSIZE) := by
        cases there : place j (p / BSIZE) with
        | none => simp [Fs.lookup, there]
        | some slot =>
            rw [lookup_of_held there, lookup_of_held there]
            refine h.others slot ?_
            rw [(place_inum there).1]
            exact other
      unfold Fs.byte
      rw [same, absent]
      rfl

/-! ## A store into a block of the file -/

section Store
variable {bn : Nat} {addr : Word}

/-- The blocks of files are nobody's indirect block. -/
theorem Sound.not_indirect (h : Sound s) (found : s.lookup i bn = some addr) (j : Inum sb) :
    s.held (.indirect j) ≠ some addr := by
  intro indirect
  obtain ⟨slot, there, held⟩ := lookup_some found
  exact (place_inum there).2 j (h.blocks.once held indirect)

/-- Two blocks of files are two blocks. -/
theorem Sound.lookup_inj (h : Sound s) {j : Inum sb} {bn' : Nat} (first : s.lookup i bn = some addr)
    (second : s.lookup j bn' = some addr) : i = j ∧ bn = bn' := by
  obtain ⟨slot, there, held⟩ := lookup_some first
  obtain ⟨slot', there', held'⟩ := lookup_some second
  obtain rfl : slot = slot' := h.blocks.once held held'
  obtain rfl : i = j := (place_inum there).1.symm.trans (place_inum there').1
  exact ⟨rfl, place_inj there there'⟩

theorem lookup_setBlock (h : Sound s) (found : s.lookup i bn = some addr) (data : Block)
    (j : Inum sb) (bn' : Nat) : (s.setBlock addr data).lookup j bn' = s.lookup j bn' := by
  unfold Fs.lookup
  rw [held_setBlock (h.not_indirect found)]

theorem Sound.setBlock (h : Sound s) (found : s.lookup i bn = some addr) (data : Block) :
    Sound (s.setBlock addr data) := by
  constructor
  case blocks =>
    rw [held_setBlock (h.not_indirect found)]
    exact h.blocks
  case metadata => exact h.metadata

theorem byte_setBlock (h : Sound s) (found : s.lookup i bn = some addr) (data : Block)
    (j : Inum sb) (p : Nat) : (s.setBlock addr data).byte j p =
      if j = i ∧ p / BSIZE = bn then some (data ⟨p % BSIZE, offset_inside p⟩) else s.byte j p := by
  have same := lookup_setBlock h found data j (p / BSIZE)
  split
  · rename_i here
    obtain ⟨rfl, rfl⟩ := here
    rw [byte_of_lookup (same.trans found)]
    simp [Fs.setBlock]
  · rename_i elsewhere
    unfold Fs.byte
    rw [same]
    cases looked : s.lookup j (p / BSIZE) with
    | none => rfl
    | some c =>
        have away : c ≠ addr := by
          rintro rfl
          obtain ⟨rfl, rfl⟩ := h.lookup_inj found looked
          exact elsewhere ⟨rfl, rfl⟩
        simp [Fs.setBlock, Function.update_of_ne away]

end Store

end Byte

/-! ## writei() -/

/-- `n` bytes of `src` have been put at `off`, and all other bytes of files are the same. -/
structure Written (i : Inum sb) (off n : Nat) (src : Nat → Byte) (s s' : Fs sb) : Prop where
  sound : Sound s'
  inside : ∀ q, q < n → s'.byte i (off + q) = some (src q)
  outside : ∀ p x, p < off ∨ off + n ≤ p → s.byte i p = some x → s'.byte i p = some x
  others : ∀ j p, j ≠ i → s'.byte j p = s.byte j p
  still : (∀ q, q < n → (s.byte i (off + q)).isSome = true) → s'.inode = s.inode
  dinode : s'.dinode = s.dinode
  inode : ∀ j, j ≠ i → s'.inode j = s.inode j
  ref : (s'.inode i).ref = (s.inode i).ref
  valid : (s'.inode i).valid = (s.inode i).valid
  copy : ∃ addrs, s'.ip i = { s.ip i with addrs := addrs }

namespace Written

variable {s s' s'' : Fs sb} {i : Inum sb} {off n k : Nat} {src : Nat → Byte}

theorem nothing (h : Sound s) (off : Nat) (src : Nat → Byte) : Written i off 0 src s s := by
  constructor
  case sound => exact h
  case inside => exact fun q impossible => absurd impossible (Nat.not_lt_zero q)
  case outside => exact fun _ _ _ found => found
  case others => exact fun _ _ _ => rfl
  case still => exact fun _ => rfl
  case dinode => rfl
  case inode => exact fun _ _ => rfl
  case ref => rfl
  case valid => rfl
  case copy => exact ⟨(s.ip i).addrs, rfl⟩

/-- Two writes one after the other. -/
theorem append (first : Written i off n src s s')
    (second : Written i (off + n) k (fun q => src (n + q)) s' s'') :
    Written i off (n + k) src s s'' := by
  constructor
  case sound => exact second.sound
  case inside =>
    intro q small
    by_cases early : q < n
    · exact second.outside _ _ (Or.inl (by omega)) (first.inside q early)
    · obtain ⟨r, rfl⟩ := Nat.exists_eq_add_of_le (Nat.le_of_not_lt early)
      rw [← Nat.add_assoc]
      exact second.inside r (by omega)
  case outside =>
    intro p x away found
    exact second.outside p x (by omega) (first.outside p x (by omega) found)
  case others => exact fun j p other => (second.others j p other).trans (first.others j p other)
  case still =>
    intro present
    have before := first.still fun q small => present q (by omega)
    rw [← before]
    refine second.still ?_
    intro q small
    have there := present (n + q) (by omega)
    obtain ⟨x, found⟩ := Option.isSome_iff_exists.mp there
    rw [← Nat.add_assoc] at found
    rw [first.outside _ x (Or.inr (by omega)) found]
    rfl
  case dinode => exact second.dinode.trans first.dinode
  case inode => exact fun j other => (second.inode j other).trans (first.inode j other)
  case ref => exact second.ref.trans first.ref
  case valid => exact second.valid.trans first.valid
  case copy =>
    obtain ⟨addrs, same⟩ := first.copy
    obtain ⟨addrs', same'⟩ := second.copy
    exact ⟨addrs', by rw [same', same]⟩

/-- One round of the loop, within a block. -/
theorem round {b : Word} {m : Nat} (mapped : Mapped i (off / BSIZE) s b s')
    (some_byte : 0 < m) (fits : off % BSIZE + m ≤ BSIZE) :
    Written i off m src s (s'.setBlock b (memmove (s'.block b) (off % BSIZE) m src)) := by
  have grows := mapped.grows
  have found := mapped.here
  have byte := byte_setBlock grows.sound found (memmove (s'.block b) (off % BSIZE) m src)
  constructor
  case sound => exact grows.sound.setBlock found _
  case inside =>
    intro q small
    have block : (off + q) / BSIZE = off / BSIZE := by
      simp only [BSIZE] at *
      omega
    have offset : (off + q) % BSIZE = off % BSIZE + q := by
      simp only [BSIZE] at *
      omega
    rw [byte, if_pos ⟨rfl, block⟩]
    simp [memmove, offset, small]
  case outside =>
    intro p x away before
    have after := grows.byte before
    rw [byte]
    split
    · rename_i here
      have looked : s'.lookup i (p / BSIZE) = some b := here.2 ▸ found
      rw [byte_of_lookup looked] at after
      have beyond : ¬ (off % BSIZE ≤ p % BSIZE ∧ p % BSIZE < off % BSIZE + m) := by
        have block := here.2
        simp only [BSIZE] at *
        omega
      simp only [memmove, if_neg beyond]
      exact after
    · exact after
  case others =>
    intro j p other
    rw [byte, if_neg fun both => other both.1]
    exact grows.byte_other other p
  case still =>
    intro present
    have there := present 0 some_byte
    rw [Nat.add_zero, byte_isSome] at there
    rw [mapped.still there]
    rfl
  case dinode => exact grows.dinode
  case inode => exact grows.inode
  case ref => exact grows.ref
  case valid => exact grows.valid
  case copy => exact grows.copy

end Written

/-- The number of blocks with a byte of `[off, off + n)`. -/
def touched (off n : Nat) : Nat := if n = 0 then 0 else (off % BSIZE + n - 1) / BSIZE + 1

/-- One round of a loop over the blocks. -/
theorem round_fits {off left : Nat} (more : left ≠ 0) :
    0 < min left (BSIZE - off % BSIZE) ∧ off % BSIZE + min left (BSIZE - off % BSIZE) ≤ BSIZE ∧
      touched (off + min left (BSIZE - off % BSIZE)) (left - min left (BSIZE - off % BSIZE)) + 1 =
        touched off left := by
  unfold touched
  simp only [BSIZE]
  split_ifs
  · omega
  · omega

section Loops
variable {i : Inum sb}

theorem writeLoop_ends (fuel : Nat) : ∀ (s : Fs sb) (off left : Nat) (src : Nat → Byte),
    Sound s → (s.inode i).valid = true → (s.ip i).type ≠ 0 → off + left ≤ MAXFILE * BSIZE →
    left ≤ fuel →
    Ends (Fs.writeLoop i fuel s off left src)
      (fun e => e = .outOfBlocks ∧ s.free < touched off left + s.reserve i)
      fun s' => Written i off left src s s' := by
  induction fuel with
  | zero =>
      intro s off left src h _ _ _ enough
      obtain rfl := Nat.le_zero.mp enough
      exact ends_pure (.nothing h off src)
  | succ fuel ih =>
      intro s off left src h loaded typed fits enough
      rw [Fs.writeLoop]
      split
      · rename_i done
        subst done
        exact ends_pure (.nothing h off src)
      · rename_i more
        obtain ⟨some_byte, within, count⟩ := @round_fits off left more
        have small : off / BSIZE < MAXFILE := by
          simp only [BSIZE] at *
          omega
        apply ends_bind
        refine ends_mono (bmap_ends h loaded typed small) ?_ ?_
        · exact fun e full => ⟨full.1, by omega⟩
        · rintro ⟨b, t⟩ mapped
          have first : Written i off _ src s _ := Written.round mapped some_byte within
          dsimp only at first ⊢
          have typed' : ((t.setBlock b (memmove (t.block b) (off % BSIZE)
              (min left (BSIZE - off % BSIZE)) src)).ip i).type ≠ 0 := by
            obtain ⟨addrs, same⟩ := first.copy
            rw [same]
            exact typed
          refine ends_mono (ih _ _ _ _ first.sound (first.valid.trans loaded) typed' (by omega)
            (by omega)) ?_ ?_
          · intro e full
            have free := mapped.free
            have less : t.free < touched (off + min left (BSIZE - off % BSIZE))
                (left - min left (BSIZE - off % BSIZE)) + t.reserve i := by
              have same : (t.setBlock b (memmove (t.block b) (off % BSIZE)
                  (min left (BSIZE - off % BSIZE)) src)).reserve i = t.reserve i := by
                unfold Fs.reserve
                rw [held_setBlock (mapped.grows.sound.not_indirect mapped.here)]
              have later := full.2
              rw [same] at later
              exact later
            dsimp only at free
            exact ⟨full.1, by omega⟩
          · intro s' rest
            have both := first.append rest
            have whole : min left (BSIZE - off % BSIZE) + (left - min left (BSIZE - off % BSIZE)) =
                left := by omega
            rw [whole] at both
            exact both

end Loops

/-! ## readi() -/

section Read
variable {s : Fs sb} {i : Inum sb}

/-- bmap() changes nothing if the block has been allocated. -/
theorem bmap_of_lookup (loaded : (s.inode i).valid = true) {bn : Nat} {b : Word}
    (found : s.lookup i bn = some b) : s.bmap i bn = .ok (b, s) := by
  have view := view_loaded loaded
  have small := lookup_small (Option.isSome_iff_exists.mpr ⟨b, found⟩)
  obtain ⟨slot, there, held⟩ := lookup_some found
  unfold place at there
  unfold Fs.bmap
  split_ifs at there with direct inside
  · cases there
    simp only [Fs.held, view] at held
    split at held
    · cases held
    · obtain ⟨same, nonnull⟩ := nonzero_some.mp held
      rw [dif_pos direct, Fs.bmapAddr, if_neg nonnull, same]
      rfl
  · cases there
    simp only [Fs.held, view] at held
    split at held
    · cases held
    · obtain ⟨c, indirect, entry⟩ := Option.bind_eq_some_iff.mp held
      obtain ⟨same, nonnull⟩ := nonzero_some.mp indirect
      obtain ⟨same', nonnull'⟩ := nonzero_some.mp entry
      rw [dif_neg direct, dif_pos inside, Fs.bmapAddr, if_neg nonnull, same]
      change s.bmapEntry c _ = _
      rw [Fs.bmapEntry, if_neg nonnull', same']
      rfl

theorem bytes_round {off m : Nat} {b : Word} (found : s.lookup i (off / BSIZE) = some b)
    (within : off % BSIZE + m ≤ BSIZE) :
    bytes (s.block b) (off % BSIZE) m = (List.range m).map fun q => s.peek i (off + q) := by
  unfold bytes
  apply List.map_congr_left
  intro q member
  have small := List.mem_range.mp member
  have block : (off + q) / BSIZE = off / BSIZE := by
    simp only [BSIZE] at *
    omega
  have offset : (off % BSIZE + q) % BSIZE = (off + q) % BSIZE := by
    simp only [BSIZE] at *
    omega
  rw [peek_of_byte (byte_of_lookup (block ▸ found))]
  simp only [offset]

/-- The rounds of readi() through blocks that have been allocated. -/
theorem readLoop_whole (loaded : (s.inode i).valid = true) (fuel : Nat) : ∀ off left : Nat,
    (∀ q, q < left → (s.byte i (off + q)).isSome = true) → left ≤ fuel →
    Fs.readLoop i fuel s off left = .ok (s, (List.range left).map fun q => s.peek i (off + q)) := by
  induction fuel with
  | zero =>
      intro off left _ enough
      obtain rfl := Nat.le_zero.mp enough
      rfl
  | succ fuel ih =>
      intro off left present enough
      rw [Fs.readLoop]
      split
      · rename_i done
        subst done
        rfl
      · rename_i more
        obtain ⟨some_byte, within, _⟩ := @round_fits off left more
        have first := present 0 (Nat.pos_of_ne_zero more)
        rw [Nat.add_zero, byte_isSome] at first
        obtain ⟨b, found⟩ := Option.isSome_iff_exists.mp first
        rw [bmap_of_lookup loaded found]
        change (Fs.readLoop i fuel s _ _ >>= _) = _
        rw [ih (off + min left (BSIZE - off % BSIZE)) (left - min left (BSIZE - off % BSIZE)) ?_
          (by omega)]
        · change Except.ok _ = _
          rw [bytes_round found within]
          have whole : left = min left (BSIZE - off % BSIZE) +
              (left - min left (BSIZE - off % BSIZE)) := by omega
          conv => rhs; rw [whole]
          rw [List.range_add, List.map_append, List.map_map]
          simp only [Function.comp_def, Nat.add_assoc]
        · intro q small
          rw [Nat.add_assoc]
          exact present _ (by omega)

end Read

end Xv6.Public1.Blocks
