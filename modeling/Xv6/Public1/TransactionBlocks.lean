import Xv6.Public1.Transactions

/-!
# What is logged under the lock of an inode

A round of readi() or writei(), the loops over the entries of a directory, and the
truncation of an inode, from a sane state to a sane state.
-/

set_option autoImplicit false

namespace Xv6.Public1.Transactions

open Xv6.Lib.Words
open Xv6.Lib.Outcome
open Xv6.Public1.Directory (Inum Dirent direntSize)
open Xv6.Public1.Blocks (BSIZE BPB NDIRECT NINDIRECT MAXFILE NDEV)
open Xv6.Public1.Tree (T_DIR)

variable {k : Machine} {s t u : State} {i : Inum} {D D' : List Nat}

/-- A computation that may panic. -/
abbrev Gives {α : Type} (x : Except Panic α) (post : α → Prop) : Prop :=
  Ends x (fun _ => True) post

theorem image_pos : 0 < FSSIZE := by decide +kernel

theorem image_small : FSSIZE < BPB := by decide +kernel

theorem BBLOCK_image {b : Nat} (inside : b < FSSIZE) : k.BBLOCK b = k.bmapstart := by
  have small : b / BPB = 0 := Nat.div_eq_of_lt (Nat.lt_trans inside image_small)
  rw [Machine.BBLOCK, small, Nat.zero_add]

namespace State

@[simp] theorem setInode_inode (s : State) (i : Inum) (ip : Inode) :
    (s.setInode i ip).inode i = ip := Function.update_self _ _ _

theorem setInode_other (s : State) {i j : Inum} (ip : Inode) (other : j ≠ i) :
    (s.setInode i ip).inode j = s.inode j := Function.update_of_ne other _ _

end State

/-! ## Blocks that are added -/

/-- What has been done to the inode `i`: no block of it is lost, and only the free map, its
own block, its indirect block and the blocks in `D` are logged. -/
structure Grows (k : Machine) (i : Inum) (D : List Nat) (s t : State) : Prop where
  sane : Sane t
  lock : t.lock = s.lock
  freed : t.freed = s.freed
  others : ∀ j, j ≠ i → t.inode j = s.inode j
  addrs : ∀ bn, (s.inode i).addrs bn ≠ 0 → (t.inode i).addrs bn ≠ 0
  indirect : (s.inode i).indirect ≠ 0 → (t.inode i).indirect = (s.inode i).indirect
  log : ∀ b ∈ t.log, b ∈ s.log ∨ b = k.bmapstart ∨ b = k.IBLOCK i ∨ b ∈ D ∨
    b = (t.inode i).indirect ∧ b ≠ 0

theorem Grows.refl (sane : Sane s) : Grows k i D s s where
  sane := sane
  lock := rfl
  freed := rfl
  others := fun _ _ => rfl
  addrs := fun _ there => there
  indirect := fun _ => rfl
  log := fun _ member => .inl member

theorem Grows.trans (first : Grows k i D s t) (later : Grows k i D' t u) :
    Grows k i (D ++ D') s u where
  sane := later.sane
  lock := later.lock.trans first.lock
  freed := later.freed.trans first.freed
  others := fun j other => (later.others j other).trans (first.others j other)
  addrs := fun bn there => later.addrs bn (first.addrs bn there)
  indirect := by
    intro there
    have kept := first.indirect there
    rw [later.indirect (by rwa [kept]), kept]
  log := by
    intro b member
    rcases later.log b member with earlier | map | own | data | indirect
    · rcases first.log b earlier with old | map | own | data | ⟨rfl, there⟩
      · exact .inl old
      · exact .inr (.inl map)
      · exact .inr (.inr (.inl own))
      · exact .inr (.inr (.inr (.inl (List.mem_append_left _ data))))
      · exact .inr (.inr (.inr (.inr ⟨(later.indirect there).symm, there⟩)))
    · exact .inr (.inl map)
    · exact .inr (.inr (.inl own))
    · exact .inr (.inr (.inr (.inl (List.mem_append_right _ data))))
    · exact .inr (.inr (.inr (.inr indirect)))

/-- Once balloc() has taken a block. -/
def State.taken (k : Machine) (s : State) (addr : Nat) : State :=
  ((s.setUsed addr true).log_write k.bmapstart).log_write addr

theorem taken_boot {addr : Nat} (sane : Sane s) (some_block : addr ≠ 0) :
    (s.taken k addr).used 0 = true :=
  (Function.update_of_ne some_block.symm _ _).trans sane.boot_block

theorem taken_log {addr b : Nat} (member : b ∈ (s.taken k addr).log) :
    b = addr ∨ b = k.bmapstart ∨ b ∈ s.log :=
  (List.mem_cons.mp member).imp_right List.mem_cons.mp

theorem Grows.mono (grows : Grows k i D s t) (more : D ⊆ D') : Grows k i D' s t :=
  { grows with
    log := fun b member => (grows.log b member).imp_right (.imp_right (.imp_right
      (.imp_left fun data => more data))) }

theorem balloc_gives (sane : Sane s) : Gives (s.balloc k) fun r =>
    ∃ addr, r = (addr, s.taken k addr) ∧ addr ≠ 0 ∧ addr < FSSIZE := by
  unfold State.balloc
  split
  · exact ends_error trivial
  · rename_i b found
    have free := List.find?_some found
    have inside : b < FSSIZE := List.mem_range.mp (List.mem_of_find?_eq_some found)
    refine ⟨b, by rw [BBLOCK_image inside]; rfl, ?_, inside⟩
    rintro rfl
    rw [sane.boot_block] at free
    cases free

theorem Sane.change (sane : Sane s) (boot_block : t.used 0 = true)
    (others : ∀ j, j ≠ i → t.inode j = s.inode j) (fine : Fine (t.inode i)) : Sane t where
  boot_block := boot_block
  fine := by
    intro j
    by_cases same : j = i
    · exact same ▸ fine
    · exact others j same ▸ sane.fine j

/-- A store to the fields that name no block, and iupdate(). -/
theorem store_grows (ip : Inode) (sane : Sane s) (fine : Fine ip)
    (addrs : ∀ bn, (s.inode i).addrs bn ≠ 0 → ip.addrs bn ≠ 0)
    (indirect : ip.indirect = (s.inode i).indirect) :
    Grows k i [] s ((s.setInode i ip).iupdate k i) where
  sane := sane.change sane.boot_block (fun _ other => State.setInode_other s ip other)
    ((State.setInode_inode s i ip).symm ▸ fine)
  lock := rfl
  freed := rfl
  others := fun _ other => State.setInode_other s ip other
  addrs := by
    intro bn there
    change ((s.setInode i ip).inode i).addrs bn ≠ 0
    rw [State.setInode_inode]
    exact addrs bn there
  indirect := by
    intro _
    change ((s.setInode i ip).inode i).indirect = _
    rw [State.setInode_inode]
    exact indirect
  log := by
    intro b member
    rcases List.mem_cons.mp member with own | old
    · exact .inr (.inr (.inl own))
    · exact .inl old

section Bmap
variable {addr bn : Nat}

/-- What holds of every address and of the new one. -/
theorem update_all {P : Nat → Nat → Prop} {addrs : Nat → Nat} (old : ∀ n, P n (addrs n))
    (new : P bn addr) (n : Nat) : P n (Function.update addrs bn addr n) := by
  by_cases same : n = bn
  · rw [same, Function.update_self]
    exact new
  · rw [Function.update_of_ne same]
    exact old n

/-- A new block for the bytes of the inode. -/
theorem addr_grows (bn : Nat) (sane : Sane s) (some_block : addr ≠ 0) (inside : addr < FSSIZE)
    (entry : NDIRECT ≤ bn → (s.inode i).indirect ≠ 0) :
    Grows k i [addr] s
      ((s.taken k addr).setAddr i bn addr) where
  sane := by
    refine sane.change (taken_boot (k := k) sane some_block)
      (fun j other => State.setInode_other _ _ other) ?_
    have fine := sane.fine i
    rw [State.setAddr, State.setInode_inode]
    exact {
      mapped := update_all (P := fun n a => n * BSIZE < (s.inode i).size → a ≠ 0) fine.mapped
        fun _ => some_block
      entries := fun absent => update_all (P := fun n a => NDIRECT ≤ n → a = 0)
        (fine.entries absent) fun high => absurd absent (entry high)
      inside := update_all (P := fun _ a => a < FSSIZE) fine.inside inside
      indirect := fine.indirect }
  lock := rfl
  freed := rfl
  others := fun j other => State.setInode_other _ _ other
  addrs := by
    rw [State.setAddr, State.setInode_inode]
    exact update_all (P := fun n a => (s.inode i).addrs n ≠ 0 → a ≠ 0) (fun _ there => there)
      fun _ => some_block
  indirect := by
    intro _
    rw [State.setAddr, State.setInode_inode]
    rfl
  log := by
    intro b member
    rcases taken_log member with rfl | map | old
    · exact .inr (.inr (.inr (.inl List.mem_cons_self)))
    · exact .inr (.inl map)
    · exact .inl old

/-- `log_write(bp)` of the indirect block. -/
theorem indirect_grows (sane : Sane s) (there : (s.inode i).indirect ≠ 0) :
    Grows k i [] s (s.log_write (s.inode i).indirect) :=
  { (Grows.refl sane : Grows k i [] s s) with
    sane := ⟨sane.boot_block, sane.fine⟩
    log := by
      intro b member
      rcases List.mem_cons.mp member with rfl | old
      · exact .inr (.inr (.inr (.inr ⟨rfl, there⟩)))
      · exact .inl old }

theorem bmapIndirect_gives (sane : Sane s) : Gives (s.bmapIndirect k i) fun t =>
    Grows k i [] s t ∧ (t.inode i).size = (s.inode i).size ∧ (t.inode i).indirect ≠ 0 := by
  unfold State.bmapIndirect
  split
  · rename_i absent
    apply ends_bind
    refine ends_mono (balloc_gives sane) (fun _ _ => trivial) ?_
    rintro _ ⟨addr, rfl, some_block, inside⟩
    have fine := sane.fine i
    have indirect : (((s.taken k addr).setIndirect i addr).inode i).indirect = addr := by
      rw [State.setIndirect, State.setInode_inode]
    have addrs : ∀ bn, (s.inode i).addrs bn ≠ 0 →
        (((s.taken k addr).setIndirect i addr).inode i).addrs bn ≠ 0 := by
      intro bn there
      rw [State.setIndirect, State.setInode_inode]
      by_cases direct : bn < NDIRECT
      · dsimp only
        rw [if_pos direct]
        exact there
      · exact absurd (fine.entries absent bn (Nat.le_of_not_lt direct)) there
    refine ends_pure ⟨⟨?_, rfl, rfl, fun j other => State.setInode_other _ _ other, addrs, ?_, ?_⟩,
      ?_, indirect.symm ▸ some_block⟩
    · refine sane.change (taken_boot (k := k) sane some_block)
        (fun j other => State.setInode_other _ _ other) ⟨?_, ?_, ?_, indirect.symm ▸ inside⟩
      · intro bn low
        rw [State.setIndirect, State.setInode_inode] at low
        exact addrs bn (fine.mapped bn low)
      · exact fun none_there => absurd (indirect.symm.trans none_there) some_block
      · intro bn
        rw [State.setIndirect, State.setInode_inode]
        dsimp only
        split
        · exact fine.inside bn
        · exact image_pos
    · exact fun there => absurd absent there
    · intro b member
      rcases taken_log member with rfl | map | old
      · exact .inr (.inr (.inr (.inr ⟨indirect.symm, some_block⟩)))
      · exact .inr (.inl map)
      · exact .inl old
    · rw [State.setIndirect, State.setInode_inode]
      rfl
  · rename_i present
    exact ends_pure ⟨Grows.refl sane, rfl, present⟩

theorem bmap_gives (sane : Sane s) (bn : Nat) : Gives (s.bmap k i bn) fun r =>
    Grows k i [r.1] s r.2 ∧ (r.2.inode i).size = (s.inode i).size ∧
      (r.2.inode i).addrs bn ≠ 0 := by
  unfold State.bmap
  split
  · rename_i direct
    split
    · apply ends_bind
      refine ends_mono (balloc_gives sane) (fun _ _ => trivial) ?_
      rintro _ ⟨addr, rfl, some_block, inside⟩
      refine ends_pure ⟨addr_grows bn sane some_block inside
        fun entry => absurd direct (Nat.not_lt.mpr entry), ?_, ?_⟩
      · rw [State.setAddr, State.setInode_inode]
        rfl
      · rw [State.setAddr, State.setInode_inode]
        dsimp only
        rw [Function.update_self]
        exact some_block
    · rename_i present
      exact ends_pure ⟨Grows.refl sane, rfl, present⟩
  · split
    · apply ends_bind
      refine ends_mono (bmapIndirect_gives sane) (fun _ _ => trivial) ?_
      rintro t ⟨grows, size, indirect⟩
      split
      · apply ends_bind
        refine ends_mono (balloc_gives grows.sane) (fun _ _ => trivial) ?_
        rintro _ ⟨addr, rfl, some_block, inside⟩
        have added := addr_grows (k := k) bn grows.sane some_block inside fun _ => indirect
        have kept := added.indirect indirect
        have logged := indirect_grows (k := k) added.sane (kept.symm ▸ indirect)
        rw [kept] at logged
        refine ends_pure ⟨(grows.trans added).trans logged, ?_, ?_⟩
        · change (((t.taken k addr).setAddr i bn addr).inode i).size = _
          rw [State.setAddr, State.setInode_inode]
          exact size
        · change (((t.taken k addr).setAddr i bn addr).inode i).addrs bn ≠ 0
          rw [State.setAddr, State.setInode_inode]
          dsimp only
          rw [Function.update_self]
          exact some_block
      · rename_i present
        exact ends_pure ⟨grows.trans (Grows.refl grows.sane), size, present⟩
    · exact ends_error trivial

end Bmap

/-! ## writei() -/

/-- The number of blocks with a byte of `[off, off + n)`. -/
def spanned (off n : Nat) : Nat := if n = 0 then 0 else (off % BSIZE + n + (BSIZE - 1)) / BSIZE

theorem spanned_round (off : Nat) {n : Nat} (some_byte : 0 < n) :
    spanned (off + min n (BSIZE - off % BSIZE)) (n - min n (BSIZE - off % BSIZE)) + 1 ≤
      spanned off n := by
  unfold spanned
  rw [if_neg (Nat.ne_of_gt some_byte)]
  simp only [BSIZE]
  split
  · omega
  · omega

/-- A round of writei() after bmap(). -/
theorem round_grows (sane : Sane s) (data : Nat → Byte) (addr : Nat) :
    Grows k i [addr] s ((s.setInode i { s.inode i with data := data }).log_write addr) where
  sane := by
    refine sane.change sane.boot_block (fun _ other => State.setInode_other s _ other) ?_
    change Fine ((s.setInode i _).inode i)
    rw [State.setInode_inode]
    have fine := sane.fine i
    exact ⟨fine.mapped, fine.entries, fine.inside, fine.indirect⟩
  lock := rfl
  freed := rfl
  others := fun _ other => State.setInode_other s _ other
  addrs := by
    intro bn there
    change ((s.setInode i _).inode i).addrs bn ≠ 0
    rw [State.setInode_inode]
    exact there
  indirect := by
    intro _
    change ((s.setInode i _).inode i).indirect = _
    rw [State.setInode_inode]
  log := by
    intro b member
    rcases List.mem_cons.mp member with rfl | old
    · exact .inr (.inr (.inr (.inl List.mem_cons_self)))
    · exact .inl old

theorem writeLoop_gives (sane : Sane s) {fuel off : Nat} {src : List Byte}
    (enough : src.length ≤ fuel) : Gives (s.writeLoop k i fuel off src) fun t =>
      ∃ D : List Nat, D.length ≤ spanned off src.length ∧ Grows k i D s t ∧
        (t.inode i).size = (s.inode i).size ∧
        ∀ q, off ≤ q → q < off + src.length → (t.inode i).addrs (q / BSIZE) ≠ 0 := by
  induction fuel generalizing s off src with
  | zero =>
      obtain rfl := List.eq_nil_of_length_eq_zero (Nat.le_zero.mp enough)
      exact ends_pure ⟨[], Nat.zero_le _, Grows.refl sane, rfl,
        fun q low high => absurd high (Nat.not_lt.mpr low)⟩
  | succ fuel ih =>
      rw [State.writeLoop]
      split
      · rename_i empty
        subst empty
        exact ends_pure ⟨[], Nat.zero_le _, Grows.refl sane, rfl,
          fun q low high => absurd high (Nat.not_lt.mpr low)⟩
      · rename_i more
        have some_byte := List.length_pos_of_ne_nil more
        have progress : 0 < min src.length (BSIZE - off % BSIZE) :=
          Nat.lt_min.mpr ⟨some_byte, Nat.sub_pos_of_lt (Nat.mod_lt off (by decide))⟩
        have count := spanned_round off some_byte
        apply ends_bind
        refine ends_mono (bmap_gives sane (off / BSIZE)) (fun _ _ => trivial) ?_
        rintro ⟨addr, t⟩ ⟨mapped, size, present⟩
        dsimp only at mapped size present ⊢
        have inside : min src.length (BSIZE - off % BSIZE) ≤ BSIZE - off % BSIZE :=
          Nat.min_le_right _ _
        generalize min src.length (BSIZE - off % BSIZE) = m at *
        have stored := round_grows (k := k) (i := i) mapped.sane (fun q =>
          if off ≤ q ∧ q < off + m then src.getD (q - off) 0 else (t.inode i).data q) addr
        have round := mapped.trans stored
        have shorter : (src.drop m).length ≤ fuel := by
          rw [List.length_drop]
          omega
        refine ends_mono (ih round.sane shorter) (fun _ _ => trivial) ?_
        rintro u ⟨D, few, rest, same, later⟩
        rw [List.length_drop] at few later
        refine ⟨addr :: D, Nat.le_trans (Nat.succ_le_succ few) count,
          (round.trans rest).mono (by simp), ?_, fun q low high => ?_⟩
        · rw [same]
          change ((t.setInode i _).inode i).size = _
          rw [State.setInode_inode]
          exact size
        · by_cases here : q < off + m
          · have block : q / BSIZE = off / BSIZE := by
              simp only [BSIZE] at inside ⊢
              omega
            rw [block]
            exact rest.addrs _ (stored.addrs _ present)
          · exact later q (Nat.le_of_not_lt here) (by omega)

theorem writei_gives (sane : Sane s) (src : List Byte) (off : Nat) :
    Gives (s.writei k i src off) fun r =>
      ∃ D : List Nat, D.length ≤ spanned off src.length ∧ Grows k i D s r.2 := by
  have same : ∃ D : List Nat, D.length ≤ spanned off src.length ∧ Grows k i D s s :=
    ⟨[], Nat.zero_le _, Grows.refl sane⟩
  unfold State.writei
  split
  · split
    · exact ends_pure same
    · split
      · exact ends_pure same
      · exact ends_pure same
  split
  · exact ends_pure same
  split
  · exact ends_pure same
  rename_i inside _
  apply ends_bind
  refine ends_mono (writeLoop_gives sane (Nat.le_refl src.length)) (fun _ _ => trivial) ?_
  rintro t ⟨D, few, grows, size, present⟩
  split
  · have fine := grows.sane.fine i
    have stored := store_grows (k := k) { t.inode i with size := off + src.length } grows.sane
      { fine with
        mapped := by
          intro bn low
          by_cases old : bn * BSIZE < (t.inode i).size
          · exact fine.mapped bn old
          · have block := present (bn * BSIZE) (by omega) low
            rwa [Nat.mul_div_cancel bn (by decide)] at block }
      (fun _ there => there) rfl
    exact ends_pure ⟨D, few, (grows.trans stored).mono (by simp)⟩
  · exact ends_pure ⟨D, few, grows⟩

/-! ## readi() -/

theorem bmap_same (sane : Sane s) {bn : Nat} (present : (s.inode i).addrs bn ≠ 0) :
    Gives (s.bmap k i bn) fun r => r.2 = s := by
  unfold State.bmap
  by_cases high : bn < NDIRECT
  · rw [if_pos high, if_neg present]
    exact ends_pure rfl
  · rw [if_neg high]
    have indirect : (s.inode i).indirect ≠ 0 := fun absent =>
      present ((sane.fine i).entries absent bn (Nat.le_of_not_lt high))
    split
    · rw [State.bmapIndirect, if_neg indirect]
      apply ends_bind
      refine ends_pure ?_
      rw [if_neg present]
      exact ends_pure rfl
    · exact ends_error trivial

theorem readLoop_same (sane : Sane s) {fuel off left : Nat}
    (inside : off + left ≤ (s.inode i).size) :
    Gives (s.readLoop k i fuel off left) fun r => r.2 = s := by
  induction fuel generalizing off left with
  | zero => exact ends_pure rfl
  | succ fuel ih =>
      rw [State.readLoop]
      split
      · exact ends_pure rfl
      · apply ends_bind
        have low : off / BSIZE * BSIZE < (s.inode i).size := by
          have := Nat.div_mul_le_self off BSIZE
          omega
        refine ends_mono (bmap_same sane ((sane.fine i).mapped _ low)) (fun _ _ => trivial) ?_
        rintro ⟨addr, _⟩ rfl
        apply ends_bind
        refine ends_mono (ih ?_) (fun _ _ => trivial) ?_
        · have := Nat.min_le_left left (BSIZE - off % BSIZE)
          omega
        · rintro ⟨rest, _⟩ rfl
          exact ends_pure rfl

theorem readi_same (sane : Sane s) (off n : Nat) :
    Gives (s.readi k i off n) fun r => r.2 = s := by
  unfold State.readi
  split
  · exact ends_pure rfl
  · apply readLoop_same sane
    split
    · omega
    · omega

theorem scan_same (sane : Sane s) (short : Panic) (stops : Dirent → Bool) (fuel off : Nat) :
    Gives (s.scan k i short stops fuel off) fun r =>
      r.2.2 = s ∧ ∃ q, r.2.1 = off + direntSize * q := by
  induction fuel generalizing off with
  | zero => exact ends_pure ⟨rfl, 0, rfl⟩
  | succ fuel ih =>
      rw [State.scan]
      split
      · apply ends_bind
        unfold State.readEntry
        apply ends_bind
        refine ends_mono (readi_same sane off direntSize) (fun _ _ => trivial) ?_
        rintro ⟨bytes, _⟩ rfl
        dsimp only
        split
        · refine ends_pure ?_
          dsimp only
          split
          · exact ends_pure ⟨rfl, 0, rfl⟩
          · refine ends_mono (ih (off + direntSize)) (fun _ _ => trivial) ?_
            rintro r ⟨same, q, place⟩
            exact ⟨same, q + 1, by rw [place, Nat.mul_succ]; omega⟩
        · exact ends_error trivial
      · exact ends_pure ⟨rfl, 0, rfl⟩

/-! ## An inode that is freed -/

/-- While itrunc() runs: the blocks of the inode are on the image, and only the free map and
its own block are logged. -/
structure Shrinks (k : Machine) (i : Inum) (s t : State) : Prop where
  boot_block : t.used 0 = true
  lock : t.lock = s.lock
  freed : t.freed = s.freed
  others : ∀ j, j ≠ i → t.inode j = s.inode j
  entries : (t.inode i).indirect = 0 → ∀ bn, NDIRECT ≤ bn → (t.inode i).addrs bn = 0
  inside : ∀ bn, (t.inode i).addrs bn < FSSIZE
  indirect : (t.inode i).indirect < FSSIZE
  log : ∀ b ∈ t.log, b ∈ s.log ∨ b = k.bmapstart ∨ b = k.IBLOCK i

theorem Shrinks.refl (sane : Sane s) : Shrinks k i s s where
  boot_block := sane.boot_block
  lock := rfl
  freed := rfl
  others := fun _ _ => rfl
  entries := (sane.fine i).entries
  inside := (sane.fine i).inside
  indirect := (sane.fine i).indirect
  log := fun _ member => .inl member

section Itrunc
variable {addr bn : Nat}

theorem bfree_gives (shrinks : Shrinks k i s t) (some_block : addr ≠ 0) (inside : addr < FSSIZE) :
    Gives (t.bfree k addr) fun u => Shrinks k i s u ∧ u.inode = t.inode := by
  unfold State.bfree
  split
  · exact ends_error trivial
  · refine ends_pure ⟨{ shrinks with
      boot_block := (Function.update_of_ne some_block.symm _ _).trans shrinks.boot_block
      log := ?_ }, rfl⟩
    intro b member
    rcases List.mem_cons.mp member with map | old
    · exact .inr (.inl (map.trans (BBLOCK_image inside)))
    · exact shrinks.log b old

theorem setAddr_shrinks (shrinks : Shrinks k i s t) (bn : Nat) :
    Shrinks k i s (t.setAddr i bn 0) where
  boot_block := shrinks.boot_block
  lock := shrinks.lock
  freed := shrinks.freed
  others := fun j other => (State.setInode_other _ _ other).trans (shrinks.others j other)
  entries := by
    rw [State.setAddr, State.setInode_inode]
    exact fun absent => update_all (P := fun n a => NDIRECT ≤ n → a = 0) (shrinks.entries absent)
      fun _ => rfl
  inside := by
    rw [State.setAddr, State.setInode_inode]
    exact update_all (P := fun _ a => a < FSSIZE) shrinks.inside image_pos
  indirect := by
    rw [State.setAddr, State.setInode_inode]
    exact shrinks.indirect
  log := shrinks.log

theorem setIndirect_shrinks (shrinks : Shrinks k i s t) : Shrinks k i s (t.setIndirect i 0) where
  boot_block := shrinks.boot_block
  lock := shrinks.lock
  freed := shrinks.freed
  others := fun j other => (State.setInode_other _ _ other).trans (shrinks.others j other)
  entries := by
    rw [State.setIndirect, State.setInode_inode]
    exact fun _ n high => if_neg (Nat.not_lt.mpr high)
  inside := by
    rw [State.setIndirect, State.setInode_inode]
    intro n
    dsimp only
    split
    · exact shrinks.inside n
    · exact image_pos
  indirect := by
    rw [State.setIndirect, State.setInode_inode]
    exact image_pos
  log := shrinks.log

/-- With its fields cleared it is sane again. -/
theorem Shrinks.done (ip : Inode) (shrinks : Shrinks k i s t) (sane : Sane s) (empty : ip.size = 0)
    (addrs : ip.addrs = (t.inode i).addrs) (indirect : ip.indirect = (t.inode i).indirect) :
    Sane (t.setInode i ip) ∧ Shrinks k i s ((t.setInode i ip).iupdate k i) := by
  have inode : (t.setInode i ip).inode i = ip := State.setInode_inode t i ip
  have others : ∀ j, j ≠ i → (t.setInode i ip).inode j = s.inode j := fun j other =>
    (State.setInode_other t ip other).trans (shrinks.others j other)
  constructor
  · refine sane.change shrinks.boot_block others ?_
    rw [inode]
    refine ⟨fun bn low => ?_, ?_, ?_, ?_⟩
    · rw [empty] at low
      cases low
    · rw [addrs, indirect]
      exact shrinks.entries
    · rw [addrs]
      exact shrinks.inside
    · rw [indirect]
      exact shrinks.indirect
  · refine ⟨shrinks.boot_block, shrinks.lock, shrinks.freed, others, ?_, ?_, ?_, ?_⟩
    · change ((t.setInode i ip).inode i).indirect = 0 → ∀ bn, NDIRECT ≤ bn →
        ((t.setInode i ip).inode i).addrs bn = 0
      rw [inode, addrs, indirect]
      exact shrinks.entries
    · change ∀ bn, ((t.setInode i ip).inode i).addrs bn < FSSIZE
      rw [inode, addrs]
      exact shrinks.inside
    · change ((t.setInode i ip).inode i).indirect < FSSIZE
      rw [inode, indirect]
      exact shrinks.indirect
    · intro b member
      rcases List.mem_cons.mp member with own | old
      · exact .inr (.inr own)
      · exact shrinks.log b old

/-- A round over the direct blocks. -/
theorem direct_gives (shrinks : Shrinks k i s t) (bn : Nat) :
    Gives (if (t.inode i).addrs bn ≠ 0 then do
      let u ← t.bfree k ((t.inode i).addrs bn)
      pure (u.setAddr i bn 0)
    else pure t) (Shrinks k i s) := by
  split
  · rename_i present
    apply ends_bind
    refine ends_mono (bfree_gives shrinks present (shrinks.inside bn)) (fun _ _ => trivial) ?_
    rintro u ⟨shrinks', _⟩
    exact ends_pure (setAddr_shrinks shrinks' bn)
  · exact ends_pure shrinks

/-- A round over the entries of the indirect block. -/
theorem entry_gives (shrinks : Shrinks k i s u) (same : u.inode = t.inode)
    (inside : addr < FSSIZE) : Gives (if addr ≠ 0 then u.bfree k addr else pure u) fun v =>
      Shrinks k i s v ∧ v.inode = t.inode := by
  split
  · rename_i entry
    refine ends_mono (bfree_gives shrinks entry inside) (fun _ _ => trivial) ?_
    rintro v ⟨shrinks', same'⟩
    exact ⟨shrinks', same'.trans same⟩
  · exact ends_pure ⟨shrinks, same⟩

theorem itrunc_gives (sane : Sane s) : Gives (s.itrunc k i) fun t =>
    Shrinks k i s t ∧ (t.inode i).size = 0 := by
  have finish : ∀ u, Shrinks k i s u →
      Shrinks k i s ((u.setInode i { u.inode i with size := 0 }).iupdate k i) ∧
        (((u.setInode i { u.inode i with size := 0 }).iupdate k i).inode i).size = 0 := by
    intro u shrinks
    refine ⟨(Shrinks.done { u.inode i with size := 0 } shrinks sane rfl rfl rfl).2, ?_⟩
    change ((u.setInode i { u.inode i with size := 0 }).inode i).size = 0
    rw [State.setInode_inode]
  unfold State.itrunc
  apply ends_bind
  have loop := @ends_foldlM _ _ (fun _ : Panic => True) _ _ (fun _ t => Shrinks k i s t)
    (fun bn _ _ shrinks => direct_gives shrinks bn) (List.range NDIRECT) s (Shrinks.refl sane)
  refine ends_mono loop (fun _ _ => trivial) fun t shrinks => ?_
  split
  · rename_i present
    apply ends_bind
    have loop' := @ends_foldlM _ _ (fun _ : Panic => True) _ _
      (fun _ u => Shrinks k i s u ∧ u.inode = t.inode)
      (fun j _ _ both => entry_gives both.1 both.2 (shrinks.inside (NDIRECT + j)))
      (List.range NINDIRECT) t ⟨shrinks, rfl⟩
    refine ends_mono loop' (fun _ _ => trivial) ?_
    rintro u ⟨shrinks', same⟩
    apply ends_bind
    refine ends_mono (bfree_gives shrinks' (same.symm ▸ present) shrinks'.indirect)
      (fun _ _ => trivial) ?_
    rintro v ⟨shrinks'', _⟩
    exact ends_pure (finish _ (setIndirect_shrinks shrinks''))
  · exact ends_pure (finish t shrinks)

/-- iput() under the lock leaves the inode or frees it. -/
theorem release_gives (sane : Sane s) (lookup : Bool) : Gives (s.release k lookup i) fun r =>
    r.2 = s ∨ Sane r.2 ∧ (∀ b ∈ r.2.log, b ∈ s.log ∨ b = k.bmapstart ∨ b = k.IBLOCK i) ∧
      r.2.freed = if lookup = true then i :: s.freed else s.freed := by
  unfold State.release
  split
  · apply ends_bind
    refine ends_mono (itrunc_gives sane) (fun _ _ => trivial) ?_
    rintro t ⟨shrinks, empty⟩
    have done := Shrinks.done { t.inode i with type := 0 } shrinks sane empty rfl rfl
    refine ends_pure (.inr ?_)
    dsimp only
    split
    · exact ⟨⟨done.1.boot_block, done.1.fine⟩, done.2.log, congrArg (i :: ·) shrinks.freed⟩
    · exact ⟨⟨done.1.boot_block, done.1.fine⟩, done.2.log, shrinks.freed⟩
  · exact ends_pure (.inl rfl)

end Itrunc

end Xv6.Public1.Transactions
