import Mathlib.Data.Finset.Card
import Xv6.Public1.TransactionBlocks

/-!
# The blocks that have been logged

What a transaction has passed to log_write() up to a point of its code, whatever the other
processes do: the free map, the blocks of the inodes that it may write, other blocks, and
the blocks of the inodes that its path lookups have freed.
-/

set_option autoImplicit false

namespace Xv6.Public1.Transactions

open Xv6.Lib.Words
open Xv6.Lib.Rely
open Xv6.Lib.Outcome
open Xv6.Public1.Directory (Inum direntSize direntBytes_length)
open Xv6.Public1.Blocks (BSIZE)
open Xv6.Public1.Tree (T_DIR)

/-- How many blocks there are in a list. -/
def distinct (blocks : List Nat) : Nat := blocks.dedup.length

section Distinct
variable {l l' : List Nat}

theorem distinct_eq (l : List Nat) : distinct l = l.toFinset.card := (List.card_toFinset l).symm

theorem distinct_le (all : ∀ b ∈ l, b ∈ l') : distinct l ≤ distinct l' := by
  rw [distinct_eq, distinct_eq]
  refine Finset.card_le_card fun b member => ?_
  exact List.mem_toFinset.mpr (all b (List.mem_toFinset.mp member))

theorem distinct_append : distinct (l ++ l') ≤ l.length + distinct l' := by
  rw [distinct_eq, distinct_eq, List.toFinset_append]
  exact Nat.le_trans (Finset.card_union_le _ _)
    (Nat.add_le_add_right (List.toFinset_card_le l) _)

end Distinct

/-- The blocks of a transaction, and whether it looks a path up. -/
structure Budget where
  blocks : Nat
  lookups : Bool

/-- The blocks of the inodes that path lookups have freed. -/
def Budget.freed (k : Machine) (c : Budget) (s : State) : List Nat :=
  if c.lookups = true then s.freed.map k.IBLOCK else []

def Budget.Fits (k : Machine) (c : Budget) (s : State) : Prop :=
  distinct s.log ≤ c.blocks + distinct (c.freed k s)

/-- What has been logged: the free map, the blocks of the inodes in `I` and of those that are
freed, the indirect blocks of the inodes in `E`, which are locked, and `n` other blocks. -/
structure Within (k : Machine) (p : Proc) (c : Budget) (E I : List Inum) (n : Nat) (s : State) :
    Prop where
  sane : Sane s
  held : ∀ i ∈ E, s.lock i = some p.pid
  room : 1 + I.length + E.length + n ≤ c.blocks
  log : ∃ D : List Nat, D.length ≤ n ∧ ∀ b ∈ s.log, b = k.bmapstart ∨ b ∈ I.map k.IBLOCK ∨
    b ∈ E.map (fun i => (s.inode i).indirect) ∧ b ≠ 0 ∨ b ∈ D ∨ b ∈ c.freed k s

section Counts

variable {k : Machine} {p : Proc} {c : Budget} {E I : List Inum} {n m : Nat} {s t : State}
  {i : Inum} {D : List Nat}

theorem Within.fits (within : Within k p c E I n s) : c.Fits k s := by
  obtain ⟨D, few, logged⟩ := within.log
  have room := within.room
  let own := k.bmapstart :: (I.map k.IBLOCK ++ E.map (fun i => (s.inode i).indirect) ++ D)
  have all : ∀ b ∈ s.log, b ∈ own ++ c.freed k s := by
    intro b member
    rcases logged b member with rfl | inode | indirect | data | freed
    · exact List.mem_append_left _ List.mem_cons_self
    · exact List.mem_append_left _ (List.mem_cons_of_mem _
        (List.mem_append_left _ (List.mem_append_left _ inode)))
    · exact List.mem_append_left _ (List.mem_cons_of_mem _
        (List.mem_append_left _ (List.mem_append_right _ indirect.1)))
    · exact List.mem_append_left _ (List.mem_cons_of_mem _ (List.mem_append_right _ data))
    · exact List.mem_append_right _ freed
  refine Nat.le_trans (distinct_le all) (Nat.le_trans distinct_append ?_)
  have length : own.length = I.length + E.length + D.length + 1 := by
    simp only [own, List.length_cons, List.length_append, List.length_map]
  omega

theorem Within.others (within : Within k p c E I n s) (turn : Others p s t) :
    Within k p c E I n t where
  sane := turn.sane within.sane
  held := fun i member => (turn.lock i).mpr (within.held i member)
  room := within.room
  log := by
    obtain ⟨D, few, logged⟩ := within.log
    refine ⟨D, few, ?_⟩
    have same : E.map (fun i => (t.inode i).indirect) = E.map fun i => (s.inode i).indirect :=
      List.map_congr_left fun i member => by rw [turn.mine i (within.held i member)]
    rw [same, turn.log, Budget.freed, turn.freed]
    exact logged

theorem steady_within : Steady (Others p) (c.Fits k) (Within k p c E I n) where
  stable _ _ := Within.others
  sees _ := Within.fits

/-- A step that logs nothing and changes no inode. -/
theorem Within.same (within : Within k p c E I n s) (inode : t.inode = s.inode)
    (used : t.used = s.used) (log : t.log = s.log) (freed : t.freed = s.freed)
    (held : ∀ i ∈ E, t.lock i = some p.pid) : Within k p c E I n t where
  sane := ⟨used ▸ within.sane.boot_block, inode ▸ within.sane.fine⟩
  held := held
  room := within.room
  log := by
    rw [inode, log, Budget.freed, freed]
    exact within.log

/-! ## Shares of the budget -/

theorem Within.more (within : Within k p c E I n s) (le : n ≤ m)
    (room : 1 + I.length + E.length + m ≤ c.blocks) : Within k p c E I m s :=
  { within with
    room := room
    log := within.log.imp fun _ logged => ⟨Nat.le_trans logged.1 le, logged.2⟩ }

/-- The transaction may write one more inode. -/
theorem Within.widen (i : Inum) (within : Within k p c E I n s)
    (room : 1 + (i :: I).length + E.length + n ≤ c.blocks) : Within k p c E (i :: I) n s :=
  { within with
    room := room
    log := within.log.imp fun _ logged => ⟨logged.1, fun b member =>
      (logged.2 b member).imp_right (.imp_left (List.mem_cons_of_mem _))⟩ }

/-- The block of an inode as one of the other blocks. -/
theorem Within.narrow (within : Within k p c E (i :: I) n s) : Within k p c E I (n + 1) s :=
  { within with
    room := by
      have room := within.room
      rw [List.length_cons] at room
      omega
    log := by
      obtain ⟨D, few, logged⟩ := within.log
      refine ⟨k.IBLOCK i :: D, Nat.succ_le_succ few, fun b member => ?_⟩
      rcases logged b member with map | inode | indirect | data | freed
      · exact .inl map
      · rcases List.mem_cons.mp inode with rfl | inode
        · exact .inr (.inr (.inr (.inl List.mem_cons_self)))
        · exact .inr (.inl inode)
      · exact .inr (.inr (.inl indirect))
      · exact .inr (.inr (.inr (.inl (List.mem_cons_of_mem _ data))))
      · exact .inr (.inr (.inr (.inr freed))) }

/-- The indirect block of a locked inode is counted once. -/
theorem Within.hold (within : Within k p c [] I n s) (locked : s.lock i = some p.pid)
    (room : 1 + I.length + 1 + n ≤ c.blocks) : Within k p c [i] I n s :=
  { within with
    held := fun _ member => (List.mem_singleton.mp member).symm ▸ locked
    room := room
    log := within.log.imp fun _ logged => ⟨logged.1, fun b member =>
      (logged.2 b member).imp_right (.imp_right (.imp_left fun none =>
        absurd none.1 List.not_mem_nil))⟩ }

theorem Within.drop (within : Within k p c [i] I n s) : Within k p c [] I (n + 1) s :=
  { within with
    held := List.forall_mem_nil _
    room := by
      have room := within.room
      simp only [List.length_cons, List.length_nil] at room ⊢
      omega
    log := by
      obtain ⟨D, few, logged⟩ := within.log
      refine ⟨(s.inode i).indirect :: D, Nat.succ_le_succ few, fun b member => ?_⟩
      rcases logged b member with map | inode | indirect | data | freed
      · exact .inl map
      · exact .inr (.inl inode)
      · have first := List.mem_singleton.mp indirect.1
        exact .inr (.inr (.inr (.inl (List.mem_cons.mpr (.inl first)))))
      · exact .inr (.inr (.inr (.inl (List.mem_cons_of_mem _ data))))
      · exact .inr (.inr (.inr (.inr freed))) }

/-- A write to an inode whose indirect block is counted. -/
theorem Within.grow (within : Within k p c E I n s) (grows : Grows k i D s t) (may : i ∈ I)
    (counted : i ∈ E) (few : D.length ≤ m) (room : 1 + I.length + E.length + (n + m) ≤ c.blocks) :
    Within k p c E I (n + m) t where
  sane := grows.sane
  held := fun j member => (congrFun grows.lock j).trans (within.held j member)
  room := room
  log := by
    obtain ⟨D', few', logged⟩ := within.log
    refine ⟨D' ++ D, ?_, fun b member => ?_⟩
    · rw [List.length_append]
      omega
    have freed : c.freed k t = c.freed k s := by rw [Budget.freed, grows.freed, Budget.freed]
    rw [freed]
    rcases grows.log b member with old | map | own | data | ⟨rfl, there⟩
    · rcases logged b old with map | inode | ⟨indirect, there⟩ | data | freed
      · exact .inl map
      · exact .inr (.inl inode)
      · refine .inr (.inr (.inl ⟨?_, there⟩))
        obtain ⟨j, listed, rfl⟩ := List.mem_map.mp indirect
        refine List.mem_map.mpr ⟨j, listed, ?_⟩
        by_cases same : j = i
        · subst same
          exact grows.indirect there
        · rw [grows.others j same]
      · exact .inr (.inr (.inr (.inl (List.mem_append_left _ data))))
      · exact .inr (.inr (.inr (.inr freed)))
    · exact .inl map
    · exact .inr (.inl (List.mem_map.mpr ⟨i, may, own.symm⟩))
    · exact .inr (.inr (.inr (.inl (List.mem_append_right _ data))))
    · exact .inr (.inr (.inl ⟨List.mem_map.mpr ⟨i, counted, rfl⟩, there⟩))

/-- A write to an inode, with its indirect block. -/
theorem Within.write (within : Within k p c [] I n s) (grows : Grows k i D s t) (may : i ∈ I)
    (few : D.length ≤ m) (room : 1 + I.length + (n + m + 1) ≤ c.blocks) :
    Within k p c [] I (n + m + 1) t where
  sane := grows.sane
  held := List.forall_mem_nil _
  room := room
  log := by
    obtain ⟨D', few', logged⟩ := within.log
    refine ⟨(t.inode i).indirect :: (D' ++ D), ?_, fun b member => ?_⟩
    · rw [List.length_cons, List.length_append]
      omega
    have freed : c.freed k t = c.freed k s := by rw [Budget.freed, grows.freed, Budget.freed]
    rw [freed]
    rcases grows.log b member with old | map | own | data | ⟨rfl, _⟩
    · rcases logged b old with map | inode | ⟨indirect, _⟩ | data | freed
      · exact .inl map
      · exact .inr (.inl inode)
      · exact absurd indirect List.not_mem_nil
      · exact .inr (.inr (.inr (.inl (List.mem_cons_of_mem _ (List.mem_append_left _ data)))))
      · exact .inr (.inr (.inr (.inr freed)))
    · exact .inl map
    · exact .inr (.inl (List.mem_map.mpr ⟨i, may, own.symm⟩))
    · exact .inr (.inr (.inr (.inl (List.mem_cons_of_mem _ (List.mem_append_right _ data)))))
    · exact .inr (.inr (.inr (.inl List.mem_cons_self)))

/-- A store to fields of an inode, and iupdate(). -/
theorem Within.store (f : Inode → Inode) (within : Within k p c E I n s) (may : i ∈ I)
    (keeps : ∀ d, (f d).size = d.size ∧ (f d).addrs = d.addrs ∧ (f d).indirect = d.indirect) :
    Within k p c E I n (s.store k i f) where
  sane := by
    refine within.sane.change within.sane.boot_block
      (fun _ other => State.setInode_other s _ other) ?_
    change Fine ((s.setInode i (f (s.inode i))).inode i)
    rw [State.setInode_inode]
    obtain ⟨size, addrs, indirect⟩ := keeps (s.inode i)
    have fine := within.sane.fine i
    refine ⟨?_, ?_, ?_, ?_⟩
    · rw [size, addrs]
      exact fine.mapped
    · rw [indirect, addrs]
      exact fine.entries
    · rw [addrs]
      exact fine.inside
    · rw [indirect]
      exact fine.indirect
  held := within.held
  room := within.room
  log := by
    obtain ⟨D, few, logged⟩ := within.log
    refine ⟨D, few, fun b member => ?_⟩
    have same : E.map (fun j => ((s.store k i f).inode j).indirect) =
        E.map fun j => (s.inode j).indirect := by
      refine List.map_congr_left fun j _ => ?_
      change ((s.setInode i (f (s.inode i))).inode j).indirect = _
      by_cases same : j = i
      · subst same
        rw [State.setInode_inode]
        exact (keeps _).2.2
      · rw [State.setInode_other s _ same]
    rw [same]
    rcases List.mem_cons.mp member with own | old
    · exact .inr (.inl (List.mem_map.mpr ⟨i, may, own.symm⟩))
    · exact logged b old

/-- What iput() does under the lock. -/
theorem Within.release {lookup : Bool} (within : Within k p c [] I n s)
    (may : lookup = false → i ∈ I) (counted : lookup = true → c.lookups = true) :
    Gives (s.release k lookup i) fun r => Within k p c [] I n r.2 := by
  refine ends_mono (release_gives within.sane lookup) (fun _ _ => trivial) ?_
  rintro ⟨_, t⟩ (rfl | ⟨sane, log, freed⟩)
  · exact within
  dsimp only at sane log freed ⊢
  refine ⟨sane, List.forall_mem_nil _, within.room, ?_⟩
  obtain ⟨D, few, logged⟩ := within.log
  refine ⟨D, few, fun b member => ?_⟩
  have kept : b ∈ c.freed k s → b ∈ c.freed k t := by
    intro old
    unfold Budget.freed at old ⊢
    by_cases looks : c.lookups = true
    · rw [if_pos looks] at old ⊢
      rw [freed]
      obtain ⟨j, listed, rfl⟩ := List.mem_map.mp old
      refine List.mem_map.mpr ⟨j, ?_, rfl⟩
      split
      · exact List.mem_cons_of_mem _ listed
      · exact listed
    · rw [if_neg looks] at old
      exact absurd old List.not_mem_nil
  rcases log b member with old | map | own
  · rcases logged b old with map | inode | ⟨indirect, _⟩ | data | freed
    · exact .inl map
    · exact .inr (.inl inode)
    · exact absurd indirect List.not_mem_nil
    · exact .inr (.inr (.inr (.inl data)))
    · exact .inr (.inr (.inr (.inr (kept freed))))
  · exact .inl map
  · cases lookup with
    | false => exact .inr (.inl (List.mem_map.mpr ⟨i, may rfl, own.symm⟩))
    | true =>
        refine .inr (.inr (.inr (.inr ?_)))
        rw [Budget.freed, if_pos (counted rfl), freed, if_pos rfl]
        exact List.mem_map.mpr ⟨i, List.mem_cons_self, own.symm⟩

/-! ## Under the lock -/

theorem iget_same (within : Within k p c E I n s) (i : Inum) :
    Within k p c E I n (s.iget i) := by
  unfold State.iget
  split
  · exact within.same rfl rfl rfl rfl within.held
  · exact within.same rfl rfl rfl rfl within.held

theorem dirlookup_gives {dp : Inum} {name : List Byte} (within : Within k p c E I n s) :
    Gives (s.dirlookup k dp name) fun r =>
      (∀ found ∈ r.1, ∃ q, found.2 = direntSize * q) ∧ Within k p c E I n r.2 := by
  unfold State.dirlookup
  split
  · exact ends_error trivial
  · apply ends_bind
    refine ends_mono (scan_same within.sane _ _ _ 0) (fun _ _ => trivial) ?_
    rintro ⟨found, off, _⟩ ⟨rfl, q, place⟩
    cases found with
    | none => exact ends_pure ⟨fun _ absent => absurd absent (Option.not_mem_none _), within⟩
    | some de =>
        refine ends_pure ⟨fun found same => ?_, iget_same within de.inum⟩
        obtain rfl := Option.mem_some_iff.mp same
        exact ⟨q, place.trans (Nat.zero_add _)⟩

theorem spanned_entry (q : Nat) : spanned (direntSize * q) direntSize ≤ 1 := by
  unfold spanned
  simp only [direntSize, BSIZE]
  split
  · omega
  · omega

theorem addEntry_gives {dp inum : Inum} {name : List Byte} (sane : Sane s) :
    Gives (s.addEntry k dp name inum) fun r =>
      ∃ D : List Nat, D.length ≤ 1 ∧ Grows k dp D s r.2 := by
  unfold State.addEntry
  apply ends_bind
  refine ends_mono (scan_same sane _ _ _ 0) (fun _ _ => trivial) ?_
  rintro ⟨found, off, _⟩ ⟨rfl, q, place⟩
  apply ends_bind
  refine ends_mono (writei_gives sane _ off) (fun _ _ => trivial) ?_
  rintro ⟨r, t⟩ ⟨D, few, grows⟩
  dsimp only at place few grows ⊢
  split
  · exact ends_error trivial
  · refine ends_pure ⟨D, ?_, grows⟩
    rw [place, Nat.zero_add, direntBytes_length] at few
    exact Nat.le_trans few (spanned_entry q)

theorem clearEntry_gives {dp : Inum} {q : Nat} (sane : Sane s) :
    Gives (s.clearEntry k dp (direntSize * q)) fun r =>
      ∃ D : List Nat, D.length ≤ 1 ∧ Grows k dp D s r.2 := by
  unfold State.clearEntry
  apply ends_bind
  refine ends_mono (writei_gives sane _ _) (fun _ _ => trivial) ?_
  rintro ⟨r, t⟩ ⟨D, few, grows⟩
  dsimp only at few grows ⊢
  split
  · exact ends_error trivial
  · refine ends_pure ⟨D, ?_, grows⟩
    rw [direntBytes_length] at few
    exact Nat.le_trans few (spanned_entry q)

theorem isdirempty_gives {dp : Inum} (within : Within k p c E I n s) :
    Gives (s.isdirempty k dp) fun r => Within k p c E I n r.2 := by
  unfold State.isdirempty
  apply ends_bind
  refine ends_mono (scan_same within.sane _ _ _ _) (fun _ _ => trivial) ?_
  rintro ⟨found, off, _⟩ ⟨rfl, _⟩
  exact ends_pure within

theorem ialloc_gives {type : Int} (within : Within k p c [] I n s)
    (room : 1 + (I.length + 1) + n ≤ c.blocks) :
    Gives (s.ialloc k type) fun r => Within k p c [] (r.1 :: I) n r.2 := by
  unfold State.ialloc
  split
  · exact ends_error trivial
  rename_i inum _
  refine iget_same (E := []) ?_ _
  generalize BitVec.ofNat 16 inum = i
  refine ⟨?_, List.forall_mem_nil _, room, ?_⟩
  · refine within.sane.change within.sane.boot_block
      (fun _ other => State.setInode_other s _ other) ?_
    change Fine ((s.setInode i (cleared type)).inode i)
    rw [State.setInode_inode]
    exact ⟨fun _ low => absurd low (Nat.not_lt_zero _), fun _ _ _ => rfl, fun _ => image_pos,
      image_pos⟩
  · obtain ⟨D, few, logged⟩ := within.log
    refine ⟨D, few, fun b member => ?_⟩
    rcases List.mem_cons.mp member with own | old
    · exact .inr (.inl (List.mem_map.mpr ⟨i, List.mem_cons_self, own.symm⟩))
    · rcases logged b old with map | inode | ⟨indirect, _⟩ | rest
      · exact .inl map
      · exact .inr (.inl (List.mem_cons_of_mem _ inode))
      · exact absurd indirect List.not_mem_nil
      · exact .inr (.inr (.inr rest))

end Counts

/-! ## Calls -/

section Calls

variable {k : Machine} {p : Proc} {c : Budget} {E I : List Inum} {n m : Nat} {i : Inum}

/-- The blocks are as `Q` says when the program returns, and fit until then, whatever the
other processes do. -/
abbrev Keeps {α : Type} (k : Machine) (p : Proc) (c : Budget) (P : State → Prop) (x : Code α)
    (Q : α → State → Prop) : Prop :=
  Triple (Others p) (c.Fits k) (fun _ => True) P x Q

theorem acquiresleep_keeps : Keeps k p c (Within k p c E I n) (acquiresleep p i)
    fun _ s => s.lock i = some p.pid ∧ Within k p c E I n s := by
  have steady' : Steady (Others p) (c.Fits k) fun s =>
      s.lock i = some p.pid ∧ Within k p c E I n s :=
    { stable := fun s s' both turn => ⟨(turn.lock i).mpr both.1, both.2.others turn⟩
      sees := fun s both => both.2.fits }
  refine triple_spin steady_within steady' (fun s within taken => ?_) fun s within free => ?_
  · rw [if_pos taken]
    exact within
  · rw [if_neg (Bool.eq_false_iff.mp free)]
    refine ⟨Function.update_self _ _ _, within.same rfl rfl rfl rfl fun j member => ?_⟩
    by_cases same : j = i
    · rw [same]
      exact Function.update_self _ _ _
    · exact (Function.update_of_ne same _ _).trans (within.held j member)

theorem ilock_locks : Keeps k p c (Within k p c E I n) (ilock p i)
    fun _ s => s.lock i = some p.pid ∧ Within k p c E I n s := by
  have steady' : Steady (Others p) (c.Fits k) fun s =>
      s.lock i = some p.pid ∧ Within k p c E I n s :=
    { stable := fun s s' both turn => ⟨(turn.lock i).mpr both.1, both.2.others turn⟩
      sees := fun s both => both.2.fits }
  refine triple_bind (triple_look steady_within) fun ref => triple_branch
    (fun _ => triple_fail steady_within trivial) fun _ => ?_
  refine triple_bind acquiresleep_keeps fun _ => ?_
  refine triple_atomic steady' (fun _ => steady') fun s both => ?_
  split
  · exact both
  · split
    · exact ends_error trivial
    · exact ⟨both.1, both.2.same rfl rfl rfl rfl both.2.held⟩

theorem ilock_keeps : Keeps k p c (Within k p c E I n) (ilock p i) fun _ => Within k p c E I n :=
  triple_mono ilock_locks (fun _ within => within) fun _ _ both => both.2

theorem iunlock_keeps : Keeps k p c (Within k p c [] I n) (iunlock p i)
    fun _ => Within k p c [] I n := by
  refine triple_atomic steady_within (fun _ => steady_within) fun s within => ?_
  split
  · exact ends_error trivial
  · exact within.same rfl rfl rfl rfl (List.forall_mem_nil _)

theorem iput_keeps {lookup : Bool} (may : lookup = false → i ∈ I)
    (counted : lookup = true → c.lookups = true) :
    Keeps k p c (Within k p c [] I n) (iput k p lookup i) fun _ => Within k p c [] I n := by
  refine triple_bind acquiresleep_keeps fun _ => ?_
  refine triple_mono (P := Within k p c [] I n) ?_ (fun _ both => both.2) fun _ _ within => within
  refine triple_bind (triple_atomic (Q := fun _ => Within k p c [] I n) steady_within
    (fun _ => steady_within) fun s within => within.release may counted) fun _ => ?_
  refine triple_bind (triple_write (Q := Within k p c [] I n) steady_within steady_within
    fun s within => within.same rfl rfl rfl rfl (List.forall_mem_nil _)) fun _ => ?_
  exact triple_write steady_within steady_within
    fun s within => within.same rfl rfl rfl rfl (List.forall_mem_nil _)

theorem iunlockput_keeps {lookup : Bool} (may : lookup = false → i ∈ I)
    (counted : lookup = true → c.lookups = true) :
    Keeps k p c (Within k p c [] I n) (iunlockput k p lookup i) fun _ => Within k p c [] I n :=
  triple_bind iunlock_keeps fun _ => iput_keeps may counted

/-- Outside of a path lookup, of an inode that the transaction may write. -/
theorem put_keeps (may : i ∈ I) :
    Keeps k p c (Within k p c [] I n) (iunlockput k p false i) fun _ => Within k p c [] I n :=
  iunlockput_keeps (fun _ => may) fun lookup => absurd lookup Bool.false_ne_true

/-- In a path lookup. -/
theorem pass_keeps (looks : c.lookups = true) :
    Keeps k p c (Within k p c [] I n) (iunlockput k p true i) fun _ => Within k p c [] I n :=
  iunlockput_keeps (fun outside => absurd outside.symm Bool.false_ne_true) fun _ => looks

theorem typeOf_keeps : Keeps k p c (Within k p c E I n) (typeOf i) fun _ => Within k p c E I n :=
  triple_look steady_within

theorem dirlookup_keeps {dp : Inum} {name : List Byte} :
    Keeps k p c (Within k p c E I n) (atomic (State.dirlookup k dp name)) fun found s =>
      (∀ x ∈ found, ∃ q, x.2 = direntSize * q) ∧ Within k p c E I n s :=
  triple_atomic steady_within (fun _ => steady_within.known _) fun _ => dirlookup_gives

/-! ## Paths -/

theorem namexLoop_keeps (looks : c.lookups = true) (nameiparent : Bool)
    (names : List (List Byte)) (ip : Inum) :
    Keeps k p c (Within k p c [] I n) (namexLoop k p nameiparent ip names)
      fun _ => Within k p c [] I n := by
  induction names generalizing ip with
  | nil =>
      rw [namexLoop]
      refine triple_branch (fun _ => ?_) fun _ => triple_pure steady_within fun _ within => within
      refine triple_bind (iput_keeps (fun outside => absurd outside.symm Bool.false_ne_true)
        fun _ => looks) fun _ => triple_pure steady_within fun _ within => within
  | cons name rest ih =>
      rw [namexLoop]
      refine triple_bind ilock_keeps fun _ => triple_bind typeOf_keeps fun type => ?_
      refine triple_branch (fun _ => ?_) fun _ => triple_branch (fun _ => ?_) fun _ => ?_
      · exact triple_bind (pass_keeps looks) fun _ =>
          triple_pure steady_within fun _ within => within
      · exact triple_bind iunlock_keeps fun _ =>
          triple_pure steady_within fun _ within => within
      refine triple_bind dirlookup_keeps fun next => triple_known fun _ => ?_
      cases next with
      | none =>
          exact triple_bind (pass_keeps looks) fun _ =>
            triple_pure steady_within fun _ within => within
      | some next => exact triple_bind (pass_keeps looks) fun _ => ih next.1

theorem namex_keeps (looks : c.lookups = true) (path : List Byte) (nameiparent : Bool) :
    Keeps k p c (Within k p c [] I n) (namex k p path nameiparent)
      fun _ => Within k p c [] I n := by
  unfold namex
  refine triple_branch (fun _ => ?_) fun _ => ?_
  · refine triple_bind (triple_write (Q := Within k p c [] I n) steady_within steady_within
      fun s within => iget_same within _) fun _ => namexLoop_keeps looks _ _ _
  · refine triple_bind (triple_write (Q := Within k p c [] I n) steady_within steady_within
      fun s within => within.same rfl rfl rfl rfl within.held) fun _ => namexLoop_keeps looks _ _ _

theorem namei_keeps (looks : c.lookups = true) (path : List Byte) :
    Keeps k p c (Within k p c [] I n) (namei k p path) fun _ => Within k p c [] I n :=
  triple_bind (namex_keeps looks path false) fun _ =>
    triple_pure steady_within fun _ within => within

theorem nameiparent_keeps (looks : c.lookups = true) (path : List Byte) :
    Keeps k p c (Within k p c [] I n) (nameiparent k p path) fun _ => Within k p c [] I n :=
  namex_keeps looks path true

end Calls

end Xv6.Public1.Transactions
