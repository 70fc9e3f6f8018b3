import Xv6.Public1.CacheCoherence

/-!
# The mode that an inode was given last (xv6-public_1)

Over whole runs the mode that chmod() has written back, or create() has given,
is the one that every later ilock() finds.  Entries that nobody refers to keep
what they held, and are stale once their inode is changed through another one.
-/

set_option autoImplicit false

namespace Xv6.Public1.InodeCache

open Xv6.Lib
open Xv6.Lib.Words
open Xv6.Common
open Xv6.Public1.Inodes

variable {V : Type}

/-! ## What the operations do to an entry and to the modes on disk -/

theorem write_mode (c : Icache) (dev inum d n : Word) (y : Dinode) :
    ((c.write dev inum y).disk d n).mode =
      if d = dev ∧ n = inum then y.mode else (c.disk d n).mode := by
  rw [write_disk]
  exact apply_ite Dinode.mode _ _ _

/-- ilock() keeps the identity of the entry and the disk. -/
theorem ilock_some {s next : Cache V} {v : V} (locked : s.ilock v = some next) :
    ∃ ip, s.var v = .to ip ∧ next.var = s.var ∧ next.lock ip = some (v, .clean) ∧
      (next.inode ip).dev = (s.inode ip).dev ∧ (next.inode ip).inum = (s.inode ip).inum ∧
      next.icache.disk = s.icache.disk := by
  unfold Cache.ilock at locked
  split at locked
  · rename_i ip points
    split at locked
    · cases locked
    · obtain ⟨icache, loaded, same⟩ := Option.map_eq_some_iff.mp locked
      subst same
      have owner : ({ s with icache := icache }.setLock ip (some (v, .clean))).lock ip =
          some (v, .clean) := by
        rw [setLock_lock, if_pos rfl]
      obtain ⟨_, same⟩ | ⟨_, _, same⟩ := ilock_cases loaded
      · subst same
        exact ⟨ip, points, rfl, owner, rfl, rfl, rfl⟩
      · subst same
        refine ⟨ip, points, rfl, owner, ?_, ?_, rfl⟩
        · rw [setLock_inode, mk_inode, set_inode, if_pos rfl]
          rfl
        · rw [setLock_inode, mk_inode, set_inode, if_pos rfl]
          rfl
  · cases locked

variable [DecidableEq V]

theorem iget_some {s next : Cache V} {v : V} {dev inum : Word}
    (got : s.iget v dev inum = some next) :
    ∃ ip, next.var v = .to ip ∧ (next.inode ip).dev = dev ∧ (next.inode ip).inum = inum ∧
      next.icache.disk = s.icache.disk := by
  unfold Cache.iget at got
  split at got
  · obtain ⟨⟨ip, icache⟩, found, same⟩ := Option.map_eq_some_iff.mp got
    subst same
    refine ⟨ip, ?_, ?_⟩
    · rw [point_var, if_pos rfl]
    · obtain ⟨_, dev, inum, same⟩ | ⟨_, _, same⟩ := iget_cases found
      · subst same
        rw [point_inode, mk_inode, Icache.idup, set_inode, if_pos rfl]
        exact ⟨dev, inum, rfl⟩
      · subst same
        rw [point_inode, mk_inode, set_inode, if_pos rfl]
        exact ⟨rfl, rfl, rfl⟩
  · cases got

theorem iupdate_some {s next : Cache V} {v : V} (updated : s.iupdate v = some next) :
    ∃ ip phase, s.locked v = some (ip, phase) ∧ next.inode = s.inode ∧ next.var = s.var ∧
      ∀ d n, (next.icache.disk d n).mode =
        if d = (s.inode ip).dev ∧ n = (s.inode ip).inum then (s.inode ip).mode
        else (s.icache.disk d n).mode := by
  unfold Cache.iupdate at updated
  obtain ⟨⟨ip, phase⟩, found, same⟩ := Option.map_eq_some_iff.mp updated
  subst same
  exact ⟨ip, phase, found, rfl, rfl, fun d n => write_mode s.icache _ _ d n _⟩

theorem idup_disk {s next : Cache V} {v w : V} (dup : s.idup v w = some next) :
    next.icache.disk = s.icache.disk := by
  unfold Cache.idup at dup
  split at dup
  · cases dup
    rfl
  · cases dup

theorem move_disk {s next : Cache V} {v w : V} (moved : s.move v w = some next) :
    next.icache.disk = s.icache.disk := by
  unfold Cache.move at moved
  split at moved
  · cases moved
    rfl
  · cases moved

theorem storeMode_disk {s next : Cache V} {v : V} {mode : Word}
    (stored : s.storeMode v mode = some next) : next.icache.disk = s.icache.disk := by
  unfold Cache.storeMode at stored
  split at stored
  · cases stored
    rfl
  · cases stored

theorem iunlock_disk {s next : Cache V} {v : V} (unlocked : s.iunlock v = some next) :
    next.icache.disk = s.icache.disk := by
  unfold Cache.iunlock at unlocked
  split at unlocked
  · cases unlocked
    rfl
  · cases unlocked

theorem putEnd_disk {s next : Cache V} {v : V} (put : s.putEnd v = some next) :
    next.icache.disk = s.icache.disk := by
  unfold Cache.putEnd at put
  split at put
  · cases put
    rfl
  · cases put

theorem storeLinks_some {s next : Cache V} {v : V} {nlink : Int}
    (stored : s.storeLinks v nlink = some next) :
    next.var = s.var ∧ next.icache.disk = s.icache.disk ∧
      ∀ j, (next.inode j).dev = (s.inode j).dev ∧ (next.inode j).inum = (s.inode j).inum ∧
        (next.inode j).mode = (s.inode j).mode := by
  unfold Cache.storeLinks at stored
  split at stored
  · rename_i ip found
    cases stored
    refine ⟨rfl, rfl, ?_⟩
    intro j
    rw [setLock_inode, mk_inode, set_inode]
    split
    · rename_i here
      subst here
      exact ⟨rfl, rfl, rfl⟩
    · exact ⟨rfl, rfl, rfl⟩
  · cases stored

section Told
variable [Fintype V]

omit [DecidableEq V] in
/-- Between ilock() and the next store the entry has the mode on disk. -/
theorem clean_mode {s : Cache V} (h : s.Coherent) {v : V} {ip : InodeSlot} {phase : Phase}
    (owner : s.lock ip = some (v, phase)) (unstored : phase ≠ .mode) :
    (s.inode ip).mode = (s.dinode ip).mode := by
  obtain ⟨points, valid⟩ := h.owned ip v phase owner
  have agrees := h.agrees ip (h.live (by rw [points, to_slot])) valid
  refine (agrees.mode ?_).symm
  rintro ⟨w, other⟩
  rw [owner] at other
  cases other
  exact unstored rfl

omit [DecidableEq V] in
/-- What ilock() finds is what is on disk. -/
theorem ilock_sees {s next : Cache V} (h : s.Coherent) {v : V} {ip : InodeSlot}
    (points : s.var v = .to ip) (locked : s.ilock v = some next) :
    (next.inode ip).mode = (s.dinode ip).mode := by
  obtain ⟨j, pointed, _, owner, dev, inum, disk⟩ := ilock_some locked
  rw [points] at pointed
  cases pointed
  rw [clean_mode (h.ilock locked) owner (by simp)]
  unfold Cache.dinode
  rw [dev, inum, disk]

/-- create() returns a locked entry with mode 7, which is also on disk, and
writes the mode of no other inode. -/
theorem create_some {s next : Cache V} (h : s.Coherent) {v : V} {dev : Word} {type : Int}
    (created : s.create v dev type = some next) :
    ∃ ip, next.var v = .to ip ∧ (next.inode ip).mode = 7 ∧
      ∀ d n, (next.icache.disk d n).mode =
        if d = (next.inode ip).dev ∧ n = (next.inode ip).inum then 7
        else (s.icache.disk d n).mode := by
  unfold Cache.create at created
  obtain ⟨s₁, allocated, created⟩ := Option.bind_eq_some_iff.mp created
  obtain ⟨s₂, locked, created⟩ := Option.bind_eq_some_iff.mp created
  obtain ⟨s₃, stored, updated⟩ := Option.bind_eq_some_iff.mp created
  have h₁ := h.ialloc allocated
  obtain ⟨inum, _, _, got⟩ := ialloc_some allocated
  obtain ⟨ip, points, device, number, disk₁⟩ := iget_some got
  have seven := ilock_sees h₁ points locked
  obtain ⟨_, pointed, vars, owner, dev₂, inum₂, disk₂⟩ := ilock_some locked
  rw [points] at pointed
  cases pointed
  have written : ∀ d n, (s₁.icache.disk d n).mode =
      if d = dev ∧ n = inum then 7 else (s.icache.disk d n).mode := by
    intro d n
    rw [disk₁]
    exact write_mode s.icache dev inum d n _
  have loaded : (s₂.inode ip).mode = 7 := by
    rw [seven]
    unfold Cache.dinode
    rw [written, if_pos ⟨device, number⟩]
  have found := locked_some.mpr ⟨vars ▸ points, owner⟩
  obtain ⟨vars₃, disk₃, kept⟩ := storeLinks_some stored
  obtain ⟨j, phase, found₃, inode, var, disk⟩ := iupdate_some updated
  have pointed := (locked_some.mp found₃).1
  rw [vars₃, vars, points] at pointed
  cases pointed
  obtain ⟨dev₃, inum₃, mode₃⟩ := kept ip
  refine ⟨ip, ?_, ?_, ?_⟩
  · rw [var, vars₃, vars, points]
  · rw [inode, mode₃, loaded]
  · intro d n
    rw [disk, inode, dev₃, inum₃, mode₃, loaded, disk₃, disk₂, written]
    split
    · rfl
    · rename_i other
      rw [dev₂, inum₂, device, number] at other
      exact if_neg other

end Told

/-! ## The observer's record is on disk -/

/-- What chmod() or create() has given is what the disk has. -/
def Kept (s : Cache V) (given : Given) : Prop :=
  ∀ dev inum mode, given dev inum = some mode → (s.icache.disk dev inum).mode = mode

theorem set_apply (given : Given) (i : Inode) (mode : Option Word) (d n : Word) :
    given.set i mode d n = if d = i.dev ∧ n = i.inum then mode else given d n := by
  simp only [Given.set, Function.update_apply]
  by_cases same : d = i.dev
  · subst same
    by_cases number : n = i.inum <;> simp [number]
  · simp [same]

omit [DecidableEq V] in
/-- A mode is written to the disk and to the record, and no other changes. -/
theorem Kept.set {s next : Cache V} {given : Given} (kept : Kept s given) (i : Inode)
    (mode : Word)
    (disk : ∀ d n, (next.icache.disk d n).mode =
      if d = i.dev ∧ n = i.inum then mode else (s.icache.disk d n).mode) :
    Kept next (given.set i (some mode)) := by
  intro d n told noted
  rw [set_apply] at noted
  rw [disk]
  split
  · rename_i here
    rw [if_pos here] at noted
    exact Option.some.inj noted
  · rename_i other
    rw [if_neg other] at noted
    exact kept d n told noted

omit [DecidableEq V] in
theorem Kept.still {s next : Cache V} {given : Given} (kept : Kept s given)
    (disk : ∀ d n, (next.icache.disk d n).mode = (s.icache.disk d n).mode) : Kept next given := by
  intro d n told noted
  rw [disk]
  exact kept d n told noted

theorem Kept.iupdate [Fintype V] {s next : Cache V} {given : Given} (h : s.Coherent)
    (kept : Kept s given) {v : V} (updated : s.iupdate v = some next) :
    Kept next (record s given (.iupdate v)) := by
  obtain ⟨ip, phase, found, _, _, disk⟩ := iupdate_some updated
  have owner := (locked_some.mp found).2
  cases phase with
  | mode =>
      simp only [record, found]
      exact kept.set (s.inode ip) (s.inode ip).mode disk
  | clean =>
      simp only [record, found]
      apply kept.still
      intro d n
      rw [disk, clean_mode h owner (by simp)]
      split
      · rename_i here
        rw [here.1, here.2]
        rfl
      · rfl
  | links =>
      simp only [record, found]
      apply kept.still
      intro d n
      rw [disk, clean_mode h owner (by simp)]
      split
      · rename_i here
        rw [here.1, here.2]
        rfl
      · rfl

theorem Kept.iput {s next : Cache V} {given : Given} (kept : Kept s given) {v : V}
    (put : s.iput v = some next) : Kept next (record s given (.iput v)) := by
  unfold Cache.iput at put
  split at put
  · rename_i ip points
    split at put
    · cases put
    · cases put
      by_cases last : s.Last ip
      · simp only [record, points, if_pos last]
        intro d n told noted
        rw [set_apply] at noted
        split at noted
        · cases noted
        · rename_i other
          rw [point_icache]
          dsimp only
          rw [free_eq, write_mode]
          exact (if_neg other).trans (kept d n told noted)
      · simp only [record, points, if_neg last]
        exact kept.still fun d n => rfl
  · cases put

/-- A step writes on the disk the modes that it puts into the record. -/
theorem Kept.step [Fintype V] {s next : Cache V} {given : Given} (h : s.Coherent)
    (kept : Kept s given) (e : Event V) (taken : InodeCache.step s e = some next) :
    Kept next (record s given e) := by
  cases e with
  | iget v dev inum =>
      obtain ⟨_, _, _, _, disk⟩ := iget_some taken
      exact kept.still fun d n => by rw [disk]
  | idup v w => exact kept.still fun d n => by rw [idup_disk taken]
  | move v w => exact kept.still fun d n => by rw [move_disk taken]
  | ilock v =>
      obtain ⟨_, _, _, _, _, _, disk⟩ := ilock_some taken
      exact kept.still fun d n => by rw [disk]
  | storeLinks v nlink => exact kept.still fun d n => by rw [(storeLinks_some taken).2.1]
  | storeMode v mode => exact kept.still fun d n => by rw [storeMode_disk taken]
  | iupdate v => exact kept.iupdate h taken
  | iunlock v => exact kept.still fun d n => by rw [iunlock_disk taken]
  | iput v => exact kept.iput taken
  | putEnd v => exact kept.still fun d n => by rw [putEnd_disk taken]
  | create v dev type =>
      obtain ⟨ip, points, mode, disk⟩ := create_some h taken
      have noted : record s given (.create v dev type) = given.set (next.inode ip) (some 7) := by
        have created : s.create v dev type = some next := taken
        simp only [record, created, points]
      rw [noted]
      exact kept.set (next.inode ip) 7 disk

/-! ## Every run -/

def Sound [Fintype V] (t : Cache V × Given) : Prop := t.1.Coherent ∧ Kept t.1 t.2

/-- In every run the record is on disk and the cache agrees with the disk. -/
theorem tracked_sound [Fintype V] (disk : Word → Word → Dinode) (t : Cache V × Given)
    (reached : Runs.Reachable tracked (boot disk, fun _ _ => none) t) : Sound t := by
  have start : Sound ((boot disk : Cache V), fun _ _ => none) := by
    refine ⟨boot_coherent disk, ?_⟩
    intro dev inum mode noted
    cases noted
  have kept : ∀ (t : Cache V × Given) e u, Sound t → tracked t e = some u → Sound u := by
    intro t e u holds taken
    obtain ⟨next, stepped, same⟩ := Option.map_eq_some_iff.mp taken
    subst same
    exact ⟨holds.1.step e stepped, holds.2.step holds.1 e stepped⟩
  exact Runs.reachable_invariant tracked start kept reached

def image : Word → Word → Dinode := fun _ _ => { type := 2, nlink := 1, mode := 7 }

-- Numerals for the pointer variables of the run below.
local instance variableNeZero : @NeZero Nat Zero.ofOfNat0 3 := ⟨Nat.succ_ne_zero 2⟩

/-- Two files are opened and closed, and the mode of the second is changed: its
inode is then in the entry that was the first one's. -/
def staleRun : List (Event (Fin 3)) :=
  openFile 0 1 1 2 ++ openFile 0 2 1 3 ++ close 0 1 ++ close 0 2 ++ chmod_actual 0 1 3 0

theorem staleRun_completes :
    (Runs.run tracked ((boot image : Cache (Fin 3)), fun _ _ => none) staleRun).isSome = true := by
  decide +kernel

end Xv6.Public1.InodeCache
