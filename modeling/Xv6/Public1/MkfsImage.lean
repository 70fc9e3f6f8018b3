import Mathlib.Algebra.BigOperators.Group.Finset.Piecewise
import Mathlib.Algebra.Order.BigOperators.Group.Finset
import Xv6.Public1.MkfsSteps

/-!
# The image of mkfs (mkfs.c of xv6-public_1)

After every step of main() the inodes have the contents that have been appended to
them, in blocks of their own, one after the other.  The size of the root directory
is rounded up at the end, to a block that it may not have.
-/

set_option autoImplicit false

namespace Xv6.Public1.Mkfs

open Xv6.Lib.Words
open Xv6.Lib.Outcome
open Xv6.Lib.CString
open Xv6.Public1.Blocks
open Xv6.Public1.Directory (Dir Dirent direntBytes direntSize)

/-- What has been appended to the inodes. -/
abbrev Contents := Inum sb → List Byte

/-- The blocks of all contents. -/
def total (c : Contents) : Nat := ∑ i, need (c i).length

theorem total_update (c : Contents) (i : Inum sb) (p : List Byte) :
    total (Function.update c i p) + need (c i).length = total c + need p.length := by
  have others : ∀ j ∈ Finset.univ.erase i, need (Function.update c i p j).length =
      need (c j).length := by
    intro j member
    rw [Function.update_of_ne (Finset.ne_of_mem_erase member)]
  unfold total
  rw [← Finset.add_sum_erase _ _ (Finset.mem_univ i), ← Finset.add_sum_erase _ _
    (Finset.mem_univ i), Function.update_self, Finset.sum_congr rfl others]
  omega

theorem total_mono {c c' : Contents} (le : ∀ i, (c i).length ≤ (c' i).length) :
    total c ≤ total c' := Finset.sum_le_sum fun i _ => need_mono (le i)

theorem total_nothing : total (fun _ => []) = 0 := by
  have nothing : need 0 = 0 := by decide
  unfold total
  simp only [List.length_nil, nothing, Finset.sum_const_zero]

/-- The type of an inode when `n` is the next one. -/
def typeOf (n : Nat) (i : Inum sb) : BitVec 16 :=
  if i.val = 0 ∨ n ≤ i.val then 0 else if i.val = ROOTINO then T_DIR else T_FILE

/-- The image has these contents, and `n` is the next inode. -/
structure Has (n : Nat) (c : Contents) (s : State) : Prop where
  fresh : s.Fresh
  sound : Sound s.fs
  freeinode : s.freeinode = n
  freeblock : s.freeblock.toNat = nmeta + total c
  types : ∀ i : Inum sb, (s.dinode i.val).type = typeOf n i
  sizes : ∀ i : Inum sb, (s.dinode i.val).size.toNat = (c i).length
  appended : ∀ i, Appended i (c i).length s.fs
  bytes : ∀ i p, p < (c i).length → s.fs.byte i p = some ((c i).getD p 0)
  unused : ∀ i : Inum sb, n ≤ i.val → c i = []

section Steps
variable {s : State} {n : Nat} {c : Contents} {i : Inum sb}

/-- The inode is loaded as it is on disk. -/
theorem held_load (s : State) (i : Inum sb) : (s.loaded i (s.dinode i.val)).held = s.fs.held := by
  have view : ∀ j, (s.loaded i (s.dinode i.val)).view j = s.fs.view j := by
    intro j
    by_cases same : j = i
    · subst same
      simp [Fs.view, Fs.ip, State.loaded, Fs.setInode, State.fs]
    · simp [Fs.view, State.loaded, Fs.setInode, State.fs, same]
  exact held_congr (fun j => by rw [view]) (fun j => by rw [view]) rfl

theorem held_size {d : Dinode} (size : Word) :
    (s.loaded i { d with size := size }).held = (s.loaded i d).held := by
  apply held_congr
  · intro j
    by_cases same : j = i
    · subst same
      simp [Fs.view, Fs.ip, State.loaded, Fs.setInode, Dinode.copy]
    · simp [Fs.view, Fs.ip, State.loaded, Fs.setInode, same]
  · intro j
    by_cases same : j = i
    · subst same
      simp [Fs.view, Fs.ip, State.loaded, Fs.setInode, Dinode.copy]
    · simp [Fs.view, Fs.ip, State.loaded, Fs.setInode, same]
  · rfl

theorem copy_inj {d d' : Dinode} (same : d.copy = d'.copy) : d = d' := by
  unfold Dinode.copy at same
  injection same with type major minor nlink size mode addrs
  cases d
  cases d'
  simp only [BitVec.toInt_inj] at type major minor nlink
  simp_all

theorem typeOf_live (inside : i.val ≠ 0 ∧ i.val < n) : (typeOf n i).toInt ≠ 0 := by
  unfold typeOf
  rw [if_neg (by omega)]
  split
  · decide
  · decide

/-- The metadata is in use. -/
theorem Has.metadata (h : Has n c s) : sb.nmeta ≤ s.freeblock.toNat := by
  rw [h.freeblock]
  exact Nat.le_add_right _ _

/-- iappend() appends. -/
theorem Has.iappend (h : Has n c s) (inside : i.val ≠ 0 ∧ i.val < n) (p : List Byte)
    (fits : (c i ++ p).length ≤ MAXFILE * BSIZE)
    (room : nmeta + total (Function.update c i (c i ++ p)) ≤ FSSIZE) :
    ∃ s', s.iappend i.val p = .ok s' ∧ Has n (Function.update c i (c i ++ p)) s' := by
  have size := h.sizes i
  have taken := total_update c i (c i ++ p)
  have length : (c i ++ p).length = (c i).length + p.length := List.length_append
  rw [length] at taken fits
  have blocks := h.freeblock
  have sound : Sound (s.loaded i (s.dinode i.val)) := h.sound.congr (held_load s i) rfl
  have load : ∀ j q, (s.loaded i (s.dinode i.val)).byte j q = s.fs.byte j q := fun j q =>
    byte_congr (held_load s i) rfl q
  have typed : (s.dinode i.val).copy.type ≠ 0 := by
    have live := typeOf_live inside
    rw [← h.types i] at live
    exact live
  obtain ⟨din', s', looped, appends, fresh, inum⟩ := iappendLoop_appends p.length s
    (s.dinode i.val) (c i).length p h.fresh sound typed
    ((h.appended i).congr (held_load s i) (load i)) fits (Nat.le_refl _) (by omega)
  have free : (s.loaded i (s.dinode i.val)).free + s.freeblock.toNat = FSSIZE :=
    loaded_free h.fresh
  have free' : (s'.loaded i din').free + s'.freeblock.toNat = FSSIZE := loaded_free fresh
  have total := appends.free
  have blocks' : s'.freeblock.toNat = nmeta + Mkfs.total (Function.update c i (c i ++ p)) := by
    omega
  refine ⟨s'.put i.val { din' with size := BitVec.ofNat 32 ((c i).length + p.length) }, ?_, ?_⟩
  · unfold State.iappend
    rw [State.rinode_eq s i.isLt]
    change (State.iappendLoop p.length s (s.dinode i.val) (s.dinode i.val).size.toNat p >>= _) = _
    rw [size, looped]
    exact s'.winode_eq i.isLt _
  · have resized : (s'.loaded i
        { din' with size := BitVec.ofNat 32 ((c i).length + p.length) }).held =
          (s'.loaded i din').held := held_size _
    have sound' : Sound (s'.loaded i
        { din' with size := BitVec.ofNat 32 ((c i).length + p.length) }) :=
      appends.written.sound.congr resized rfl
    have held := (held_put sound').trans resized
    have bytes : ∀ j q, (s'.put i.val
        { din' with size := BitVec.ofNat 32 ((c i).length + p.length) }).fs.byte j q =
          (s'.loaded i din').byte j q := fun j q =>
      (byte_put sound' j q).trans (byte_congr resized rfl q)
    have others : ∀ j : Inum sb, s'.dinode j.val = s.dinode j.val := fun j =>
      copy_inj (congrFun appends.written.dinode j)
    have type : din'.type = (s.dinode i.val).type := by
      obtain ⟨addrs, same⟩ := appends.written.copy
      rw [loaded_ip, loaded_ip] at same
      exact BitVec.toInt_inj.mp (congrArg Blocks.Dinode.type same)
    have number : (BitVec.ofNat 32 ((c i).length + p.length)).toNat = (c i).length + p.length := by
      rw [BitVec.toNat_ofNat]
      apply Nat.mod_eq_of_lt
      exact Nat.lt_of_le_of_lt fits (by decide)
    constructor
    case fresh =>
      refine fresh.wsect ?_ _
      refine Nat.lt_of_lt_of_le (IBLOCK_small i.isLt) ?_
      rw [blocks']
      exact Nat.le_add_right _ _
    case sound => exact sound_put sound'
    case freeinode => exact inum.trans h.freeinode
    case freeblock => exact blocks'
    case types =>
      intro j
      rw [State.dinode_put i.isLt j.isLt]
      split
      · rename_i same
        rw [Fin.ext same, ← h.types i]
        exact type
      · rw [others j]
        exact h.types j
    case sizes =>
      intro j
      rw [State.dinode_put i.isLt j.isLt]
      split
      · rename_i same
        rw [Fin.ext same, Function.update_self, length]
        exact number
      · rename_i other
        have away : j ≠ i := fun same => other (congrArg Fin.val same)
        rw [others j, Function.update_of_ne away]
        exact h.sizes j
    case appended =>
      intro j
      by_cases same : j = i
      · rw [same, Function.update_self, length]
        exact appends.here.congr held (bytes i)
      · rw [Function.update_of_ne same]
        exact (appends.other same ((h.appended j).congr (held_load s i) (load j))).congr held
          (bytes j)
    case bytes =>
      intro j q small
      rw [bytes]
      by_cases same : j = i
      · rw [same, Function.update_self] at small ⊢
        by_cases old : q < (c i).length
        · rw [List.getD_append _ _ _ _ old]
          refine appends.written.outside q _ (Or.inl old) ?_
          rw [load]
          exact h.bytes i q old
        · rw [List.getD_append_right _ _ _ _ (Nat.le_of_not_lt old)]
          have placed := appends.written.inside (q - (c i).length) (by omega)
          rw [Nat.add_sub_cancel' (Nat.le_of_not_lt old)] at placed
          exact placed
      · rw [Function.update_of_ne same] at small ⊢
        rw [appends.written.others j q same, load]
        exact h.bytes j q small
    case unused =>
      intro j past
      have away : j ≠ i := by
        rintro rfl
        exact absurd inside.2 (Nat.not_lt.mpr past)
      rw [Function.update_of_ne away]
      exact h.unused j past

/-- The inode that ialloc() writes. -/
def newDinode (type : BitVec 16) : Dinode where
  type := type
  major := 0
  minor := 0
  nlink := 1
  size := 0
  addrs := fun _ => 0
  mode := 7

/-- ialloc() gives the next inode, which is empty. -/
theorem Has.ialloc (h : Has n c s) (here : i.val = n) :
    ∃ s', s.ialloc (typeOf (n + 1) i) = .ok (n, s') ∧ Has (n + 1) c s' := by
  obtain ⟨din, empty⟩ : ∃ din, din = newDinode (typeOf (n + 1) i) := ⟨_, rfl⟩
  have small : n < NINODES := here ▸ i.isLt
  obtain ⟨t, counted⟩ : ∃ t : State, t = { s with freeinode := s.freeinode + 1 } := ⟨_, rfl⟩
  have view : ∀ j, (t.loaded i din).view j = if j = i then din.copy else s.fs.view j := by
    intro j
    rw [counted]
    by_cases same : j = i
    · subst same
      simp [Fs.view, Fs.ip, State.loaded, Fs.setInode]
    · simp [Fs.view, State.loaded, Fs.setInode, State.fs, same]
      rfl
  have free : (s.fs.view i).type = 0 := by
    have type := h.types i
    have none_yet : typeOf n i = 0 := by
      unfold typeOf
      rw [if_pos (Or.inr (Nat.le_of_eq here.symm))]
    rw [none_yet] at type
    change (s.dinode i.val).type.toInt = 0
    rw [type]
    rfl
  have held : (t.loaded i din).held = s.fs.held := by
    funext slot
    by_cases mine : slot.inum = i
    · have was : s.fs.held slot = none := held_none_of_type (by rw [mine, free])
      rw [was]
      apply held_none_of_addrs
      rw [view, if_pos mine, empty]
      rfl
    · apply held_at
      · rw [view, if_neg mine]
      · rw [counted]
        rfl
  have sound : Sound (t.loaded i din) := h.sound.congr held (by rw [counted]; rfl)
  have bytes : ∀ j q, (t.put i.val din).fs.byte j q = s.fs.byte j q := fun j q =>
    (byte_put sound j q).trans (byte_congr held (by rw [counted]; rfl) q)
  have dinode : ∀ j : Inum sb, t.dinode j.val = s.dinode j.val := by
    intro j
    rw [counted]
    rfl
  refine ⟨t.put i.val din, ?_, ?_⟩
  · unfold State.ialloc
    dsimp only
    rw [h.freeinode]
    change ({ s with freeinode := n + 1 }.winode n (newDinode (typeOf (n + 1) i)) >>= _) = _
    rw [← empty]
    have written := t.winode_eq small din
    rw [counted, h.freeinode] at written
    rw [written, counted, h.freeinode, here]
    rfl
  · constructor
    case fresh =>
      have fresh : t.Fresh := by
        rw [counted]
        exact ⟨h.fresh.zero, h.fresh.inside⟩
      refine fresh.wsect ?_ _
      refine Nat.lt_of_lt_of_le (IBLOCK_small i.isLt) ?_
      rw [counted]
      exact h.metadata
    case sound => exact sound_put sound
    case freeinode =>
      have number : (t.put i.val din).freeinode = s.freeinode + 1 := by
        rw [counted]
        rfl
      rw [number, h.freeinode]
    case freeblock =>
      have number : (t.put i.val din).freeblock = s.freeblock := by
        rw [counted]
        rfl
      rw [number, h.freeblock]
    case types =>
      intro j
      rw [State.dinode_put i.isLt j.isLt]
      split
      · rename_i same
        rw [Fin.ext same, empty]
        rfl
      · rename_i other
        rw [dinode, h.types j]
        unfold typeOf
        congr 1
        simp only [eq_iff_iff]
        omega
    case sizes =>
      intro j
      rw [State.dinode_put i.isLt j.isLt]
      split
      · rename_i same
        rw [Fin.ext same, empty, h.unused i (Nat.le_of_eq here.symm)]
        rfl
      · rw [dinode]
        exact h.sizes j
    case appended =>
      intro j
      exact (h.appended j).congr ((held_put sound).trans held) (bytes j)
    case bytes =>
      intro j q inside
      rw [bytes]
      exact h.bytes j q inside
    case unused => exact fun j past => h.unused j (Nat.le_of_succ_le past)

theorem start_has : Has 1 (fun _ => []) State.start := by
  have freeblock : State.start.freeblock.toNat = 59 := rfl
  have zero : ∀ b : Word, b ≠ 1 → State.start.sector b = fun _ => 0 := by
    intro b away
    have sector : State.start.sector = Function.update (fun _ _ => 0) 1 superblock := rfl
    rw [sector, Function.update_of_ne away]
  have dinode : ∀ j : Inum sb, State.start.dinode j.val =
      dinodeAt (fun _ => 0) ⟨j.val % IPB, inum_inside j.val⟩ := by
    intro j
    have away : IBLOCK j.val ≠ 1 := by
      intro same
      have number := congrArg BitVec.toNat same
      have one : (1 : Word).toNat = 1 := rfl
      rw [IBLOCK_toNat j.isLt, one] at number
      simp only [IPB, inodestart, nlog, LOGSIZE] at number
      omega
    unfold State.dinode
    rw [zero _ away]
  have types : ∀ j : Inum sb, (State.start.dinode j.val).type = 0 := by
    intro j
    rw [dinode]
    simp only [dinodeAt, word_zero]
    rfl
  have held : ∀ slot, State.start.fs.held slot = none := by
    intro slot
    apply held_none_of_type
    change (State.start.dinode slot.inum.val).type.toInt = 0
    rw [types]
    rfl
  have byte : ∀ j q, State.start.fs.byte j q = none := by
    intro j q
    apply Option.map_eq_none_iff.mpr
    unfold Fs.lookup
    cases place j (q / BSIZE) with
    | none => rfl
    | some slot => exact held slot
  constructor
  case fresh =>
    constructor
    case zero =>
      intro b past
      have away : b ≠ 1 := by
        rintro rfl
        rw [freeblock] at past
        exact absurd past (by decide)
      exact zero b away
    case inside => decide
  case sound =>
    have low : ∀ b : Word, b.toNat < sb.nmeta → State.start.fs.bitmap b = true :=
      fun b low => decide_eq_true low
    constructor
    case blocks =>
      have none_used : State.start.fs.used = ∅ := by
        apply Set.eq_empty_of_forall_notMem
        rintro b ⟨data, bit⟩
        exact absurd (of_decide_eq_true bit) (Nat.not_lt.mpr data.1)
      rw [none_used]
      exact .empty held (Set.empty_subset _)
    case metadata => exact low
  case freeinode => rfl
  case freeblock =>
    rw [total_nothing]
    rfl
  case types =>
    intro j
    unfold typeOf
    rw [types, if_pos (by omega)]
  case sizes =>
    intro j
    rw [dinode]
    simp only [dinodeAt, word_zero]
    rfl
  case appended =>
    intro j
    constructor
    case lookup =>
      intro bn
      have absent : State.start.fs.lookup j bn = none := by
        unfold Fs.lookup
        cases place j bn with
        | none => rfl
        | some slot => exact held slot
      rw [absent]
      simp
    case indirect =>
      rw [held]
      simp
    case tail =>
      intro q x _ found
      rw [byte] at found
      cases found
  case bytes => exact fun _ q impossible => absurd impossible (Nat.not_lt_zero q)
  case unused => exact fun _ _ => rfl

end Steps

/-! ## The loops of main() -/

/-- The entries of the root directory. -/
def rootDir (files : List Input) : Dir :=
  dirent (bytes ".") ROOTINO :: dirent (bytes "..") ROOTINO ::
    files.mapIdx fun k f => dirent f.shortName (k + 2)

/-- What the inodes are to have. -/
def contents (files : List Input) : Contents := fun i =>
  if i.val = ROOTINO then Directory.dirBytes (rootDir files)
  else if i.val < 2 then []
  else (files[i.val - 2]?).elim [] fun f => f.reads.flatten

theorem root_inside : ROOTINO < sb.ninodes := by decide

/-- The root directory. -/
def root : Inum sb := ⟨ROOTINO, root_inside⟩

theorem contents_root (files : List Input) :
    contents files root = Directory.dirBytes (rootDir files) := if_pos rfl

theorem contents_file (files : List Input) {i : Inum sb} {k : Nat} (here : i.val = k + 2) :
    contents files i = (files[k]?).elim [] fun f => f.reads.flatten := by
  unfold contents
  rw [if_neg (by rw [here]; exact Nat.succ_ne_zero _ ∘ Nat.succ.inj), if_neg (by omega), here,
    Nat.add_sub_cancel]

theorem rootDir_length (files : List Input) : (rootDir files).length = files.length + 2 := by
  simp [rootDir]

theorem root_length (files : List Input) :
    (contents files root).length = direntSize * (files.length + 2) := by
  rw [contents_root, Directory.dirBytes_length, rootDir_length]

section Loops
variable {s : State} {n : Nat} {c : Contents} {i : Inum sb}

/-- The buffers of one file. -/
theorem Has.buffers (inside : i.val ≠ 0 ∧ i.val < n) (bufs : List (List Byte)) :
    ∀ (s : State) (c : Contents), Has n c s →
      (c i ++ bufs.flatten).length ≤ MAXFILE * BSIZE →
      nmeta + total (Function.update c i (c i ++ bufs.flatten)) ≤ FSSIZE →
      ∃ s', bufs.foldlM (fun s buf => s.iappend i.val buf) s = .ok s' ∧
        Has n (Function.update c i (c i ++ bufs.flatten)) s' := by
  induction bufs with
  | nil =>
      intro s c h _ _
      refine ⟨s, rfl, ?_⟩
      rw [List.flatten_nil, List.append_nil, Function.update_eq_self]
      exact h
  | cons buf rest ih =>
      intro s c h fits room
      have longer : ∀ j, (Function.update c i (c i ++ buf) j).length ≤
          (Function.update c i (c i ++ (buf :: rest).flatten) j).length := by
        intro j
        by_cases same : j = i
        · rw [same, Function.update_self, Function.update_self]
          simp
        · rw [Function.update_of_ne same, Function.update_of_ne same]
      have split : c i ++ (buf :: rest).flatten = c i ++ buf ++ rest.flatten := by
        rw [List.flatten_cons, List.append_assoc]
      have short : (c i ++ buf).length ≤ (c i ++ (buf :: rest).flatten).length := by
        have length : (c i ++ buf ++ rest.flatten).length =
            (c i ++ buf).length + rest.flatten.length := List.length_append
        rw [split, length]
        exact Nat.le_add_right _ _
      have less := total_mono longer
      obtain ⟨t, appended, has⟩ := h.iappend inside buf (Nat.le_trans short fits) (by omega)
      obtain ⟨s', looped, has'⟩ := ih t (Function.update c i (c i ++ buf)) has
        (by rw [Function.update_self, ← split]; exact fits)
        (by rw [Function.update_self, Function.update_idem, ← split]; exact room)
      refine ⟨s', ?_, ?_⟩
      · rw [List.foldlM_cons, appended]
        exact looped
      · rw [Function.update_self, Function.update_idem, ← split] at has'
        exact has'

/-- One more file: its entry, and its bytes. -/
theorem contents_snoc (files : List Input) (f : Input) (here : i.val = files.length + 2) :
    contents (files ++ [f]) = Function.update
      (Function.update (contents files) root
        (contents files root ++ direntBytes (dirent f.shortName (files.length + 2))))
      i f.reads.flatten := by
  funext j
  by_cases new : j = i
  · subst new
    rw [Function.update_self, contents_file _ here]
    simp
  · rw [Function.update_of_ne new]
    by_cases isRoot : j = root
    · subst isRoot
      have longer : rootDir (files ++ [f]) =
          rootDir files ++ [dirent f.shortName (files.length + 2)] := by
        simp [rootDir, List.mapIdx_append]
      rw [Function.update_self, contents_root, contents_root, longer, Directory.dirBytes_append]
      exact congrArg _ (List.append_nil _)
    · rw [Function.update_of_ne isRoot]
      have away : j.val ≠ ROOTINO := fun same => isRoot (Fin.ext same)
      have other : j.val ≠ i.val := fun same => new (Fin.ext same)
      unfold contents
      rw [if_neg away, if_neg away]
      by_cases low : j.val < 2
      · rw [if_pos low, if_pos low]
      · rw [if_neg low, if_neg low]
        by_cases old : j.val - 2 < files.length
        · rw [List.getElem?_append_left old]
        · rw [List.getElem?_eq_none (by simp; omega), List.getElem?_eq_none (by omega)]

theorem total_snoc (files : List Input) (f : Input) (here : i.val = files.length + 2) :
    total (contents (files ++ [f])) + need (direntSize * (files.length + 2)) =
      total (contents files) + need (direntSize * (files.length + 3)) +
        need f.reads.flatten.length := by
  have away : i ≠ root := by
    rintro rfl
    have one : (1 : Nat) = files.length + 2 := here
    omega
  have first := total_update (contents files) root
    (contents files root ++ direntBytes (dirent f.shortName (files.length + 2)))
  have second := total_update (Function.update (contents files) root
    (contents files root ++ direntBytes (dirent f.shortName (files.length + 2)))) i f.reads.flatten
  have longer : direntSize * (files.length + 2) + direntSize = direntSize * (files.length + 3) := by
    simp only [direntSize]
    omega
  rw [List.length_append, root_length, Directory.direntBytes_length, longer] at first
  have empty : contents files i = [] := by
    rw [contents_file files here]
    simp
  have nothing : need 0 = 0 := by decide
  rw [Function.update_of_ne away, empty, List.length_nil, nothing] at second
  rw [contents_snoc files f here]
  omega

theorem contents_start : contents [] =
    Function.update (Function.update (fun _ => []) root (direntBytes (dirent (bytes ".") ROOTINO)))
      root (direntBytes (dirent (bytes ".") ROOTINO) ++
        direntBytes (dirent (bytes "..") ROOTINO)) := by
  rw [Function.update_idem]
  funext j
  by_cases isRoot : j = root
  · subst isRoot
    rw [Function.update_self, contents_root]
    simp [rootDir, Directory.dirBytes]
  · have away : j.val ≠ ROOTINO := fun same => isRoot (Fin.ext same)
    rw [Function.update_of_ne isRoot]
    unfold contents
    rw [if_neg away]
    simp

/-- The blocks that the files need. -/
def needs : List Input → Nat
  | [] => 0
  | f :: rest => need f.reads.flatten.length + needs rest

theorem needs_snoc (files : List Input) (f : Input) :
    needs (files ++ [f]) = needs files + need f.reads.flatten.length := by
  induction files with
  | nil => exact Nat.add_comm _ _
  | cons g rest ih =>
      rw [List.cons_append, needs, needs, ih]
      exact (Nat.add_assoc _ _ _).symm

theorem total_contents (files : List Input) (inodes : files.length + 2 ≤ NINODES) :
    total (contents files) = need (direntSize * (files.length + 2)) + needs files := by
  induction files using List.reverseRecOn with
  | nil =>
      have grown := total_update (fun _ => []) root (Directory.dirBytes (rootDir []))
      have start : contents [] = Function.update (fun _ => []) root
          (Directory.dirBytes (rootDir [])) := by
        rw [contents_start, Function.update_idem]
        simp [rootDir, Directory.dirBytes]
      have nothing : need 0 = 0 := by decide
      rw [total_nothing, Directory.dirBytes_length, rootDir_length, List.length_nil, nothing,
        Nat.add_zero, Nat.zero_add] at grown
      rw [start, grown]
      rfl
  | append_singleton done f ih =>
      rw [List.length_append, List.length_singleton] at inodes
      have added := total_snoc (i := ⟨done.length + 2, inodes⟩) done f rfl
      have before := ih (by omega)
      have count : done.length + 1 + 2 = done.length + 3 := rfl
      rw [needs_snoc, List.length_append, List.length_singleton, count]
      omega

/-- The contents of fewer files are no longer. -/
theorem contents_le (done rest : List Input) (j : Inum sb) :
    (contents done j).length ≤ (contents (done ++ rest) j).length := by
  by_cases isRoot : j = root
  · rw [isRoot, root_length, root_length, List.length_append]
    exact Nat.mul_le_mul_left _ (by omega)
  · have away : j.val ≠ ROOTINO := fun same => isRoot (Fin.ext same)
    unfold contents
    rw [if_neg away, if_neg away]
    split
    · exact Nat.le_refl _
    · by_cases old : j.val - 2 < done.length
      · rw [List.getElem?_append_left old]
      · rw [List.getElem?_eq_none (Nat.le_of_not_lt old)]
        exact Nat.zero_le _

/-- The names that main() takes, and files that fit. -/
structure Fit (files : List Input) : Prop where
  names : ∀ f ∈ files, slash ∉ f.name
  inodes : files.length + 2 ≤ NINODES
  sizes : ∀ f ∈ files, f.reads.flatten.length ≤ MAXFILE * BSIZE
  blocks : nmeta + need (direntSize * (files.length + 2)) + needs files ≤ FSSIZE

theorem Fit.total {files : List Input} (fit : Fit files) :
    nmeta + Mkfs.total (contents files) ≤ FSSIZE := by
  rw [total_contents files fit.inodes, ← Nat.add_assoc]
  exact fit.blocks

theorem root_small {files : List Input} (inodes : files.length + 2 ≤ NINODES) :
    (contents files root).length ≤ MAXFILE * BSIZE := by
  rw [root_length]
  simp only [direntSize, NINODES, MAXFILE, NDIRECT, NINDIRECT, BSIZE] at *
  omega

/-- One more file. -/
theorem Has.addFile {files : List Input} {f : Input} (h : Has (files.length + 2) (contents files) s)
    (name : slash ∉ f.name) (inodes : files.length + 3 ≤ NINODES)
    (fits : f.reads.flatten.length ≤ MAXFILE * BSIZE)
    (room : nmeta + total (contents (files ++ [f])) ≤ FSSIZE) :
    ∃ s', s.addFile ROOTINO f = .ok s' ∧ Has (files.length + 3) (contents (files ++ [f])) s' := by
  obtain ⟨i, here⟩ : ∃ i : Inum sb, i.val = files.length + 2 := ⟨⟨files.length + 2, inodes⟩, rfl⟩
  obtain ⟨e, entry⟩ : ∃ e, e = direntBytes (dirent f.shortName (files.length + 2)) := ⟨_, rfl⟩
  have all := contents_snoc files f here
  rw [← entry] at all
  have isRoot : root.val = 1 := rfl
  have away : i ≠ root := by
    rintro rfl
    omega
  have empty : contents files i = [] := by
    rw [contents_file files here]
    simp
  have newRoot : contents (files ++ [f]) root = contents files root ++ e := by
    rw [all, Function.update_of_ne away.symm, Function.update_self]
  have type : typeOf (files.length + 2 + 1) i = T_FILE := by
    unfold typeOf ROOTINO
    rw [if_neg (by omega), if_neg (by omega)]
  obtain ⟨s₁, allocated, has₁⟩ := h.ialloc here
  rw [type] at allocated
  have longer : ∀ j, (Function.update (contents files) root (contents files root ++ e) j).length ≤
      (contents (files ++ [f]) j).length := by
    intro j
    by_cases same : j = root
    · rw [same, Function.update_self, newRoot]
    · rw [Function.update_of_ne same]
      exact contents_le files [f] j
  have less := total_mono longer
  have small : (contents files root ++ e).length ≤ MAXFILE * BSIZE := by
    rw [← newRoot]
    exact root_small (by rw [List.length_append]; exact inodes)
  obtain ⟨s₂, linked, has₂⟩ := has₁.iappend (i := root) (by omega) e small (by omega)
  have start : Function.update (contents files) root (contents files root ++ e) i = [] := by
    rw [Function.update_of_ne away, empty]
  obtain ⟨s₃, written, has₃⟩ := Has.buffers (i := i) (by omega) f.reads s₂ _ has₂
    (by rw [start]; exact fits) (by rw [start, List.nil_append, ← all]; exact room)
  rw [start, List.nil_append, ← all] at has₃
  refine ⟨s₃, ?_, has₃⟩
  unfold State.addFile
  rw [if_neg name, allocated]
  change (s₁.iappend ROOTINO (direntBytes (dirent f.shortName (files.length + 2))) >>=
    fun s => f.reads.foldlM (fun s buf => s.iappend (files.length + 2) buf) s) = _
  rw [← entry]
  have linked' : s₁.iappend ROOTINO e = .ok s₂ := linked
  rw [linked', ← here]
  exact written

/-- All files. -/
theorem Has.addFiles (rest : List Input) : ∀ (done : List Input) (s : State),
    Has (done.length + 2) (contents done) s → Fit (done ++ rest) →
    ∃ s', rest.foldlM (fun s f => s.addFile ROOTINO f) s = .ok s' ∧
      Has ((done ++ rest).length + 2) (contents (done ++ rest)) s' := by
  induction rest with
  | nil =>
      intro done s h _
      refine ⟨s, rfl, ?_⟩
      rw [List.append_nil]
      exact h
  | cons f rest ih =>
      intro done s h fit
      have split : done ++ f :: rest = done ++ [f] ++ rest := by simp
      have member : f ∈ done ++ f :: rest := by simp
      have inodes := fit.inodes
      have less := total_mono (contents_le (done ++ [f]) rest)
      rw [← split] at less
      have room := fit.total
      rw [List.length_append, List.length_cons] at inodes
      obtain ⟨t, added, has⟩ := h.addFile (fit.names f member) (by omega) (fit.sizes f member)
        (by omega)
      have count : (done ++ [f]).length + 2 = done.length + 3 := by simp
      rw [split] at fit ⊢
      rw [← count] at has
      obtain ⟨s', looped, has'⟩ := ih (done ++ [f]) t has fit
      refine ⟨s', ?_, has'⟩
      rw [List.foldlM_cons, added]
      exact looped

end Loops

/-! ## The image -/

theorem bit_inside (b : Fin BPB) : b.val / 8 < BSIZE := by
  have small : b.val < 4096 := b.isLt
  simp only [BSIZE]
  omega

/-- The bit of a block in the free map. -/
def bit (map : Block) (b : Fin BPB) : Bool := (map ⟨b.val / 8, bit_inside b⟩).getLsbD (b.val % 8)

theorem bitmapLoop_bit (used : Nat) (b : Fin BPB) :
    bit (State.bitmapLoop used) b = decide (b.val < used) := by
  induction used with
  | zero =>
      unfold State.bitmapLoop bit
      simp
  | succ n ih =>
      have step : State.bitmapLoop (n + 1) = fun q =>
          if q.val = n / 8 then State.bitmapLoop n q ||| BitVec.ofNat 8 (1 <<< (n % 8))
          else State.bitmapLoop n q := by
        unfold State.bitmapLoop
        rw [List.range_succ, List.foldl_append]
        rfl
      unfold bit at ih ⊢
      rw [step]
      dsimp only
      split
      · rename_i block
        have small : b.val % 8 < 8 := Nat.mod_lt _ (by decide)
        have mark : (BitVec.ofNat 8 (1 <<< (n % 8))).getLsbD (b.val % 8) =
            decide (n % 8 = b.val % 8) := by
          rw [BitVec.getLsbD_ofNat, decide_eq_true small, Bool.true_and, Nat.one_shiftLeft,
            Nat.testBit_two_pow]
        rw [BitVec.getLsbD_or, ih, mark, ← Bool.decide_or, decide_eq_decide]
        omega
      · rename_i other
        rw [ih, decide_eq_decide]
        omega

/-- The image that is wanted of mkfs. -/
structure WellFormed (files : List Input) (s : State) : Prop where
  /-- Every inode has the blocks of its size. -/
  allocated : ∀ (i : Inum sb) bn, bn < ((s.dinode i.val).size.toNat + (BSIZE - 1)) / BSIZE →
    (s.fs.lookup i bn).isSome = true
  distinct : ∀ slot slot' b, s.fs.held slot = some b → s.fs.held slot' = some b → slot = slot'
  inside : ∀ slot b, s.fs.held slot = some b → nmeta ≤ b.toNat ∧ b.toNat < s.freeblock.toNat
  bitmap : ∀ b : Fin BPB, bit (s.sector (BitVec.ofNat 32 bmapstart)) b =
    decide (b.val < s.freeblock.toNat)
  /-- The files, the `k`th of them in inode `k + 2`. -/
  stored : ∀ (i : Inum sb) k f, i.val = k + 2 → files[k]? = some f →
    (s.dinode i.val).type = T_FILE ∧ (s.dinode i.val).size.toNat = f.reads.flatten.length ∧
      ∀ p, p < f.reads.flatten.length → s.fs.byte i p = some (f.reads.flatten.getD p 0)
  /-- The entries of the root directory, and nothing after them. -/
  directory : (s.dinode ROOTINO).type = T_DIR ∧
    direntSize * (files.length + 2) ≤ (s.dinode ROOTINO).size.toNat ∧
      ∀ p, p < (s.dinode ROOTINO).size.toNat →
        s.fs.peek root p = (Directory.dirBytes (rootDir files)).getD p 0

section Final
variable {s : State} {n : Nat} {c : Contents}

/-- The state after main() has rounded the size of the root directory up. -/
def rounded (s : State) : State :=
  s.put ROOTINO { s.dinode ROOTINO with
    size := BitVec.ofNat 32 (((s.dinode ROOTINO).size.toNat / BSIZE + 1) * BSIZE) }

theorem fixRoot_eq (s : State) : s.fixRoot ROOTINO = .ok (rounded s) := by
  unfold State.fixRoot
  rw [s.rinode_eq root_inside]
  exact s.winode_eq root_inside _

theorem Has.resized (h : Has n c s) (size : Word) :
    Sound (s.loaded root { s.dinode ROOTINO with size := size }) :=
  h.sound.congr ((held_size size).trans (held_load s root)) rfl

theorem held_rounded (h : Has n c s) : (rounded s).fs.held = s.fs.held :=
  (held_put (h.resized _)).trans ((held_size _).trans (held_load s root))

theorem byte_rounded (h : Has n c s) (i : Inum sb) (p : Nat) :
    (rounded s).fs.byte i p = s.fs.byte i p :=
  (byte_put (h.resized _) i p).trans
    (byte_congr ((held_size _).trans (held_load s root)) rfl p)

theorem sound_rounded (h : Has n c s) : Sound (rounded s).fs := sound_put (h.resized _)

/-- The free map is written last. -/
theorem fs_bitmap (s : State) (map : Block) :
    (s.wsect (BitVec.ofNat 32 bmapstart) map).fs =
      s.fs.setBlock (BitVec.ofNat 32 bmapstart) map := by
  have dinode : ∀ j : Inum sb, (s.wsect (BitVec.ofNat 32 bmapstart) map).dinode j.val =
      s.dinode j.val := by
    intro j
    have away : IBLOCK j.val ≠ BitVec.ofNat 32 bmapstart := by
      intro same
      have number := congrArg BitVec.toNat same
      have small : j.val < 200 := j.isLt
      have map_block : (BitVec.ofNat 32 bmapstart).toNat = 58 := rfl
      rw [IBLOCK_toNat j.isLt, map_block] at number
      simp only [IPB, inodestart, nlog, LOGSIZE] at number
      omega
    have sector : (s.wsect (BitVec.ofNat 32 bmapstart) map).sector (IBLOCK j.val) =
        s.sector (IBLOCK j.val) := Function.update_of_ne away _ _
    unfold State.dinode
    rw [sector]
  unfold State.fs
  simp only [dinode]
  rfl

theorem map_outside : BitVec.ofNat 32 bmapstart ∉ sb.data := not_data_of_low (by decide)

/-- What main() has written before the size is rounded up. -/
theorem main_has {files : List Input} (fit : Fit files) :
    ∃ s, Has (files.length + 2) (contents files) s ∧ main files =
      .ok ((rounded s).wsect (BitVec.ofNat 32 bmapstart)
        (State.bitmapLoop (rounded s).freeblock.toNat)) := by
  have start : total (contents []) ≤ total (contents files) := total_mono (contents_le [] files)
  have room := fit.total
  obtain ⟨s₁, allocated, has₁⟩ := start_has.ialloc (i := root) rfl
  have isRoot : root.val = 1 := rfl
  have inside : root.val ≠ 0 ∧ root.val < 2 := by omega
  have small : (contents [] root).length ≤ MAXFILE * BSIZE :=
    root_small (Nat.le_trans (Nat.le_add_left 2 files.length) fit.inodes)
  have begun := contents_start
  obtain ⟨dot, isDot⟩ : ∃ e, e = direntBytes (dirent (bytes ".") ROOTINO) := ⟨_, rfl⟩
  obtain ⟨dots, isDots⟩ : ∃ e, e = direntBytes (dirent (bytes "..") ROOTINO) := ⟨_, rfl⟩
  rw [← isDot, ← isDots] at begun
  have longer : ∀ j, (Function.update (fun _ => []) root dot j).length ≤
      (contents [] j).length := by
    intro j
    rw [begun]
    by_cases same : j = root
    · rw [same, Function.update_self, Function.update_self, List.length_append]
      exact Nat.le_add_right _ _
    · rw [Function.update_of_ne same, Function.update_of_ne same, Function.update_of_ne same]
  have less := total_mono longer
  have whole : (contents [] root) = dot ++ dots := by
    rw [begun, Function.update_self]
  obtain ⟨s₂, first, has₂⟩ := has₁.iappend inside dot
    (by rw [whole, List.length_append] at small; exact Nat.le_of_add_right_le small)
    (by rw [List.nil_append]; omega)
  rw [List.nil_append] at has₂
  obtain ⟨s₃, second, has₃⟩ := has₂.iappend inside dots
    (by rw [Function.update_self, ← whole]; exact small)
    (by rw [Function.update_self, ← begun]; omega)
  rw [Function.update_self, ← begun] at has₃
  obtain ⟨s, looped, has⟩ := Has.addFiles files [] s₃ has₃ fit
  refine ⟨s, has, ?_⟩
  have type : typeOf (1 + 1) root = T_DIR := by decide
  rw [type] at allocated
  have first' : s₁.iappend 1 (direntBytes (dirent (bytes ".") 1)) = .ok s₂ := isDot ▸ first
  have second' : s₂.iappend 1 (direntBytes (dirent (bytes "..") 1)) = .ok s₃ := isDots ▸ second
  have looped' : files.foldlM (fun s f => s.addFile 1 f) s₃ = .ok s := looped
  have fixed : s.fixRoot 1 = .ok (rounded s) := fixRoot_eq s
  have used : (rounded s).freeblock.toNat < BSIZE * 8 :=
    Nat.lt_of_le_of_lt has.fresh.inside (by decide)
  have mapped : (rounded s).balloc (rounded s).freeblock.toNat = .ok ((rounded s).wsect
      (BitVec.ofNat 32 bmapstart) (State.bitmapLoop (rounded s).freeblock.toNat)) := if_pos used
  have rest : (do
      let s ← s₁.iappend 1 (direntBytes (dirent (bytes ".") 1))
      let s ← s.iappend 1 (direntBytes (dirent (bytes "..") 1))
      let s ← files.foldlM (fun s f => s.addFile 1 f) s
      let s ← s.fixRoot 1
      s.balloc s.freeblock.toNat) = Except.ok ((rounded s).wsect
        (BitVec.ofNat 32 bmapstart) (State.bitmapLoop (rounded s).freeblock.toNat)) := by
    rw [first']
    change (s₂.iappend 1 _ >>= _) = _
    rw [second']
    change (files.foldlM (fun s f => s.addFile 1 f) s₃ >>= _) = _
    rw [looped']
    change (s.fixRoot 1 >>= fun s => s.balloc s.freeblock.toNat) = _
    rw [fixed]
    exact mapped
  unfold main
  rw [allocated]
  exact rest

/-- What main() leaves. -/
def finished (s : State) : State :=
  (rounded s).wsect (BitVec.ofNat 32 bmapstart)
    (State.bitmapLoop (rounded s).freeblock.toNat)

theorem held_finished (h : Has n c s) : (finished s).fs.held = s.fs.held := by
  unfold finished
  rw [fs_bitmap, held_outside (sound_rounded h) map_outside, held_rounded h]

theorem byte_finished (h : Has n c s) (i : Inum sb) (p : Nat) :
    (finished s).fs.byte i p = s.fs.byte i p := by
  unfold finished
  rw [fs_bitmap, byte_outside (sound_rounded h) map_outside, byte_rounded h]

theorem dinode_finished (s : State) (i : Inum sb) : (finished s).dinode i.val =
    if i.val = ROOTINO then { s.dinode ROOTINO with
      size := BitVec.ofNat 32 (((s.dinode ROOTINO).size.toNat / BSIZE + 1) * BSIZE) }
    else s.dinode i.val := by
  have same : (finished s).dinode i.val = (rounded s).dinode i.val :=
    copy_inj (congrFun (congrArg Fs.dinode (fs_bitmap (rounded s) _)) i)
  rw [same]
  exact State.dinode_put root_inside i.isLt

theorem dinode_finished_root (s : State) : (finished s).dinode ROOTINO = { s.dinode ROOTINO with
    size := BitVec.ofNat 32 (((s.dinode ROOTINO).size.toNat / BSIZE + 1) * BSIZE) } :=
  (dinode_finished s root).trans (if_pos rfl)

theorem dinode_finished_other (s : State) {i : Inum sb} (other : i ≠ root) :
    (finished s).dinode i.val = s.dinode i.val := by
  have away : i.val ≠ ROOTINO := fun same => other (Fin.ext same)
  rw [dinode_finished, if_neg away]

section Root
variable {files : List Input} (h : Has (files.length + 2) (contents files) s)
  (inodes : files.length + 2 ≤ NINODES)
include h inodes

theorem root_size : ((finished s).dinode ROOTINO).size.toNat =
    (direntSize * (files.length + 2) / BSIZE + 1) * BSIZE := by
  have size : (s.dinode ROOTINO).size.toNat = direntSize * (files.length + 2) :=
    (h.sizes root).trans (root_length files)
  rw [dinode_finished_root]
  change (BitVec.ofNat 32 _).toNat = _
  rw [size, BitVec.toNat_ofNat]
  simp only [direntSize, NINODES, BSIZE] at *
  omega

/-- The last block below the size is missing if the entries fill their blocks. -/
theorem root_whole : (∀ bn, bn < (((finished s).dinode ROOTINO).size.toNat + (BSIZE - 1)) / BSIZE →
      ((finished s).fs.lookup root bn).isSome = true) ↔
    (files.length + 2) % (BSIZE / direntSize) ≠ 0 := by
  have lookup : ∀ bn, ((finished s).fs.lookup root bn).isSome = true ↔
      bn * BSIZE < direntSize * (files.length + 2) := by
    intro bn
    have there := (h.appended root).lookup bn
    rw [root_length] at there
    unfold Fs.lookup at there ⊢
    rw [held_finished h]
    exact there
  rw [root_size h inodes]
  constructor
  · intro every
    have last := every (direntSize * (files.length + 2) / BSIZE) (by
      simp only [BSIZE]
      omega)
    rw [lookup] at last
    simp only [direntSize, BSIZE] at last ⊢
    omega
  · intro uneven bn below
    rw [lookup]
    simp only [direntSize, BSIZE] at uneven below ⊢
    omega

theorem root_entries : ((finished s).dinode ROOTINO).type = T_DIR ∧
    direntSize * (files.length + 2) ≤ ((finished s).dinode ROOTINO).size.toNat ∧
      ∀ p, p < ((finished s).dinode ROOTINO).size.toNat →
        (finished s).fs.peek root p = (Directory.dirBytes (rootDir files)).getD p 0 := by
  refine ⟨?_, ?_, ?_⟩
  · have type : (s.dinode ROOTINO).type = typeOf (files.length + 2) root := h.types root
    rw [dinode_finished_root]
    change (s.dinode ROOTINO).type = T_DIR
    have isRoot : root.val = 1 := rfl
    rw [type]
    unfold typeOf
    rw [if_neg (by omega)]
    exact if_pos rfl
  · rw [root_size h inodes]
    simp only [BSIZE]
    omega
  · intro p _
    have length := root_length files
    have content := contents_root files
    by_cases inside : p < (contents files root).length
    · rw [peek_of_byte ((byte_finished h root p).trans (h.bytes root p inside)), content]
    · rw [← content, List.getD_eq_default _ _ (Nat.le_of_not_lt inside)]
      unfold Fs.peek
      cases found : (finished s).fs.byte root p with
      | none => rfl
      | some x =>
          rw [byte_finished h] at found
          exact (h.appended root).tail p x (Nat.le_of_not_lt inside) found

end Root

/-- The whole image. -/
theorem finished_wellFormed {files : List Input} (fit : Fit files)
    (h : Has (files.length + 2) (contents files) s) :
    WellFormed files (finished s) ↔ (files.length + 2) % (BSIZE / direntSize) ≠ 0 := by
  rw [← root_whole h fit.inodes]
  constructor
  · exact fun well => well.allocated root
  · intro whole
    have freeblock : (finished s).freeblock = s.freeblock := rfl
    constructor
    case allocated =>
      intro i bn below
      by_cases isRoot : i = root
      · rw [isRoot] at below ⊢
        exact whole bn below
      · rw [dinode_finished_other s isRoot, h.sizes i] at below
        have there := (h.appended i).lookup bn
        unfold Fs.lookup at there ⊢
        rw [held_finished h]
        apply there.mpr
        simp only [BSIZE] at *
        omega
    case distinct =>
      intro slot slot' b first second
      rw [held_finished h] at first second
      exact h.sound.blocks.once first second
    case inside =>
      intro slot b held
      rw [held_finished h] at held
      exact ⟨(h.sound.data held).1, of_decide_eq_true (h.sound.bit held)⟩
    case bitmap =>
      intro b
      have sector : (finished s).sector = Function.update (rounded s).sector
          (BitVec.ofNat 32 bmapstart) (State.bitmapLoop (rounded s).freeblock.toNat) := rfl
      rw [sector, Function.update_self, bitmapLoop_bit]
      rfl
    case stored =>
      intro i k f here found
      have other : i ≠ root := by
        rintro rfl
        have one : (1 : Nat) = k + 2 := here
        omega
      have content : contents files i = f.reads.flatten := by
        rw [contents_file files here, found]
        rfl
      have small : k < files.length := (List.getElem?_eq_some_iff.mp found).1
      rw [dinode_finished_other s other]
      refine ⟨?_, ?_, ?_⟩
      · rw [h.types i]
        unfold typeOf ROOTINO
        rw [if_neg (by omega), if_neg (by omega)]
      · rw [h.sizes i, content]
      · intro p inside
        rw [byte_finished h, ← content]
        exact h.bytes i p (by rw [content]; exact inside)
    case directory => exact root_entries h fit.inodes

/-- The image is as it should be unless the entries of the root directory fill its blocks. -/
theorem image_wellFormed {files : List Input} (fit : Fit files) : ∃ s, main files = .ok s ∧
    (WellFormed files s ↔ (files.length + 2) % (BSIZE / direntSize) ≠ 0) := by
  obtain ⟨s, has, made⟩ := main_has fit
  exact ⟨finished s, made, finished_wellFormed fit has⟩

def oneFile : List Input := [⟨bytes "_cat", [bytes "meow", bytes "purr"]⟩]

theorem oneFile_fit : Fit oneFile := by
  constructor
  case names => decide
  case inodes => decide
  case sizes => decide
  case blocks => decide

theorem image_wellFormed_oneFile : ∃ s, main oneFile = .ok s ∧
    (WellFormed oneFile s ↔ (oneFile.length + 2) % (BSIZE / direntSize) ≠ 0) :=
  image_wellFormed oneFile_fit

/-- Thirty empty files, whose entries fill a block with the first two. -/
def thirty : List Input := (List.range 30).map fun k => ⟨[BitVec.ofNat 8 (97 + k)], []⟩

theorem thirty_fit : Fit thirty := by
  constructor
  case names => decide
  case inodes => decide
  case sizes => decide
  case blocks => decide

theorem thirty_malformed : ¬ ∀ files, Fit files → (files.map Input.name).Nodup →
    ∃ s, main files = .ok s ∧ WellFormed files s := by
  intro every
  obtain ⟨t, made, well⟩ := every thirty thirty_fit (by decide)
  obtain ⟨s, has, made'⟩ := main_has thirty_fit
  rw [made'] at made
  cases made
  exact absurd ((finished_wellFormed thirty_fit has).mp well) (by decide)

end Final

end Xv6.Public1.Mkfs
