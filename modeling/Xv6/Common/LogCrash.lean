import Xv6.Common.LogOps

/-!
# What a crash leaves of a group of operations (log.c)

At every moment the disk alone decides what a recovery will make of it: the
header names no block and the home blocks are the old ones, or it names the
blocks of the group and the log has their new contents.  Each write of a commit
and of a recovery keeps that, as long as the group fits into the log.
-/

set_option autoImplicit false

namespace Xv6.Common.Log

open Xv6.Lib
open Xv6.Lib.Words

/-! ## The blocks of the log -/

/-- The data blocks of the log. -/
def logData : Nat := nlog - 1

theorem head_toNat : head.toNat = 2 := by decide

theorem logBlock_toNat {tail : Nat} (inside : tail < logData) :
    (logBlock tail).toNat = tail + 3 := by
  have bound : logData = 29 := by decide
  simp only [logBlock, logstart, BitVec.toNat_ofNat]
  rw [Nat.mod_eq_of_lt (by omega)]
  omega

theorem home_cases {b : Word} (home : Home b) : b.toNat < 2 ∨ 32 ≤ b.toNat := home

theorem home_ne_head {b : Word} (home : Home b) : b ≠ head := by
  rintro rfl
  have away := home_cases home
  rw [head_toNat] at away
  omega

theorem logBlock_ne_head {tail : Nat} (inside : tail < logData) : logBlock tail ≠ head := by
  intro same
  have number := congrArg BitVec.toNat same
  rw [logBlock_toNat inside, head_toNat] at number
  omega

theorem home_ne_logBlock {b : Word} (home : Home b) {tail : Nat} (inside : tail < logData) :
    b ≠ logBlock tail := by
  rintro rfl
  have away := home_cases home
  have bound : logData = 29 := by decide
  rw [logBlock_toNat inside] at away
  omega

theorem logBlock_injective {i j : Nat} (first : i < logData) (second : j < logData)
    (same : logBlock i = logBlock j) : i = j := by
  have number := congrArg BitVec.toNat same
  rw [logBlock_toNat first, logBlock_toNat second] at number
  omega

/-- What is written into the header is read back from it. -/
theorem decode_encode (before : Block) (lh : List Word) (small : lh.length ≤ logData) :
    decode (encode before lh) = lh := by
  have bound : logData = 29 := by decide
  have count : (BitVec.ofNat 32 lh.length).toInt.toNat = lh.length := by
    have number : (BitVec.ofNat 32 lh.length).toNat = lh.length := by
      rw [BitVec.toNat_ofNat, Nat.mod_eq_of_lt (by omega)]
    rw [BitVec.toInt_eq_toNat_of_lt (by omega), number]
    exact Int.toNat_natCast _
  apply List.ext_getElem
  · simp [decode, encode, count]
  · intro i left right
    have inside : i + 1 < 128 := by omega
    simp [decode, encode, inside, right]

theorem decode_clear (before : Block) : decode (encode before []) = [] := by
  simp [decode, encode]

/-! ## What a recovery makes of the disk -/

variable {P : Type}

/-- The contents that a recovery brings about. -/
def Group.target (g : Group P) (b : Word) : Block :=
  if g.committed = true then g.new b else g.old b

structure Recoverable (disk : Word → Block) (g : Group P) : Prop where
  fits : (decode (disk head)).length ≤ logData
  home : ∀ b ∈ decode (disk head), Home b
  slots : ∀ i, i < (decode (disk head)).length →
    disk (logBlock i) = g.target ((decode (disk head)).getD i 0)
  rest : ∀ b, Home b → b ∉ decode (disk head) → disk b = g.target b
  uncommitted : g.committed = false → decode (disk head) = []

theorem Recoverable.start (disk : Word → Block) (empty : decode (disk head) = []) :
    Recoverable disk (Group.start disk : Group P) := by
  constructor
  case fits => simp [empty]
  case home => simp [empty]
  case slots => simp [empty]
  case rest => exact fun b _ _ => rfl
  case uncommitted => exact fun _ => empty

/-- A write to a block of the log that the header does not name. -/
theorem Recoverable.log {disk : Word → Block} {g : Group P} (h : Recoverable disk g)
    (uncommitted : g.committed = false) {tail : Nat} (inside : tail < logData) (data : Block) :
    Recoverable (Function.update disk (logBlock tail) data) g := by
  have same : Function.update disk (logBlock tail) data head = disk head :=
    Function.update_of_ne (logBlock_ne_head inside).symm data disk
  have empty := h.uncommitted uncommitted
  constructor
  case fits => rw [same]; exact h.fits
  case home => rw [same]; exact h.home
  case slots => simp [same, empty]
  case rest =>
    intro b home absent
    rw [same] at absent
    rw [Function.update_of_ne (home_ne_logBlock home inside)]
    exact h.rest b home absent
  case uncommitted => exact fun _ => same ▸ empty

/-- A home block that the header names is brought to what it is to be. -/
theorem Recoverable.install {disk : Word → Block} {g : Group P} (h : Recoverable disk g)
    {b : Word} (named : b ∈ decode (disk head)) {data : Block} (right : data = g.target b) :
    Recoverable (Function.update disk b data) g := by
  have away := h.home b named
  have same : Function.update disk b data head = disk head :=
    Function.update_of_ne (home_ne_head away).symm data disk
  constructor
  case fits => rw [same]; exact h.fits
  case home => rw [same]; exact h.home
  case slots =>
    intro i inside
    rw [same] at inside ⊢
    have slot : logBlock i ≠ b := (home_ne_logBlock away (by have := h.fits; omega)).symm
    rw [Function.update_of_ne slot]
    exact h.slots i inside
  case rest =>
    intro c home absent
    rw [same] at absent
    by_cases here : c = b
    · subst here
      exact absurd named absent
    · rw [Function.update_of_ne here]
      exact h.rest c home absent
  case uncommitted =>
    intro uncommitted
    rw [same]
    exact h.uncommitted uncommitted

/-! ## The invariant of the machine -/

/-- No buffer waits for a commit. -/
def Undirty (k : Kernel P) : Prop := ∀ b x, k.buf b = some x → x.dirty = false

/-- Before the header is written: the logged blocks are pinned in their buffers. -/
structure Staged (k : Kernel P) (g : Group P) : Prop where
  uncommitted : g.committed = false
  pinned : ∀ b ∈ k.lh, Home b ∧ ∃ data, k.buf b = some ⟨data, true⟩ ∧ g.logged b = some data
  only : ∀ b x, k.buf b = some x → x.dirty = true → b ∈ k.lh
  unlogged : ∀ b, b ∉ k.lh → g.logged b = none

/-- The log has the new contents of the first blocks. -/
structure Written (k : Kernel P) (g : Group P) (tail : Nat) : Prop extends Staged k g where
  fits : k.lh.length ≤ logData
  slots : ∀ i, i < tail → k.disk (logBlock i) = g.new (k.lh.getD i 0)

/-- The first blocks have been installed, and the others have still to be. -/
structure Installing (k : Kernel P) (g : Group P) (tail : Nat) : Prop where
  header : k.lh = decode (k.disk head)
  done : ∀ i, i < tail → k.disk (k.lh.getD i 0) = g.target (k.lh.getD i 0)
  dirty : ∀ b x, k.buf b = some x → x.dirty = true →
    ∃ i, tail ≤ i ∧ i < k.lh.length ∧ k.lh.getD i 0 = b

/-- Every block has been installed. -/
structure Installed (k : Kernel P) (g : Group P) : Prop where
  done : ∀ b, Home b → k.disk b = g.target b
  undirty : Undirty k

def AtPhase (k : Kernel P) (g : Group P) : Phase → Prop
  | .running => Staged k g
  | .writeLog tail => tail < k.lh.length ∧ Written k g tail
  | .writeHead => 0 < k.lh.length ∧ Written k g k.lh.length
  | .install tail => g.committed = true ∧ tail < k.lh.length ∧ Installing k g tail
  | .clear => g.committed = true ∧ Installed k g
  | .readHead => Undirty k
  | .reinstall tail => tail < k.lh.length ∧ Installing k g tail
  | .reclear => Installed k g

structure Inv [Fintype P] (k : Kernel P) (g : Group P) : Prop where
  counted : Counted k
  quiet : ∀ p, k.thread p ≠ .out → k.phase = .running
  home : ∀ p b data, k.thread p = .logging b data → Home b
  coherent : ∀ b x, k.buf b = some x → x.dirty = false → x.data = k.disk b
  recoverable : Recoverable k.disk g
  phase : AtPhase k g k.phase

/-! ## Buffers -/

theorem view_clean {k : Kernel P} {b : Word}
    (coherent : ∀ b x, k.buf b = some x → x.dirty = false → x.data = k.disk b)
    (clean : ∀ x, k.buf b = some x → x.dirty = false) : k.view b = k.disk b := by
  unfold Kernel.view
  split
  · rename_i x found
    exact coherent b x found (clean x found)
  · rfl

theorem view_pinned {k : Kernel P} {b : Word} {data : Block}
    (pinned : k.buf b = some ⟨data, true⟩) : k.view b = data := by
  unfold Kernel.view
  rw [pinned]

theorem bwrite_disk (k : Kernel P) (b c : Word) (data : Block) :
    (k.bwrite b data).disk c = if c = b then data else k.disk c :=
  Function.update_apply k.disk b data c

theorem bwrite_buf (k : Kernel P) (b c : Word) (data : Block) :
    (k.bwrite b data).buf c = if c = b then some ⟨data, false⟩ else k.buf c :=
  Function.update_apply k.buf b (some ⟨data, false⟩) c

/-- A dirty buffer after a bwrite() was dirty before, and is of another block. -/
theorem bwrite_dirty {k : Kernel P} {b c : Word} {data : Block} {x : Buf}
    (found : (k.bwrite b data).buf c = some x) (dirty : x.dirty = true) :
    c ≠ b ∧ k.buf c = some x := by
  rw [bwrite_buf] at found
  split at found
  · cases found
    cases dirty
  · rename_i there
    exact ⟨there, found⟩

theorem bwrite_coherent {k : Kernel P}
    (coherent : ∀ b x, k.buf b = some x → x.dirty = false → x.data = k.disk b)
    (b : Word) (data : Block) :
    ∀ c x, (k.bwrite b data).buf c = some x → x.dirty = false →
      x.data = (k.bwrite b data).disk c := by
  intro c x found clean
  rw [bwrite_buf] at found
  rw [bwrite_disk]
  split at found
  · rename_i here
    cases found
    rw [if_pos here]
  · rename_i there
    rw [if_neg there]
    exact coherent c x found clean

/-! ## Steps that write nothing -/

/-- What the disk, the buffers and the header in memory say is the same. -/
structure SameLog (k next : Kernel P) (g g' : Group P) : Prop where
  disk : next.disk = k.disk
  buf : next.buf = k.buf
  lh : next.lh = k.lh
  old : g'.old = g.old
  logged : g'.logged = g.logged
  committed : g'.committed = g.committed

theorem SameLog.new {k next : Kernel P} {g g' : Group P} (same : SameLog k next g g') (b : Word) :
    g'.new b = g.new b := by
  unfold Group.new
  rw [same.old, same.logged]

theorem SameLog.target {k next : Kernel P} {g g' : Group P} (same : SameLog k next g g')
    (b : Word) : g'.target b = g.target b := by
  unfold Group.target
  rw [same.committed, same.new, same.old]

theorem SameLog.recoverable {k next : Kernel P} {g g' : Group P} (same : SameLog k next g g')
    (h : Recoverable k.disk g) : Recoverable next.disk g' := by
  rw [same.disk]
  refine ⟨h.fits, h.home, ?_, ?_, ?_⟩
  · intro i inside
    rw [same.target]
    exact h.slots i inside
  · intro b home absent
    rw [same.target]
    exact h.rest b home absent
  · intro uncommitted
    rw [same.committed] at uncommitted
    exact h.uncommitted uncommitted

theorem SameLog.staged {k next : Kernel P} {g g' : Group P} (same : SameLog k next g g')
    (h : Staged k g) : Staged next g' := by
  constructor
  case uncommitted => rw [same.committed]; exact h.uncommitted
  case pinned => rw [same.lh, same.buf, same.logged]; exact h.pinned
  case only => rw [same.lh, same.buf]; exact h.only
  case unlogged => rw [same.lh, same.logged]; exact h.unlogged

theorem SameLog.written {k next : Kernel P} {g g' : Group P} (same : SameLog k next g g')
    {tail : Nat} (h : Written k g tail) : Written next g' tail := by
  refine ⟨same.staged h.toStaged, ?_, ?_⟩
  · rw [same.lh]
    exact h.fits
  · intro i before
    rw [same.disk, same.new, same.lh]
    exact h.slots i before

theorem SameLog.installing {k next : Kernel P} {g g' : Group P} (same : SameLog k next g g')
    {tail : Nat} (h : Installing k g tail) : Installing next g' tail := by
  refine ⟨?_, ?_, ?_⟩
  · rw [same.lh, same.disk]
    exact h.header
  · intro i before
    rw [same.disk, same.lh, same.target]
    exact h.done i before
  · rw [same.buf, same.lh]
    exact h.dirty

theorem SameLog.installed {k next : Kernel P} {g g' : Group P} (same : SameLog k next g g')
    (h : Installed k g) : Installed next g' := by
  refine ⟨?_, ?_⟩
  · intro b home
    rw [same.disk, same.target]
    exact h.done b home
  · unfold Undirty
    rw [same.buf]
    exact h.undirty

theorem SameLog.atPhase {k next : Kernel P} {g g' : Group P} (same : SameLog k next g g')
    {phase : Phase} (h : AtPhase k g phase) : AtPhase next g' phase := by
  cases phase with
  | running => exact same.staged h
  | writeLog tail => exact ⟨same.lh ▸ h.1, same.written h.2⟩
  | writeHead =>
      have written := same.written h.2
      simp only [AtPhase]
      rw [same.lh]
      exact ⟨h.1, written⟩
  | install tail => exact ⟨same.committed ▸ h.1, same.lh ▸ h.2.1, same.installing h.2.2⟩
  | clear => exact ⟨same.committed ▸ h.1, same.installed h.2⟩
  | readHead =>
      simp only [AtPhase, Undirty]
      rw [same.buf]
      exact h
  | reinstall tail => exact ⟨same.lh ▸ h.1, same.installing h.2⟩
  | reclear => exact same.installed h

/-- Buffers without changes of their own come and go. -/
structure SameDirty (k next : Kernel P) : Prop where
  disk : next.disk = k.disk
  lh : next.lh = k.lh
  pinned : ∀ b x, k.buf b = some x → x.dirty = true → next.buf b = some x
  clean : ∀ b x, next.buf b = some x → k.buf b = some x ∨ x.dirty = false ∧ x.data = k.disk b

theorem SameDirty.dirty {k next : Kernel P} (same : SameDirty k next) {b : Word} {x : Buf}
    (found : next.buf b = some x) (dirty : x.dirty = true) : k.buf b = some x := by
  obtain before | ⟨clean, _⟩ := same.clean b x found
  · exact before
  · rw [dirty] at clean
    cases clean

theorem SameDirty.staged {k next : Kernel P} {g : Group P} (same : SameDirty k next)
    (h : Staged k g) : Staged next g := by
  constructor
  case uncommitted => exact h.uncommitted
  case pinned =>
    intro b named
    rw [same.lh] at named
    obtain ⟨home, data, pinned, logged⟩ := h.pinned b named
    exact ⟨home, data, same.pinned b _ pinned rfl, logged⟩
  case only =>
    intro b x found dirty
    rw [same.lh]
    exact h.only b x (same.dirty found dirty) dirty
  case unlogged =>
    rw [same.lh]
    exact h.unlogged

theorem SameDirty.undirty {k next : Kernel P} (same : SameDirty k next) (h : Undirty k) :
    Undirty next := by
  intro b x found
  obtain before | ⟨clean, _⟩ := same.clean b x found
  · exact h b x before
  · exact clean

theorem SameDirty.installing {k next : Kernel P} {g : Group P} (same : SameDirty k next)
    {tail : Nat} (h : Installing k g tail) : Installing next g tail := by
  refine ⟨?_, ?_, ?_⟩
  · rw [same.lh, same.disk]
    exact h.header
  · rw [same.disk, same.lh]
    exact h.done
  · intro b x found dirty
    rw [same.lh]
    exact h.dirty b x (same.dirty found dirty) dirty

theorem SameDirty.atPhase {k next : Kernel P} {g : Group P} (same : SameDirty k next)
    {phase : Phase} (h : AtPhase k g phase) : AtPhase next g phase := by
  have written : ∀ {tail}, Written k g tail → Written next g tail := by
    intro tail w
    refine ⟨same.staged w.toStaged, ?_, ?_⟩
    · rw [same.lh]
      exact w.fits
    · rw [same.disk, same.lh]
      exact w.slots
  have installed : Installed k g → Installed next g := by
    intro w
    refine ⟨?_, same.undirty w.undirty⟩
    rw [same.disk]
    exact w.done
  cases phase with
  | running => exact same.staged h
  | writeLog tail => exact ⟨same.lh ▸ h.1, written h.2⟩
  | writeHead =>
      simp only [AtPhase]
      rw [same.lh]
      exact ⟨h.1, written h.2⟩
  | install tail => exact ⟨h.1, same.lh ▸ h.2.1, same.installing h.2.2⟩
  | clear => exact ⟨h.1, installed h.2⟩
  | readHead => exact same.undirty h
  | reinstall tail => exact ⟨same.lh ▸ h.1, same.installing h.2⟩
  | reclear => exact installed h

/-! ## log_write() -/

/-- log_write() pins one more block, or the new contents of one. -/
theorem Staged.append {k next : Kernel P} {g g' : Group P} {b : Word} {data : Block}
    (h : Staged k g) (home : Home b)
    (lh : next.lh = if b ∈ k.lh then k.lh else k.lh ++ [b])
    (buf : next.buf = Function.update k.buf b (some ⟨data, true⟩))
    (logged : g'.logged = Function.update g.logged b (some data))
    (committed : g'.committed = g.committed) : Staged next g' := by
  have members : ∀ c, c ∈ next.lh ↔ c ∈ k.lh ∨ c = b := by
    intro c
    rw [lh]
    split
    · rename_i already
      constructor
      · exact Or.inl
      · rintro (before | rfl)
        · exact before
        · exact already
    · simp
  constructor
  case uncommitted => rw [committed]; exact h.uncommitted
  case pinned =>
    intro c named
    rw [buf, logged]
    by_cases here : c = b
    · subst here
      exact ⟨home, data, Function.update_self _ _ _, Function.update_self _ _ _⟩
    · obtain before | same := (members c).mp named
      · obtain ⟨away, other, pinned, recorded⟩ := h.pinned c before
        refine ⟨away, other, ?_, ?_⟩
        · rw [Function.update_of_ne here, pinned]
        · rw [Function.update_of_ne here, recorded]
      · exact absurd same here
  case only =>
    intro c x found dirty
    rw [buf] at found
    by_cases here : c = b
    · exact (members c).mpr (Or.inr here)
    · rw [Function.update_of_ne here] at found
      exact (members c).mpr (Or.inl (h.only c x found dirty))
  case unlogged =>
    intro c absent
    have apart : c ∉ k.lh ∧ c ≠ b := by
      constructor
      · exact fun named => absent ((members c).mpr (Or.inl named))
      · exact fun same => absent ((members c).mpr (Or.inr same))
    rw [logged, Function.update_of_ne apart.2]
    exact h.unlogged c apart.1

/-- While the header is not written, what has been logged does not matter to a
recovery. -/
theorem Recoverable.logged {disk : Word → Block} {g g' : Group P} (h : Recoverable disk g)
    (uncommitted : g.committed = false) (old : g'.old = g.old)
    (committed : g'.committed = g.committed) : Recoverable disk g' := by
  have empty := h.uncommitted uncommitted
  have target : ∀ b, g'.target b = g.target b := by
    intro b
    unfold Group.target
    rw [committed, uncommitted, old]
    rfl
  constructor
  case fits => exact h.fits
  case home => exact h.home
  case slots => simp [empty]
  case rest =>
    intro b home absent
    rw [target]
    exact h.rest b home absent
  case uncommitted => exact fun _ => empty

/-! ## The writes of a commit and of a recovery -/

theorem getD_mem {lh : List Word} {i : Nat} (inside : i < lh.length) : lh.getD i 0 ∈ lh := by
  rw [List.getD_eq_getElem _ _ inside]
  exact List.getElem_mem inside

theorem Staged.view {k : Kernel P} {g : Group P} (h : Staged k g) {b : Word} (named : b ∈ k.lh) :
    k.view b = g.new b := by
  obtain ⟨_, data, pinned, logged⟩ := h.pinned b named
  rw [view_pinned pinned]
  unfold Group.new
  rw [logged]
  rfl

/-- A write to a block that is not home leaves what is pinned. -/
theorem Staged.bwrite {k : Kernel P} {g : Group P} (h : Staged k g) {b : Word}
    (away : ¬ Home b) (data : Block) : Staged (k.bwrite b data) g := by
  constructor
  case uncommitted => exact h.uncommitted
  case pinned =>
    intro c named
    obtain ⟨home, other, pinned, logged⟩ := h.pinned c named
    refine ⟨home, other, ?_, logged⟩
    rw [bwrite_buf, if_neg, pinned]
    rintro rfl
    exact away home
  case only => exact fun c x found dirty => h.only c x (bwrite_dirty found dirty).2 dirty
  case unlogged => exact h.unlogged

theorem logBlock_not_home {tail : Nat} (inside : tail < logData) : ¬ Home (logBlock tail) :=
  fun home => home_ne_logBlock home inside rfl

theorem head_not_home : ¬ Home head := fun home => home_ne_head home rfl

/-- One round of write_log(). -/
theorem Written.round {k : Kernel P} {g : Group P} {tail : Nat} (h : Written k g tail)
    (inside : tail < k.lh.length) :
    Written (k.bwrite (logBlock tail) (k.view (k.lh.getD tail 0))) g (tail + 1) := by
  have fits := h.fits
  refine ⟨h.toStaged.bwrite (logBlock_not_home (by omega)) _, fits, ?_⟩
  intro i before
  rw [bwrite_disk]
  split
  · rename_i same
    have here := logBlock_injective (by omega) (by omega) same
    subst here
    exact h.toStaged.view (getD_mem inside)
  · rename_i there
    have earlier : i ≠ tail := by
      rintro rfl
      exact there rfl
    exact h.slots i (by omega)

/-- The header is written: the group is committed. -/
theorem Written.commit {k : Kernel P} {g : Group P} (h : Written k g k.lh.length)
    (recoverable : Recoverable k.disk g) :
    Recoverable k.write_head.disk { g with committed := true } ∧
      Installing k.write_head { g with committed := true } 0 := by
  have header : k.write_head.disk head = encode (k.view head) k.lh := by
    unfold Kernel.write_head
    rw [bwrite_disk, if_pos rfl]
  have named : decode (k.write_head.disk head) = k.lh := by
    rw [header]
    exact decode_encode _ _ h.fits
  have others : ∀ b, b ≠ head → k.write_head.disk b = k.disk b := by
    intro b there
    unfold Kernel.write_head
    rw [bwrite_disk, if_neg there]
  have target : ∀ b, ({ g with committed := true } : Group P).target b = g.new b := fun b => rfl
  have fits := h.fits
  constructor
  · constructor
    case fits => rw [named]; exact h.fits
    case home => rw [named]; exact fun b member => (h.pinned b member).1
    case slots =>
      intro i inside
      rw [named] at inside ⊢
      rw [others _ (logBlock_ne_head (by omega)), target]
      exact h.slots i inside
    case rest =>
      intro b home absent
      rw [named] at absent
      have empty := recoverable.uncommitted h.uncommitted
      have old := recoverable.rest b home (by simp [empty])
      unfold Group.target at old
      rw [h.uncommitted] at old
      rw [others b (home_ne_head home), target, old]
      unfold Group.new
      rw [h.unlogged b absent]
      rfl
    case uncommitted => exact fun not => by cases not
  · refine ⟨named.symm, fun i before => absurd before (Nat.not_lt_zero i), ?_⟩
    intro b x found dirty
    have member := h.only b x (bwrite_dirty found dirty).2 dirty
    obtain ⟨i, inside, here⟩ := List.getElem_of_mem member
    refine ⟨i, Nat.zero_le i, inside, ?_⟩
    exact (List.getD_eq_getElem _ _ inside).trans here

/-- One round of install_trans(). -/
theorem Installing.round {k : Kernel P} {g : Group P} {tail : Nat} (h : Installing k g tail)
    (recoverable : Recoverable k.disk g)
    (coherent : ∀ b x, k.buf b = some x → x.dirty = false → x.data = k.disk b)
    (inside : tail < k.lh.length) :
    Recoverable (k.installRound tail).disk g ∧ Installing (k.installRound tail) g (tail + 1) := by
  have header := h.header
  have fits := recoverable.fits
  have named : k.lh.getD tail 0 ∈ decode (k.disk head) := header ▸ getD_mem inside
  have away := recoverable.home _ named
  have data : k.view (logBlock tail) = g.target (k.lh.getD tail 0) := by
    rw [view_clean coherent]
    · rw [header] at inside ⊢
      exact recoverable.slots tail inside
    · intro x found
      by_contra dirty
      obtain ⟨i, _, bound, same⟩ := h.dirty _ x found (Bool.eq_true_of_not_eq_false dirty)
      have member : k.lh.getD i 0 ∈ decode (k.disk head) := header ▸ getD_mem bound
      have home := recoverable.home _ member
      rw [same] at home
      rw [header] at inside
      exact logBlock_not_home (by omega) home
  have kept : (k.installRound tail).disk head = k.disk head := by
    unfold Kernel.installRound
    rw [bwrite_disk, if_neg (home_ne_head away).symm]
  refine ⟨recoverable.install named data, ?_, ?_, ?_⟩
  · rw [kept]
    exact header
  · intro i before
    unfold Kernel.installRound
    rw [bwrite_disk]
    split
    · rename_i same
      rw [data]
      exact congrArg g.target same.symm
    · rename_i there
      have earlier : i ≠ tail := by
        rintro rfl
        exact there rfl
      exact h.done i (by omega)
  · intro b x found dirty
    obtain ⟨there, before⟩ := bwrite_dirty found dirty
    obtain ⟨i, later, bound, same⟩ := h.dirty b x before dirty
    refine ⟨i, ?_, bound, same⟩
    have other : i ≠ tail := by
      rintro rfl
      exact there same.symm
    omega

theorem Installing.all {k : Kernel P} {g : Group P} (h : Installing k g k.lh.length)
    (recoverable : Recoverable k.disk g) : Installed k g := by
  constructor
  case done =>
    intro b home
    by_cases named : b ∈ k.lh
    · obtain ⟨i, inside, here⟩ := List.getElem_of_mem named
      have same : k.lh.getD i 0 = b := (List.getD_eq_getElem _ _ inside).trans here
      rw [← same]
      exact h.done i inside
    · exact recoverable.rest b home (h.header ▸ named)
  case undirty =>
    intro b x found
    by_contra dirty
    obtain ⟨i, later, inside, _⟩ := h.dirty b x found (Bool.eq_true_of_not_eq_false dirty)
    omega

/-- The header is cleared: the group is over. -/
theorem Installed.clear {k : Kernel P} {g : Group P} (h : Installed k g) :
    Recoverable k.clearHead.disk
        (Group.start k.clearHead.disk : Group P) ∧
      Staged k.clearHead
        (Group.start k.clearHead.disk) := by
  constructor
  · apply Recoverable.start
    have header : k.clearHead.disk head =
        encode (({ k with lh := [] } : Kernel P).view head) [] := by
      unfold Kernel.clearHead Kernel.write_head
      rw [bwrite_disk, if_pos rfl]
    rw [header]
    exact decode_clear _
  · constructor
    case uncommitted => rfl
    case pinned => exact fun b named => by cases named
    case only =>
      intro b x found dirty
      have before := h.undirty b x (bwrite_dirty found dirty).2
      rw [dirty] at before
      cases before
    case unlogged => exact fun b _ => rfl

/-- The phase after a round of a loop over the blocks of the log. -/
theorem AtPhase.round {k : Kernel P} {g : Group P} {n tail : Nat} {again done : Phase}
    (inside : tail < n) (more : tail + 1 < n → AtPhase k g again)
    (last : tail + 1 = n → AtPhase k g done) :
    AtPhase k g (if tail + 1 < n then again else done) := by
  split
  · rename_i further
    exact more further
  · exact last (by omega)

/-! ## Operations -/

section Steps
variable [Fintype P]

theorem Inv.buffers {k next : Kernel P} {g : Group P} (h : Inv k g) (same : SameDirty k next)
    (outstanding : next.outstanding = k.outstanding) (thread : next.thread = k.thread)
    (phase : next.phase = k.phase) : Inv next g := by
  constructor
  case counted => exact h.counted.of_same outstanding thread
  case quiet => rw [thread, phase]; exact h.quiet
  case home => rw [thread]; exact h.home
  case coherent =>
    intro b x found clean
    rw [same.disk]
    obtain before | ⟨_, data⟩ := same.clean b x found
    · exact h.coherent b x before clean
    · exact data
  case recoverable => rw [same.disk]; exact h.recoverable
  case phase => rw [phase]; exact same.atPhase h.phase

theorem Inv.bread {k : Kernel P} {g : Group P} (h : Inv k g) (b : Word) : Inv (k.bread b) g := by
  unfold Kernel.bread
  split
  · exact h
  · rename_i absent
    apply h.buffers
    case same =>
      refine ⟨rfl, rfl, ?_, ?_⟩
      · intro c x found _
        have there : c ≠ b := by
          rintro rfl
          rw [absent] at found
          cases found
        exact (Function.update_of_ne there _ k.buf).trans found
      · intro c x found
        dsimp only at found
        rw [Function.update_apply] at found
        split at found
        · rename_i here
          cases found
          exact Or.inr ⟨rfl, by rw [here]⟩
        · exact Or.inl found
    case outstanding => rfl
    case thread => rfl
    case phase => rfl

theorem Inv.recycle {k next : Kernel P} {g : Group P} (h : Inv k g) {b : Word}
    (taken : k.recycle b = some next) : Inv next g := by
  unfold Kernel.recycle at taken
  split at taken
  · rename_i y present
    split at taken
    · cases taken
    · rename_i clean
      cases taken
      apply h.buffers
      case same =>
        refine ⟨rfl, rfl, ?_, ?_⟩
        · intro c x found dirty
          have there : c ≠ b := by
            rintro rfl
            rw [present] at found
            cases found
            exact clean dirty
          exact (Function.update_of_ne there _ k.buf).trans found
        · intro c x found
          dsimp only at found
          rw [Function.update_apply] at found
          split at found
          · cases found
          · exact Or.inl found
      case outstanding => rfl
      case thread => rfl
      case phase => rfl
  · cases taken

variable [DecidableEq P]

theorem Inv.begin_op {k next : Kernel P} {g : Group P} (h : Inv k g) {p : P}
    (taken : k.begin_op p = some next) : Inv next (record k next g (.begin_op p)) := by
  have counted := h.counted.begin_op taken
  unfold Kernel.begin_op at taken
  split at taken
  · rename_i out running
    split at taken
    · cases taken
    · cases taken
      have same : SameLog k ({ k with outstanding := k.outstanding + 1 }.setThread p .inOp) g
          (record k ({ k with outstanding := k.outstanding + 1 }.setThread p .inOp) g
            (.begin_op p)) :=
        ⟨rfl, rfl, rfl, rfl, rfl, rfl⟩
      constructor
      case counted => exact counted
      case quiet => exact fun q _ => running
      case home =>
        intro q b data logging
        rw [setThread_thread] at logging
        split at logging
        · cases logging
        · exact h.home q b data logging
      case coherent => exact h.coherent
      case recoverable => exact same.recoverable h.recoverable
      case phase =>
        have staged := same.atPhase h.phase
        exact staged
  · cases taken

theorem Inv.logTest {k next : Kernel P} {g : Group P} (h : Inv k g) {p : P} {b : Word}
    {data : Block} (home : Home b) (taken : k.logTest p b data = some next) :
    Inv next (record k next g (.logTest p b data)) := by
  have counted := h.counted.logTest taken
  unfold Kernel.logTest at taken
  have panics : Inv { k with panic := true }
      (record k { k with panic := true } g (.logTest p b data)) := by
    have same : SameLog k { k with panic := true } g
        (record k { k with panic := true } g (.logTest p b data)) :=
      ⟨rfl, rfl, rfl, rfl, rfl, rfl⟩
    exact ⟨h.counted, h.quiet, h.home, h.coherent, same.recoverable h.recoverable,
      same.atPhase h.phase⟩
  split at taken
  · rename_i inOp
    split at taken
    · cases taken
      exact panics
    · split at taken
      · cases taken
        exact panics
      · cases taken
        have same : SameLog k (k.setThread p (.logging b data)) g
            (record k (k.setThread p (.logging b data)) g (.logTest p b data)) :=
          ⟨rfl, rfl, rfl, rfl, rfl, rfl⟩
        constructor
        case counted => exact counted
        case quiet => exact fun _ _ => h.quiet p (by rw [inOp]; simp)
        case home =>
          intro q c other logging
          rw [setThread_thread] at logging
          split at logging
          · cases logging
            exact home
          · exact h.home q c other logging
        case coherent => exact h.coherent
        case recoverable => exact same.recoverable h.recoverable
        case phase => exact same.atPhase h.phase
  · cases taken

theorem Inv.logAppend {k next : Kernel P} {g : Group P} (h : Inv k g) {p : P}
    (taken : k.logAppend p = some next) : Inv next (record k next g (.logAppend p)) := by
  have counted := h.counted.logAppend taken
  unfold Kernel.logAppend at taken
  split at taken
  · rename_i b data logging
    have running := h.quiet p (by rw [logging]; simp)
    have home := h.home p b data logging
    have staged : Staged k g := by
      have here := h.phase
      rw [running] at here
      exact here
    simp only [record, logging]
    cases taken
    constructor
    case counted => exact counted
    case quiet => exact fun _ _ => running
    case home =>
      intro q c other here
      rw [setThread_thread] at here
      split at here
      · cases here
      · exact h.home q c other here
    case coherent =>
      intro c x found clean
      have buffers : Function.update k.buf b (some ⟨data, true⟩) c = some x := found
      rw [Function.update_apply] at buffers
      split at buffers
      · cases buffers
        cases clean
      · exact h.coherent c x buffers clean
    case recoverable =>
      refine h.recoverable.logged staged.uncommitted ?_ ?_
      · rfl
      · rfl
    case phase =>
      have appended : Staged (({ k with
          lh := if b ∈ k.lh then k.lh else k.lh ++ [b]
          buf := Function.update k.buf b (some { data := data, dirty := true }) } :
            Kernel P).setThread p .inOp)
          { g with
            logged := Function.update g.logged b (some data)
            blocks := insert b g.blocks } :=
        staged.append home rfl rfl rfl rfl
      have phase : (({ k with
          lh := if b ∈ k.lh then k.lh else k.lh ++ [b]
          buf := Function.update k.buf b (some { data := data, dirty := true }) } :
            Kernel P).setThread p .inOp).phase = .running := running
      rw [phase]
      exact appended
  · cases taken

/-- The commit of a group that fits. -/
theorem Inv.end_op {k next : Kernel P} {g : Group P} (h : Inv k g) {p : P}
    (fits : k.outstanding = 1 → k.lh.length ≤ logData) (taken : k.end_op p = some next) :
    Inv next (record k next g (.end_op p)) := by
  have counted := h.counted.end_op taken
  unfold Kernel.end_op at taken
  split at taken
  · rename_i inOp
    have running := h.quiet p (by rw [inOp]; simp)
    have staged : Staged k g := by
      have here := h.phase
      rw [running] at here
      exact here
    have home : ∀ q b data, (k.setThread p .out).thread q = .logging b data → Home b := by
      intro q b data logging
      rw [setThread_thread] at logging
      split at logging
      · cases logging
      · exact h.home q b data logging
    cases taken
    split
    · rename_i last
      have none_left : k.outstanding - 1 = 0 := last.1
      have running_one := h.counted.outstanding (p := p) (by rw [inOp]; simp)
      rw [if_pos last] at counted
      refine ⟨counted, ?_, home, h.coherent, h.recoverable, ?_⟩
      · exact fun q inside => absurd (counted.out none_left q) inside
      · have one : k.outstanding = 1 := by omega
        refine ⟨List.length_pos_iff.mpr last.2, ?_⟩
        exact ⟨⟨staged.uncommitted, staged.pinned, staged.only, staged.unlogged⟩, fits one,
          fun i before => absurd before (Nat.not_lt_zero i)⟩
    · rename_i more
      rw [if_neg more] at counted
      refine ⟨counted, fun _ _ => running, home, h.coherent, h.recoverable, ?_⟩
      have phase : ({ k with outstanding := k.outstanding - 1 }.setThread p .out).phase =
          .running := running
      rw [phase]
      exact ⟨staged.uncommitted, staged.pinned, staged.only, staged.unlogged⟩
  · cases taken

omit [DecidableEq P] in
/-- A step of a commit or a recovery, in which no operation is running. -/
theorem Inv.write {k k' : Kernel P} {g g' : Group P} {phase : Phase} (h : Inv k g)
    (idle : k.phase ≠ .running) (outstanding : k'.outstanding = k.outstanding)
    (thread : k'.thread = k.thread)
    (coherent : ∀ b x, k'.buf b = some x → x.dirty = false → x.data = k'.disk b)
    (recoverable : Recoverable k'.disk g') (reached : AtPhase k' g' phase) :
    Inv { k' with phase := phase } g' := by
  have same : SameLog k' { k' with phase := phase } g' g' := ⟨rfl, rfl, rfl, rfl, rfl, rfl⟩
  constructor
  case counted => exact h.counted.of_same outstanding thread
  case quiet =>
    intro p inside
    have before : k.thread p ≠ .out := thread ▸ inside
    exact absurd (h.quiet p before) idle
  case home =>
    intro p b data logging
    have before : k.thread p = .logging b data := thread ▸ logging
    exact h.home p b data before
  case coherent => exact coherent
  case recoverable => exact recoverable
  case phase => exact same.atPhase reached

theorem Inv.advance {k next : Kernel P} {g : Group P} (h : Inv k g)
    (taken : k.advance = some next) : Inv next (record k next g .advance) := by
  have here := h.phase
  cases phase : k.phase with
  | running =>
      simp only [Kernel.advance, phase] at taken
      cases taken
  | writeLog tail =>
      rw [phase] at here
      obtain ⟨inside, written⟩ := here
      have round := written.round inside
      have fits := written.fits
      simp only [Kernel.advance, phase, Option.some.injEq] at taken
      simp only [record, phase]
      subst taken
      apply h.write (by rw [phase]; simp)
      case outstanding => rfl
      case thread => rfl
      case coherent => exact bwrite_coherent h.coherent _ _
      case recoverable => exact h.recoverable.log written.uncommitted (by omega) _
      case reached =>
        apply AtPhase.round inside
        · exact fun further => ⟨further, round⟩
        · intro last
          rw [last] at round
          exact ⟨Nat.zero_lt_of_lt inside, round⟩
  | writeHead =>
      rw [phase] at here
      obtain ⟨some_logged, written⟩ := here
      obtain ⟨recoverable, installing⟩ := written.commit h.recoverable
      simp only [Kernel.advance, phase, Option.some.injEq] at taken
      simp only [record, phase]
      subst taken
      apply h.write (by rw [phase]; simp)
      case outstanding => rfl
      case thread => rfl
      case coherent => exact bwrite_coherent h.coherent _ _
      case recoverable => exact recoverable
      case reached => exact ⟨rfl, some_logged, installing⟩
  | install tail =>
      rw [phase] at here
      obtain ⟨committed, inside, installing⟩ := here
      obtain ⟨recoverable, round⟩ := installing.round h.recoverable h.coherent inside
      simp only [Kernel.advance, phase, Option.some.injEq] at taken
      simp only [record, phase]
      subst taken
      apply h.write (by rw [phase]; simp)
      case outstanding => rfl
      case thread => rfl
      case coherent => exact bwrite_coherent h.coherent _ _
      case recoverable => exact recoverable
      case reached =>
        apply AtPhase.round inside
        · exact fun further => ⟨committed, further, round⟩
        · intro last
          rw [last] at round
          exact ⟨committed, Installing.all round recoverable⟩
  | clear =>
      rw [phase] at here
      obtain ⟨recoverable, staged⟩ := here.2.clear
      simp only [Kernel.advance, phase, Option.some.injEq] at taken
      simp only [record, phase]
      subst taken
      apply h.write (by rw [phase]; simp)
      case outstanding => rfl
      case thread => rfl
      case coherent => exact bwrite_coherent h.coherent _ _
      case recoverable => exact recoverable
      case reached => exact staged
  | readHead =>
      rw [phase] at here
      have header : k.read_head.lh = decode (k.disk head) :=
        congrArg decode (view_clean h.coherent (here head))
      have installing : Installing k.read_head g 0 := by
        refine ⟨header, fun i before => absurd before (Nat.not_lt_zero i), ?_⟩
        intro b x found dirty
        rw [here b x found] at dirty
        cases dirty
      simp only [Kernel.advance, phase, Option.some.injEq] at taken
      simp only [record, phase]
      subst taken
      apply h.write (by rw [phase]; simp)
      case outstanding => rfl
      case thread => rfl
      case coherent => exact h.coherent
      case recoverable => exact h.recoverable
      case reached =>
        split
        · rename_i empty
          have all : Installing k.read_head g k.read_head.lh.length := by
            simpa [empty] using installing
          exact all.all h.recoverable
        · rename_i named
          exact ⟨List.length_pos_iff.mpr named, installing⟩
  | reinstall tail =>
      rw [phase] at here
      obtain ⟨inside, installing⟩ := here
      obtain ⟨recoverable, round⟩ := installing.round h.recoverable h.coherent inside
      simp only [Kernel.advance, phase, Option.some.injEq] at taken
      simp only [record, phase]
      subst taken
      apply h.write (by rw [phase]; simp)
      case outstanding => rfl
      case thread => rfl
      case coherent => exact bwrite_coherent h.coherent _ _
      case recoverable => exact recoverable
      case reached =>
        apply AtPhase.round inside
        · exact fun further => ⟨further, round⟩
        · intro last
          rw [last] at round
          exact Installing.all round recoverable
  | reclear =>
      rw [phase] at here
      obtain ⟨recoverable, staged⟩ := Installed.clear here
      simp only [Kernel.advance, phase, Option.some.injEq] at taken
      simp only [record, phase]
      subst taken
      apply h.write (by rw [phase]; simp)
      case outstanding => rfl
      case thread => rfl
      case coherent => exact bwrite_coherent h.coherent _ _
      case recoverable => exact recoverable
      case reached => exact staged

omit [DecidableEq P] in
/-- After a crash only the disk is left. -/
theorem Inv.crash {k : Kernel P} {g : Group P} (h : Inv k g) : Inv k.crash g := by
  constructor
  case counted => exact Counted.none rfl fun _ => rfl
  case quiet => exact fun p inside => absurd rfl inside
  case home => exact fun p b data logging => by cases logging
  case coherent => exact fun b x found => by cases found
  case recoverable => exact h.recoverable
  case phase => exact fun b x found => by cases found

/-! ## Every run -/

/-- Only home blocks are logged. -/
def HomeOnly : Event P → Prop
  | .logTest _ b _ => Home b
  | _ => True

instance : DecidablePred (HomeOnly : Event P → Prop) := fun e => by
  cases e <;> first | exact isTrue trivial | exact inferInstanceAs (Decidable (Home _))

/-- A group that is committed has logged no more blocks than the log has. -/
def Fits (k : Kernel P) : Event P → Prop
  | .end_op _ => k.outstanding = 1 → k.lh.length ≤ nlog - 1
  | _ => True

instance (k : Kernel P) : DecidablePred (Fits k) := fun e => by
  cases e <;> first | exact isTrue trivial | exact inferInstanceAs (Decidable (_ → _))

theorem Inv.act {k next : Kernel P} {g : Group P} (h : Inv k g) {e : Event P}
    (home : HomeOnly e) (fits : Fits k e) (taken : act k e = some next) :
    Inv next (record k next g e) := by
  cases e with
  | bread b =>
      cases taken
      exact h.bread b
  | recycle b => exact h.recycle taken
  | begin_op p => exact h.begin_op taken
  | logTest p b data => exact h.logTest home taken
  | logAppend p => exact h.logAppend taken
  | end_op p => exact h.end_op fits taken
  | advance => exact h.advance taken
  | crash =>
      cases taken
      exact h.crash

theorem Inv.step {k next : Kernel P} {g : Group P} (h : Inv k g) {e : Event P}
    (home : HomeOnly e) (fits : Fits k e) (taken : step k e = some next) :
    Inv next (record k next g e) := by
  unfold Log.step at taken
  split at taken
  · cases taken
    exact h.crash
  · cases taken
  · exact h.act home fits taken

omit [DecidableEq P] in
theorem boot_inv (disk : Word → Block) (empty : decode (disk head) = []) :
    Inv (boot disk : Kernel P) (Group.start disk) := by
  constructor
  case counted => exact Counted.none rfl fun _ => rfl
  case quiet => exact fun p inside => absurd rfl inside
  case home => exact fun p b data logging => by cases logging
  case coherent => exact fun b x found => by cases found
  case recoverable => exact Recoverable.start disk empty
  case phase =>
    refine ⟨rfl, ?_, ?_, fun b _ => rfl⟩
    · exact fun b named => by cases named
    · exact fun b x found => by cases found

omit [Fintype P] in
/-- The write that ends a commit or a recovery leaves the home blocks. -/
theorem ended_home {k next : Kernel P} (phase : k.phase = .clear ∨ k.phase = .reclear)
    (taken : Log.step k .advance = some next) {b : Word} (home : Home b) :
    next.disk b = k.disk b := by
  have cleared : next.disk = k.clearHead.disk := by
    cases panic : k.panic with
    | true => simp [Log.step, panic] at taken
    | false =>
        have moved : k.advance = some next := by
          simpa [Log.step, Log.act, panic] using taken
        unfold Kernel.advance at moved
        obtain phase | phase := phase
        · rw [phase] at moved
          cases moved
          rfl
        · rw [phase] at moved
          cases moved
          rfl
  rw [cleared]
  unfold Kernel.clearHead Kernel.write_head
  rw [bwrite_disk, if_neg (home_ne_head home)]

end Steps

/-! ## Groups that do not fit -/

/-- A log_write() that is not interrupted. -/
def write (p : Fin 3) (b : Nat) : List (Event (Fin 3)) :=
  [.bread (BitVec.ofNat 32 b), .logTest p (BitVec.ofNat 32 b) (fun _ => 1), .logAppend p]

def writes (p : Fin 3) (first count : Nat) : List (Event (Fin 3)) :=
  ((List.range count).map (first + ·)).flatMap (write p)

/-- Three operations log ten blocks each, the last two blocks at the same time. -/
def thirtyBlocks : List (Event (Fin 3)) :=
  [.begin_op 0, .begin_op 1, .begin_op 2] ++ writes 0 100 10 ++ writes 1 110 9 ++ writes 2 120 9 ++
    [.logTest 1 119 (fun _ => 1), .logTest 2 129 (fun _ => 1), .logAppend 1, .logAppend 2,
      .end_op 0, .end_op 1, .end_op 2]

/-- The machine goes down after the last block of write_log(). -/
def tornRun : List (Event (Fin 3)) :=
  thirtyBlocks ++ List.replicate 30 .advance ++ [.crash, .advance]

def zeros : Word → Block := fun _ _ => 0

theorem tornRun_completes :
    (Runs.run tracked (boot zeros, Group.start zeros) tornRun).isSome = true := by
  decide +kernel

theorem tornRun_recovers :
    (step ((Runs.run tracked (boot zeros, Group.start zeros) tornRun).get
      tornRun_completes).1 .advance).isSome = true := by
  decide +kernel

/-- A commit of two blocks goes down after the first has been installed, and so
does the recovery. -/
def recoveredRun : List (Event (Fin 3)) :=
  [.begin_op 0] ++ writes 0 100 2 ++ [.end_op 0] ++ List.replicate 4 .advance ++
    [.crash, .advance, .advance, .crash, .advance, .advance, .advance]

theorem recoveredRun_completes :
    (Runs.run tracked (boot zeros, Group.start zeros) recoveredRun).isSome = true := by
  decide +kernel

theorem recoveredRun_recovers :
    (step ((Runs.run tracked (boot zeros, Group.start zeros) recoveredRun).get
      recoveredRun_completes).1 .advance).isSome = true := by
  decide +kernel

end Xv6.Common.Log
