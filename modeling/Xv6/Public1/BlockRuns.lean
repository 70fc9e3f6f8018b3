import Xv6.Lib.Runs
import Xv6.Public1.Truncation

/-!
# Every block is accounted for (fs.c of xv6-public_1)

The operations on inodes in any order, from an image in which every used block
stands in one place: it does so after each of them.
-/

set_option autoImplicit false

namespace Xv6.Public1.Blocks

open Xv6.Lib.Words
open Xv6.Lib.Outcome
open Xv6.Lib.Runs

variable {sb : Superblock}

/-! ## Operations -/

inductive Event (sb : Superblock) where
  | iget (i : Inum sb)
  | idup (i : Inum sb)
  | ilock (i : Inum sb)
  | iput (i : Inum sb)
  | ialloc (type : Int)
  | readi (i : Inum sb) (off n : Word)
  | writei (i : Inum sb) (src : Nat → Byte) (off n : Word)
  /-- The fields that create(), sys_link(), sys_unlink() and do_chmod() store, and iupdate(). -/
  | store (i : Inum sb) (major minor nlink : Int) (mode : Word)

namespace Fs

def act (devsw : Devsw) (s : Fs sb) : Event sb → Except Panic (Fs sb)
  | .iget i => pure (s.iget i)
  | .idup i => pure (s.idup i)
  | .ilock i => s.ilock i
  | .iput i => s.iput i
  | .ialloc type => do
      let (_, s) ← s.ialloc type
      pure s
  | .readi i off n => do
      let (s, _) ← s.readi devsw i off n
      pure s
  | .writei i src off n => do
      let (s, _) ← s.writei devsw i src off n
      pure s
  | .store i major minor nlink mode =>
      pure ((s.setCopy i
        { s.ip i with major := major, minor := minor, nlink := nlink, mode := mode }).iupdate i)

/-- The caller has a reference, and has locked the inode it uses. -/
def allowed (s : Fs sb) : Event sb → Bool
  | .iget _ => true
  | .idup i | .ilock i | .iput i => decide (0 < (s.inode i).ref)
  | .ialloc type => decide (type = T_DIR ∨ type = T_FILE ∨ type = T_DEV)
  | .readi i _ _ | .writei i _ _ _ | .store i _ _ _ _ =>
      decide (0 < (s.inode i).ref) && (s.inode i).valid

/-- A panic ends the run. -/
def step (devsw : Devsw) (s : Fs sb) (e : Event sb) : Option (Fs sb) :=
  if s.allowed e = true then (s.act devsw e).toOption else none

/-! ## What is on disk -/

/-- Nothing is in memory. -/
def cold (s : Fs sb) : Fs sb := { s with inode := fun i => ⟨0, false, s.dinode i⟩ }

/-- The block number in a place of an inode on disk. -/
def stored (s : Fs sb) : Slot sb → Option Word := s.cold.held

end Fs

/-- Every used block stands in one place. -/
structure WellFormed (s : Fs sb) : Prop where
  inside : ∀ slot b, s.stored slot = some b → b ∈ sb.data ∧ s.bitmap b = true
  once : ∀ slot slot' b, s.stored slot = some b → s.stored slot' = some b → slot = slot'
  metadata : ∀ b : Word, b.toNat < sb.nmeta → s.bitmap b = true
  exact : ∀ b ∈ sb.data, s.bitmap b = true → ∃ slot, s.stored slot = some b

/-- An image without holes in files, and nothing in memory. -/
structure Image (s : Fs sb) : Prop where
  wellFormed : WellFormed s
  types : ∀ i, (s.dinode i).type = 0 ∨ (s.dinode i).type = T_DIR ∨ (s.dinode i).type = T_FILE ∨
    (s.dinode i).type = T_DEV
  whole : ∀ i p, (s.dinode i).type ≠ 0 → p < (s.dinode i).size.toNat →
    (s.cold.byte i p).isSome = true
  invalid : ∀ i, (s.inode i).valid = false

section Disk
variable {s s' : Fs sb}

@[simp] theorem cold_view (s : Fs sb) (i : Inum sb) : s.cold.view i = s.dinode i := rfl

theorem wellFormed_iff : WellFormed s ↔ Sound s.cold := by
  constructor
  · intro h
    constructor
    case blocks =>
      constructor
      case inside => exact fun b used => used.1
      case once => exact h.once _ _ _
      case apart => exact fun _ framed => absurd framed (Set.notMem_empty _)
      case all =>
        intro b
        constructor
        · exact fun used => Or.inr (h.exact b used.1 used.2)
        · rintro (framed | ⟨slot, held⟩)
          · exact absurd framed (Set.notMem_empty b)
          · exact h.inside slot b held
    case metadata => exact h.metadata
  · intro h
    constructor
    case inside => exact fun slot b held => ⟨h.data held, h.bit held⟩
    case once => exact fun _ _ _ first second => h.blocks.once first second
    case metadata => exact h.metadata
    case exact =>
      intro b data bit
      have used : b ∈ s.cold.used := ⟨data, bit⟩
      exact ((h.blocks.all b).mp used).resolve_left (Set.notMem_empty b)

/-- The places of one inode. -/
theorem held_at {slot : Slot sb} (view : s'.view slot.inum = s.view slot.inum)
    (block : s'.block = s.block) : s'.held slot = s.held slot := by
  cases slot with
  | direct i k => simp only [Slot.inum] at view; simp only [Fs.held, view]
  | indirect i => simp only [Slot.inum] at view; simp only [Fs.held, view]
  | entry i j => simp only [Slot.inum] at view; simp only [Fs.held, view, block]

theorem held_none_of_type {slot : Slot sb} (free : (s.view slot.inum).type = 0) :
    s.held slot = none := by
  cases slot with
  | direct i k => exact if_pos free
  | indirect i => exact if_pos free
  | entry i j => exact if_pos free

theorem held_none_of_addrs {slot : Slot sb} (empty : (s.view slot.inum).addrs = fun _ => 0) :
    s.held slot = none := by
  cases slot with
  | direct i k =>
      simp only [Slot.inum] at empty
      simp only [Fs.held, empty, nonzero_zero, ite_self]
  | indirect i =>
      simp only [Slot.inum] at empty
      simp only [Fs.held, empty, nonzero_zero, ite_self]
  | entry i j =>
      simp only [Slot.inum] at empty
      simp only [Fs.held, empty, nonzero_zero, Option.bind_none, ite_self]

/-- Places and blocks that are the same have the same bytes. -/
theorem byte_congr {i : Inum sb} (held : s'.held = s.held) (block : s'.block = s.block) (p : Nat) :
    s'.byte i p = s.byte i p := by
  unfold Fs.byte Fs.lookup
  rw [held, block]

end Disk

/-! ## The invariant -/

/-- What is in memory is what is on disk, where all is accounted for. -/
structure Accounted (s : Fs sb) : Prop where
  coherent : ∀ i, (s.inode i).valid = true → s.ip i = s.dinode i
  typed : ∀ i, (s.inode i).valid = true → (s.dinode i).type ≠ 0
  sound : Sound s.cold
  types : ∀ i, (s.dinode i).type = 0 ∨ (s.dinode i).type = T_DIR ∨ (s.dinode i).type = T_FILE ∨
    (s.dinode i).type = T_DEV
  whole : ∀ i p, (s.dinode i).type ≠ 0 → p < (s.dinode i).size.toNat →
    (s.cold.byte i p).isSome = true

section Accounted
variable {s s' : Fs sb} {i : Inum sb}

theorem Image.accounted (image : Image s) : Accounted s := by
  constructor
  case coherent =>
    intro i loaded
    rw [image.invalid i] at loaded
    cases loaded
  case typed =>
    intro i loaded
    rw [image.invalid i] at loaded
    cases loaded
  case sound => exact wellFormed_iff.mp image.wellFormed
  case types => exact image.types
  case whole => exact image.whole

namespace Accounted

theorem view (h : Accounted s) (i : Inum sb) : s.view i = s.dinode i := by
  unfold Fs.view
  split
  · exact h.coherent i ‹_›
  · rfl

theorem held (h : Accounted s) : s.held = s.cold.held := by
  apply held_congr
  · exact fun i => congrArg Dinode.type (h.view i)
  · exact fun i => congrArg Dinode.addrs (h.view i)
  · rfl

theorem byte (h : Accounted s) (i : Inum sb) (p : Nat) : s.byte i p = s.cold.byte i p :=
  byte_congr h.held rfl p

theorem warm (h : Accounted s) : Sound s := h.sound.congr h.held rfl

theorem loaded_typed (h : Accounted s) (loaded : (s.inode i).valid = true) :
    (s.ip i).type ≠ 0 := by
  rw [h.coherent i loaded]
  exact h.typed i loaded

/-- A locked inode that is no device is ready for readi() and writei(). -/
theorem ready (h : Accounted s) (loaded : (s.inode i).valid = true)
    (no_device : (s.ip i).type ≠ T_DEV) : Ready s i := by
  have same := h.coherent i loaded
  have typed := h.typed i loaded
  constructor
  case loaded => exact loaded
  case type =>
    rw [same] at no_device ⊢
    obtain zero | dir | file | dev := h.types i
    · exact absurd zero typed
    · exact Or.inl dir
    · exact Or.inr file
    · exact absurd dev no_device
  case whole =>
    intro p small
    rw [same] at small
    rw [h.byte]
    exact h.whole i p typed small

/-- Only inodes in memory change. -/
theorem of_cold (h : Accounted s) (bitmap : s'.bitmap = s.bitmap) (block : s'.block = s.block)
    (dinode : s'.dinode = s.dinode)
    (coherent : ∀ i, (s'.inode i).valid = true → s'.ip i = s'.dinode i)
    (typed : ∀ i, (s'.inode i).valid = true → (s'.dinode i).type ≠ 0) : Accounted s' := by
  have cold : s'.cold = s.cold := by
    unfold Fs.cold
    rw [bitmap, block, dinode]
  constructor
  case coherent => exact coherent
  case typed => exact typed
  case sound =>
    rw [cold]
    exact h.sound
  case types =>
    rw [dinode]
    exact h.types
  case whole =>
    rw [dinode, cold]
    exact h.whole

/-- The entry of one inode changes. -/
theorem setInode (h : Accounted s) (value : Inode)
    (coherent : value.valid = true → value.copy = s.dinode i)
    (typed : value.valid = true → (s.dinode i).type ≠ 0) : Accounted (s.setInode i value) := by
  have bitmap : (s.setInode i value).bitmap = s.bitmap := rfl
  refine h.of_cold bitmap rfl rfl ?_ ?_
  · intro j loaded
    by_cases here : j = i
    · subst here
      simp only [Fs.setInode, Fs.ip, Function.update_self] at loaded ⊢
      exact coherent loaded
    · simp only [Fs.setInode, Fs.ip, Function.update_of_ne here] at loaded ⊢
      exact h.coherent j loaded
  · intro j loaded
    by_cases here : j = i
    · subst here
      simp only [Fs.setInode, Function.update_self] at loaded
      exact typed loaded
    · simp only [Fs.setInode, Function.update_of_ne here] at loaded
      exact h.typed j loaded

/-- Only the count changes. -/
theorem setRef (h : Accounted s) (ref : Int) :
    Accounted (s.setInode i { s.inode i with ref := ref }) :=
  h.setInode _ (h.coherent i) (h.typed i)

theorem iget (h : Accounted s) (i : Inum sb) : Accounted (s.iget i) := by
  unfold Fs.iget
  split
  · exact h.setRef _
  · refine h.setInode _ ?_ ?_
    · exact fun loaded => absurd loaded (by simp)
    · exact fun loaded => absurd loaded (by simp)

theorem ilock (h : Accounted s) (i : Inum sb) (referenced : 0 < (s.inode i).ref) :
    Ends (s.ilock i) (fun e => e = .noType) Accounted := by
  unfold Fs.ilock
  rw [if_neg (by omega)]
  split
  · exact ends_pure h
  · split
    · exact ends_error rfl
    · rename_i typed
      exact ends_pure (h.setInode _ (fun _ => rfl) fun _ => typed)

/-- A dinode gets other fields, with the places and the bytes as they were. -/
theorem restore (h : Accounted s) {dip : Dinode} (bitmap : s'.bitmap = s.bitmap)
    (block : s'.block = s.block) (dinode : s'.dinode = Function.update s.dinode i dip)
    (held : s'.cold.held = s.cold.held)
    (type : dip.type = T_DIR ∨ dip.type = T_FILE ∨ dip.type = T_DEV)
    (whole : ∀ p, p < dip.size.toNat → (s.cold.byte i p).isSome = true)
    (coherent : ∀ j, (s'.inode j).valid = true → s'.ip j = s'.dinode j)
    (others : ∀ j, j ≠ i → (s'.inode j).valid = true → (s.inode j).valid = true) :
    Accounted s' := by
  have mine : s'.dinode i = dip := by
    rw [dinode]
    exact Function.update_self _ _ _
  have rest : ∀ j, j ≠ i → s'.dinode j = s.dinode j := by
    intro j other
    rw [dinode]
    exact Function.update_of_ne other _ _
  have typed : dip.type ≠ 0 := by
    obtain dir | file | dev := type
    · rw [dir]
      decide
    · rw [file]
      decide
    · rw [dev]
      decide
  constructor
  case coherent => exact coherent
  case typed =>
    intro j loaded
    by_cases here : j = i
    · subst here
      rw [mine]
      exact typed
    · rw [rest j here]
      exact h.typed j (others j here loaded)
  case sound => exact h.sound.congr held bitmap
  case types =>
    intro j
    by_cases here : j = i
    · subst here
      rw [mine]
      exact Or.inr type
    · rw [rest j here]
      exact h.types j
  case whole =>
    intro j p allocated small
    have same : s'.cold.byte j p = s.cold.byte j p := byte_congr held block p
    rw [same]
    by_cases here : j = i
    · subst here
      rw [mine] at small
      exact whole p small
    · rw [rest j here] at allocated small
      exact h.whole j p allocated small

/-- The places depend on the type and the addresses of a dinode only. -/
theorem held_dinode {dip : Dinode} (block : s'.block = s.block)
    (dinode : s'.dinode = Function.update s.dinode i dip)
    (same : dip.type = (s.dinode i).type ∧ dip.addrs = (s.dinode i).addrs) :
    s'.cold.held = s.cold.held := by
  have every : ∀ j, (s'.dinode j).type = (s.dinode j).type ∧
      (s'.dinode j).addrs = (s.dinode j).addrs := by
    intro j
    rw [dinode]
    by_cases here : j = i
    · subst here
      rw [Function.update_self]
      exact same
    · rw [Function.update_of_ne here]
      exact ⟨rfl, rfl⟩
  exact held_congr (fun j => (every j).1) (fun j => (every j).2) block

theorem store (h : Accounted s) (loaded : (s.inode i).valid = true) (major minor nlink : Int)
    (mode : Word) : Accounted ((s.setCopy i
      { s.ip i with major := major, minor := minor, nlink := nlink, mode := mode }).iupdate i) := by
  have same := h.coherent i loaded
  have typed := h.typed i loaded
  have mine : (s.setCopy i { s.ip i with
      major := major, minor := minor, nlink := nlink, mode := mode }).ip i =
      { s.ip i with major := major, minor := minor, nlink := nlink, mode := mode } := by
    simp [Fs.ip, Fs.setCopy, Fs.setInode]
  have dinode : ((s.setCopy i { s.ip i with
      major := major, minor := minor, nlink := nlink, mode := mode }).iupdate i).dinode =
      Function.update s.dinode i
        { s.ip i with major := major, minor := minor, nlink := nlink, mode := mode } := by
    unfold Fs.iupdate
    rw [mine]
    rfl
  refine h.restore rfl rfl dinode ?_ ?_ ?_ ?_ ?_
  · refine held_dinode rfl dinode ⟨?_, ?_⟩
    · change (s.ip i).type = _
      rw [same]
    · change (s.ip i).addrs = _
      rw [same]
  · change (s.ip i).type = T_DIR ∨ (s.ip i).type = T_FILE ∨ (s.ip i).type = T_DEV
    rw [same]
    exact (h.types i).resolve_left typed
  · intro p small
    change p < (s.ip i).size.toNat at small
    rw [same] at small
    exact h.whole i p typed small
  · intro j valid
    by_cases here : j = i
    · subst here
      rw [dinode, Function.update_self]
      exact mine
    · rw [dinode, Function.update_of_ne here]
      simp only [Fs.iupdate, Fs.setDinode, Fs.setCopy, Fs.setInode, Fs.ip,
        Function.update_of_ne here] at valid ⊢
      exact h.coherent j valid
  · intro j here valid
    simp only [Fs.iupdate, Fs.setDinode, Fs.setCopy, Fs.setInode,
      Function.update_of_ne here] at valid
    exact valid

theorem ialloc (h : Accounted s) {type : Int}
    (known : type = T_DIR ∨ type = T_FILE ∨ type = T_DEV) :
    Ends (s.ialloc type) (fun e => e = .noInodes) fun r => Accounted r.2 := by
  unfold Fs.ialloc
  split
  · exact ends_error rfl
  · rename_i i found
    have suitable := List.find?_some found
    have free : (s.dinode i).type = 0 := (of_decide_eq_true suitable).2
    have invalid : ∀ j, (s.inode j).valid = true → j ≠ i := by
      rintro j loaded rfl
      exact h.typed j loaded free
    apply ends_pure
    apply Accounted.iget
    refine h.restore rfl rfl rfl ?_ known ?_ ?_ fun _ _ loaded => loaded
    · -- neither the old dinode nor the new one has blocks
      funext slot
      by_cases here : slot.inum = i
      · rw [held_none_of_type (s := s.cold) (by rw [here]; exact free)]
        apply held_none_of_addrs
        rw [here]
        change (Function.update s.dinode i _ i).addrs = _
        rw [Function.update_self]
      · exact held_at (Function.update_of_ne here _ _) rfl
    · exact fun p small => absurd small (Nat.not_lt_zero p)
    · intro j loaded
      refine (h.coherent j loaded).trans ?_
      exact (Function.update_of_ne (invalid j loaded) _ _).symm

theorem readi (h : Accounted s) (loaded : (s.inode i).valid = true) (devsw : Devsw)
    (off n : Word) : Ends (s.readi devsw i off n) (fun _ => False) fun r => r.1 = s := by
  by_cases device : (s.ip i).type = T_DEV
  · unfold Fs.readi
    rw [if_pos device]
    split
    · exact ends_pure rfl
    · exact ends_pure rfl
  · rw [readi_eq (h.ready loaded device)]
    exact ends_pure rfl

theorem writei (h : Accounted s) (loaded : (s.inode i).valid = true) (devsw : Devsw)
    (src : Nat → Byte) (off n : Word) :
    Ends (s.writei devsw i src off n) (fun e => e = .outOfBlocks) fun r => Accounted r.1 := by
  by_cases device : (s.ip i).type = T_DEV
  · unfold Fs.writei
    rw [if_pos device]
    split
    · exact ends_pure h
    · exact ends_pure h
  · refine ends_mono (writei_ends h.warm (h.ready loaded device)) (fun e full => full.1) ?_
    intro r done
    split at done
    · rw [done]
      exact h
    · obtain ⟨_, overlaid⟩ := done
      have coherent : ∀ j, (r.1.inode j).valid = true → r.1.ip j = r.1.dinode j := by
        intro j valid
        by_cases here : j = i
        · subst here
          exact (overlaid.coherent (h.coherent j loaded).symm).symm
        · rw [Fs.ip, overlaid.inode j here] at *
          rw [overlaid.dinode j here]
          exact h.coherent j valid
      have view : ∀ j, r.1.view j = r.1.dinode j := by
        intro j
        unfold Fs.view
        split
        · exact coherent j ‹_›
        · rfl
      have held : r.1.cold.held = r.1.held := by
        apply held_congr
        · exact fun j => (congrArg Dinode.type (view j)).symm
        · exact fun j => (congrArg Dinode.addrs (view j)).symm
        · rfl
      have mine : r.1.dinode i = r.1.ip i := (coherent i overlaid.ready.loaded).symm
      constructor
      case coherent => exact coherent
      case typed =>
        intro j valid
        by_cases here : j = i
        · subst here
          rw [mine]
          exact overlaid.ready.typed
        · rw [overlaid.inode j here] at valid
          rw [overlaid.dinode j here]
          exact h.typed j valid
      case sound => exact overlaid.sound.congr held rfl
      case types =>
        intro j
        by_cases here : j = i
        · subst here
          rw [mine]
          exact Or.inr (overlaid.ready.type.imp_right Or.inl)
        · rw [overlaid.dinode j here]
          exact h.types j
      case whole =>
        intro j p allocated small
        rw [byte_congr held rfl]
        by_cases here : j = i
        · subst here
          rw [mine] at small
          exact overlaid.ready.whole p small
        · rw [overlaid.dinode j here] at allocated small
          rw [overlaid.others j p here, h.byte]
          exact h.whole j p allocated small

/-- itrunc() clears the bits of the blocks of the inode. -/
theorem itrunc (h : Accounted s) (loaded : (s.inode i).valid = true) :
    Ends (s.itrunc i) (fun _ => False) fun t => ∀ b, t.bitmap b = true ↔
      s.bitmap b = true ∧ ∀ slot, slot.inum = i → s.stored slot ≠ some b := by
  refine ends_mono (itrunc_ends h.warm loaded (h.loaded_typed loaded)) (fun e never => never) ?_
  rintro t ⟨u, freed, rfl⟩ b
  change u.bitmap b = true ↔ _
  rw [freed.bitmap b, h.held]
  rfl

/-- An inode whose blocks have been freed is free. -/
theorem freed (h : Accounted s) {u v : Fs sb} (freed : Freed i (slotsOf i) s u)
    (dip : Dinode) (free : dip.type = 0) (bitmap : v.bitmap = u.bitmap) (block : v.block = u.block)
    (dinode : v.dinode = Function.update u.dinode i dip)
    (inode : ∀ j, j ≠ i → v.inode j = u.inode j) (invalid : (v.inode i).valid = false) :
    Accounted v := by
  have mine : v.dinode i = dip := by
    rw [dinode]
    exact Function.update_self _ _ _
  have rest : ∀ j, j ≠ i → v.dinode j = s.dinode j := by
    intro j other
    rw [dinode, ← freed.dinode]
    exact Function.update_of_ne other _ _
  have entry : ∀ j, j ≠ i → v.inode j = s.inode j :=
    fun j other => (inode j other).trans (freed.inode j other)
  have away : ∀ j, (v.inode j).valid = true → j ≠ i := by
    rintro j loaded rfl
    rw [invalid] at loaded
    cases loaded
  have block : v.block = s.block := block.trans freed.block
  have kept : ∀ slot : Slot sb, slot.inum ≠ i → v.cold.held slot = s.cold.held slot :=
    fun slot other => held_at (rest slot.inum other) block
  have held : v.cold.held = u.held := by
    funext slot
    by_cases here : slot.inum = i
    · rw [freed.gone slot here]
      refine held_none_of_type ?_
      rw [here, cold_view, mine, free]
    · rw [freed.kept slot here, kept slot here, h.held]
  constructor
  case coherent =>
    intro j loaded
    have other := away j loaded
    rw [rest j other]
    unfold Fs.ip
    rw [entry j other] at loaded ⊢
    exact h.coherent j loaded
  case typed =>
    intro j loaded
    have other := away j loaded
    rw [rest j other]
    rw [entry j other] at loaded
    exact h.typed j loaded
  case sound => exact (freed.sound h.warm).congr held bitmap
  case types =>
    intro j
    by_cases here : j = i
    · subst here
      rw [mine]
      exact Or.inl free
    · rw [rest j here]
      exact h.types j
  case whole =>
    intro j p allocated small
    have here : j ≠ i := by
      rintro rfl
      rw [mine] at allocated
      exact allocated free
    rw [rest j here] at allocated small
    have same : v.cold.byte j p = s.cold.byte j p := by
      unfold Fs.byte
      have lookup : v.cold.lookup j (p / BSIZE) = s.cold.lookup j (p / BSIZE) := by
        cases there : place j (p / BSIZE) with
        | none => simp only [Fs.lookup, there, Option.bind_none]
        | some slot =>
            rw [lookup_of_held there, lookup_of_held there]
            refine kept slot ?_
            rw [(place_inum there).1]
            exact here
      rw [lookup]
      change Option.map (fun b => v.block b _) _ = Option.map (fun b => s.block b _) _
      rw [block]
    rw [same]
    exact h.whole j p allocated small

theorem iput (h : Accounted s) (i : Inum sb) : Ends (s.iput i) (fun _ => False) Accounted := by
  unfold Fs.iput
  split
  · rename_i last
    apply ends_bind (x := s.itrunc i)
    refine ends_mono (itrunc_ends h.warm last.1 (h.loaded_typed last.1)) (fun e never => never) ?_
    rintro t ⟨u, freed, rfl⟩
    apply ends_pure
    refine h.freed freed { u.ip i with size := 0, type := 0 } rfl rfl rfl ?_ ?_ ?_
    · simp [Fs.iupdate, Fs.setDinode, Fs.setCopy, Fs.setInode, Fs.ip]
    · intro j other
      simp [Fs.iupdate, Fs.setDinode, Fs.setCopy, Fs.setInode, other]
    · simp [Fs.iupdate, Fs.setDinode, Fs.setCopy, Fs.setInode]
  · exact ends_pure (h.setRef _)

end Accounted

end Accounted

/-! ## Runs -/

section Run
variable {devsw : Devsw} {s t : Fs sb} {e : Event sb}

theorem act_ends (devsw : Devsw) (h : Accounted s) (allowed : s.allowed e = true) :
    Ends (s.act devsw e) (fun panic => panic ≠ .freeingFreeBlock ∧ panic ≠ .outOfRange)
      Accounted := by
  cases e with
  | iget i => exact ends_pure (h.iget i)
  | idup i => exact ends_pure (h.setRef _)
  | ilock i =>
      refine ends_mono (h.ilock i (of_decide_eq_true allowed)) ?_ fun _ done => done
      rintro _ rfl
      simp
  | iput i => exact ends_mono (h.iput i) (fun _ never => never.elim) fun _ done => done
  | ialloc type =>
      apply ends_bind
      refine ends_mono (h.ialloc (of_decide_eq_true allowed)) ?_ fun _ done => ends_pure done
      rintro _ rfl
      simp
  | readi i off n =>
      have loaded := (Bool.and_eq_true_iff.mp allowed).2
      apply ends_bind
      refine ends_mono (h.readi loaded devsw off n) (fun _ never => never.elim) ?_
      rintro ⟨t, data⟩ same
      obtain rfl : t = s := same
      exact ends_pure h
  | writei i src off n =>
      have loaded := (Bool.and_eq_true_iff.mp allowed).2
      apply ends_bind
      refine ends_mono (h.writei loaded devsw src off n) ?_ fun _ done => ends_pure done
      rintro _ rfl
      simp
  | store i major minor nlink mode =>
      have loaded := (Bool.and_eq_true_iff.mp allowed).2
      exact ends_pure (h.store loaded major minor nlink mode)

theorem Accounted.step (h : Accounted s) (stepped : s.step devsw e = some t) : Accounted t := by
  unfold Fs.step at stepped
  split at stepped
  · rename_i allowed
    cases done : s.act devsw e with
    | error panic =>
        rw [done] at stepped
        cases stepped
    | ok u =>
        rw [done] at stepped
        obtain rfl := Option.some.inj stepped
        exact (act_ends devsw h allowed).ok done
  · cases stepped

/-- Wherever the operations lead from an image, every used block is in one place, no
operation finds a block free that it frees, and itrunc() frees the blocks of its inode. -/
theorem blocks_accounted {image : Fs sb} (h : Image image)
    (reached : Reachable (Fs.step devsw) image s) :
    WellFormed s ∧ (∀ i, (s.inode i).valid = true → s.ip i = s.dinode i) ∧
      (∀ e, s.allowed e = true → s.act devsw e ≠ .error .freeingFreeBlock ∧
        s.act devsw e ≠ .error .outOfRange) ∧
      ∀ i, (s.inode i).valid = true → ∃ t, s.itrunc i = .ok t ∧ ∀ b, t.bitmap b = true ↔
        s.bitmap b = true ∧ ∀ slot, slot.inum = i → s.stored slot ≠ some b := by
  have accounted : Accounted s := reachable_invariant (Fs.step devsw) h.accounted
    (fun _ _ _ before stepped => before.step stepped) reached
  refine ⟨wellFormed_iff.mpr accounted.sound, accounted.coherent, ?_, ?_⟩
  · intro e allowed
    have ends := act_ends devsw accounted allowed
    constructor
    · intro failed
      exact (ends.error failed).1 rfl
    · intro failed
      exact (ends.error failed).2 rfl
  · intro i loaded
    have ends := accounted.itrunc loaded
    cases done : s.itrunc i with
    | error panic => exact (ends.error done).elim
    | ok t => exact ⟨t, rfl, ends.ok done⟩

end Run

/-! ## An image with an empty file -/

def oneFileImage : Fs fsImg := oneFile.cold

theorem oneFileImage_image : Image oneFileImage := by
  have same : oneFileImage.cold.held = oneFile.held := by
    apply held_congr
    · intro i
      by_cases here : i = two
      · simp [oneFileImage, Fs.cold, Fs.view, Fs.ip, oneFile, here]
      · simp [oneFileImage, Fs.cold, Fs.view, oneFile, here]
    · intro i
      by_cases here : i = two
      · simp [oneFileImage, Fs.cold, Fs.view, Fs.ip, oneFile, here]
      · simp [oneFileImage, Fs.cold, Fs.view, oneFile, here]
    · rfl
  constructor
  case wellFormed => exact wellFormed_iff.mpr (oneFile_sound.congr same rfl)
  case types =>
    intro i
    by_cases here : i = two
    · simp [oneFileImage, Fs.cold, oneFile, here, emptyFile]
    · simp [oneFileImage, Fs.cold, oneFile, here, freeInode]
  case whole =>
    intro i p _ small
    have empty : ((oneFileImage).dinode i).size = 0 := by
      by_cases here : i = two
      · simp [oneFileImage, Fs.cold, oneFile, here, emptyFile, freeInode]
      · simp [oneFileImage, Fs.cold, oneFile, here, freeInode]
    rw [empty] at small
    exact absurd small (Nat.not_lt_zero p)
  case invalid => exact fun _ => rfl

def writeAndDrop : List (Event fsImg) :=
  [.iget two, .ilock two, .writei two (fun _ => 7) 0 3, .store two 0 0 0 7, .iput two]

theorem writeAndDrop_completes :
    (run (Fs.step noDevice) oneFileImage writeAndDrop).isSome = true := by
  decide +kernel

def dropped : Fs fsImg := (run (Fs.step noDevice) oneFileImage writeAndDrop).get
  writeAndDrop_completes

theorem blocks_accounted_dropped :
    WellFormed dropped ∧ (∀ i, (dropped.inode i).valid = true → dropped.ip i = dropped.dinode i) ∧
      (∀ e, dropped.allowed e = true → dropped.act noDevice e ≠ .error .freeingFreeBlock ∧
        dropped.act noDevice e ≠ .error .outOfRange) ∧
      ∀ i, (dropped.inode i).valid = true → ∃ t, dropped.itrunc i = .ok t ∧
        ∀ b, t.bitmap b = true ↔ dropped.bitmap b = true ∧
          ∀ slot, slot.inum = i → dropped.stored slot ≠ some b :=
  blocks_accounted oneFileImage_image ⟨writeAndDrop, (Option.some_get _).symm⟩

end Xv6.Public1.Blocks
