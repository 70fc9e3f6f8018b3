import Xv6.Public3.CallSteps

/-!
# Where the pages are, in every run

From the first process on, every page of the allocator is in one place, and
every address space has exactly the pages of its size.
-/

set_option autoImplicit false

namespace Xv6.Public3

open Xv6.Lib.Words
open Xv6.Lib.Allocation
open Xv6.Lib.Runs
open Xv6.Common

variable {P : Type} {l : Layout}

/-! ## The first process -/

/-- The pages of a page directory. -/
def Pgdir.pages (d : Pgdir) : Set Page := {r | ∃ slot, d.owned slot = some r}

/-- The kernel after userinit(). -/
structure Booted (l : Layout) (init : P) (kstack : Page) (im : Image) (k : Kernel P) : Prop where
  once : k.freelist.Nodup
  free : ∀ r ∈ k.freelist, r ∈ l.pool
  first : k.proc init = { state := .LIVE, kstack := some kstack, image := some im }
  others : ∀ p, p ≠ init → k.proc p = {}
  call : ∀ p, k.call p = none
  file : ∀ f, (k.file f).ref = 0 ∧ (k.file f).type = .FD_NONE
  panicked : k.panicked = none
  stack : kstack ∈ l.pool ∧ kstack ∉ k.freelist
  owns : Owns l im.pgdir ∅ im.pgdir.pages
  apart : ∀ r ∈ im.pgdir.pages, r ∉ k.freelist ∧ r ≠ kstack
  sz : im.sz = PGSIZE
  filled : im.pgdir.Filled PGSIZE

open Classical in
/-- The owners of the pages at the start. -/
noncomputable def firstOwner (init : P) (kstack : Page) (im : Image) (k : Kernel P)
    (r : Page) : Owner P :=
  if r ∈ k.freelist then .freelist
  else if r = kstack then .kstack init
  else if r ∈ im.pgdir.pages then .image init
  else .boot

section First
variable {init : P} {kstack : Page} {im : Image} {k : Kernel P} {strict : Prop}

theorem Booted.held_freelist (boot : Booted l init kstack im k) :
    held l (firstOwner init kstack im k) .freelist = {r | r ∈ k.freelist} := by
  ext r
  simp only [held, firstOwner, Set.mem_ofPred_eq]
  by_cases free : r ∈ k.freelist
  · simp [free, boot.free r free]
  · rw [if_neg free]
    split_ifs <;> simp [free]

theorem Booted.held_kstack (boot : Booted l init kstack im k) (p : P) :
    held l (firstOwner init kstack im k) (.kstack p) = {r | p = init ∧ r = kstack} := by
  ext r
  simp only [held, firstOwner, Set.mem_ofPred_eq]
  by_cases here : r = kstack
  · subst here
    rw [if_neg boot.stack.2, if_pos rfl]
    simp [boot.stack.1, eq_comm]
  · split_ifs <;> simp [here]

theorem Booted.held_image (boot : Booted l init kstack im k) (p : P) :
    held l (firstOwner init kstack im k) (.image p) = {r | p = init ∧ r ∈ im.pgdir.pages} := by
  ext r
  simp only [held, firstOwner, Set.mem_ofPred_eq]
  by_cases mine : r ∈ im.pgdir.pages
  · obtain ⟨free, stack⟩ := boot.apart r mine
    rw [if_neg free, if_neg stack, if_pos mine]
    simp [boot.owns.inside mine, mine, eq_comm]
  · split_ifs <;> simp [mine]

theorem held_none {o : Owner P} (free : o ≠ .freelist) (kstack' : ∀ p, o ≠ .kstack p)
    (image : ∀ p, o ≠ .image p) (boot : o ≠ .boot) :
    held l (firstOwner init kstack im k) o = ∅ := by
  ext r
  simp only [held, firstOwner, Set.mem_ofPred_eq, Set.mem_empty_iff_false, iff_false, not_and]
  intro _
  split_ifs
  · exact free.symm
  · exact (kstack' init).symm
  · exact (image init).symm
  · exact boot.symm

theorem Booted.supply (boot : Booted l init kstack im k) :
    Supply l k (firstOwner init kstack im k) := by
  have shut : ∀ f r w, ¬ OpenEnd k.file f r w := by
    intro f r w opened
    have positive := opened.1
    rw [(boot.file f).1] at positive
    exact absurd positive (Int.lt_irrefl 0)
  have pipe : held l (firstOwner init kstack im k) .pipe = ∅ :=
    held_none (by simp) (by simp) (by simp) (by simp)
  constructor
  case once => exact boot.once
  case free =>
    intro r
    rw [boot.held_freelist]
    rfl
  case pipes =>
    intro r
    rw [pipe]
    exact iff_of_false (Set.notMem_empty r) fun ⟨f, w, opened⟩ => shut f r w opened
  case ends => exact fun f r w opened => absurd opened (shut f r w)
  case still =>
    intro r member
    rw [pipe] at member
    exact absurd member (Set.notMem_empty r)
  case one => exact fun f g r w opened _ => absurd opened (shut f r w)
  case unused => exact fun f _ => (boot.file f).2

theorem Booted.sound (boot : Booted l init kstack im k) : im.Sound strict := by
  constructor
  case small =>
    rw [boot.sz]
    decide
  case some_byte =>
    rw [boot.sz]
    decide
  case filled =>
    intro _
    rw [boot.sz]
    exact boot.filled

theorem Booted.memory [DecidableEq P] (boot : Booted l init kstack im k) :
    Memory l strict k (firstOwner init kstack im k) := by
  constructor
  case kstack =>
    intro p r
    rw [boot.held_kstack]
    by_cases here : p = init
    · subst here
      rw [boot.first]
      simp [eq_comm]
    · rw [boot.others p here]
      simp [here]
  case image =>
    intro p im' found
    rw [boot.held_image]
    by_cases here : p = init
    · subst here
      rw [boot.first] at found
      cases found
      simp only [true_and]
      exact ⟨boot.owns, boot.sound⟩
    · rw [boot.others p here] at found
      cases found
  case no_image =>
    intro p absent
    rw [boot.held_image]
    have here : p ≠ init := by
      rintro rfl
      rw [boot.first] at absent
      cases absent
    simp [here]
  case call =>
    intro p call impossible
    rw [boot.call p] at impossible
    cases impossible
  case no_call => exact fun p _ => held_none (by simp) (by simp) (by simp) (by simp)

theorem Booted.slots [DecidableEq P] (boot : Booted l init kstack im k) : Slots k := by
  have idle : ∀ {p call}, k.call p ≠ some call := by
    intro p call
    rw [boot.call p]
    simp
  constructor
  case busy => exact fun p call found => absurd found idle
  case unused =>
    intro p idle
    by_cases here : p = init
    · subst here
      rw [boot.first] at idle
      simp at idle
    · rw [boot.others p here]
      exact ⟨rfl, rfl⟩
  case forking => exact fun p c prog found => absurd found idle
  case one_parent => exact fun p q c prog prog' found => absurd found idle
  case waiting => exact fun p c prog found => absurd found idle
  case taken => exact fun p prog found => absurd found idle
  case image =>
    intro p live _
    by_cases here : p = init
    · subst here
      rw [boot.first]
      rfl
    · rw [boot.others p here] at live
      cases live

theorem Booted.inv [DecidableEq P] (boot : Booted l init kstack im k) :
    Inv l strict k (firstOwner init kstack im k) :=
  ⟨boot.supply, boot.memory, boot.slots, fun _ => boot.panicked⟩

end First

/-! ## Where a page can be -/

inductive Place (P : Type) where
  | freelist
  | kstack (p : P)
  /-- The page directory of a process, a page table of it, or a page mapped at one address. -/
  | pgdir (p : P) (slot : Pgdir.Slot)
  | pipe
  | boot
  /-- In the hands of a call that is under way. -/
  | call (p : P)

/-- A page is in a place; the pages that nobody had at the start are `boot`. -/
def Place.Has (k : Kernel P) (boot : Set Page) (hands : P → Set Page) (r : Page) : Place P → Prop
  | .freelist => r ∈ k.freelist
  | .kstack p => (k.proc p).kstack = some r
  | .pgdir p slot => ∃ im, (k.proc p).image = some im ∧ im.pgdir.owned slot = some r
  | .pipe => ∃ f w, OpenEnd k.file f r w
  | .boot => r ∈ boot
  | .call p => r ∈ hands p

/-- The owner that goes with a place. -/
def Place.owner : Place P → Owner P
  | .freelist => .freelist
  | .kstack p => .kstack p
  | .pgdir p _ => .image p
  | .pipe => .pipe
  | .boot => .boot
  | .call p => .call p

theorem Place.owner_eq {a b : Place P} (same : a.owner = b.owner) :
    a = b ∨ ∃ p slot slot', a = .pgdir p slot ∧ b = .pgdir p slot' := by
  cases a <;> cases b <;> simp_all [Place.owner]

section Places
variable {strict : Prop} {k : Kernel P} {owner : Page → Owner P}

theorem Inv.has_held (h : Inv l strict k owner) {place : Place P} {r : Page}
    (here : place.Has k (held l owner .boot) (fun p => held l owner (.call p)) r) :
    r ∈ held l owner place.owner := by
  cases place with
  | freelist => exact (h.supply.free r).mp here
  | kstack p => exact (h.memory.kstack p r).mp here
  | pgdir p slot =>
      obtain ⟨im, found, owned⟩ := here
      exact (h.memory.image p im found).1.mem owned
  | pipe => exact (h.supply.pipes r).mpr here
  | boot => exact here
  | call p => exact here

/-- One owner has one place for the page. -/
theorem Inv.has_unique (h : Inv l strict k owner) {a b : Place P} {r : Page}
    (first : a.Has k (held l owner .boot) (fun p => held l owner (.call p)) r)
    (second : b.Has k (held l owner .boot) (fun p => held l owner (.call p)) r) : a = b := by
  have same : a.owner = b.owner := (h.has_held first).2.symm.trans (h.has_held second).2
  obtain same | ⟨p, slot, slot', rfl, rfl⟩ := Place.owner_eq same
  · exact same
  · obtain ⟨im, found, owned⟩ := first
    obtain ⟨im', found', owned'⟩ := second
    obtain rfl : im = im' := Option.some.inj (found.symm.trans found')
    rw [(h.memory.image p im found).1.once owned owned']

theorem Inv.has_some (h : Inv l strict k owner) {r : Page} (member : r ∈ l.pool) :
    ∃ place : Place P, place.Has k (held l owner .boot) (fun p => held l owner (.call p)) r := by
  cases who : owner r with
  | freelist => exact ⟨.freelist, (h.supply.free r).mpr ⟨member, who⟩⟩
  | kstack p => exact ⟨.kstack p, (h.memory.kstack p r).mpr ⟨member, who⟩⟩
  | image p =>
      have mine : r ∈ held l owner (.image p) := ⟨member, who⟩
      cases found : (k.proc p).image with
      | none =>
          rw [h.memory.no_image p found] at mine
          exact absurd mine (Set.notMem_empty r)
      | some im =>
          obtain framed | ⟨slot, owned⟩ := ((h.memory.image p im found).1.all r).mp mine
          · exact absurd framed (Set.notMem_empty r)
          · exact ⟨.pgdir p slot, im, found, owned⟩
  | call p => exact ⟨.call p, member, who⟩
  | pipe => exact ⟨.pipe, (h.supply.pipes r).mp ⟨member, who⟩⟩
  | boot => exact ⟨.boot, member, who⟩

end Places

/-- The allocations of the start: what the allocator, the stack and the first process do not have. -/
def bootPages (l : Layout) (kstack : Page) (im : Image) (k : Kernel P) : Set Page :=
  {r | r ∈ l.pool ∧ r ∉ k.freelist ∧ r ≠ kstack ∧ r ∉ im.pgdir.pages}

theorem held_boot (init : P) (kstack : Page) (im : Image) (k : Kernel P) :
    held l (firstOwner init kstack im k) .boot = bootPages l kstack im k := by
  ext r
  simp only [held, firstOwner, bootPages, Set.mem_ofPred_eq]
  split_ifs <;> simp [*]

/-- Every page of the allocator is in one place, once, and the call that has it in its
hands will give it back or leave it to its process. -/
structure Located (l : Layout) (boot : Set Page) (hands : P → Set Page) (k : Kernel P) : Prop where
  once : k.freelist.Nodup
  one : ∀ r ∈ l.pool, ∃! place : Place P, place.Has k boot hands r
  inside : ∀ r (place : Place P), place.Has k boot hands r → r ∈ l.pool
  idle : ∀ p, k.call p = none → hands p = ∅
  busy : ∀ p call, k.call p = some call → call.Fine l False (hands p)

theorem Inv.located {k : Kernel P} {owner : Page → Owner P} (h : Inv l False k owner) :
    Located l (held l owner .boot) (fun p => held l owner (.call p)) k := by
  constructor
  case once => exact h.supply.once
  case one =>
    intro r member
    obtain ⟨place, here⟩ := h.has_some member
    exact ⟨place, here, fun other there => h.has_unique there here⟩
  case inside => exact fun r place here => (h.has_held here).1
  case idle => exact h.memory.no_call
  case busy => exact h.memory.call

/-- The pages of a process. -/
def Kernel.Has (k : Kernel P) (c : P) (r : Page) : Prop :=
  (k.proc c).kstack = some r ∨ ∃ im, (k.proc c).image = some im ∧ r ∈ im.pgdir.pages

/-- Outside growproc() and exec() every live process has the pages of its size, and no others. -/
def Kernel.Sized (k : Kernel P) : Prop :=
  ∀ p, (k.proc p).state = .LIVE → (∀ prog, k.call p ≠ some (.image prog)) →
    ∃ im, (k.proc p).image = some im ∧ im.sz < KERNBASE ∧ im.pgdir.Filled (PGROUNDUP im.sz)

theorem Inv.sized {k : Kernel P} {owner : Page → Owner P} (h : Inv l True k owner) : k.Sized := by
  intro p live outside
  obtain ⟨im, found⟩ := Option.isSome_iff_exists.mp (h.slots.image p live outside)
  have sound := (h.memory.image p im found).2
  exact ⟨im, found, sound.small, sound.filled trivial⟩

/-! ## A machine -/

abbrev NPROC : Nat := 64

theorem nproc_pos : 0 < NPROC := Nat.succ_pos 63

/-- `initproc` -/
def initproc : Fin NPROC := ⟨0, nproc_pos⟩

def machine : Layout where
  data := 0x80109000
  kend := 0x80116000
  data_aligned := rfl
  data_after := by decide
  data_before := by decide
  kend_after := by decide

/-- Pages of the allocator, from 4 MB on. -/
def frame (n : Nat) : Page := BitVec.ofNat 32 (0x400000 + n * PGSIZE)

/-- So many frames from one on. -/
def frames : Nat → Nat → List Page
  | 0, _ => []
  | left + 1, n => frame n :: frames left (n + 1)

/-- The entry of a kernel address. -/
def kernelPte (va : Nat) : Option Pte :=
  ((kmap machine).find? fun k => decide (k.virt ≤ va ∧ va < k.virt + k.size)).map fun k =>
    { page := BitVec.ofNat 32 (k.phys_start + (va - k.virt)), perm := k.perm }

/-- The page table of a directory entry: one user page, and the kernel. -/
def initPde (i : Fin NPDENTRIES) : Option PageTable :=
  if i.val = 0 then
    some { page := frame 3, pte := fun j => if j.val = 0 then some ⟨frame 2, user⟩ else none }
  else if 512 ≤ i.val ∧ (i.val < 568 ∨ 1016 ≤ i.val) then
    some { page := frame (3 + i.val), pte := fun j => kernelPte (i.val * 2 ^ 22 + j.val * 2 ^ 12) }
  else none

def initImage : Image where
  pgdir := { page := frame 1, pde := initPde }
  sz := PGSIZE

/-- After userinit(). -/
def userinit : Kernel (Fin NPROC) where
  freelist := frames 55000 1027
  proc p := if p = initproc then
      { state := .LIVE, kstack := some (frame 0), image := some initImage }
    else {}
  call _ := none
  file _ := {}
  pipe _ := { readopen := false, writeopen := false }
  panicked := none

theorem frame_toNat {n : Nat} (small : n < 56320) : (frame n).toNat = 0x400000 + n * PGSIZE := by
  simp only [frame, PGSIZE, BitVec.toNat_ofNat]
  omega

theorem frame_pool {n : Nat} (small : n < 56320) : frame n ∈ machine.pool := by
  simp only [Layout.pool, machine, Set.mem_ofPred_eq, frame_toNat small]
  simp only [PGSIZE, KERNBASE, PHYSTOP]
  omega

theorem frame_inj {m n : Nat} (first : m < 56320) (second : n < 56320) (same : frame m = frame n) :
    m = n := by
  have eq := congrArg BitVec.toNat same
  rw [frame_toNat first, frame_toNat second] at eq
  simp only [PGSIZE] at eq
  omega

theorem mem_frames {left n : Nat} {r : Page} (member : r ∈ frames left n) :
    ∃ m, n ≤ m ∧ m < n + left ∧ r = frame m := by
  induction left generalizing n with
  | zero => exact absurd member List.not_mem_nil
  | succ left ih =>
      obtain rfl | later := List.mem_cons.mp member
      · exact ⟨n, Nat.le_refl n, by omega, rfl⟩
      · obtain ⟨m, low, high, same⟩ := ih later
        exact ⟨m, by omega, by omega, same⟩

theorem frames_nodup {left n : Nat} (small : n + left ≤ 56320) : (frames left n).Nodup := by
  induction left generalizing n with
  | zero => exact List.nodup_nil
  | succ left ih =>
      refine List.nodup_cons.mpr ⟨?_, ih (by omega)⟩
      intro member
      obtain ⟨m, low, high, same⟩ := mem_frames member
      have eq := frame_inj (by omega) (by omega) same
      omega

/-- The frame of each page of the first page directory. -/
theorem initImage_owned {slot : Pgdir.Slot} {r : Page} (owned : initImage.pgdir.owned slot = some r) :
    (slot = .pgdir ∧ r = frame 1) ∨ (∃ i, slot = .pgtab i ∧ i.val < 1024 ∧ r = frame (3 + i.val)) ∨
      ∃ i j, slot = .user i j ∧ i.val = 0 ∧ j.val = 0 ∧ r = frame 2 := by
  cases slot with
  | pgdir => exact Or.inl ⟨rfl, (Option.some.inj owned).symm⟩
  | pgtab i =>
      refine Or.inr (Or.inl ⟨i, rfl, i.isLt, ?_⟩)
      simp only [Pgdir.owned, initImage, initPde] at owned
      split_ifs at owned with zero kernel
      · rw [zero]
        exact (Option.some.inj owned).symm
      · exact (Option.some.inj owned).symm
      · cases owned
  | user i j =>
      refine Or.inr (Or.inr ⟨i, j, rfl, ?_⟩)
      simp only [Pgdir.owned, initImage, initPde] at owned
      split_ifs at owned with low zero kernel
      · simp only [Option.bind_some] at owned
        split_ifs at owned with first
        · exact ⟨zero, first, (Option.some.inj owned).symm⟩
        · cases owned
      · omega
      · cases owned

theorem initImage_pages {r : Page} (member : r ∈ initImage.pgdir.pages) :
    ∃ m, 0 < m ∧ m < 1027 ∧ r = frame m := by
  obtain ⟨slot, owned⟩ := member
  obtain ⟨_, same⟩ | ⟨i, _, bound, same⟩ | ⟨_, _, _, _, _, same⟩ := initImage_owned owned
  · exact ⟨1, by decide, by decide, same⟩
  · exact ⟨3 + i.val, by omega, by omega, same⟩
  · exact ⟨2, by decide, by decide, same⟩

theorem initImage_owns : Owns machine initImage.pgdir ∅ initImage.pgdir.pages := by
  constructor
  case inside =>
    intro r member
    obtain ⟨m, _, small, rfl⟩ := initImage_pages member
    exact frame_pool (by omega)
  case once =>
    intro a b r first second
    obtain ⟨rfl, same⟩ | ⟨i, rfl, bound, same⟩ | ⟨i, j, rfl, hi, hj, same⟩ :=
      initImage_owned first
    · obtain ⟨rfl, _⟩ | ⟨i', rfl, bound', same'⟩ | ⟨i', j', rfl, _, _, same'⟩ :=
        initImage_owned second
      · rfl
      · have eq := frame_inj (by decide) (by omega) (same.symm.trans same')
        omega
      · have eq := frame_inj (by decide) (by decide) (same.symm.trans same')
        omega
    · obtain ⟨rfl, same'⟩ | ⟨i', rfl, bound', same'⟩ | ⟨i', j', rfl, _, _, same'⟩ :=
        initImage_owned second
      · have eq := frame_inj (by omega) (by decide) (same.symm.trans same')
        omega
      · have eq := frame_inj (by omega) (by omega) (same.symm.trans same')
        exact congrArg Pgdir.Slot.pgtab (Fin.ext (by omega))
      · have eq := frame_inj (by omega) (by decide) (same.symm.trans same')
        omega
    · obtain ⟨rfl, same'⟩ | ⟨i', rfl, bound', same'⟩ | ⟨i', j', rfl, hi', hj', _⟩ :=
        initImage_owned second
      · have eq := frame_inj (by decide) (by decide) (same.symm.trans same')
        omega
      · have eq := frame_inj (by decide) (by omega) (same.symm.trans same')
        omega
      · rw [show i = i' from Fin.ext (by omega), show j = j' from Fin.ext (by omega)]
  case apart => exact fun _ impossible => Set.notMem_empty _ impossible
  case all => exact fun r => ⟨Or.inr, fun placed => placed.resolve_left (Set.notMem_empty r)⟩

theorem initImage_filled : initImage.pgdir.Filled PGSIZE := by
  have entry : ∀ va, va < KERNBASE → ((PDX va).val = 0 ∧ (PTX va).val = 0 ↔ va < PGSIZE) := by
    intro va low
    simp only [PDX, PTX, NPDENTRIES, NPTENTRIES, KERNBASE, PGSIZE] at *
    omega
  have pte : ∀ va, va < KERNBASE → initImage.pgdir.pte va =
      if va < PGSIZE then some ⟨frame 2, user⟩ else none := by
    intro va low
    have index := entry va low
    have half := pdx_user low
    simp only [Pgdir.pte, initImage, initPde]
    by_cases zero : (PDX va).val = 0
    · rw [if_pos zero, Option.bind_some]
      exact if_congr ((and_iff_right zero).symm.trans index) rfl rfl
    · have away : ¬ va < PGSIZE := fun small => zero (index.mpr small).1
      rw [if_neg zero, if_neg (by omega), if_neg away]
      rfl
  constructor
  case below =>
    intro va small
    rw [pte va (by simp only [PGSIZE, KERNBASE] at *; omega), if_pos small]
    rfl
  case above =>
    intro va large low
    rw [pte va low, if_neg (Nat.not_lt.mpr large)]

theorem userinit_booted : Booted machine initproc (frame 0) initImage userinit := by
  have top : 1027 + 55000 ≤ 56320 := by decide
  have free : ∀ {m}, m < 1027 → frame m ∉ userinit.freelist := by
    intro m small member
    obtain ⟨n, low, high, same⟩ := mem_frames member
    have eq := frame_inj (by omega) (by omega) same
    omega
  constructor
  case once => exact frames_nodup top
  case free =>
    intro r member
    obtain ⟨n, low, high, rfl⟩ := mem_frames member
    exact frame_pool (by omega)
  case first => simp [userinit]
  case others => exact fun p other => if_neg other
  case call => exact fun _ => rfl
  case file => exact fun _ => ⟨rfl, rfl⟩
  case panicked => rfl
  case stack => exact ⟨frame_pool (by decide), free (by decide)⟩
  case owns => exact initImage_owns
  case apart =>
    intro r member
    obtain ⟨m, positive, small, rfl⟩ := initImage_pages member
    refine ⟨free small, fun same => ?_⟩
    have eq := frame_inj (by omega) (by decide) same
    omega
  case sz => rfl
  case filled => exact initImage_filled

/-! ## Runs -/

section Run
variable [DecidableEq P] {init : P} {k k' : Kernel P} {owner : Page → Owner P}

theorem inv_run (strict : Prop) {k : Kernel P} {owner : Page → Owner P}
    (h : Inv l strict k owner) {es : List (Event P)}
    (guarded : strict → Guarded (step l init) (fun k e => e.Spares k) k es)
    (ran : run (step l init) k es = some k') :
    ∃ owner', Inv l strict k' owner' ∧ held l owner' .boot = held l owner .boot := by
  induction es generalizing k owner with
  | nil =>
      cases Option.some.inj ran
      exact ⟨owner, h, rfl⟩
  | cons e rest ih =>
      obtain ⟨next, taken, ran⟩ := (run_cons_some _).mp ran
      have here : strict → e.Spares k := fun known => (guarded known).1
      obtain ⟨owner', inv, stays⟩ := h.step here taken
      have later : strict → Guarded (step l init) (fun k e => e.Spares k) next rest := by
        intro known
        have both := (guarded known).2
        rw [taken] at both
        exact both
      obtain ⟨last, inv, boot⟩ := ih inv later ran
      exact ⟨last, inv, boot.trans stays.boot⟩

/-- What wait() has in its hands has been on the free list when it has returned. -/
theorem waited (h : Inv l False k owner) {p c : P} {prog : Vm Unit} {es : List (Event P)}
    (found : k.call p = some (.wait c prog)) (ran : run (step l init) k es = some k')
    (returned : k'.call p = none) {r : Page} (mine : r ∈ held l owner (.call p)) :
    ∃ before mid, before <+: es ∧ run (step l init) k before = some mid ∧ r ∈ mid.freelist := by
  induction es generalizing k owner prog with
  | nil =>
      cases Option.some.inj ran
      rw [found] at returned
      cases returned
  | cons e rest ih =>
      obtain ⟨next, taken, ran⟩ := (run_cons_some _).mp ran
      obtain ⟨owner', inv, stays⟩ := h.step (fun impossible => impossible.elim) taken
      obtain freed | ⟨mine, prog', found⟩ := stays.wait p c prog found r mine
      · refine ⟨[e], next, ⟨rest, rfl⟩, ?_, freed⟩
        rw [run_cons, taken]
        rfl
      · obtain ⟨before, mid, first, reached, freed⟩ := ih inv found ran mine
        refine ⟨e :: before, mid, (List.prefix_cons_inj e).mpr first, ?_, freed⟩
        rw [run_cons, taken]
        exact reached

end Run

/-! ## Address spaces -/

/-- One byte more, and one byte less. -/
def regrow : List (Event (Fin NPROC)) :=
  [.sbrk initproc 1, .advance initproc, .advance initproc,
    .sbrk initproc (BitVec.ofInt 32 (-1)), .advance initproc, .advance initproc]

theorem regrow_completes : (run (step machine initproc) userinit regrow).isSome = true := by
  decide

def regrown : Kernel (Fin NPROC) :=
  (run (step machine initproc) userinit regrow).get regrow_completes

theorem regrow_spares :
    Guarded (step machine initproc) (fun k e => e.Spares k) userinit regrow := by
  decide

section Results
variable [DecidableEq P] {init : P} {kstack : Page} {im : Image} {k k' : Kernel P} {es : List (Event P)}

end Results

def shrink : List (Event (Fin NPROC)) :=
  [.sbrk initproc (BitVec.ofInt 32 (-4096)), .advance initproc, .advance initproc]

theorem shrink_completes : (run (step machine initproc) userinit shrink).isSome = true := by
  decide

def shrunk : Kernel (Fin NPROC) :=
  (run (step machine initproc) userinit shrink).get shrink_completes

theorem shrunk_outside : (shrunk.proc initproc).state = .LIVE ∧
    (shrunk.call initproc).isNone = true := by
  decide

theorem shrunk_image : (shrunk.proc initproc).image.map
    (fun im => (im.sz, (im.pgdir.pte 0).isSome)) = some (4096, false) := by
  decide

section Results
variable [DecidableEq P] {init : P} {kstack : Page} {im : Image} {k k' : Kernel P} {es : List (Event P)}

/-- wait() begins with every page of the zombie in its hands. -/
theorem wait_begins {owner : Page → Owner P} (h : Inv l False k owner) {p c : P}
    (taken : step l init k (.wait p c) = some k') :
    ∃ owner' prog, Inv l False k' owner' ∧ k'.call p = some (.wait c prog) ∧
      ∀ r, k.Has c r → r ∈ held l owner' (.call p) := by
  have calm : k.panicked = none := by
    unfold step at taken
    split at taken
    · cases taken
    · assumption
  simp only [step, calm] at taken
  obtain ⟨ready, taken⟩ := Option.ite_none_right_eq_some.mp taken
  have inv := h.startWait ready taken
  unfold Kernel.startWait at taken
  split at taken
  · rename_i kstack im stack image
    split at taken
    · cases taken
      refine ⟨_, _, inv, Function.update_self p _ k.call, ?_⟩
      intro r mine
      rw [held_hand _ (by simp), if_neg (by simp), if_pos rfl, held_hand owner (by simp),
        held_hand owner (by simp), if_neg (by simp), if_pos rfl, if_neg (by simp),
        if_neg (by simp)]
      obtain here | ⟨im', found, slot, owned⟩ := mine
      · exact Or.inr ((h.memory.kstack c r).mp here)
      · exact Or.inl (Or.inr ((h.memory.image c im' found).1.mem owned))
    · cases taken
  · cases taken

end Results

def take : List (Event (Fin NPROC)) := [.sbrk initproc 1, .advance initproc]

theorem take_completes : (run (step machine initproc) userinit take).isSome = true := by
  decide

def taking : Kernel (Fin NPROC) := (run (step machine initproc) userinit take).get take_completes

theorem taking_freelist : taking.freelist = userinit.freelist.tail := rfl

theorem taking_file : taking.file = userinit.file := rfl

theorem taking_proc (p : Fin NPROC) : (taking.proc p).image = none ∧
    ((taking.proc p).kstack = none ∨ (taking.proc p).kstack = some (frame 0)) := by
  have proc : taking.proc =
      (userinit.setProc initproc { userinit.proc initproc with image := none }).proc := rfl
  rw [proc, setProc_proc]
  split
  · exact ⟨rfl, Or.inr rfl⟩
  · rename_i other
    simp [userinit, other]

theorem userinit_freelist : userinit.freelist = frame 1027 :: userinit.freelist.tail := rfl

end Xv6.Public3
