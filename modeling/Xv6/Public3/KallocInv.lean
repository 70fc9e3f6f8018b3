import Xv6.Lib.Links
import Xv6.Public3.Kalloc

/-!
# Where each page is (kalloc.c)

Between any two accesses of the threads every page that freerange() has got is in the
list, with a caller of kalloc(), or in the hands of one thread that is taking or freeing it.
-/

set_option autoImplicit false

namespace Xv6.Public3.Kalloc

open Xv6.Lib.Words
open Xv6.Lib.Links (Chain)
open Xv6.Lib.Allocation (Holds)

variable {l : Placed} {m m' : Machine} {mem mem' : Memory} {t s : Thread} {u v r : Word}
variable {p q : Point} {free : List Word}

@[simp] theorem goto_point : (m.goto t p).point t = p := Function.update_self ..

theorem goto_point_other (other : s ≠ t) : (m.goto t p).point s = m.point s :=
  Function.update_of_ne other ..

/-! ## Pages in memory -/

def pointer (w : Word) : Option Word := if w = 0 then none else some w

/-- `r->next` -/
def following (mem : Memory) (r : Word) : Option Word := pointer (loadWord mem r)

/-- What memset() has left of a page behind the pointer. -/
def Junk (mem : Memory) (v : Word) : Prop :=
  ∀ i, 4 ≤ i → i < PGSIZE → mem (v + BitVec.ofNat 32 i) = 1

/-- The memories agree on the page at an address. -/
def Same (mem mem' : Memory) (v : Word) : Prop :=
  ∀ a : Word, a.toNat / PGSIZE = v.toNat / PGSIZE → mem' a = mem a

theorem address_toNat (aligned : v.toNat % PGSIZE = 0) {i : Nat} (inside : i < PGSIZE) :
    (v + BitVec.ofNat 32 i).toNat = v.toNat + i := by
  have bound := v.isLt
  rw [BitVec.toNat_add, BitVec.toNat_ofNat]
  unfold PGSIZE at aligned inside
  omega

theorem address_page (aligned : v.toNat % PGSIZE = 0) {i : Nat} (inside : i < PGSIZE) :
    (v + BitVec.ofNat 32 i).toNat / PGSIZE = v.toNat / PGSIZE := by
  rw [address_toNat aligned inside]
  unfold PGSIZE at aligned inside ⊢
  omega

theorem page_eq (first : u.toNat % PGSIZE = 0) (second : v.toNat % PGSIZE = 0)
    (same : u.toNat / PGSIZE = v.toNat / PGSIZE) : u = v := by
  apply BitVec.eq_of_toNat_eq
  unfold PGSIZE at first second same
  omega

theorem Same.byte (same : Same mem mem' v) (aligned : v.toNat % PGSIZE = 0) {i : Nat}
    (inside : i < PGSIZE) : mem' (v + BitVec.ofNat 32 i) = mem (v + BitVec.ofNat 32 i) :=
  same _ (address_page aligned inside)

theorem Same.loadWord (same : Same mem mem' v) (aligned : v.toNat % PGSIZE = 0) :
    loadWord mem' v = loadWord mem v := by
  have first : mem' v = mem v := same v rfl
  have second : mem' (v + 1) = mem (v + 1) := same.byte aligned (i := 1) (by decide)
  have third : mem' (v + 2) = mem (v + 2) := same.byte aligned (i := 2) (by decide)
  have last : mem' (v + 3) = mem (v + 3) := same.byte aligned (i := 3) (by decide)
  rw [Lib.Words.loadWord, Lib.Words.loadWord, first, second, third, last]

theorem Same.junk (same : Same mem mem' v) (aligned : v.toNat % PGSIZE = 0)
    (junk : Junk mem v) : Junk mem' v := by
  intro i behind inside
  rw [same.byte aligned inside]
  exact junk i behind inside

/-- A word of a page is stored. -/
theorem same_storeWord {w : Word} {i : Nat} (aligned : v.toNat % PGSIZE = 0)
    (inside : i + 4 ≤ PGSIZE) (other : u.toNat / PGSIZE ≠ v.toNat / PGSIZE) :
    Same mem (storeWord mem (v + BitVec.ofNat 32 i) w) u := by
  intro a there
  apply storeWord_outside
  have base := address_toNat aligned (Nat.lt_of_lt_of_le (Nat.lt_add_of_pos_right (by decide)) inside)
  have bound := v.isLt
  rw [← there] at other
  generalize v + BitVec.ofNat 32 i = x at base
  unfold PGSIZE at aligned inside other
  bv_omega

/-! ## The invariant -/

/-- The pages that the machine has for the allocator. -/
def pool (l : Placed) : Set Word :=
  {v | v.toNat % PGSIZE = 0 ∧ l.kend ≤ v.toNat ∧ v.toNat < KERNBASE + PHYSTOP}

/-- Where freerange() has come; the page at `p` is its own while it is in kfree(). -/
def Stage.limit (stage : Stage) (point : Point) : Nat :=
  match stage with
  | .kinit1 p | .kinit2 p => if point = .freerange then p.toNat else p.toNat + PGSIZE
  | .early => KERNBASE + 4 * 1024 * 1024
  | .running => KERNBASE + PHYSTOP

def Machine.limit (m : Machine) : Nat := m.stage.limit (m.point main)

/-- The page has been given to the allocator. -/
def Managed (l : Placed) (m : Machine) (v : Word) : Prop :=
  v.toNat % PGSIZE = 0 ∧ l.kend ≤ v.toNat ∧ v.toNat < m.limit

/-- The page in the hands of a thread. -/
def Point.page : Point → Option Word
  | .taken r => pointer r
  | .memset v _ | .kfree v | .link v | .push v => some v
  | _ => none

/-- The thread has the lock, if locks are used. -/
def Point.locked : Point → Bool
  | .first | .unlink _ | .taken _ | .link _ | .push _ | .freed => true
  | _ => false

/-- In kfree(). -/
def Point.freeing : Point → Bool
  | .memset _ _ | .kfree _ | .link _ | .push _ | .freed => true
  | _ => false

def Machine.pages (m : Machine) (t : Thread) : Option Word := (m.point t).page

/-- What the local variables of a thread say of the memory and of the list. -/
def Knows (mem : Memory) (freelist : Word) : Point → Prop
  | .unlink r => r = freelist
  | .taken r => r ≠ 0 → Junk mem r
  | .memset v n => n ≤ PGSIZE / 4 ∧ ∀ i, i < 4 * n → mem (v + BitVec.ofNat 32 i) = 1
  | .kfree v | .link v => Junk mem v
  | .push v => Junk mem v ∧ loadWord mem v = freelist
  | _ => True

/-- The list and who has its pages. -/
structure Data (l : Placed) (m : Machine) (free : List Word) : Prop where
  fine : m.panicked = none
  chain : Chain (following m.mem) (pointer m.kmem.freelist) free
  once : (free ++ m.held).Nodup
  places : Holds (pool l) m.pages {v | v ∈ free ++ m.held} {v | Managed l m v}
  junk : ∀ v ∈ free, Junk m.mem v
  knows : ∀ t, Knows m.mem m.kmem.freelist (m.point t)

structure Locks (m : Machine) : Prop where
  running : m.kmem.use_lock = true ↔ m.stage = .running
  alone : m.stage ≠ .running → ∀ t, t ≠ main → m.point t = .away
  unlocked : m.kmem.use_lock = false → m.kmem.lock = none
  locked : m.kmem.use_lock = true → ∀ t, m.kmem.lock = some t ↔ (m.point t).locked = true

/-- The loop of freerange() from `first` to `last`, with main() at `point`. -/
structure Ranging (point : Point) (first last : Nat) (p : Word) : Prop where
  aligned : p.toNat % PGSIZE = 0
  start : first ≤ p.toNat
  inside : p.toNat ≤ last
  at_point : point = .freerange ∨ point.freeing = true ∧ p.toNat + PGSIZE ≤ last

/-- Where main() may be. -/
def Stage.Allows (l : Placed) (stage : Stage) (point : Point) : Prop :=
  match stage with
  | .kinit1 p => Ranging point l.kend (KERNBASE + 4 * 1024 * 1024) p
  | .kinit2 p => Ranging point (KERNBASE + 4 * 1024 * 1024) (KERNBASE + PHYSTOP) p
  | _ => point ≠ .freerange

def Staged (l : Placed) (m : Machine) : Prop := m.stage.Allows l (m.point main)

structure Inv (l : Placed) (m : Machine) (free : List Word) : Prop where
  data : Data l m free
  locks : Locks m
  staged : Staged l m

/-! ## Locks -/

theorem Locks.here (locks : Locks m) (there : m.point t ≠ .away) :
    t = main ∨ m.stage = .running := by
  by_cases running : m.stage = .running
  · exact Or.inr running
  · by_cases first : t = main
    · exact Or.inl first
    · exact absurd (locks.alone running t first) there

/-- Two threads are never both behind acquire(). -/
theorem Locks.exclusive (locks : Locks m) (first : (m.point t).locked = true)
    (second : (m.point s).locked = true) : s = t := by
  cases used : m.kmem.use_lock with
  | true =>
      have mine := (locks.locked used t).mpr first
      have other := (locks.locked used s).mpr second
      exact Option.some.inj (other.symm.trans mine)
  | false =>
      have early : m.stage ≠ .running := by
        intro running
        rw [locks.running.mpr running] at used
        cases used
      have only : ∀ x, (m.point x).locked = true → x = main := by
        intro x inside
        by_contra other
        rw [locks.alone early x other] at inside
        exact Bool.false_ne_true inside
      rw [only t first, only s second]

theorem Locks.goto (locks : Locks m) (here : t = main ∨ m.stage = .running)
    (same : p.locked = (m.point t).locked) : Locks (m.goto t p) := by
  constructor
  case running => exact locks.running
  case alone =>
    intro early x other
    rcases here with rfl | running
    · exact (goto_point_other other).trans (locks.alone early x other)
    · exact absurd running early
  case unlocked => exact locks.unlocked
  case locked =>
    intro used x
    by_cases mine : x = t
    · subst mine
      rw [goto_point, same]
      exact locks.locked used x
    · rw [goto_point_other mine]
      exact locks.locked used x

/-- Locks are not used yet. -/
theorem Locks.unused (locks : Locks m) (here : t = main ∨ m.stage = .running)
    (unused : m.kmem.use_lock = false) : Locks (m.goto t p) := by
  constructor
  case running => exact locks.running
  case alone =>
    intro early x other
    rcases here with rfl | running
    · exact (goto_point_other other).trans (locks.alone early x other)
    · exact absurd running early
  case unlocked => exact locks.unlocked
  case locked =>
    intro used
    exact absurd (used.symm.trans unused) Bool.false_ne_true.symm

theorem acquire_spec (locks : Locks m) (here : t = main ∨ m.stage = .running)
    (before : (m.point t).locked = false) (after : p.locked = true)
    (taken : acquire m t p = some m') :
    ∃ lock, m' = (m.setLock lock).goto t p ∧ Locks m' := by
  unfold acquire at taken
  split at taken
  case isTrue unused =>
    cases taken
    exact ⟨m.kmem.lock, rfl, locks.unused here unused⟩
  case isFalse used =>
    have used : m.kmem.use_lock = true := Bool.eq_true_of_not_eq_false used
    split at taken
    case isTrue mine =>
      rw [(locks.locked used t).mp mine] at before
      cases before
    case isFalse other =>
      split at taken
      case isFalse busy => cases taken
      case isTrue idle =>
        cases taken
        refine ⟨some t, rfl, ?_⟩
        constructor
        case running => exact locks.running
        case alone =>
          intro early
          exact absurd (locks.running.mp used) early
        case unlocked =>
          intro unused
          exact absurd (used.symm.trans unused) Bool.false_ne_true.symm
        case locked =>
          intro _ x
          show some t = some x ↔ _
          by_cases mine : x = t
          · subst mine
            rw [goto_point]
            exact iff_of_true rfl after
          · rw [goto_point_other mine]
            refine iff_of_false (fun same => mine (Option.some.inj same).symm) fun inside => ?_
            rw [(locks.locked used x).mpr inside] at idle
            cases idle

theorem release_spec (locks : Locks m) (here : t = main ∨ m.stage = .running)
    (before : (m.point t).locked = true) (after : p.locked = false) :
    ∃ lock, release m t p = (m.setLock lock).goto t p ∧ Locks ((m.setLock lock).goto t p) := by
  unfold release
  split
  case isTrue unused => exact ⟨m.kmem.lock, rfl, locks.unused here unused⟩
  case isFalse used =>
    have used : m.kmem.use_lock = true := Bool.eq_true_of_not_eq_false used
    rw [if_pos ((locks.locked used t).mpr before)]
    refine ⟨none, rfl, ?_⟩
    constructor
    case running => exact locks.running
    case alone =>
      intro early
      exact absurd (locks.running.mp used) early
    case unlocked => exact fun _ => rfl
    case locked =>
      intro _ x
      show none = some x ↔ _
      by_cases mine : x = t
      · subst mine
        rw [goto_point, after]
        exact iff_of_false (Option.some_ne_none x).symm Bool.false_ne_true
      · rw [goto_point_other mine]
        refine iff_of_false (Option.some_ne_none x).symm fun inside => ?_
        exact mine (locks.exclusive before inside)

end Xv6.Public3.Kalloc
