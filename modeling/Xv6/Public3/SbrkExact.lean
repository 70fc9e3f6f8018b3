import Xv6.Public3.ForkCopy

/-!
# sbrk() is exact, or does nothing (sysproc.c, proc.c, vm.c)

When the call has the effect that its return value says, and when it has not: the size
that growproc() gets back is also its sign of failure.
-/

set_option autoImplicit false

namespace Xv6.Public3.Contents

open Xv6.Lib.Words
open Xv6.Lib.Allocation

variable {l : Layout} {strict : Prop} {d d₀ : Pgdir} {frame held : Set Page}
  {m m₀ : Page → Frame}

/-! ## Growing -/

/-- From the old pages below `lo` on, pages of zeros up to `a`. -/
structure Grown (d₀ : Pgdir) (m₀ : Page → Frame) (lo : Nat) (d : Pgdir) (m : Page → Frame)
    (a : Nat) : Prop where
  old : ∀ va, va < lo → d.pte va = d₀.pte va ∧ byte d m va = byte d₀ m₀ va
  zero : ∀ va, lo ≤ va → va < a → byte d m va = some 0
  above : ∀ va, a ≤ va → va < KERNBASE → d.pte va = none

theorem byte_same {d' : Pgdir} {m' : Page → Frame} {va : Nat} (entry : d'.pte va = d.pte va)
    (bytes : ∀ e, d.pte va = some e → m' e.page = m e.page) : byte d' m' va = byte d m va := by
  unfold byte
  rw [entry]
  cases found : d.pte va with
  | none => rfl
  | some e => rw [Option.map_some, Option.map_some, bytes e found]

/-- The page of an address is one of the process. -/
theorem mapped_mem (h : Owns l d frame held) {va : Nat} {e : Pte} (low : va < KERNBASE)
    (entry : d.pte va = some e) : e.page ∈ held := by
  apply h.mem (i := .user (PDX va) (PTX va))
  rw [Pgdir.owned_user low, entry]
  rfl

theorem Grown.map {lo a : Nat} {mem : Page} {d' : Pgdir} (grown : Grown d₀ m₀ lo d m a)
    (h : Owns l d frame held) (fresh : mem ∉ held) (aligned : a % PGSIZE = 0) (first : lo ≤ a)
    (low : a < KERNBASE)
    (mapped : ∀ va, va < 2 ^ 32 →
      d'.pte va = if va / PGSIZE = a / PGSIZE then some ⟨mem, user⟩ else d.pte va) :
    Grown d₀ m₀ lo d' (memset mem 0 m) (a + PGSIZE) := by
  have wide : KERNBASE + PGSIZE < 2 ^ 32 := by decide
  have page : PGSIZE = 4096 := rfl
  have before : ∀ va, va < a → d'.pte va = d.pte va := by
    intro va inside
    have away : ¬ va / PGSIZE = a / PGSIZE := by
      rw [page_iff aligned]
      omega
    rw [mapped va (by omega), if_neg away]
  have bytes : ∀ va, va < a → byte d' (memset mem 0 m) va = byte d m va := by
    intro va inside
    apply byte_same (before va inside)
    intro e entry
    have mine := mapped_mem h (by omega) entry
    rw [memset, Function.update_of_ne]
    rintro rfl
    exact fresh mine
  constructor
  case old =>
    intro va inside
    rw [before va (by omega), bytes va (by omega)]
    exact grown.old va inside
  case zero =>
    intro va after inside
    by_cases here : va < a
    · rw [bytes va here]
      exact grown.zero va after here
    · have same : va / PGSIZE = a / PGSIZE := (page_iff aligned).mpr ⟨by omega, inside⟩
      unfold byte
      rw [mapped va (by omega), if_pos same]
      simp [memset]
  case above =>
    intro va high small
    have away : ¬ va / PGSIZE = a / PGSIZE := by
      rw [page_iff aligned]
      omega
    rw [mapped va (by omega), if_neg away]
    exact grown.above va (by omega) small

/-- What allocuvm() leaves when it gives up. -/
theorem deallocuvm_shrinks {oldsz newsz a : Nat} (h : Owns l d frame held)
    (larger : oldsz ≤ newsz) (first : PGROUNDUP oldsz ≤ a) (more : a < newsz)
    (small : newsz < KERNBASE) (grown : Grown d₀ m₀ (PGROUNDUP oldsz) d m a) :
    Does l strict (lift (deallocuvm l d newsz oldsz) m) held fun s r =>
      Owns l r.1.1 frame s ∧
        Grown d₀ m₀ (PGROUNDUP oldsz) r.1.1 r.2 (PGROUNDUP oldsz) := by
  have wide : KERNBASE < 2 ^ 32 := by decide
  have top := pgroundup_top (Nat.le_of_lt small)
  have order : oldsz < newsz := by
    have rounded := @le_pgroundup oldsz (by omega)
    omega
  have shrinks := @deallocuvm_wp l strict _ _ _ _ oldsz h (Nat.le_of_lt small)
  refine wp_mono (wp_givesBack shrinks (deallocuvm_gives _ _ _)) ?_
  rintro s ⟨r, m'⟩ ⟨⟨impossible, _⟩ | ⟨_, _, owns, cleared⟩, -, kept⟩
  · omega
  have above := le_pgroundup (Nat.le_of_lt small)
  refine ⟨owns, ?_, fun va after inside => by omega, ?_⟩
  · intro va inside
    have same : r.1.pte va = d.pte va := by
      rw [cleared.pte va (by omega), if_neg (by omega)]
    obtain ⟨entry, bytes⟩ := grown.old va inside
    refine ⟨same.trans entry, ?_⟩
    rw [← bytes]
    apply byte_same same
    intro e found
    exact kept e.page (mapped_mem owns (by omega) (same.trans found))
  · intro va high low
    rw [cleared.pte va (by omega)]
    split
    · rfl
    · exact grown.above va (by omega) low

/-- The pages and page tables that the loop of allocuvm() takes. -/
def needed (d : Pgdir) : Nat → Nat → Nat
  | 0, _ => 0
  | left + 1, a =>
      1 + (if (d.pde (PDX a)).isNone = true ∧ a % BLOCK = 0 then 1 else 0) +
        needed d left (a + PGSIZE)

/-- Only an address where a page table begins can lack one. -/
def Tabled (d : Pgdir) (a : Nat) : Prop := a % BLOCK ≠ 0 → (d.pde (PDX a)).isSome = true

theorem mapPage_counts {held : Set Page} (inside : held ⊆ l.pool) (finite : l.pool.Finite)
    (perm : Perm) (a : Nat) (pa : Page) (absent : d.pte a = none) :
    Does l strict (mapPage perm d a pa) held fun s r => r.isSome = true →
      s.ncard = held.ncard + if (d.pde (PDX a)).isNone = true then 1 else 0 := by
  unfold mapPage walkpgdir
  cases table : d.pde (PDX a) with
  | some pgtab =>
      apply wp_bind
      apply wp_pure
      dsimp only
      rw [absent]
      exact wp_pure fun _ => rfl
  | none =>
      apply wp_bind
      rw [if_neg (by simp)]
      apply wp_bind
      apply wp_alloc
      case empty => exact wp_pure (wp_pure fun impossible => by cases impossible)
      case taken =>
        intro pgtab member fresh
        apply wp_pure
        dsimp only [Option.map_some]
        rw [Pgdir.setPde_pte table, absent]
        refine wp_pure fun _ => ?_
        exact Set.ncard_insert_of_notMem fresh (finite.subset inside)

theorem needed_later {d' : Pgdir} {a : Nat} (walked : Walked d a d') (e : Option Pte)
    (left b : Nat) (after : a < b) (last : b + left * PGSIZE ≤ KERNBASE) :
    needed (d'.setPte a e) left b = needed d left b := by
  induction left generalizing b with
  | zero => rfl
  | succ left ih =>
      have grown : (left + 1) * PGSIZE = left * PGSIZE + PGSIZE := Nat.succ_mul _ _
      have page : PGSIZE = 4096 := rfl
      rw [needed, needed, ih (b + PGSIZE) (by omega) (by omega)]
      by_cases start : b % BLOCK = 0
      · have elsewhere : PDX b ≠ PDX a := by
          simp only [PDX, NPDENTRIES, BLOCK, KERNBASE, ne_eq, Fin.mk.injEq] at *
          omega
        rw [Pgdir.setPte_pde_ne elsewhere, walked.rest _ elsewhere]
      · simp only [start, and_false]

theorem Tabled.next {d' : Pgdir} {a : Nat} (walked : Walked d a d') (e : Option Pte)
    (aligned : a % PGSIZE = 0) (low : a < KERNBASE) : Tabled (d'.setPte a e) (a + PGSIZE) := by
  intro inside
  have same : PDX (a + PGSIZE) = PDX a := by
    simp only [PDX, NPDENTRIES, BLOCK, KERNBASE, PGSIZE, Fin.mk.injEq] at *
    omega
  obtain ⟨pgtab, found⟩ := Option.isSome_iff_exists.mp walked.pde
  rw [same, Pgdir.setPte_of_some found]
  simp

theorem Tabled.needs {a : Nat} (tabled : Tabled d a) :
    ((d.pde (PDX a)).isNone = true ∧ a % BLOCK = 0) ↔ (d.pde (PDX a)).isNone = true := by
  constructor
  · exact fun both => both.1
  · intro none_there
    refine ⟨none_there, ?_⟩
    by_contra inside
    have some_there := tabled inside
    rw [Option.isNone_iff_eq_none] at none_there
    rw [none_there] at some_there
    cases some_there

theorem mappages_counts {mem : Page} (inside : held ⊆ l.pool) (finite : l.pool.Finite) {a : Nat}
    (aligned : a % PGSIZE = 0) (low : a < KERNBASE) (absent : d.pte a = none)
    (tabled : Tabled d a) (perm : Perm) :
    Does l strict (mappages d a PGSIZE mem perm) held fun s r => r.2 = true →
      (∃ mid, Walked d a mid ∧ r.1 = mid.setPte a (some ⟨mem, perm⟩)) ∧
        s.ncard = held.ncard +
          if (d.pde (PDX a)).isNone = true ∧ a % BLOCK = 0 then 1 else 0 := by
  have small : a < 2 ^ 32 := by
    simp only [KERNBASE] at low
    omega
  rw [mappages_one aligned small]
  unfold mappagesLoop
  apply wp_bind
  refine wp_mono (wp_returns (mapPage_counts inside finite perm a mem absent)) ?_
  rintro s r ⟨counts, returned⟩
  cases r with
  | none =>
      apply wp_pure
      intro impossible
      cases impossible
  | some d' =>
      have mapped := mapPage_returns returned
      have count := counts rfl
      simp only [tabled.needs]
      apply wp_pure
      intro _
      exact ⟨mapped, count⟩

theorem allocuvmLoop_grows {oldsz newsz left a : Nat} (h : Owns l d frame held)
    (finite : l.pool.Finite) (larger : oldsz ≤ newsz) (small : newsz < KERNBASE)
    (first : PGROUNDUP oldsz ≤ a) (aligned : a % PGSIZE = 0)
    (last : a + left * PGSIZE = PGROUNDUP newsz) (tabled : Tabled d a)
    (grown : Grown d₀ m₀ (PGROUNDUP oldsz) d m a) :
    Does l True (allocuvmLoop l oldsz newsz left d a m) held fun s r =>
      Owns l r.1.1 frame s ∧
        (r.1.2 = newsz ∧ s.ncard = held.ncard + needed d left a ∧
            Grown d₀ m₀ (PGROUNDUP oldsz) r.1.1 r.2 (PGROUNDUP newsz) ∨
          r.1.2 = 0 ∧ Grown d₀ m₀ (PGROUNDUP oldsz) r.1.1 r.2 (PGROUNDUP oldsz)) := by
  induction left generalizing d held a m with
  | zero =>
      rw [Nat.zero_mul, Nat.add_zero] at last
      rw [last] at grown
      have same : held.ncard = held.ncard + needed d 0 a := by rw [needed, Nat.add_zero]
      exact wp_pure ⟨h, Or.inl ⟨rfl, same, grown⟩⟩
  | succ left ih =>
      have more' : (left + 1) * PGSIZE = left * PGSIZE + PGSIZE := Nat.succ_mul _ _
      have page : PGSIZE = 4096 := rfl
      have on : (a + PGSIZE) % PGSIZE = 0 := (Nat.add_mod_right a PGSIZE).trans aligned
      have top := pgroundup_top (Nat.le_of_lt small)
      have more : a < newsz := by
        have rounded := pgroundup_eq (Nat.le_of_lt small)
        simp only [PGSIZE] at *
        omega
      have low : a < KERNBASE := by omega
      have absent : d.pte a = none := grown.above a (Nat.le_refl a) low
      unfold allocuvmLoop
      apply wp_then
      apply wp_request
      case empty =>
        apply wp_then
        refine wp_mono (deallocuvm_shrinks h larger first more small grown) ?_
        rintro s ⟨r, m'⟩ ⟨owns, shrunk⟩
        exact wp_pure ⟨owns, Or.inr ⟨rfl, shrunk⟩⟩
      case taken =>
        intro mem member fresh
        have aside : mem ∉ frame := fun framed => fresh (h.frame_mem framed)
        have owns := h.aside member fresh
        have one : (insert mem held).ncard = held.ncard + 1 :=
          Set.ncard_insert_of_notMem fresh (finite.subset h.inside)
        have zeroed : Grown d₀ m₀ (PGROUNDUP oldsz) d (memset mem 0 m) a := by
          have bytes : ∀ va, va < a → byte d (memset mem 0 m) va = byte d m va := by
            intro va inside
            apply byte_same rfl
            intro e entry
            have mine := mapped_mem h (by omega) entry
            rw [memset, Function.update_of_ne]
            rintro rfl
            exact fresh mine
          refine ⟨fun va inside => ?_, fun va after inside => ?_, grown.above⟩
          · rw [bytes va (by omega)]
            exact grown.old va inside
          · rw [bytes va inside]
            exact grown.zero va after inside
        apply wp_modify
        apply wp_then
        have maps :=
          wp_and (@mappages_wp l True _ _ _ _ owns aside _ aligned low (fun _ => absent) user)
            (mappages_counts owns.inside finite aligned low absent tabled user)
        refine wp_mono (wp_takes maps (mappages_takes _ _ _ _ _)) ?_
        rintro s ⟨r, m'⟩ ⟨⟨⟨rfl, rfl⟩ | ⟨d', rfl, owns', mapped⟩, counts⟩, rfl⟩
        · apply wp_then
          refine wp_mono (deallocuvm_shrinks owns larger first more small zeroed) ?_
          rintro s ⟨r, m'⟩ ⟨owns, shrunk⟩
          apply wp_then
          have frees := @kfree_wp l True _ _ (fun s' _ => s' = s \ {mem})
            owns.inside (owns.frame_mem (Set.mem_insert mem frame)) rfl
          refine wp_mono (wp_givesBack frees (kfree_gives _)) ?_
          rintro s' ⟨_, m''⟩ ⟨rfl, -, kept⟩
          have rest := owns.unaside aside
          refine wp_pure ⟨rest, Or.inr ⟨rfl, ?_, ?_, shrunk.above⟩⟩
          case refine_2 => exact fun va after inside => absurd after (Nat.not_le_of_lt inside)
          intro va inside
          obtain ⟨entry, bytes⟩ := shrunk.old va inside
          refine ⟨entry, ?_⟩
          rw [← bytes]
          apply byte_same rfl
          intro e found
          exact kept e.page (mapped_mem rest (by omega) found)
        · obtain ⟨⟨mid, walked, same⟩, count⟩ := counts rfl
          obtain rfl : d' = mid.setPte a (some ⟨mem, user⟩) := same
          have next := ih owns' (by omega) on (by omega) (.next walked _ aligned low)
            (grown.map h fresh aligned first low mapped)
          refine wp_mono next ?_
          rintro s ⟨r, m'⟩ ⟨owns, ⟨done, total, grown⟩ | failed⟩
          · refine ⟨owns, Or.inl ⟨done, ?_, grown⟩⟩
            rw [total, count, one, needed_later walked _ left (a + PGSIZE) (by omega)
              (by omega), needed]
            omega
          · exact ⟨owns, Or.inr failed⟩

/-! ## When enough pages are free -/

theorem mapPage_supply (n : Nat) {a : Nat} (absent : d.pte a = none) (tabled : Tabled d a)
    (pa : Page) (perm : Perm) :
    Given (mapPage perm d a pa)
      (n + if (d.pde (PDX a)).isNone = true ∧ a % BLOCK = 0 then 1 else 0) fun k r =>
        k = n ∧ ∃ d', r = some d' := by
  simp only [tabled.needs]
  unfold mapPage walkpgdir
  cases table : d.pde (PDX a) with
  | some pgtab =>
      apply given_bind
      apply given_pure
      dsimp only
      rw [absent]
      exact given_pure ⟨rfl, _, rfl⟩
  | none =>
      apply given_bind
      rw [if_neg (by simp)]
      apply given_bind
      refine given_alloc fun pgtab => given_pure ?_
      dsimp only [Option.map_some]
      rw [Pgdir.setPde_pte table, absent]
      exact given_pure ⟨rfl, _, rfl⟩

theorem allocuvmLoop_supply (oldsz newsz left n : Nat) {a : Nat} (aligned : a % PGSIZE = 0)
    (last : a + left * PGSIZE ≤ KERNBASE) (tabled : Tabled d a)
    (absent : ∀ va, a ≤ va → va < KERNBASE → d.pte va = none) :
    Given (Public3.allocuvmLoop l oldsz newsz left d a) (n + needed d left a) fun k r =>
      k = n ∧ r.2 = newsz := by
  induction left generalizing d a with
  | zero => exact given_pure ⟨rfl, rfl⟩
  | succ left ih =>
      have more : (left + 1) * PGSIZE = left * PGSIZE + PGSIZE := Nat.succ_mul _ _
      have on : (a + PGSIZE) % PGSIZE = 0 := (Nat.add_mod_right a PGSIZE).trans aligned
      have page : PGSIZE = 4096 := rfl
      have wide : KERNBASE < 2 ^ 32 := by decide
      have here := absent a (Nat.le_refl a) (by omega)
      have split : n + needed d (left + 1) a = n + needed d left (a + PGSIZE) +
          (if (d.pde (PDX a)).isNone = true ∧ a % BLOCK = 0 then 1 else 0) + 1 := by
        rw [needed]
        omega
      rw [split]
      unfold Public3.allocuvmLoop
      apply given_bind
      refine given_alloc fun mem => ?_
      dsimp only
      apply given_bind
      rw [mappages_one aligned (by omega)]
      unfold mappagesLoop
      apply given_bind
      refine given_mono (given_returns (mapPage_supply _ here tabled mem user)) ?_
      rintro k r ⟨⟨rfl, d', rfl⟩, returned⟩
      obtain ⟨mid, walked, rfl⟩ := mapPage_returns returned
      apply given_pure
      dsimp only
      rw [← needed_later walked (some ⟨mem, user⟩) left (a + PGSIZE) (by omega) (by omega)]
      refine ih on (by omega) (.next walked _ aligned (by omega)) ?_
      intro va high low
      have away : ¬ va / PGSIZE = a / PGSIZE := by
        rw [page_iff aligned]
        omega
      rw [Pgdir.setPte_pte walked.pde _ (by omega) (by omega), if_neg away, walked.pte va]
      exact absent va (by omega) low

/-! ## What sbrk() returns -/

/-- The call returns the old size, and the new one is what it asked for. -/
structure Exact (im : Image) (m : Page → Frame) (n : Word)
    (r : (Image × Int) × (Page → Frame)) : Prop where
  value : r.1.2 = im.sz
  size : (r.1.1.sz : Int) = im.sz + n.toInt
  kept : ∀ va, va < im.sz → va < r.1.1.sz → r.1.1.pgdir.pte va = im.pgdir.pte va ∧
    byte r.1.1.pgdir r.2 va = byte im.pgdir m va
  zero : ∀ va, im.sz ≤ va → va < r.1.1.sz → byte r.1.1.pgdir r.2 va = some 0

/-- The call returns -1, and user memory is as before. -/
structure Unchanged (im : Image) (m : Page → Frame) (r : (Image × Int) × (Page → Frame)) :
    Prop where
  value : r.1.2 = -1
  size : r.1.1.sz = im.sz
  kept : ∀ va, va < KERNBASE → r.1.1.pgdir.pte va = im.pgdir.pte va ∧
    byte r.1.1.pgdir r.2 va = byte im.pgdir m va

/-- The rounds of allocuvm() for so many more bytes. -/
def rounds (sz n : Nat) : Nat := (sz + n + PGSIZE - 1 - PGROUNDUP sz) / PGSIZE

/-- A process gives back less than it has; where it grows, the rest of its last page is zero. -/
structure Meets (l : Layout) (im : Image) (m : Page → Frame) (n : Word) (held : Set Page) :
    Prop where
  shrinks : n.toInt < 0 → im.sz = 0 ∨ -n.toInt < im.sz
  grows : 0 < n.toInt → im.sz + n.toNat < KERNBASE →
    needed im.pgdir (rounds im.sz n.toNat) (PGROUNDUP im.sz) ≤ (l.pool \ held).ncard →
    ∀ va, im.sz ≤ va → va < PGROUNDUP im.sz → va < im.sz + n.toNat → byte im.pgdir m va = some 0

section Sbrk
variable {im : Image} {n : Word} {others : Set Page}

theorem addr_eq (small : im.sz < KERNBASE) : (BitVec.ofNat 32 im.sz).toInt = im.sz := by
  simp only [KERNBASE] at small
  rw [BitVec.toInt_eq_toNat_cond, BitVec.toNat_ofNat, Nat.mod_eq_of_lt (by omega),
    if_pos (by omega)]

theorem toInt_pos (positive : 0 < n.toInt) : n.toInt = n.toNat ∧ n.toNat < 2 ^ 31 := by
  have wide := n.isLt
  rw [BitVec.toInt_eq_toNat_cond] at positive ⊢
  split at positive
  · rename_i low
    rw [if_pos low]
    omega
  · omega

theorem toInt_neg (negative : n.toInt < 0) :
    n.toInt = n.toNat - 2 ^ 32 ∧ 2 ^ 31 ≤ n.toNat ∧ n.toNat < 2 ^ 32 := by
  have wide := n.isLt
  rw [BitVec.toInt_eq_toNat_cond] at negative ⊢
  split at negative
  · omega
  · rename_i high
    rw [if_neg high]
    omega

theorem Grown.start (filled : im.pgdir.Filled (PGROUNDUP im.sz)) :
    Grown im.pgdir m (PGROUNDUP im.sz) im.pgdir m (PGROUNDUP im.sz) :=
  ⟨fun _ _ => ⟨rfl, rfl⟩, fun _ after inside => absurd after (Nat.not_le_of_lt inside),
    filled.above⟩

theorem Tabled.start (small : im.sz < KERNBASE) (filled : im.pgdir.Filled (PGROUNDUP im.sz)) :
    Tabled im.pgdir (PGROUNDUP im.sz) := by
  intro inside
  have top := pgroundup_top (Nat.le_of_lt small)
  have aligned := pgroundup_aligned im.sz
  -- The page before is mapped, and in the same block.
  have same : PDX (PGROUNDUP im.sz) = PDX (PGROUNDUP im.sz - 1) := by
    simp only [PDX, NPDENTRIES, BLOCK, PGSIZE, Fin.mk.injEq] at *
    omega
  have positive : 0 < PGROUNDUP im.sz := by
    simp only [BLOCK] at inside
    omega
  rw [same]
  exact Pgdir.pde_of_pte (filled.below _ (by omega))

theorem Grown.unchanged {r : (Image × Int) × (Page → Frame)}
    (filled : im.pgdir.Filled (PGROUNDUP im.sz)) (value : r.1.2 = -1) (size : r.1.1.sz = im.sz)
    (grown : Grown im.pgdir m (PGROUNDUP im.sz) r.1.1.pgdir r.2 (PGROUNDUP im.sz)) :
    Unchanged im m r := by
  refine ⟨value, size, ?_⟩
  intro va low
  by_cases inside : va < PGROUNDUP im.sz
  · exact grown.old va inside
  · have before := filled.above va (Nat.le_of_not_lt inside) low
    have after := grown.above va (Nat.le_of_not_lt inside) low
    unfold byte
    rw [before, after]
    exact ⟨rfl, rfl⟩

/-! ## The cases -/

/-- Growing below KERNBASE: all the pages, or none. -/
theorem sys_sbrk_grows (owns : Owns l im.pgdir others held) (finite : l.pool.Finite)
    (small : im.sz < KERNBASE) (filled : im.pgdir.Filled (PGROUNDUP im.sz))
    (positive : 0 < n.toInt) (below : im.sz + n.toNat < KERNBASE) :
    Does l True (sys_sbrk l im n m) held fun s r =>
      (r.1.2 = im.sz ∧ r.1.1.sz = im.sz + n.toNat ∧ s ⊆ l.pool ∧
          s.ncard = held.ncard + needed im.pgdir (rounds im.sz n.toNat) (PGROUNDUP im.sz) ∧
          Grown im.pgdir m (PGROUNDUP im.sz) r.1.1.pgdir r.2 (PGROUNDUP (im.sz + n.toNat))) ∨
        Unchanged im m r := by
  obtain ⟨value, bound⟩ := toInt_pos positive
  have wide : KERNBASE < 2 ^ 32 := by decide
  have sum : (im.sz + n.toNat) % 2 ^ 32 = im.sz + n.toNat := Nat.mod_eq_of_lt (by omega)
  have larger : im.sz ≤ im.sz + n.toNat := Nat.le_add_right _ _
  have last := allocuvm_rounds larger (Nat.le_of_lt below)
  unfold sys_sbrk growproc allocuvm
  dsimp only
  rw [if_pos positive, sum, if_neg (Nat.not_le_of_lt below), if_neg (Nat.not_lt_of_le larger)]
  apply wp_then
  apply wp_then
  refine wp_mono (allocuvmLoop_grows owns finite larger below (Nat.le_refl _)
    (pgroundup_aligned _) last (.start small filled) (.start filled)) ?_
  rintro s ⟨r, m'⟩ ⟨taken, ⟨done, count, grown⟩ | ⟨failed, grown⟩⟩
  · have nonzero : ¬ r.2 = 0 := by
      rw [done]
      omega
    apply wp_pure
    rw [if_neg nonzero]
    refine wp_pure (Or.inl ⟨?_, done, taken.inside, count, grown⟩)
    exact addr_eq small
  · apply wp_pure
    rw [if_pos failed]
    exact wp_pure (Or.inr (Grown.unchanged filled rfl rfl grown))

theorem sys_sbrk_refuses (filled : im.pgdir.Filled (PGROUNDUP im.sz)) (small : im.sz < KERNBASE)
    (positive : 0 < n.toInt) (above : KERNBASE ≤ im.sz + n.toNat) :
    Does l True (sys_sbrk l im n m) held fun _ r => Unchanged im m r := by
  obtain ⟨value, bound⟩ := toInt_pos positive
  have sum : (im.sz + n.toNat) % 2 ^ 32 = im.sz + n.toNat := by
    apply Nat.mod_eq_of_lt
    simp only [KERNBASE] at small
    omega
  unfold sys_sbrk growproc allocuvm
  dsimp only
  rw [if_pos positive, sum, if_pos above]
  apply wp_then
  apply wp_then
  apply wp_pure
  apply wp_pure
  exact wp_pure (Grown.unchanged filled rfl rfl (.start filled))

/-- Shrinking to a size that is not 0. -/
theorem sys_sbrk_shrinks (owns : Owns l im.pgdir others held) (small : im.sz < KERNBASE)
    (negative : n.toInt < 0) (less : -n.toInt < im.sz) :
    Does l True (sys_sbrk l im n m) held fun _ r => Exact im m n r := by
  obtain ⟨value, high, bound⟩ := toInt_neg negative
  have wide : KERNBASE < 2 ^ 32 := by decide
  obtain ⟨newsz, new⟩ : ∃ newsz, (im.sz + n.toNat) % 2 ^ 32 = newsz := ⟨_, rfl⟩
  have sum : (newsz : Int) = im.sz + n.toInt := by omega
  unfold sys_sbrk growproc
  dsimp only
  rw [if_neg (by omega), if_pos negative, new]
  apply wp_then
  apply wp_then
  have shrinks := @deallocuvm_wp l True _ _ _ _ newsz owns (Nat.le_of_lt small)
  refine wp_mono (wp_givesBack shrinks (deallocuvm_gives _ _ _)) ?_
  rintro s ⟨r, m'⟩ ⟨⟨impossible, _⟩ | ⟨_, size, taken, cleared⟩, -, kept⟩
  · omega
  · have nonzero : ¬ r.2 = 0 := by
      rw [size]
      omega
    apply wp_pure
    rw [if_neg nonzero]
    refine wp_pure ⟨addr_eq small, ?_, ?_, ?_⟩
    · change (r.2 : Int) = _
      rw [size]
      exact sum
    · intro va _ inside
      have inside : va < newsz := size ▸ inside
      have rounded := @le_pgroundup newsz (by omega)
      have same : r.1.pte va = im.pgdir.pte va := by
        rw [cleared.pte va (by omega), if_neg (by omega)]
      refine ⟨same, byte_same same ?_⟩
      intro e found
      exact kept e.page (mapped_mem taken (by omega) (same.trans found))
    · intro va after inside
      have inside : va < newsz := size ▸ inside
      omega

/-- Everything is given back, and the call is taken for a failure. -/
theorem sys_sbrk_empties (owns : Owns l im.pgdir others held) (small : im.sz < KERNBASE)
    (negative : n.toInt < 0) (all : -n.toInt = im.sz) :
    Does l True (sys_sbrk l im n m) held fun _ r => r.1.2 = -1 ∧ r.1.1.pgdir.pte 0 = none := by
  obtain ⟨value, high, bound⟩ := toInt_neg negative
  have sum : (im.sz + n.toNat) % 2 ^ 32 = 0 := by omega
  have start : PGROUNDUP 0 = 0 := rfl
  have rounded := le_pgroundup (Nat.le_of_lt small)
  unfold sys_sbrk growproc
  dsimp only
  rw [if_neg (by omega), if_pos negative, sum]
  apply wp_then
  apply wp_then
  have shrinks := @deallocuvm_wp l True _ _ _ _ 0 owns (Nat.le_of_lt small)
  refine wp_mono (wp_givesBack shrinks (deallocuvm_gives _ _ _)) ?_
  rintro s ⟨r, m'⟩ ⟨⟨impossible, _⟩ | ⟨_, size, taken, cleared⟩, -, kept⟩
  · omega
  · apply wp_pure
    rw [if_pos size]
    refine wp_pure ⟨rfl, ?_⟩
    change r.1.pte 0 = none
    rw [cleared.pte 0 (by decide), if_pos (by omega)]

/-- The sum wraps around: nothing is done. -/
theorem sys_sbrk_wraps (small : im.sz < KERNBASE) (negative : n.toInt < 0)
    (more : im.sz < -n.toInt) :
    Does l True (sys_sbrk l im n m) held fun _ r =>
      r = ((im, if im.sz = 0 then -1 else (im.sz : Int)), m) := by
  obtain ⟨value, high, bound⟩ := toInt_neg negative
  obtain ⟨newsz, new⟩ : ∃ newsz, (im.sz + n.toNat) % 2 ^ 32 = newsz := ⟨_, rfl⟩
  have larger : newsz ≥ im.sz := by omega
  unfold sys_sbrk growproc deallocuvm
  dsimp only
  rw [if_neg (by omega), if_pos negative, new, if_pos larger]
  apply wp_then
  apply wp_then
  apply wp_pure
  apply wp_pure
  dsimp only
  split
  · exact wp_pure rfl
  · refine wp_pure ?_
    rw [if_pos rfl, addr_eq small]

theorem sys_sbrk_zero (small : im.sz < KERNBASE) (none_asked : n.toInt = 0) :
    Does l True (sys_sbrk l im n m) held fun _ r => r = ((im, (im.sz : Int)), m) := by
  unfold sys_sbrk growproc
  dsimp only
  rw [if_neg (by omega), if_neg (by omega)]
  apply wp_then
  apply wp_pure
  refine wp_pure ?_
  rw [if_pos rfl, addr_eq small]

end Sbrk

/-! ## When sbrk() is exact -/

/-- In every run the call is exact, or nothing has changed. -/
def SbrkExact (l : Layout) (im : Image) (m : Page → Frame) (n : Word) (held : Set Page) : Prop :=
  Wp l.pool (fun _ => False) (sys_sbrk l im n m) held fun _ r => Exact im m n r ∨ Unchanged im m r

/-- No function of vm.c panics. -/
theorem without_panic {α : Type} {x : Vm α} {post : Set Page → α → Prop}
    (h : Does l True x held post) : Wp l.pool (fun _ => False) x held post := by
  have never : (fun _ : Panic => ¬ True) = fun _ => False := by simp
  unfold Does at h
  rw [never] at h
  exact h

section Sbrk
variable {im : Image} {n : Word} {others : Set Page}

theorem exact_of_meets (owns : Owns l im.pgdir others held) (small : im.sz < KERNBASE)
    (filled : im.pgdir.Filled (PGROUNDUP im.sz)) (meets : Meets l im m n held) :
    SbrkExact l im m n held := by
  have finite := pool_finite l
  unfold SbrkExact
  obtain positive | none_asked | negative := lt_trichotomy 0 n.toInt
  · obtain ⟨value, bound⟩ := toInt_pos positive
    by_cases below : im.sz + n.toNat < KERNBASE
    · refine wp_mono (without_panic (sys_sbrk_grows owns finite small filled positive below)) ?_
      rintro s r (⟨returned, size, inside, count, grown⟩ | unchanged)
      · refine Or.inl ⟨returned, by omega, ?_, ?_⟩
        · intro va low _
          exact grown.old va (Nat.lt_of_lt_of_le low (le_pgroundup (Nat.le_of_lt small)))
        · intro va after before
          rw [size] at before
          by_cases tail : va < PGROUNDUP im.sz
          · rw [(grown.old va tail).2]
            apply meets.grows positive below ?_ va after tail before
            have free := Set.ncard_le_ncard inside finite
            have rest := Set.ncard_sdiff_add_ncard_of_subset owns.inside finite
            omega
          · exact grown.zero va (Nat.le_of_not_lt tail)
              (Nat.lt_of_lt_of_le before (le_pgroundup (Nat.le_of_lt below)))
      · exact Or.inr unchanged
    · refine wp_mono (without_panic (sys_sbrk_refuses filled small positive
        (Nat.le_of_not_lt below))) ?_
      exact fun _ _ unchanged => Or.inr unchanged
  · refine wp_mono (without_panic (sys_sbrk_zero small none_asked.symm)) ?_
    rintro _ _ rfl
    refine Or.inl ⟨rfl, by simp [← none_asked], fun _ _ _ => ⟨rfl, rfl⟩, ?_⟩
    exact fun va after before => absurd before (Nat.not_lt_of_le after)
  · obtain empty | less := meets.shrinks negative
    · refine wp_mono (without_panic (sys_sbrk_wraps small negative (by omega))) ?_
      rintro _ _ rfl
      rw [if_pos empty]
      exact Or.inr (Grown.unchanged filled rfl rfl (.start filled))
    · refine wp_mono (without_panic (sys_sbrk_shrinks owns small negative less)) ?_
      exact fun _ _ exact_call => Or.inl exact_call

/-- Two descriptions of the same runs that exclude each other. -/
theorem not_both {α : Type} {x : Vm α} {post post' : Set Page → α → Prop}
    (h : Wp l.pool (fun _ => False) x held post) (h' : Does l True x held post')
    (apart : ∀ s a, post s a → ¬ post' s a) : False := by
  have never : Wp l.pool (fun _ => False) x held fun _ _ => False :=
    wp_mono (wp_and h (without_panic h')) fun s a both => apart s a both.1 both.2
  exact not_wp_false never

theorem meets_of_exact (owns : Owns l im.pgdir others held) (small : im.sz < KERNBASE)
    (filled : im.pgdir.Filled (PGROUNDUP im.sz)) (exact_call : SbrkExact l im m n held) :
    Meets l im m n held := by
  have finite := pool_finite l
  constructor
  case shrinks =>
    intro negative
    by_contra neither
    obtain ⟨nonzero, more⟩ := not_or.mp neither
    by_cases all : -n.toInt = im.sz
    · refine not_both exact_call (sys_sbrk_empties owns small negative all) ?_
      rintro s r (exact_call | unchanged) ⟨failed, unmapped⟩
      · have value := exact_call.value
        omega
      · have kept := (unchanged.kept 0 kernbase_pos).1
        have rounded := le_pgroundup (Nat.le_of_lt small)
        have present := filled.below 0 (by omega)
        rw [← kept, unmapped] at present
        cases present
    · refine not_both exact_call (sys_sbrk_wraps small negative (by omega)) ?_
      rintro s r (exact_call | unchanged) rfl
      · have size : (im.sz : Int) = im.sz + n.toInt := exact_call.size
        omega
      · have value : (if im.sz = 0 then -1 else (im.sz : Int)) = -1 := unchanged.value
        rw [if_neg nonzero] at value
        omega
  case grows =>
    intro positive below enough va after tail before
    obtain ⟨value, bound⟩ := toInt_pos positive
    have wide : KERNBASE < 2 ^ 32 := by decide
    have sum : (im.sz + n.toNat) % 2 ^ 32 = im.sz + n.toNat := Nat.mod_eq_of_lt (by omega)
    have larger : im.sz ≤ im.sz + n.toNat := Nat.le_add_right _ _
    have last := allocuvm_rounds larger (Nat.le_of_lt below)
    have top := pgroundup_top (Nat.le_of_lt below)
    -- The run in which kalloc() finds a page every time.
    have run : Given (Public3.growproc l im n)
        (0 + needed im.pgdir (rounds im.sz n.toNat) (PGROUNDUP im.sz))
        fun _ r => r.2 = true := by
      unfold Public3.growproc Public3.allocuvm
      dsimp only
      rw [if_pos positive, sum, if_neg (Nat.not_le_of_lt below),
        if_neg (Nat.not_lt_of_le larger)]
      apply given_bind
      refine given_mono (allocuvmLoop_supply im.sz (im.sz + n.toNat) _ 0
        (pgroundup_aligned im.sz) ?_ (.start small filled) filled.above) ?_
      · exact (Nat.le_of_eq last).trans top
      · rintro _ r ⟨-, done⟩
        have nonzero : ¬ r.2 = 0 := by
          rw [done]
          omega
        apply given_pure
        rw [if_neg nonzero]
    have whole : Given (sys_sbrk l im n m)
        (0 + needed im.pgdir (rounds im.sz n.toNat) (PGROUNDUP im.sz))
        fun _ r => r.1.2 = im.sz := by
      unfold sys_sbrk
      apply given_bind
      refine given_mono (given_forgets (growproc_forgets im n) run) ?_
      rintro _ ⟨r, m'⟩ done
      apply given_pure
      change (if r.2 = true then _ else _) = _
      rw [if_pos done, addr_eq small]
    have facts := wp_and exact_call
      (without_panic (sys_sbrk_grows owns finite small filled positive below))
    rw [Nat.zero_add] at whole
    obtain ⟨s, _, r, ⟨either, grown⟩, returned⟩ := given_reached facts whole finite enough
    obtain exact_call | unchanged := either
    · obtain ⟨_, size, _, _, grown⟩ | unchanged := grown
      · have zero := exact_call.zero va after (by rw [size]; exact before)
        rw [← (grown.old va tail).2, zero]
      · have failed := unchanged.value
        omega
    · have failed := unchanged.value
      omega

/-- For every process, every number and every state of the allocator. -/
theorem sbrk_exact_iff (owns : Owns l im.pgdir others held) (small : im.sz < KERNBASE)
    (filled : im.pgdir.Filled (PGROUNDUP im.sz)) :
    SbrkExact l im m n held ↔ Meets l im m n held :=
  ⟨meets_of_exact owns small filled, exact_of_meets owns small filled⟩

end Sbrk

/-- The first process grows by one byte. -/
theorem sbrk_exact_initcode :
    SbrkExact machine initImage (fun _ _ => 0) 1 initImage.pgdir.pages ↔
      Meets machine initImage (fun _ _ => 0) 1 initImage.pgdir.pages :=
  sbrk_exact_iff initImage_owns (by decide) initImage_filled

/-- It gives everything back: sbrk(-4096) with 4096 bytes. -/
theorem sbrk_not_exact : ¬ ∀ (l : Layout) (im : Image) (m : Page → Frame) (n : Word)
    (others held : Set Page), Owns l im.pgdir others held → im.sz < KERNBASE →
      im.pgdir.Filled (PGROUNDUP im.sz) → SbrkExact l im m n held := by
  intro always
  have exact_call := always machine initImage (fun _ _ => 0) (BitVec.ofInt 32 (-4096)) _ _
    initImage_owns (by decide) initImage_filled
  obtain empty | less := (meets_of_exact initImage_owns (by decide) initImage_filled
    exact_call).shrinks (by decide)
  · cases empty
  · revert less
    decide

end Xv6.Public3.Contents
