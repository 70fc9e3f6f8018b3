import Xv6.Public1.ExecStack

/-!
# exec() as a whole

What a call leaves when it fails, and what a process finds when it succeeds,
wherever kalloc() may have failed.
-/

set_option autoImplicit false

namespace Xv6.Public1.Exec

open Xv6.Lib.Words
open Xv6.Lib.Allocation
open Xv6.Public3 hiding PGROUNDDOWN exec execBad

variable {l : Layout} {d d' : Pgdir} {frame held : Set Page}

/-! ## The new image -/

/-- The size with the guard page and the stack. -/
def withStack (sz : Nat) : Nat := PGROUNDUP sz + 2 * PGSIZE

theorem withStack_aligned (sz : Nat) : withStack sz % PGSIZE = 0 := by
  have whole := pgroundup_aligned sz
  simp only [withStack, PGSIZE] at *
  omega

theorem pgroundup_aligned_eq {sz : Nat} (whole : sz % PGSIZE = 0) (small : sz ≤ KERNBASE) :
    PGROUNDUP sz = sz := by
  rw [pgroundup_eq small]
  simp only [PGSIZE] at *
  omega

theorem Sized.ready {sz : Nat} (h : Sized d sz) (whole : sz % PGSIZE = 0) (two : 2 * PGSIZE ≤ sz)
    (guarded : d.Guarded (sz - 2 * PGSIZE) d') : Ready d' sz := by
  have small := h.small
  have wide : KERNBASE < 2 ^ 32 := by decide
  have rounded := pgroundup_aligned_eq whole (Nat.le_of_lt small)
  have users : ∀ va, va < sz → ∃ e, d.pte va = some e ∧ e.perm.u = true := by
    intro va below
    have entry := h.space.users.pte va (Nat.zero_le va) (by omega)
    rw [rounded, if_pos below, Option.map_eq_some_iff] at entry
    exact entry
  have guard_page : ∀ va, va / PGSIZE = (sz - 2 * PGSIZE) / PGSIZE ↔
      sz - 2 * PGSIZE ≤ va ∧ va < sz - PGSIZE := by
    intro va
    simp only [PGSIZE] at *
    omega
  have system : ∀ va, KERNBASE ≤ va → va < 2 ^ 32 →
      (∀ e, d.pte va = some e → e.perm.u = false) ∧ (d.pde (PDX va) = none ↔ Hole va) := by
    intro va above inside
    have part : ∀ {lo hi a : Nat}, d.Upto lo hi false a → lo ≤ va → va < hi →
        (∀ e, d.pte va = some e → e.perm.u = false) ∧
          (d.pde (PDX va) = none ↔ ¬ va / BLOCK * BLOCK < a) := by
      intro lo hi a upto first last
      refine ⟨?_, ?_⟩
      · intro e entry
        have here := upto.pte va first last
        rw [entry, Option.map_some] at here
        split at here
        · exact Option.some.inj here
        · cases here
      · rw [← upto.pde va first last]
        cases d.pde (PDX va) <;> simp
    by_cases ram : va < KERNBASE + PHYSTOP
    · obtain ⟨system, table⟩ := part h.space.ram above ram
      refine ⟨system, table.trans ?_⟩
      simp only [Hole, RAM, BLOCK, KERNBASE, PHYSTOP, DEVSPACE] at *
      omega
    · by_cases hole : va < DEVSPACE
      · obtain ⟨system, table⟩ := part h.space.hole (by omega) hole
        refine ⟨system, table.trans ?_⟩
        simp only [Hole, RAM, BLOCK, KERNBASE, PHYSTOP, DEVSPACE] at *
        omega
      · obtain ⟨system, table⟩ := part h.space.dev (by omega) inside
        refine ⟨system, table.trans ?_⟩
        simp only [Hole, RAM, BLOCK, KERNBASE, PHYSTOP, DEVSPACE] at *
        omega
  constructor
  case two => exact two
  case small => exact small
  case aligned => exact whole
  case user =>
    intro va below outside
    rw [guarded.pte va (by omega) (fun here => outside ((guard_page va).mp here))]
    exact users va below
  case guard =>
    intro va first last
    have page : 0 < PGSIZE := by decide
    obtain ⟨e, entry, _⟩ := users (sz - 2 * PGSIZE) (by omega)
    obtain ⟨e', entry', refused⟩ := guarded.guard e entry
    have same : d'.pte va = d'.pte (sz - 2 * PGSIZE) :=
      Pgdir.pte_eq ((guard_page va).mpr ⟨first, last⟩) (by omega) (by omega)
    exact ⟨e', same.trans entry', refused⟩
  case kernel =>
    intro va e above inside entry
    have away : va / PGSIZE ≠ (sz - 2 * PGSIZE) / PGSIZE := by
      rw [Ne, guard_page va]
      omega
    rw [guarded.pte va inside away] at entry
    exact (system va above inside).1 e entry
  case hole =>
    intro va above inside
    rw [← (system va above inside).2]
    have same := guarded.pde va inside
    cases first : d'.pde (PDX va) <;> cases second : d.pde (PDX va) <;> simp_all

/-- No page of a process is another one's. -/
theorem owns_private {sz : Nat} (h : Owns l d frame held) (small : sz ≤ KERNBASE) :
    Private d sz := by
  have wide : KERNBASE < 2 ^ 32 := by decide
  have place : ∀ {va e}, va < sz → d.pte va = some e →
      d.owned (.user (PDX va) (PTX va)) = some e.page := by
    intro va e below entry
    rw [Pgdir.owned_user (by omega), entry]
    rfl
  constructor
  case aligned => exact fun va e below entry => (h.member (place below entry)).1
  case once =>
    intro va va' e e' first second entry entry' shared
    have same := h.once (place first entry) (shared ▸ place second entry')
    rw [Pgdir.Slot.user.injEq] at same
    exact (index_eq (by omega) (by omega)).mp same

/-! ## A call -/

/-- A process calls exec(): argstr() and fetchstr() have found every string, with its NUL, below
the size of the process. -/
structure Call (l : Layout) where
  namei : List Byte → Option Inode
  proc : Proc
  mem : Memory
  fs : Fs
  path : List Byte
  argv : List (List Byte)
  /-- The pages of the others. -/
  frame : Set Page
  /-- All pages that are not on the free list. -/
  held : Set Page
  owns : Owns l proc.pgdir frame held
  small : proc.sz ≤ KERNBASE
  text : ∀ s ∈ argv, 0 ∉ s
  inside : ∀ s ∈ argv, s.length < proc.sz

namespace Call

variable (c : Call l)

def run : Vm (Except Fault Done) := exec l c.namei c.proc c.mem c.fs c.path c.argv

/-- The process, the free list and the file system are as before. -/
structure Restored (s : Set Page) (done : Done) : Prop where
  pages : s = c.held
  proc : done.proc = c.proc
  fs : done.fs = c.fs

/-- exec() returns without a panic and without following a null pointer, and nothing has changed
if it returns -1. -/
def Meets : Prop :=
  Does l True c.run c.held fun s r => ∃ done, r = .ok done ∧ (done.ret = -1 → c.Restored s done)

/-- The file is loaded, there are pages for the image, and an argument gets an address between
the memory of the kernel and the devices. -/
def Strays : Prop :=
  ∃ ip elf sz, c.namei c.path = some ip ∧ ip.mode &&& 4 ≠ 0 ∧ ip.elf = some elf ∧
    ip.size elf.phnum.toNat elf.phoff 0 = some sz ∧ withStack sz < KERNBASE ∧
    65 + cost (withStack sz) ≤ (l.pool \ c.held).ncard ∧
    Exec.Strays (withStack sz - PGSIZE) 0 (BitVec.ofNat 32 (withStack sz)) c.argv

/-- What a process finds in its new image. -/
structure Committed (done : Done) : Prop where
  present : ∀ va, va < done.proc.sz → (done.proc.pgdir.pte va).isSome = true
  guard : ∀ va e, done.proc.sz - 2 * PGSIZE ≤ va → va < done.proc.sz - PGSIZE →
    done.proc.pgdir.pte va = some e → e.perm.u = false
  stack : ∃ table places, Decodable done.proc.pgdir done.proc.sz done.mem c.argv
    done.proc.esp.toNat table places
  /-- Below the stack is what has been loaded from the file. -/
  program : ∃ ip elf d loaded, c.namei c.path = some ip ∧ ip.elf = some elf ∧
    Returns (loadLoop l ip elf.phnum.toNat elf.phoff d 0 c.mem) loaded ∧
    Untouched done.proc.pgdir done.proc.sz loaded.mem done.mem

theorem short {s : List Byte} (member : s ∈ c.argv) : s.length < KERNBASE :=
  Nat.lt_of_lt_of_le (c.inside s member) c.small

/-- The file system after begin_op(), namei(), ilock() and the way back. -/
theorem balanced (fs : Fs) : fs.begin_op.iget.ilock.iunlockput.end_op = fs := rfl

end Call

/-- `bad:` gives the pages of the new image back. -/
theorem bad_wp {p : Proc} {ip : Bool} {mem : Memory} {fs : Fs} (h : Owns l d frame held) :
    Does l True (bad l p (some d) ip mem fs) held fun s r =>
      s = frame ∧ r = .ok ⟨-1, p, mem, if ip = true then fs.iunlockput.end_op else fs⟩ := by
  unfold bad
  dsimp only
  apply wp_bind
  refine wp_mono (freevm_wp h) ?_
  rintro s _ rfl
  exact wp_pure ⟨rfl, rfl⟩

/-- What exec() comes to: the old image as it was, a new one, or a null pointer is followed. -/
inductive Ends (c : Call l) (s : Set Page) : Except Fault Done → Prop
  | failed (done : Done) (ret : done.ret = -1) (restored : c.Restored s done) : Ends c s (.ok done)
  | entered (done : Done) (ret : done.ret = 0) (committed : c.Committed done) : Ends c s (.ok done)
  | lost (strays : c.Strays) : Ends c s (.error .nullDereference)

section Enter
variable (c : Call l) {ip : Inode} {elf : Elfhdr} {d₀ : Pgdir} {loaded : Loaded} {sz : Nat}
  {s : Set Page} (named : c.namei c.path = some ip) (executable : ip.mode &&& 4 ≠ 0)
  (header : ip.elf = some elf)
  (returned : Returns (loadLoop l ip elf.phnum.toNat elf.phoff d₀ 0 c.mem) loaded)
  (fits : ip.size elf.phnum.toNat elf.phoff 0 = some sz)
include named executable header returned fits

theorem enter_wp (h : Sized loaded.pgdir sz) (owns : Owns l loaded.pgdir c.held s) :
    Does l True (enter l c.proc c.path c.argv elf.entry loaded.pgdir sz loaded.mem c.fs) s
      fun s r => Ends c s r := by
  have small := h.small
  have wide : KERNBASE + 2 * PGSIZE < 2 ^ 32 := by decide
  have page : 0 < PGSIZE := by decide
  have top := pgroundup_top (Nat.le_of_lt small)
  have whole := pgroundup_pgroundup (Nat.le_of_lt small)
  have aligned := withStack_aligned sz
  have whole_size : withStack sz = PGROUNDUP sz + 2 * PGSIZE := rfl
  unfold enter
  rw [Nat.mod_eq_of_lt (by omega), ← whole_size]
  apply wp_bind
  refine wp_mono (wp_returns (allocuvm_wp owns fun _ => whole.symm ▸ h.filled)) ?_
  rintro s ⟨d, new⟩ ⟨⟨owns, _⟩, grown⟩
  dsimp only at owns grown ⊢
  split
  · refine wp_mono (bad_wp owns) ?_
    rintro s _ ⟨rfl, rfl⟩
    exact .failed _ rfl ⟨rfl, rfl, rfl⟩
  · rename_i nonzero
    have before : loaded.pgdir.Space (PGROUNDUP (PGROUNDUP sz)) RAM (2 ^ 32) := by
      rw [whole]
      exact h.space
    obtain ⟨low, same, space⟩ := Public3.allocuvm_returns before nonzero grown
    have same : new = withStack sz := by omega
    subst same
    have two : 2 * PGSIZE ≤ withStack sz := by omega
    have sized : Sized d (withStack sz) := ⟨low, space⟩
    have pages := space.count owns (Nat.le_of_lt low)
    have rounded := pgroundup_aligned_eq aligned (Nat.le_of_lt low)
    have guard : (d.pte (withStack sz - 2 * PGSIZE)).isSome = true :=
      sized.filled.below _ (by omega)
    apply wp_bind
    refine wp_mono (wp_returns (clearpteu_wp owns (by omega) fun _ => guard)) ?_
    rintro s d' ⟨⟨owns, _⟩, cleared⟩
    have ready := sized.ready aligned two (clearpteu_returns (by omega) cleared)
    have own := owns_private owns (Nat.le_of_lt low)
    by_cases strays : Strays (withStack sz - PGSIZE) 0 (BitVec.ofNat 32 (withStack sz)) c.argv
    · rw [stack_strays ready strays]
      exact wp_pure (.lost ⟨ip, elf, sz, named, executable, header, fits, low, pages, strays⟩)
    · obtain ⟨mem', gone⟩ | ⟨esp, mem', table, places, built, decodable, untouched⟩ :=
        stack_cases loaded.mem ready own (fun _ => c.short) strays
      · rw [gone]
        refine wp_mono (bad_wp owns) ?_
        rintro s _ ⟨rfl, rfl⟩
        exact .failed _ rfl ⟨rfl, rfl, rfl⟩
      · rw [built]
        apply wp_bind
        refine wp_mono (freevm_wp (owns.under c.owns)) ?_
        rintro s _ rfl
        refine wp_pure (.entered _ rfl ?_)
        constructor
        case present => exact fun va below => ready.present below
        case guard =>
          intro va e first last entry
          obtain ⟨e', entry', refused⟩ := ready.guard va first last
          rw [Option.some.inj (entry.symm.trans entry')]
          exact refused
        case stack => exact ⟨table, places, decodable⟩
        case program => exact ⟨ip, elf, d₀, loaded, named, header, returned, untouched⟩

end Enter

theorem run_ends (c : Call l) :
    Does l True c.run c.held fun s r => Ends c s r := by
  have restored : ∀ {mem : Memory}, Ends c c.held (.ok ⟨-1, c.proc, mem, c.fs⟩) :=
    .failed _ rfl ⟨rfl, rfl, rfl⟩
  unfold Call.run exec
  cases named : c.namei c.path with
  | none => exact wp_pure restored
  | some ip =>
      dsimp only
      split
      · exact wp_pure restored
      · rename_i executable
        cases header : ip.elf with
        | none => exact wp_pure restored
        | some elf =>
            dsimp only
            apply wp_bind
            refine wp_mono (wp_returns (setupkvm_wp c.owns.inside)) ?_
            rintro s r ⟨⟨rfl, rfl⟩ | ⟨d, rfl, owns, _⟩, returned⟩
            · exact wp_pure restored
            · have sized : Sized d 0 := ⟨kernbase_pos, setupkvm_returns returned⟩
              apply wp_bind
              refine wp_mono (wp_returns (loadLoop_wp ip sized owns)) ?_
              rintro s loaded ⟨⟨owns, fits⟩, returned⟩
              cases size : loaded.sz with
              | none =>
                  refine wp_mono (bad_wp owns) ?_
                  rintro s _ ⟨rfl, rfl⟩
                  exact restored
              | some sz =>
                  obtain ⟨fits, sized⟩ := fits sz size
                  exact enter_wp c named executable header returned fits sized owns

/-! ## An argument that strays -/

theorem enter_given {p : Proc} {path : List Byte} {argv : List (List Byte)} {entry : Word}
    {sz n : Nat} {mem : Memory} {fs : Fs} (h : Sized d sz) (low : withStack sz < KERNBASE)
    (strays : Strays (withStack sz - PGSIZE) 0 (BitVec.ofNat 32 (withStack sz)) argv) :
    Given (enter l p path argv entry d sz mem fs) (n + (cost (withStack sz) - cost sz))
      fun _ r => r = .error .nullDereference := by
  have small := h.small
  have wide : KERNBASE < 2 ^ 32 := by decide
  have page : 0 < PGSIZE := by decide
  have whole := pgroundup_pgroundup (Nat.le_of_lt small)
  have aligned := withStack_aligned sz
  have whole_size : withStack sz = PGROUNDUP sz + 2 * PGSIZE := rfl
  have before : d.Space (PGROUNDUP (PGROUNDUP sz)) RAM (2 ^ 32) := by
    rw [whole]
    exact h.space
  have same_cost : cost (PGROUNDUP sz) = cost sz := by
    unfold cost
    rw [whole]
  have larger : max (PGROUNDUP sz) (withStack sz) = withStack sz := by omega
  have grow := allocuvm_given (l := l) (n := n) before low
  rw [larger, same_cost] at grow
  unfold enter
  rw [Nat.mod_eq_of_lt (by omega), ← whole_size]
  apply given_bind
  refine given_mono (given_returns grow) ?_
  rintro m ⟨d, new⟩ ⟨⟨rfl, same⟩, grown⟩
  have nonzero : new ≠ 0 := by
    have same : new = withStack sz := same
    omega
  obtain ⟨_, same, space⟩ := Public3.allocuvm_returns before nonzero grown
  rw [larger] at same
  subst same
  have sized : Sized d (withStack sz) := ⟨low, space⟩
  have rounded := pgroundup_aligned_eq aligned (Nat.le_of_lt low)
  have guard : (d.pte (withStack sz - 2 * PGSIZE)).isSome = true :=
    sized.filled.below _ (by omega)
  dsimp only
  rw [if_neg nonzero]
  apply given_bind
  refine given_mono (given_returns (clearpteu_given (Pgdir.pde_of_pte guard))) ?_
  rintro m d' ⟨_, cleared⟩
  have ready := sized.ready aligned (by omega) (clearpteu_returns (by omega) cleared)
  rw [stack_strays ready strays]
  exact given_pure rfl

theorem run_given (c : Call l) {ip : Inode} {elf : Elfhdr} {sz : Nat}
    (named : c.namei c.path = some ip) (executable : ip.mode &&& 4 ≠ 0)
    (header : ip.elf = some elf) (fits : ip.size elf.phnum.toNat elf.phoff 0 = some sz)
    (low : withStack sz < KERNBASE)
    (strays : Strays (withStack sz - PGSIZE) 0 (BitVec.ofNat 32 (withStack sz)) c.argv) :
    Given c.run (65 + cost (withStack sz)) fun _ r => r = .error .nullDereference := by
  have small := (size_grows fits kernbase_pos).2
  have rounded : sz ≤ withStack sz :=
    Nat.le_trans (le_pgroundup (Nat.le_of_lt small)) (Nat.le_add_right _ _)
  have grown := cost_mono rounded (Nat.le_of_lt low)
  have split : 65 + cost (withStack sz) =
      0 + (cost (withStack sz) - cost sz) + (cost sz - cost 0) + 65 := by
    rw [cost_zero]
    omega
  unfold Call.run exec
  rw [named]
  dsimp only
  rw [if_neg executable, header, split]
  apply given_bind
  refine given_mono (given_returns (setupkvm_given l _)) ?_
  rintro m r ⟨⟨rfl, d, rfl⟩, returned⟩
  have sized : Sized d 0 := ⟨kernbase_pos, setupkvm_returns returned⟩
  dsimp only
  apply given_bind
  refine given_mono (loadLoop_given sized fits) ?_
  rintro m loaded ⟨rfl, size, sized⟩
  rw [size]
  exact enter_given sized low strays

theorem strays_fails (c : Call l) (strays : c.Strays) : ¬ c.Meets := by
  obtain ⟨ip, elf, sz, named, executable, header, fits, low, pages, strays⟩ := strays
  intro meets
  have given := run_given c named executable header fits low strays
  obtain ⟨_, _, r, ⟨done, ended, _⟩, fault⟩ := given_reached meets given (pool_finite l) pages
  rw [fault] at ended
  cases ended

/-! ## Results -/

/-- A failed exec() leaves everything as it was, whatever the file and the arguments are and
wherever the memory runs out, if and only if no argument strays. -/
theorem exec_atomic_iff (c : Call l) : c.Meets ↔ ¬ c.Strays := by
  constructor
  · exact fun meets strays => strays_fails c strays meets
  · intro stays
    refine wp_mono (run_ends c) ?_
    rintro s r (⟨done, ret, restored⟩ | ⟨done, ret, committed⟩ | ⟨strays⟩)
    · exact ⟨done, rfl, fun _ => restored⟩
    · refine ⟨done, rfl, fun failed => ?_⟩
      rw [ret] at failed
      cases failed
    · exact absurd strays stays

/-! A process of 40 megabytes passes a string of 40000000 bytes to a program without segments. -/

def frameAt (n : Nat) : Page := BitVec.ofNat 32 (n * PGSIZE)

/-- The page directory of the process, with the kernel half. -/
def bigPgdir : Pgdir where
  page := frameAt 1000
  pde i :=
    if i.val < 10 then
      some ⟨frameAt (1001 + i.val), fun j => some ⟨frameAt (3000 + 1024 * i.val + j.val), user⟩⟩
    else if 512 ≤ i.val ∧ i.val < 568 ∨ 1016 ≤ i.val then
      some ⟨frameAt (1001 + i.val), fun j =>
        some ⟨frameAt (1024 * (if i.val < 568 then i.val - 512 else i.val) + j.val), ⟨true, false⟩⟩⟩
    else none

/-- The page at a place of it. -/
def bigNumber : Pgdir.Slot → Option Nat
  | .pgdir => some 1000
  | .pgtab i =>
      if i.val < 10 ∨ 512 ≤ i.val ∧ i.val < 568 ∨ 1016 ≤ i.val then some (1001 + i.val) else none
  | .user i j => if i.val < 10 then some (3000 + 1024 * i.val + j.val) else none

theorem bigPgdir_owned (slot : Pgdir.Slot) :
    bigPgdir.owned slot = (bigNumber slot).map frameAt := by
  cases slot with
  | pgdir => rfl
  | pgtab i =>
      simp only [Pgdir.owned, bigPgdir, bigNumber]
      split_ifs <;> first | rfl | omega
  | user i j =>
      simp only [Pgdir.owned, bigPgdir, bigNumber]
      split_ifs <;> first | rfl | omega

theorem bigNumber_pgtab {i : Fin NPDENTRIES} {n : Nat} (here : bigNumber (.pgtab i) = some n) :
    n = 1001 + i.val := by
  simp only [bigNumber] at here
  split_ifs at here
  cases here
  rfl

theorem bigNumber_user {i : Fin NPDENTRIES} {j : Fin NPTENTRIES} {n : Nat}
    (here : bigNumber (.user i j) = some n) : i.val < 10 ∧ n = 3000 + 1024 * i.val + j.val := by
  simp only [bigNumber] at here
  split_ifs at here with low
  cases here
  exact ⟨low, rfl⟩

theorem bigNumber_bounds {slot : Pgdir.Slot} {n : Nat} (here : bigNumber slot = some n) :
    1000 ≤ n ∧ n < 20000 := by
  cases slot with
  | pgdir =>
      cases here
      decide
  | pgtab i =>
      have inside : i.val < 1024 := i.isLt
      have := bigNumber_pgtab here
      omega
  | user i j =>
      have inside : j.val < 1024 := j.isLt
      have := bigNumber_user here
      omega

theorem bigNumber_inj {slot slot' : Pgdir.Slot} {n : Nat} (first : bigNumber slot = some n)
    (second : bigNumber slot' = some n) : slot = slot' := by
  have one : bigNumber .pgdir = some n → n = 1000 := fun here => (Option.some.inj here).symm
  cases slot with
  | pgdir =>
      have here := one first
      cases slot' with
      | pgdir => rfl
      | pgtab i =>
          have := bigNumber_pgtab second
          omega
      | user i j =>
          have := bigNumber_user second
          omega
  | pgtab i =>
      have inside : i.val < 1024 := i.isLt
      have here := bigNumber_pgtab first
      cases slot' with
      | pgdir =>
          have := one second
          omega
      | pgtab i' =>
          have there := bigNumber_pgtab second
          rw [Fin.ext (by omega : i.val = i'.val)]
      | user i' j' =>
          have := bigNumber_user second
          omega
  | user i j =>
      have inside : j.val < 1024 := j.isLt
      have here := bigNumber_user first
      cases slot' with
      | pgdir =>
          have := one second
          omega
      | pgtab i' =>
          have inside' : i'.val < 1024 := i'.isLt
          have := bigNumber_pgtab second
          omega
      | user i' j' =>
          have inside' : j'.val < 1024 := j'.isLt
          have there := bigNumber_user second
          rw [Fin.ext (by omega : i.val = i'.val), Fin.ext (by omega : j.val = j'.val)]

theorem frameAt_toNat {n : Nat} (small : n < 2 ^ 20) : (frameAt n).toNat = n * PGSIZE := by
  rw [frameAt, BitVec.toNat_ofNat]
  simp only [PGSIZE]
  omega

def bigLayout : Layout where
  data := 0x80108000
  kend := 0x80115000
  data_aligned := by decide
  data_after := by decide
  data_before := by decide
  kend_after := by decide

theorem frameAt_pool {n : Nat} (first : 1000 ≤ n) (last : n < 50000) :
    frameAt n ∈ bigLayout.pool := by
  have value := frameAt_toNat (n := n) (by omega)
  refine ⟨?_, ?_, ?_⟩
  · rw [value]
    exact Nat.mul_mod_left n PGSIZE
  · rw [value]
    simp only [bigLayout, KERNBASE, PGSIZE]
    omega
  · rw [value]
    simp only [PHYSTOP, PGSIZE]
    omega

theorem frameAt_inj {m n : Nat} (first : m < 50000) (second : n < 50000)
    (same : frameAt m = frameAt n) : m = n := by
  have values := congrArg BitVec.toNat same
  rw [frameAt_toNat (by omega), frameAt_toNat (by omega)] at values
  simp only [PGSIZE] at values
  omega

/-- Only the pages of the process are taken. -/
def bigHeld : Set Page := {page | ∃ slot, bigPgdir.owned slot = some page}

theorem bigPgdir_number {slot : Pgdir.Slot} {page : Page}
    (here : bigPgdir.owned slot = some page) :
    ∃ n, bigNumber slot = some n ∧ 1000 ≤ n ∧ n < 20000 ∧ page = frameAt n := by
  rw [bigPgdir_owned, Option.map_eq_some_iff] at here
  obtain ⟨n, numbered, rfl⟩ := here
  obtain ⟨first, last⟩ := bigNumber_bounds numbered
  exact ⟨n, numbered, first, last, rfl⟩

theorem bigPgdir_owns : Owns bigLayout bigPgdir ∅ bigHeld := by
  constructor
  case inside =>
    rintro page ⟨slot, here⟩
    obtain ⟨n, _, first, last, rfl⟩ := bigPgdir_number here
    exact frameAt_pool first (by omega)
  case once =>
    intro slot slot' page here there
    obtain ⟨n, numbered, _, small, rfl⟩ := bigPgdir_number here
    obtain ⟨n', numbered', _, small', same⟩ := bigPgdir_number there
    obtain rfl := frameAt_inj (by omega) (by omega) same
    exact bigNumber_inj numbered numbered'
  case apart => exact fun _ impossible => Set.notMem_empty _ impossible
  case all =>
    intro page
    constructor
    · exact Or.inr
    · rintro (impossible | here)
      · exact absurd impossible (Set.notMem_empty page)
      · exact here

theorem bigHeld_leaves : 68 ≤ (bigLayout.pool \ bigHeld).ncard := by
  have inside : Set.MapsTo (fun k => frameAt (20000 + k)) (Finset.range 68 : Set Nat)
      (bigLayout.pool \ bigHeld) := by
    intro k member
    have small : k < 68 := Finset.mem_range.mp member
    refine ⟨frameAt_pool (by omega) (by omega), ?_⟩
    rintro ⟨slot, here⟩
    obtain ⟨n, _, _, last, same⟩ := bigPgdir_number here
    have := frameAt_inj (by omega) (by omega) same
    omega
  have once : Set.InjOn (fun k => frameAt (20000 + k)) (Finset.range 68 : Set Nat) := by
    intro j first k second same
    have small : j < 68 := Finset.mem_range.mp first
    have small' : k < 68 := Finset.mem_range.mp second
    have := frameAt_inj (by omega) (by omega) same
    omega
  have counted := Set.ncard_le_ncard_of_injOn _ inside once
    ((pool_finite bigLayout).subset Set.sdiff_subset)
  rw [Set.ncard_coe_finset, Finset.card_range] at counted
  exact counted

/-- An ELF header without program headers. -/
def emptyProgram : Inode where
  mode := 7
  content := .file ([0x7F, 0x45, 0x4C, 0x46] ++ List.replicate 48 0)

def longArgument : List Byte := List.replicate 40000000 0x61

def bigCall : Call bigLayout where
  namei _ := some emptyProgram
  proc := ⟨bigPgdir, 41943040, List.replicate 16 0, 0, 0, 0⟩
  mem _ := 0
  fs := ⟨0, 0, 0⟩
  path := [0x61]
  argv := [longArgument]
  frame := ∅
  held := bigHeld
  owns := bigPgdir_owns
  small := by decide
  text := by
    intro s member
    rw [List.mem_singleton.mp member]
    intro nul
    have letter : (0 : Byte) ≠ 0x61 := by decide
    exact letter (List.eq_of_mem_replicate nul)
  inside := by
    intro s member
    rw [List.mem_singleton.mp member, longArgument, List.length_replicate]
    decide

theorem bigCall_strays : bigCall.Strays := by
  have header : emptyProgram.elf = some ⟨ELF_MAGIC, 0, 0, 0⟩ := by decide
  refine ⟨emptyProgram, _, 0, rfl, by decide, header, rfl, by decide, ?_, ?_⟩
  · exact bigHeld_leaves
  · have place : (push (BitVec.ofNat 32 (withStack 0)) 40000000).toNat = 4254975484 := by decide
    refine ⟨by decide, ?_⟩
    rw [longArgument, List.length_replicate, if_neg (by decide), place]
    decide

/-- The kernel follows a null pointer: exec() is not atomic. -/
theorem long_argument_strays : ¬ bigCall.Meets := strays_fails bigCall bigCall_strays

/-- The stack of a new image can be decoded, and no argument list has written below it. -/
theorem exec_decodable (c : Call l) :
    Does l True c.run c.held fun _ r =>
      ∀ done, r = .ok done → done.ret = 0 → c.Committed done := by
  refine wp_mono (run_ends c) ?_
  rintro s r (⟨done, ret, _⟩ | ⟨done, ret, committed⟩ | ⟨strays⟩)
  · rintro _ ⟨⟩ entered
    rw [ret] at entered
    cases entered
  · rintro _ ⟨⟩ _
    exact committed
  · rintro _ ⟨⟩

end Xv6.Public1.Exec
