import Mathlib.Algebra.Group.Int.Defs
import Xv6.Public1.UserHeapRuns

/-!
# The user heap in the memory of its process (xv6-public_1)

malloc() and free() of umalloc.c with 32-bit words, on what sbrk() of the kernel really does
with the argument that morecore() hands it: growproc() takes it as an int.
-/

set_option autoImplicit false

namespace Xv6.Public1.UserMemory

open Xv6.Lib.Links
open Xv6.Lib.Runs
open Xv6.Public1.UserHeap
open scoped List

/-! ## The kernel -/

def KERNBASE : Nat := 2 ^ 31

/-- Whether the loop of allocuvm() gets its pages, from the old size to the new one. -/
abbrev Pages := Nat → Nat → Bool

/-- The result of allocuvm(), 0 for a failure. -/
def allocuvm (pages : Pages) (oldsz newsz : Nat) : Nat :=
  if newsz ≥ KERNBASE then 0
  else if newsz < oldsz then oldsz
  else if pages oldsz newsz then newsz
  else 0

def deallocuvm (oldsz newsz : Nat) : Nat := if newsz ≥ oldsz then oldsz else newsz

/-- `sz + n` of a uint and an int -/
def plus (sz : Nat) (n : Int) : Nat := ((sz + n) % 2 ^ 32).toNat

/-- The new `sz`; `none` for -1. -/
def growproc (pages : Pages) (sz : Nat) (n : Int) : Option Nat :=
  if n > 0 then
    if allocuvm pages sz (plus sz n) = 0 then none else some (allocuvm pages sz (plus sz n))
  else if n < 0 then
    if deallocuvm sz (plus sz n) = 0 then none else some (deallocuvm sz (plus sz n))
  else some sz

/-! ## The allocator -/

/-- A call of sbrk() by morecore(): the units that it wants, and the argument. -/
structure Request where
  units : Nat
  bytes : Int

/-- The byte count is that of the units, and positive. -/
def Request.Exact (request : Request) : Prop :=
  0 < request.bytes ∧ request.bytes = HEADER * request.units

structure Process where
  heap : Heap
  sz : Nat
  /-- The calls of sbrk() by morecore() so far, the last one first. -/
  asked : List Request

/-- `nu * sizeof(Header)` as the int that sbrk() takes. -/
def sbrkArg (nu : Nat) : Int := (BitVec.ofNat 32 (nu * HEADER)).toInt

/-- `p + n` for a pointer to a header. -/
def header (p n : Nat) : Nat := (p + HEADER * n) % 2 ^ 32

def joinRight (h : Heap) (bp p : Nat) : Heap :=
  if header bp (size h bp) = next h p then
    store h bp ⟨next h (next h p), (size h bp + size h (next h p)) % 2 ^ 32⟩
  else store h bp ⟨next h p, size h bp⟩

def joinLeft (h : Heap) (bp p : Nat) : Heap :=
  if header p (size h p) = bp then store h p ⟨next h bp, (size h p + size h bp) % 2 ^ 32⟩
  else store h p ⟨bp, size h p⟩

def free (fuel : Nat) (h : Heap) (ap : Nat) : Option Heap :=
  let bp := ap - HEADER
  (walk (next h) (freeStop h bp) fuel h.freep).map fun p =>
    { joinLeft (joinRight h bp p) bp p with freep := p }

/-- The result and the process after it; no result while the loop of free() goes on. -/
def morecore (fuel : Nat) (pages : Pages) (s : Process) (nu : Nat) : Option Nat × Process :=
  let nu := if nu < 4096 then 4096 else nu
  let s := { s with asked := ⟨nu, sbrkArg nu⟩ :: s.asked }
  match growproc pages s.sz (sbrkArg nu) with
  | none => (some 0, s)
  | some sz =>
      let s' := { s with sz := sz, heap := grow s.heap s.sz nu }
      match free fuel s'.heap (header s.sz 1) with
      | none => (none, s')
      | some h => (some h.freep, { s' with heap := h })

def allocate (h : Heap) (nunits prevp p : Nat) : Nat × Heap :=
  if size h p = nunits then
    (header p 1, { store h prevp ⟨next h p, size h prevp⟩ with freep := prevp })
  else
    let h := store h p ⟨next h p, size h p - nunits⟩
    let q := header p (size h p)
    (header q 1, { store h q ⟨next h q, nunits⟩ with freep := prevp })

def mallocLoop (pages : Pages) (nunits : Nat) :
    Nat → Process → Nat → Nat → Option Nat × Process
  | 0, s, _, _ => (none, s)
  | fuel + 1, s, prevp, p =>
      if size s.heap p ≥ nunits then
        (some (allocate s.heap nunits prevp p).1,
          { s with heap := (allocate s.heap nunits prevp p).2 })
      else if p = s.heap.freep then
        match morecore fuel pages s nunits with
        | (none, s) => (none, s)
        | (some p, s) =>
            if p = 0 then (some 0, s) else mallocLoop pages nunits fuel s p (next s.heap p)
      else mallocLoop pages nunits fuel s p (next s.heap p)

/-- The pointer returned, 0 for null; `none` while it runs. -/
def malloc (fuel base : Nat) (pages : Pages) (s : Process) (nbytes : Nat) :
    Option Nat × Process :=
  let s := { s with heap := prepare base s.heap }
  mallocLoop pages (unitsFor nbytes) fuel s s.heap.freep (next s.heap s.heap.freep)

/-! ## Programs -/

structure State where
  process : Process
  live : List Block

/-- The request in bytes still is one as an int. -/
def Fits (nbytes : Nat) : Prop := nbytes ≤ 2 ^ 31 - 16

instance (nbytes : Nat) : Decidable (Fits nbytes) := Nat.decLe _ _

inductive Event where
  | malloc (nbytes : Nat) (pages : Pages)
  | free (ap : Nat)
  /-- The program itself asks for more memory, by a positive int. -/
  | sbrk (bytes : Nat) (pages : Pages)

def step (base : Nat) (s : State) : Event → Option State
  | .malloc nbytes pages =>
      if Fits nbytes then
        match malloc (rounds s.process.heap) base pages s.process nbytes with
        | (none, _) => none
        | (some ap, process) =>
            some ⟨process, if ap = 0 then s.live else ⟨ap - HEADER, nbytes⟩ :: s.live⟩
      else none
  | .free ap =>
      if s.live.any (isAt ap) then
        (free (rounds s.process.heap) s.process.heap ap).map fun heap =>
          ⟨{ s.process with heap := heap }, s.live.eraseP (isAt ap)⟩
      else none
  | .sbrk bytes pages =>
      if 0 < bytes ∧ bytes < KERNBASE then
        match growproc pages s.process.sz bytes with
        | none => some s
        | some sz =>
            some { s with process :=
              { s.process with sz := sz, heap := { s.process.heap with top := sz } } }
      else none

/-- Where the program's memory is before the first call: not in the kernel's part. -/
structure Image extends UserHeap.Image where
  low : top < KERNBASE

def start (image : Image) (hdr : Nat → Header) : State :=
  ⟨⟨⟨hdr, 0, image.top, 0⟩, image.top, []⟩, []⟩

/-! ## The property -/

/-- The block at `ap` is the program's own. -/
structure Usable (s : State) (nbytes : Nat) (after : Process) (ap : Nat) : Prop where
  behind : HEADER ≤ ap
  room : HEADER + nbytes ≤ HEADER * size after.heap (ap - HEADER)
  inside : ap - HEADER + HEADER * size after.heap (ap - HEADER) ≤ after.sz
  apart : ∀ b ∈ s.live, Apart after.heap (ap - HEADER) b.bp

/-- What malloc() did was right. -/
structure Served (s : State) (nbytes : Nat) (r : Option Nat × Process) : Prop where
  returns : ∃ ap, r.1 = some ap ∧ (ap = 0 ∨ Usable s nbytes r.2 ap)
  /-- The heap does not shrink. -/
  keeps : s.process.sz ≤ r.2.sz
  asks : ∃ asked, r.2.asked = asked ++ s.process.asked ∧ ∀ request ∈ asked, request.Exact

/-- The rounding does not wrap, and the call ends right. -/
def Right (base : Nat) (s : State) (nbytes : Nat) (pages : Pages) : Prop :=
  HEADER + nbytes ≤ HEADER * unitsFor nbytes ∧
    ∃ enough, ∀ fuel, enough ≤ fuel → Served s nbytes (malloc fuel base pages s.process nbytes)

/-! ## Arithmetic -/

theorem sbrkArg_small {nu : Nat} (small : nu * HEADER < KERNBASE) :
    sbrkArg nu = HEADER * nu := by
  unfold KERNBASE at small
  rw [sbrkArg, BitVec.toInt_eq_toNat_cond, BitVec.toNat_ofNat, Nat.mod_eq_of_lt (by omega),
    if_pos (by omega), Nat.mul_comm]
  rfl

/-- From half of the address space on the argument is not positive. -/
theorem sbrkArg_huge {nu : Nat} (huge : KERNBASE ≤ nu * HEADER) (most : nu * HEADER ≤ 2 ^ 32) :
    sbrkArg nu ≤ 0 := by
  unfold KERNBASE at huge
  rw [sbrkArg, BitVec.toInt_eq_toNat_cond, BitVec.toNat_ofNat]
  by_cases whole : nu * HEADER = 2 ^ 32
  · rw [whole]
    decide
  · rw [Nat.mod_eq_of_lt (by omega), if_neg (by omega)]
    omega

theorem fits_iff {nbytes : Nat} (word : nbytes < 2 ^ 32) :
    Fits nbytes ↔ HEADER + nbytes ≤ HEADER * unitsFor nbytes ∧
      unitsFor nbytes * HEADER < KERNBASE := by
  unfold Fits unitsFor KERNBASE HEADER
  by_cases wraps : nbytes + (8 - 1) < 2 ^ 32
  · rw [Nat.mod_eq_of_lt wraps]
    omega
  · have rest : (nbytes + (8 - 1)) % 2 ^ 32 / 8 = 0 := by omega
    rw [rest]
    omega

theorem plus_small {sz n : Nat} (small : sz + n < 2 ^ 32) : plus sz n = sz + n := by
  unfold plus
  omega

/-- growproc() by a positive number moves the end up. -/
theorem growproc_up {pages : Pages} {sz n sz' : Nat} (low : sz < KERNBASE) (some : 0 < n)
    (int : n < KERNBASE) (grown : growproc pages sz n = Option.some sz') :
    sz' = sz + n ∧ sz' < KERNBASE := by
  unfold KERNBASE at low int
  have sum : plus sz n = sz + n := plus_small (by omega)
  have positive : (n : Int) > 0 := by omega
  have result : allocuvm pages sz (sz + n) = 0 ∨
      allocuvm pages sz (sz + n) = sz + n ∧ sz + n < KERNBASE := by
    rw [allocuvm]
    split
    · exact .inl rfl
    · rename_i below
      rw [if_neg (by omega)]
      split
      · exact .inr ⟨rfl, Nat.lt_of_not_le below⟩
      · exact .inl rfl
  rw [growproc, if_pos positive, sum] at grown
  rcases result with zero | ⟨same, below⟩
  · rw [if_pos zero] at grown
    cases grown
  · rw [same, if_neg (by omega)] at grown
    have end_ := Option.some.inj grown
    exact ⟨end_.symm, end_ ▸ below⟩

/-! ## The words are large enough -/

section Words
variable {base : Nat} {h : Heap} {nodes used : List Nat} {bp p : Nat}

theorem below_limit {all : List Nat} (blocks : Blocks base h all) (low : h.top < KERNBASE)
    (member : p ∈ all) : after h p < 2 ^ 31 ∧ size h p < 2 ^ 28 := by
  have below := blocks.below p member
  unfold KERNBASE at low
  unfold after HEADER at below ⊢
  omega

theorem header_after (small : after h p < 2 ^ 31) : header p (size h p) = after h p :=
  Nat.mod_eq_of_lt (Nat.lt_trans small (by decide))

theorem joinRight_words (shape : Shape base h nodes (bp :: used)) (low : h.top < KERNBASE)
    (member : p ∈ nodes) : joinRight h bp p = UserHeap.joinRight h bp p := by
  have inside : bp ∈ nodes ++ bp :: used := List.mem_append_right _ List.mem_cons_self
  have own := below_limit shape.blocks low inside
  have right := below_limit shape.blocks low
    (List.mem_append_left (bp :: used) (shape.ring.next_mem member))
  rw [joinRight, UserHeap.joinRight, header_after own.1, Nat.mod_eq_of_lt (by omega)]

theorem size_joinRight (h : Heap) (bp p c : Nat) : size (UserHeap.joinRight h bp p) c =
    if c = bp then (if after h bp = next h p then size h bp + size h (next h p) else size h bp)
    else size h c := by
  rw [UserHeap.joinRight]
  split
  · rw [size_store]
  · rw [size_store]

theorem joinLeft_words (shape : Shape base h nodes (bp :: used)) (low : h.top < KERNBASE)
    (member : p ∈ nodes) (other : p ≠ bp) :
    joinLeft (UserHeap.joinRight h bp p) bp p =
      UserHeap.joinLeft (UserHeap.joinRight h bp p) bp p := by
  have inside : bp ∈ nodes ++ bp :: used := List.mem_append_right _ List.mem_cons_self
  have own := below_limit shape.blocks low inside
  have left := below_limit shape.blocks low (List.mem_append_left (bp :: used) member)
  have right := below_limit shape.blocks low
    (List.mem_append_left (bp :: used) (shape.ring.next_mem member))
  have kept : size (UserHeap.joinRight h bp p) p = size h p := by
    rw [size_joinRight, if_neg other]
  have joined : size (UserHeap.joinRight h bp p) bp ≤ size h bp + size h (next h p) := by
    rw [size_joinRight, if_pos rfl]
    split
    · exact Nat.le_refl _
    · exact Nat.le_add_right _ _
  have end_ : after (UserHeap.joinRight h bp p) p = after h p := after_congr kept
  rw [joinLeft, UserHeap.joinLeft, header_after (end_ ▸ left.1), Nat.mod_eq_of_lt (by omega)]

theorem walk_mem {stop : Nat → Bool} (ring : Ring (next h) nodes) {fuel a : Nat}
    (start : a ∈ nodes) (found : walk (next h) stop fuel a = some p) : p ∈ nodes := by
  induction fuel generalizing a with
  | zero => cases found
  | succ fuel ih =>
      rw [walk] at found
      split at found
      · exact Option.some.inj found ▸ start
      · exact ih (ring.next_mem start) found

theorem free_words (shape : Shape base h nodes (bp :: used)) (low : h.top < KERNBASE)
    (fuel : Nat) : free fuel h (bp + HEADER) = UserHeap.free fuel h (bp + HEADER) := by
  have turned : Blocks base h (bp :: (nodes ++ used)) := shape.blocks.perm List.perm_middle
  have notBase : bp ≠ base := fun same => shape.other (same ▸ List.mem_cons_self)
  have outside : bp ∉ nodes := fun inside =>
    turned.fresh notBase (List.mem_append_left used inside)
  unfold free UserHeap.free
  dsimp only
  rw [Nat.add_sub_cancel]
  refine Option.map_congr fun p found => ?_
  have member := walk_mem shape.ring shape.freep found
  have other : p ≠ bp := fun same => outside (same ▸ member)
  rw [joinRight_words shape low member, joinLeft_words shape low member other]

theorem allocate_words {n prevp : Nat} (shape : Shape base h nodes used)
    (low : h.top < KERNBASE) (member : p ∈ nodes) (some : 0 < n) (large : n ≤ size h p) :
    allocate h n prevp p = UserHeap.allocate h n prevp p := by
  have inside := below_limit shape.blocks low (List.mem_append_left used member)
  have end_ : after h p < 2 ^ 31 := inside.1
  unfold after HEADER at end_
  rw [allocate, UserHeap.allocate]
  split
  · rw [header, Nat.mod_eq_of_lt (by unfold HEADER; omega)]
    rfl
  · have rest : size (store h p ⟨next h p, size h p - n⟩) p = size h p - n :=
      (size_store _ _ _ _).trans (if_pos rfl)
    have cut : header p (size (store h p ⟨next h p, size h p - n⟩) p) =
        after (store h p ⟨next h p, size h p - n⟩) p := by
      rw [header, after, rest]
      exact Nat.mod_eq_of_lt (by unfold HEADER; omega)
    dsimp only
    rw [cut, header, Nat.mod_eq_of_lt]
    · rfl
    · rw [after, rest]
      unfold HEADER
      omega

end Words

/-! ## Requests that fit -/

/-- sbrk() of the kernel for an argument that stays positive. -/
def kernel (pages : Pages) : Sbrk where
  get top n :=
    if top < KERNBASE ∧ 0 < n ∧ n < KERNBASE then (growproc pages top n).map fun _ => top
    else none
  fresh := by
    intro top n a given
    rw [Option.ite_none_right_eq_some] at given
    obtain ⟨⟨low, _, int⟩, given⟩ := given
    obtain ⟨sz, _, same⟩ := Option.map_eq_some_iff.mp given
    unfold KERNBASE at low int
    omega

/-- What a call that fits does to the process. -/
structure Goes (s s' : Process) : Prop where
  end_ : s'.heap.top = s'.sz
  low : s'.sz < KERNBASE
  keeps : s.sz ≤ s'.sz
  asks : ∃ asked, s'.asked = asked ++ s.asked ∧ ∀ request ∈ asked, request.Exact

theorem Goes.trans {first second third : Process} (before : Goes first second)
    (later : Goes second third) : Goes first third where
  end_ := later.end_
  low := later.low
  keeps := before.keeps.trans later.keeps
  asks := by
    obtain ⟨old, asked₁, exact₁⟩ := before.asks
    obtain ⟨new, asked₂, exact₂⟩ := later.asks
    refine ⟨new ++ old, by rw [asked₂, asked₁, List.append_assoc], fun request listed => ?_⟩
    exact (List.mem_append.mp listed).elim (exact₂ request) (exact₁ request)

theorem free_top {fuel : Nat} {h h' : Heap} {ap : Nat} (freed : UserHeap.free fuel h ap = some h') :
    h'.top = h.top := by
  obtain ⟨p, _, rfl⟩ := Option.map_eq_some_iff.mp freed
  show (UserHeap.joinLeft (UserHeap.joinRight h (ap - HEADER) p) (ap - HEADER) p).top = h.top
  unfold UserHeap.joinLeft UserHeap.joinRight
  split
  all_goals (split; all_goals rfl)

theorem allocate_top (h : Heap) (n prevp p : Nat) :
    (UserHeap.allocate h n prevp p).2.top = h.top := by
  rw [UserHeap.allocate]
  split
  all_goals rfl

section Words
variable {base n : Nat} {s : Process} {nodes used : List Nat} {pages : Pages}

theorem morecore_words (shape : Shape base s.heap nodes used) (end_ : s.heap.top = s.sz)
    (low : s.sz < KERNBASE) (small : n * HEADER < KERNBASE) {fuel : Nat} {r : Nat × Heap}
    (old : UserHeap.morecore fuel (kernel pages) s.heap n = some r) :
    ∃ s', morecore fuel pages s n = (some r.1, s') ∧ s'.heap = r.2 ∧ Goes s s' ∧
      (r.1 = 0 ∨ r.1 = s'.heap.freep) ∧ ∃ nodes', Shape base s'.heap nodes' used := by
  obtain ⟨nu, least⟩ : ∃ nu, nu = if n < 4096 then 4096 else n := ⟨_, rfl⟩
  have more : 0 < nu ∧ nu * HEADER < KERNBASE := by
    rw [least]
    unfold HEADER KERNBASE at small ⊢
    split
    all_goals omega
  have arg := sbrkArg_small more.2
  have asks : Request.Exact ⟨nu, sbrkArg nu⟩ := by
    refine ⟨?_, arg⟩
    show 0 < sbrkArg nu
    rw [arg]
    unfold HEADER
    omega
  unfold UserHeap.morecore at old
  unfold morecore
  dsimp only at old ⊢
  rw [← least] at old ⊢
  have cast : sbrkArg nu = ((nu * HEADER : Nat) : Int) := by
    rw [arg, Nat.mul_comm]
    rfl
  have word : nu * HEADER % 2 ^ 32 = nu * HEADER :=
    Nat.mod_eq_of_lt (Nat.lt_trans more.2 (by decide))
  have bytes : 0 < nu * HEADER := Nat.mul_pos more.1 (by decide)
  have asked : (kernel pages).get s.heap.top (nu * HEADER) =
      (growproc pages s.sz (sbrkArg nu)).map fun _ => s.sz := by
    show (if _ then _ else _) = _
    rw [end_, if_pos ⟨low, bytes, more.2⟩, cast]
  rw [word, asked] at old
  cases grown : growproc pages s.sz (sbrkArg nu) with
  | none =>
      rw [grown] at old
      obtain rfl := Option.some.inj old
      refine ⟨_, rfl, rfl, ⟨end_, low, Nat.le_refl _, [_], rfl, ?_⟩, .inl rfl, nodes, shape⟩
      intro request listed
      exact List.mem_singleton.mp listed ▸ asks
  | some sz =>
      rw [grown] at old
      obtain ⟨higher, below⟩ := growproc_up low bytes more.2 (cast ▸ grown)
      obtain ⟨shape', _⟩ := @Shape.grown base s.heap nodes used shape s.sz nu more.1
        (Nat.le_of_eq end_)
      have top : (grow s.heap s.sz nu).top = sz := higher.symm
      obtain ⟨h', freed, result⟩ := Option.map_eq_some_iff.mp old
      have next_ : header s.sz 1 = s.sz + HEADER := by
        unfold header HEADER
        unfold KERNBASE at low
        omega
      have words : free fuel (grow s.heap s.sz nu) (header s.sz 1) = some h' := by
        rw [next_, free_words shape' (top ▸ below)]
        exact freed
      obtain ⟨h'', nodes', again, shape'', _⟩ := @free_shape base _ _ _ nodes
        (fuel + nodes.length) shape' (Nat.le_add_left _ _)
      obtain rfl := Option.some.inj ((free_more freed (Nat.le_add_right _ _)).symm.trans again)
      dsimp only
      rw [words]
      subst result
      refine ⟨_, rfl, rfl, ⟨(free_top freed).trans top, below, ?_, [_], rfl, ?_⟩, .inr rfl,
        nodes', shape''⟩
      · show s.sz ≤ sz
        omega
      · intro request listed
        exact List.mem_singleton.mp listed ▸ asks

theorem mallocLoop_words (some : 0 < n) (small : n * HEADER < KERNBASE) {fuel : Nat}
    (shape : Shape base s.heap nodes used) (end_ : s.heap.top = s.sz) (low : s.sz < KERNBASE)
    {prevp p : Nat} (member : p ∈ nodes) {r : Nat × Heap}
    (old : UserHeap.mallocLoop (kernel pages) n fuel s.heap prevp p = Option.some r) :
    ∃ s', mallocLoop pages n fuel s prevp p = (Option.some r.1, s') ∧ s'.heap = r.2 ∧
      Goes s s' := by
  induction fuel generalizing s nodes prevp p with
  | zero => cases old
  | succ fuel ih =>
      rw [UserHeap.mallocLoop] at old
      rw [mallocLoop]
      by_cases large : size s.heap p ≥ n
      · rw [if_pos large] at old ⊢
        obtain rfl := Option.some.inj old
        rw [allocate_words shape (end_ ▸ low) member some large]
        refine ⟨_, rfl, rfl, (allocate_top ..).trans end_, low, Nat.le_refl _, [], rfl, ?_⟩
        exact List.forall_mem_nil _
      rw [if_neg large] at old ⊢
      by_cases last : p = s.heap.freep
      · rw [if_pos last] at old ⊢
        cases got : UserHeap.morecore fuel (kernel pages) s.heap n with
        | none =>
            rw [got] at old
            cases old
        | some found =>
            rw [got] at old
            obtain ⟨s', same, heap, goes, where_, nodes', shape'⟩ :=
              morecore_words shape end_ low small got
            rw [same]
            dsimp only at old ⊢
            by_cases null : found.1 = 0
            · rw [if_pos null] at old ⊢
              obtain rfl := Option.some.inj old
              exact ⟨s', rfl, heap, goes⟩
            · rw [if_neg null] at old ⊢
              have freep : found.1 ∈ nodes' :=
                where_.resolve_left null ▸ shape'.freep
              rw [← heap] at old
              obtain ⟨s'', ended, heap', goes'⟩ :=
                ih shape' goes.end_ goes.low (shape'.ring.next_mem freep) old
              exact ⟨s'', ended, heap', goes.trans goes'⟩
      · rw [if_neg last] at old ⊢
        exact ih shape end_ low (shape.ring.next_mem member) old

end Words

/-! ## Requests that do not fit -/

section Huge
variable {base n : Nat} {s : Process} {nodes used : List Nat} {pages : Pages}

theorem morecore_asked (fuel : Nat) (pages : Pages) (s : Process) (nu : Nat) :
    (morecore fuel pages s nu).2.asked =
      ⟨if nu < 4096 then 4096 else nu, sbrkArg (if nu < 4096 then 4096 else nu)⟩ :: s.asked := by
  unfold morecore
  dsimp only
  split
  · rfl
  · split
    · rfl
    · rfl

/-- What has been asked stays in the list. -/
theorem mallocLoop_asked (pages : Pages) (n fuel : Nat) (s : Process) (prevp p : Nat) :
    ∃ asked, (mallocLoop pages n fuel s prevp p).2.asked = asked ++ s.asked := by
  induction fuel generalizing s prevp p with
  | zero => exact ⟨[], rfl⟩
  | succ fuel ih =>
      have more := morecore_asked fuel pages s n
      rw [mallocLoop]
      split
      · exact ⟨[], rfl⟩
      split
      · split
        · rename_i got
          rw [got] at more
          exact ⟨[_], more⟩
        · rename_i got
          rw [got] at more
          split
          · exact ⟨[_], more⟩
          · obtain ⟨asked, same⟩ := ih _ _ _
            exact ⟨asked ++ [_], by rw [same, more, List.append_assoc]; rfl⟩
      · exact ih s p _

/-- No free block is as large as the address space, so morecore() asks for the wrong number. -/
theorem mallocLoop_huge (shape : Shape base s.heap nodes used) (low : s.heap.top < KERNBASE)
    (huge : KERNBASE ≤ n * HEADER) (most : n * HEADER ≤ 2 ^ 32) (pages : Pages) :
    ∃ steps, ∀ fuel, ∃ asked request, ¬ Request.Exact request ∧
      (mallocLoop pages n (steps + (fuel + 1)) s s.heap.freep (next s.heap s.heap.freep)).2.asked =
        asked ++ request :: s.asked := by
  have passes : ∀ fuel prevp p, size s.heap p < n → p ≠ s.heap.freep →
      mallocLoop pages n (fuel + 1) s prevp p = mallocLoop pages n fuel s p (next s.heap p) := by
    intro fuel prevp p little other
    rw [mallocLoop, if_neg (Nat.not_le.mpr little), if_neg other]
  obtain ⟨steps, q, z, _, member, link, reached, looped⟩ := @scan_turn base s.heap nodes used
    shape n _ (fun fuel => mallocLoop pages n fuel s) passes
  have inside : z ∈ nodes := link ▸ shape.ring.next_mem member
  have little : size s.heap z < n := by
    have small := (below_limit shape.blocks low (List.mem_append_left used inside)).2
    unfold KERNBASE HEADER at huge
    omega
  have last : z = s.heap.freep := (reached.resolve_left (Nat.not_le.mpr little)).1
  have large : ¬ n < 4096 := by
    unfold KERNBASE HEADER at huge
    omega
  refine ⟨steps, fun fuel => ?_⟩
  rw [looped, mallocLoop, if_neg (Nat.not_le.mpr little), if_pos last]
  have more := morecore_asked fuel pages s n
  rw [if_neg large] at more
  have wrong : ¬ Request.Exact ⟨n, sbrkArg n⟩ :=
    fun exact_ => absurd exact_.1 (Int.not_lt.mpr (sbrkArg_huge huge most))
  split
  · rename_i got
    rw [got] at more
    exact ⟨[], _, wrong, more⟩
  · rename_i got
    rw [got] at more
    split
    · exact ⟨[], _, wrong, more⟩
    · obtain ⟨asked, same⟩ := mallocLoop_asked pages n fuel _ _ _
      exact ⟨asked, _, wrong, same.trans (congrArg (asked ++ ·) more)⟩

end Huge

/-! ## Runs -/

structure Fair (base : Nat) (s : State) : Prop where
  heap : UserHeap.Inv base ⟨s.process.heap, s.live⟩
  end_ : s.process.heap.top = s.process.sz
  low : s.process.sz < KERNBASE

section Calls
variable {base : Nat} {s : State}

/-- malloc() of a request that fits does what the heap without limits does. -/
theorem malloc_words (fair : Fair base s) {nbytes : Nat} (fits : Fits nbytes) (pages : Pages) :
    ∃ ap h, UserHeap.Inv base ⟨h, if ap = 0 then s.live else ⟨ap - HEADER, nbytes⟩ :: s.live⟩ ∧
      ∀ fuel, rounds s.process.heap ≤ fuel → ∃ s', s'.heap = h ∧ Goes s.process s' ∧
        malloc fuel base pages s.process nbytes = (some ap, s') := by
  obtain ⟨_, small⟩ := (fits_iff (Nat.lt_of_le_of_lt fits (by decide))).mp fits
  have small' : UserHeap.Small nbytes := by
    unfold Fits at fits
    unfold UserHeap.Small HEADER
    omega
  obtain ⟨nodes, shape, _, top, _⟩ := fair.heap.prepared
  obtain ⟨ap, h, ended, _, inv⟩ := @malloc_ends base _ fair.heap nbytes (kernel pages) small'
  refine ⟨ap, h, inv, fun fuel enough => ?_⟩
  have member := shape.ring.next_mem shape.freep
  obtain ⟨s', same, heap, goes⟩ := @mallocLoop_words base (unitsFor nbytes)
    { s.process with heap := prepare base s.process.heap } nodes _ pages (Nat.succ_pos _) small
    fuel shape (top.trans fair.end_) fair.low _ _ member _ (ended fuel enough)
  exact ⟨s', heap, ⟨goes.end_, goes.low, goes.keeps, goes.asks⟩, same⟩

/-- The block that a request has got. -/
theorem usable_of_inv {nbytes ap : Nat} {after : Process}
    (inv : UserHeap.Inv base ⟨after.heap, ⟨ap - HEADER, nbytes⟩ :: s.live⟩)
    (end_ : after.heap.top = after.sz) : Usable s nbytes after ap := by
  rcases inv.list with unused | ⟨nodes, shape⟩
  · cases unused.live
  have member : ap - HEADER ∈ nodes ++ (ap - HEADER) :: s.live.map Block.bp :=
    List.mem_append_right _ List.mem_cons_self
  have notBase : ap - HEADER ≠ base := fun same =>
    shape.other (same ▸ List.mem_cons_self)
  refine ⟨?_, inv.room _ List.mem_cons_self, end_ ▸ shape.blocks.below _ member, ?_⟩
  · have positive := shape.blocks.positive
    have behind := (shape.blocks.sized _ member notBase).2
    omega
  · intro b listed
    have apart := (List.pairwise_append.mp shape.blocks.apart).2.1
    exact (List.pairwise_cons.mp apart).1 b.bp (List.mem_map_of_mem listed)

/-- malloc() is right exactly on the requests that fit. -/
theorem right_iff (fair : Fair base s) {nbytes : Nat} (word : nbytes < 2 ^ 32) (pages : Pages) :
    Right base s nbytes pages ↔ Fits nbytes := by
  constructor
  · rintro ⟨rounded, enough, served⟩
    by_contra large
    have huge : KERNBASE ≤ unitsFor nbytes * HEADER :=
      Nat.le_of_not_lt fun small => large ((fits_iff word).mpr ⟨rounded, small⟩)
    have most : unitsFor nbytes * HEADER ≤ 2 ^ 32 := by
      unfold unitsFor HEADER
      omega
    obtain ⟨nodes, shape, _, top, _⟩ := fair.heap.prepared
    obtain ⟨steps, asks⟩ := @mallocLoop_huge base (unitsFor nbytes)
      { s.process with heap := prepare base s.process.heap } nodes _ shape
      (top ▸ fair.end_ ▸ fair.low) huge most pages
    obtain ⟨asked, request, wrong, same⟩ := asks enough
    obtain ⟨listed, same', exact_⟩ := (served (steps + (enough + 1)) (by omega)).asks
    have whole : asked ++ [request] ++ s.process.asked = listed ++ s.process.asked := by
      rw [List.append_assoc]
      exact same.symm.trans same'
    have member : request ∈ listed :=
      List.append_cancel_right whole ▸ List.mem_append_right asked List.mem_cons_self
    exact wrong (exact_ request member)
  · intro fits
    refine ⟨((fits_iff word).mp fits).1, rounds s.process.heap, fun fuel enough => ?_⟩
    obtain ⟨ap, h, inv, runs⟩ := malloc_words fair fits pages
    obtain ⟨s', rfl, goes, ended⟩ := runs fuel enough
    rw [ended]
    refine ⟨⟨ap, rfl, ?_⟩, goes.keeps, goes.asks⟩
    by_cases null : ap = 0
    · exact .inl null
    · rw [if_neg null] at inv
      exact .inr (usable_of_inv inv goes.end_)

/-- More memory behind the heap. -/
theorem inv_raise {h : Heap} {live : List Block} {top : Nat}
    (inv : UserHeap.Inv base ⟨h, live⟩) (higher : h.top ≤ top) (inside : top ≤ 2 ^ 32) :
    UserHeap.Inv base ⟨{ h with top := top }, live⟩ where
  list := by
    rcases inv.list with unused | ⟨nodes, shape⟩
    · exact .inl ⟨unused.positive, unused.room.trans higher, unused.freep, unused.live,
        unused.units⟩
    · refine .inr ⟨nodes, shape.ring, shape.first, shape.freep, shape.sorted, ?_, shape.other⟩
      have blocks := shape.blocks
      have same : total { h with top := top } (nodes ++ live.map Block.bp) =
          total h (nodes ++ live.map Block.bp) := total_congr fun _ _ => rfl
      exact ⟨blocks.positive, blocks.room.trans higher, blocks.zero, blocks.sized,
        fun a member => (blocks.below a member).trans higher, blocks.apart,
        same.trans blocks.units⟩
  room := inv.room
  inside := inside

theorem step_fair (s : State) (e : Event) (after : State) (fair : Fair base s)
    (taken : step base s e = some after) : Fair base after := by
  cases e with
  | malloc nbytes pages =>
      simp only [step, Option.ite_none_right_eq_some] at taken
      obtain ⟨fits, taken⟩ := taken
      obtain ⟨ap, h, inv, runs⟩ := malloc_words fair fits pages
      obtain ⟨s', rfl, goes, ended⟩ := runs _ (Nat.le_refl _)
      rw [ended] at taken
      exact Option.some.inj taken ▸ ⟨inv, goes.end_, goes.low⟩
  | free ap =>
      simp only [step, Option.ite_none_right_eq_some] at taken
      obtain ⟨live, taken⟩ := taken
      obtain ⟨bp, nodes, own, shape⟩ := fair.heap.taken live
      obtain ⟨h, freed, inv⟩ := free_ends fair.heap live
      have old := freed _ (Nat.le_refl (rounds s.process.heap))
      have words : free (rounds s.process.heap) s.process.heap ap = some h := by
        rw [← own, free_words shape (fair.end_ ▸ fair.low), own]
        exact old
      rw [words] at taken
      exact Option.some.inj taken ▸ ⟨inv, (free_top old).trans fair.end_, fair.low⟩
  | sbrk bytes pages =>
      simp only [step, Option.ite_none_right_eq_some] at taken
      obtain ⟨⟨positive, int⟩, taken⟩ := taken
      cases grown : growproc pages s.process.sz bytes with
      | none =>
          rw [grown] at taken
          exact Option.some.inj taken ▸ fair
      | some sz =>
          rw [grown] at taken
          obtain ⟨higher, low⟩ := growproc_up fair.low positive int grown
          have up : s.process.heap.top ≤ sz := by
            rw [fair.end_, higher]
            exact Nat.le_add_right _ _
          have inside : sz ≤ 2 ^ 32 := Nat.le_of_lt (Nat.lt_trans low (by decide))
          exact Option.some.inj taken ▸ ⟨inv_raise fair.heap up inside, rfl, low⟩

end Calls

theorem start_fair (image : Image) (hdr : Nat → Header) : Fair image.base (start image hdr) where
  heap := UserHeap.start_inv image.toImage hdr
  end_ := rfl
  low := image.low

/-- malloc() is right on every request that fits, and on no other. -/
def Limited (base : Nat) (s : State) : Prop :=
  ∀ nbytes pages, nbytes < 2 ^ 32 → (Right base s nbytes pages ↔ Fits nbytes)

/-- In every run of a program whose requests fit, the requests that fit are those on which
malloc() is right. -/
theorem malloc_limits (image : Image) (hdr : Nat → Header) (es : List Event) :
    Always (step image.base) (Limited image.base) (start image hdr) es :=
  always_of_invariant (step image.base)
    (fun _ fair nbytes pages word => @right_iff _ _ fair nbytes word pages) step_fair es _
    (start_fair image hdr)

/-- A small program, with memory up to 16384. -/
def smallImage : Image := ⟨⟨4096, 16384, by decide, by decide, by decide⟩, by decide⟩

def small : State := start smallImage fun _ => ⟨0, 0⟩

/-- A request of 2^32 - 1 bytes gets a block that is only a header; one of 2^32 - 16 bytes
takes 8 bytes from the program. -/
theorem malloc_huge :
    (∃ ap s', malloc 10 4096 (fun _ _ => true) small.process (2 ^ 32 - 1) = (some ap, s') ∧
      ap ≠ 0 ∧ size s'.heap (ap - HEADER) = 1) ∧
    (∃ ap s', malloc 10 4096 (fun _ _ => true) small.process (2 ^ 32 - 16) = (some ap, s') ∧
      s'.sz + 8 = small.process.sz) ∧
    ¬ Right 4096 small (2 ^ 32 - 1) (fun _ _ => true) ∧
    ¬ Right 4096 small (2 ^ 32 - 16) (fun _ _ => true) := by
  have fair : Fair 4096 small := start_fair smallImage _
  refine ⟨⟨_, _, rfl, ?_⟩, ⟨_, _, rfl, ?_⟩, ?_, ?_⟩
  · decide +kernel
  · decide +kernel
  · exact fun right => absurd ((right_iff fair (by decide) _).mp right) (by decide)
  · exact fun right => absurd ((right_iff fair (by decide) _).mp right) (by decide)

end Xv6.Public1.UserMemory
