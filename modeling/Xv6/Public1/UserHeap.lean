import Mathlib.Algebra.Group.Nat.Defs
import Mathlib.Data.List.Perm.Basic
import Mathlib.Data.List.Pairwise
import Xv6.Lib.Links

/-!
# The user heap (umalloc.c of xv6-public_1)

malloc() and free() on a circular list of free blocks that starts at `base`.  Addresses are
bytes; a block starts with its header.  Live blocks belong to the program, which does not
touch their headers.
-/

set_option autoImplicit false

namespace Xv6.Public1.UserHeap

open Xv6.Lib.Links
open scoped List

/-! ## The code -/

/-- `sizeof(Header)` -/
def HEADER : Nat := 8

structure Header where
  ptr : Nat
  size : Nat

structure Heap where
  hdr : Nat → Header
  /-- 0 is the null pointer. -/
  freep : Nat
  /-- The end of what sbrk() has given. -/
  top : Nat
  /-- The units that sbrk() has given. -/
  units : Nat

/-- What sbrk() does, by the end of the memory given so far and the bytes asked for: it fails
or gives fresh memory at a higher address. -/
structure Sbrk where
  get : Nat → Nat → Option Nat
  fresh : ∀ {top n a : Nat}, get top n = some a → top ≤ a ∧ a + n ≤ 2 ^ 32

def next (h : Heap) (p : Nat) : Nat := (h.hdr p).ptr

def size (h : Heap) (p : Nat) : Nat := (h.hdr p).size

/-- `p + p->s.size` -/
def after (h : Heap) (p : Nat) : Nat := p + HEADER * size h p

def store (h : Heap) (p : Nat) (header : Header) : Heap :=
  { h with hdr := Function.update h.hdr p header }

/-- The loop of free() stops at `p`. -/
def freeStop (h : Heap) (bp p : Nat) : Bool :=
  decide (bp > p ∧ bp < next h p) || decide (p ≥ next h p ∧ (bp > p ∨ bp < next h p))

/-- The first `if` behind the loop of free(). -/
def joinRight (h : Heap) (bp p : Nat) : Heap :=
  if after h bp = next h p then
    store h bp ⟨next h (next h p), size h bp + size h (next h p)⟩
  else store h bp ⟨next h p, size h bp⟩

/-- The second one. -/
def joinLeft (h : Heap) (bp p : Nat) : Heap :=
  if after h p = bp then store h p ⟨next h bp, size h p + size h bp⟩
  else store h p ⟨bp, size h p⟩

def free (fuel : Nat) (h : Heap) (ap : Nat) : Option Heap :=
  let bp := ap - HEADER
  (walk (next h) (freeStop h bp) fuel h.freep).map fun p =>
    { joinLeft (joinRight h bp p) bp p with freep := p }

/-- The header of new memory. -/
def grow (h : Heap) (hp nu : Nat) : Heap :=
  store { h with top := hp + nu * HEADER, units := h.units + nu } hp ⟨next h hp, nu⟩

/-- The new `freep`, or 0 when sbrk() fails. -/
def morecore (fuel : Nat) (sbrk : Sbrk) (h : Heap) (nu : Nat) : Option (Nat × Heap) :=
  let nu := if nu < 4096 then 4096 else nu
  match sbrk.get h.top (nu * HEADER % 2 ^ 32) with
  | none => some (0, h)
  | some hp =>
      (free fuel (grow h hp nu) (hp + HEADER)).map fun h => (h.freep, h)

/-- malloc() when `p` is large enough, and the pointer that it returns. -/
def allocate (h : Heap) (nunits prevp p : Nat) : Nat × Heap :=
  if size h p = nunits then
    (p + HEADER, { store h prevp ⟨next h p, size h prevp⟩ with freep := prevp })
  else
    let h := store h p ⟨next h p, size h p - nunits⟩
    let q := after h p
    (q + HEADER, { store h q ⟨next h q, nunits⟩ with freep := prevp })

def mallocLoop (sbrk : Sbrk) (nunits : Nat) : Nat → Heap → Nat → Nat → Option (Nat × Heap)
  | 0, _, _, _ => none
  | fuel + 1, h, prevp, p =>
      if size h p ≥ nunits then some (allocate h nunits prevp p)
      else if p = h.freep then
        match morecore fuel sbrk h nunits with
        | none => none
        | some (p, h) => if p = 0 then some (0, h) else mallocLoop sbrk nunits fuel h p (next h p)
      else mallocLoop sbrk nunits fuel h p (next h p)

/-- `(nbytes + sizeof(Header) - 1)/sizeof(Header) + 1` -/
def unitsFor (nbytes : Nat) : Nat := (nbytes + (HEADER - 1)) % 2 ^ 32 / HEADER + 1

/-- The list is set up by the first call. -/
def prepare (base : Nat) (h : Heap) : Heap :=
  if h.freep = 0 then { store h base ⟨base, 0⟩ with freep := base } else h

/-- The pointer returned, 0 for null. -/
def malloc (fuel base : Nat) (sbrk : Sbrk) (h : Heap) (nbytes : Nat) : Option (Nat × Heap) :=
  let h := prepare base h
  mallocLoop sbrk (unitsFor nbytes) fuel h h.freep (next h h.freep)

/-! ## Blocks -/

def Apart (h : Heap) (a b : Nat) : Prop := after h a ≤ b ∨ after h b ≤ a

def total (h : Heap) : List Nat → Nat
  | [] => 0
  | a :: rest => size h a + total h rest

/-- These are `base` and blocks that share the memory from sbrk() among them. -/
structure Blocks (base : Nat) (h : Heap) (all : List Nat) : Prop where
  positive : 0 < base
  room : base + HEADER ≤ h.top
  zero : size h base = 0
  sized : ∀ a ∈ all, a ≠ base → 0 < size h a ∧ base + HEADER ≤ a
  below : ∀ a ∈ all, after h a ≤ h.top
  apart : all.Pairwise (Apart h)
  units : total h all = h.units

section Blocks
variable {base : Nat} {h h' : Heap} {all rest : List Nat} {a b : Nat}

theorem Apart.symm {a b : Nat} (apart : Apart h a b) : Apart h b a := Or.symm apart

theorem total_perm {all' : List Nat} (perm : all ~ all') : total h all = total h all' := by
  induction perm with
  | nil => rfl
  | cons a _ ih => exact congrArg (size h a + ·) ih
  | swap a b rest => simp only [total]; omega
  | trans _ _ first second => exact first.trans second

theorem total_congr (same : ∀ a ∈ all, size h' a = size h a) : total h' all = total h all := by
  induction all with
  | nil => rfl
  | cons a rest ih =>
      rw [total, total, same a List.mem_cons_self,
        ih fun b member => same b (List.mem_cons_of_mem a member)]

theorem le_after (h : Heap) (a : Nat) : a ≤ after h a := Nat.le_add_right a _

theorem after_congr (same : size h' a = size h a) : after h' a = after h a := by
  rw [after, after, same]

theorem Blocks.perm {all' : List Nat} (blocks : Blocks base h all) (perm : all ~ all') :
    Blocks base h all' where
  positive := blocks.positive
  room := blocks.room
  zero := blocks.zero
  sized := fun a member => blocks.sized a (perm.mem_iff.mpr member)
  below := fun a member => blocks.below a (perm.mem_iff.mpr member)
  apart := (perm.pairwise_iff fun apart => Apart.symm apart).mp blocks.apart
  units := (total_perm perm.symm).trans blocks.units

/-- Only sizes matter. -/
theorem Blocks.congr (blocks : Blocks base h all) (zero : size h' base = size h base)
    (same : ∀ a ∈ all, size h' a = size h a) (top : h'.top = h.top)
    (units : h'.units = h.units) : Blocks base h' all where
  positive := blocks.positive
  room := top ▸ blocks.room
  zero := zero.trans blocks.zero
  sized := by
    intro a member other
    rw [same a member]
    exact blocks.sized a member other
  below := by
    intro a member
    rw [after_congr (same a member), top]
    exact blocks.below a member
  apart := by
    refine blocks.apart.imp_of_mem fun {a b} first second apart => ?_
    rw [Apart, after_congr (same a first), after_congr (same b second)]
    exact apart
  units := by
    rw [total_congr same, units]
    exact blocks.units

theorem Blocks.tail (blocks : Blocks base h (a :: rest)) :
    ∀ c ∈ rest, Apart h a c := (List.pairwise_cons.mp blocks.apart).1

/-- A block is not the start of another one. -/
theorem Blocks.fresh (blocks : Blocks base h (a :: rest)) (other : a ≠ base) : a ∉ rest := by
  intro member
  have positive := (blocks.sized a List.mem_cons_self other).1
  rcases blocks.tail a member with inside | inside
  · unfold after HEADER at inside
    omega
  · unfold after HEADER at inside
    omega

/-- A block and the one right behind it become one. -/
theorem Blocks.merge (blocks : Blocks base h (a :: b :: rest)) (otherA : a ≠ base)
    (otherB : b ≠ base) (touch : after h a = b) (zero : size h' base = size h base)
    (sizes : ∀ c ∈ rest, size h' c = size h c) (grown : size h' a = size h a + size h b)
    (top : h'.top = h.top) (units : h'.units = h.units) : Blocks base h' (a :: rest) := by
  have end_ : after h' a = after h b := by
    rw [after, grown, Nat.mul_add, ← Nat.add_assoc]
    exact congrArg (· + HEADER * size h b) touch
  obtain ⟨fromA, others⟩ := List.pairwise_cons.mp blocks.apart
  obtain ⟨fromB, others⟩ := List.pairwise_cons.mp others
  constructor
  case positive => exact blocks.positive
  case room => exact top ▸ blocks.room
  case zero => exact zero.trans blocks.zero
  case sized =>
    intro c member other
    rcases List.mem_cons.mp member with rfl | inside
    · have own := blocks.sized c List.mem_cons_self other
      rw [grown]
      exact ⟨by omega, own.2⟩
    · rw [sizes c inside]
      exact blocks.sized c (List.mem_cons_of_mem _ (List.mem_cons_of_mem _ inside)) other
  case below =>
    intro c member
    rw [top]
    rcases List.mem_cons.mp member with rfl | inside
    · rw [end_]
      exact blocks.below b (List.mem_cons_of_mem _ List.mem_cons_self)
    · rw [after_congr (sizes c inside)]
      exact blocks.below c (List.mem_cons_of_mem _ (List.mem_cons_of_mem _ inside))
  case apart =>
    refine List.pairwise_cons.mpr ⟨?_, ?_⟩
    · intro c inside
      have low := fromA c (List.mem_cons_of_mem b inside)
      have high := fromB c inside
      rw [Apart, end_, after_congr (sizes c inside)]
      have behind := le_after h b
      have sizedC := le_after h c
      have sizedB := (blocks.sized b (List.mem_cons_of_mem _ List.mem_cons_self) otherB).1
      have some : b < after h b := Nat.lt_add_of_pos_right (Nat.mul_pos (by decide) sizedB)
      have notB := (blocks.perm (List.Perm.swap b a rest)).fresh otherB
      have other : c ≠ b := fun same => notB (List.mem_cons_of_mem a (same ▸ inside))
      unfold Apart at low high
      omega
    · refine others.imp_of_mem fun {c d} first second apart => ?_
      rw [Apart, after_congr (sizes c first), after_congr (sizes d second)]
      exact apart
  case units =>
    have before := blocks.units
    simp only [total] at before ⊢
    rw [grown, total_congr sizes, units]
    omega

/-- The end of a block becomes a block of its own. -/
theorem Blocks.split {n : Nat} (blocks : Blocks base h (a :: rest)) (other : a ≠ base)
    (some : 0 < n) (less : n < size h a) (zero : size h' base = size h base)
    (sizes : ∀ c ∈ rest, size h' c = size h c) (kept : size h' a = size h a - n)
    (cut : b = a + HEADER * (size h a - n)) (new : size h' b = n) (top : h'.top = h.top)
    (units : h'.units = h.units) : Blocks base h' (a :: b :: rest) := by
  have endA : after h' a = b := by rw [after, kept, cut]
  have endB : after h' b = after h a := by
    rw [after, new, cut, after, Nat.add_assoc, ← Nat.mul_add,
      Nat.sub_add_cancel (Nat.le_of_lt less)]
  obtain ⟨fromA, others⟩ := List.pairwise_cons.mp blocks.apart
  have own := blocks.sized a List.mem_cons_self other
  have inside : a < b := by
    rw [cut]
    unfold HEADER
    omega
  have ends : b ≤ after h a := by
    rw [← endB]
    exact le_after h' b
  constructor
  case positive => exact blocks.positive
  case room => exact top ▸ blocks.room
  case zero => exact zero.trans blocks.zero
  case sized =>
    intro c member notBase
    rcases List.mem_cons.mp member with rfl | member
    · rw [kept]
      exact ⟨by omega, own.2⟩
    · rcases List.mem_cons.mp member with rfl | member
      · rw [new]
        exact ⟨some, by omega⟩
      · rw [sizes c member]
        exact blocks.sized c (List.mem_cons_of_mem _ member) notBase
  case below =>
    intro c member
    have last := blocks.below a List.mem_cons_self
    rw [top]
    rcases List.mem_cons.mp member with rfl | member
    · rw [endA]
      omega
    · rcases List.mem_cons.mp member with rfl | member
      · rw [endB]
        exact last
      · rw [after_congr (sizes c member)]
        exact blocks.below c (List.mem_cons_of_mem _ member)
  case apart =>
    have parts : ∀ c ∈ rest, Apart h' a c ∧ Apart h' b c := by
      intro c member
      have whole := fromA c member
      unfold Apart at whole ⊢
      rw [endA, endB, after_congr (sizes c member)]
      omega
    refine List.pairwise_cons.mpr ⟨?_, List.pairwise_cons.mpr ⟨?_, ?_⟩⟩
    · intro c member
      rcases List.mem_cons.mp member with rfl | member
      · exact Or.inl (Nat.le_of_eq endA)
      · exact (parts c member).1
    · exact fun c member => (parts c member).2
    · refine others.imp_of_mem fun {c d} first second apart => ?_
      rw [Apart, after_congr (sizes c first), after_congr (sizes d second)]
      exact apart
  case units =>
    have before := blocks.units
    simp only [total] at before ⊢
    rw [kept, new, total_congr sizes, units]
    omega

/-- A block of fresh memory. -/
theorem Blocks.grow {n : Nat} (blocks : Blocks base h all) (some : 0 < n) (fresh : h.top ≤ a)
    (zero : size h' base = size h base) (sizes : ∀ c ∈ all, size h' c = size h c)
    (new : size h' a = n) (top : h'.top = a + n * HEADER) (units : h'.units = h.units + n) :
    Blocks base h' (a :: all) := by
  have room := blocks.room
  have end_ : after h' a = h'.top := by rw [after, new, top, Nat.mul_comm]
  have higher : h.top ≤ h'.top := by
    rw [top]
    exact Nat.le_add_right_of_le fresh
  constructor
  case positive => exact blocks.positive
  case room => exact room.trans higher
  case zero => exact zero.trans blocks.zero
  case sized =>
    intro c member other
    rcases List.mem_cons.mp member with rfl | member
    · rw [new]
      exact ⟨some, room.trans fresh⟩
    · rw [sizes c member]
      exact blocks.sized c member other
  case below =>
    intro c member
    rcases List.mem_cons.mp member with rfl | member
    · exact Nat.le_of_eq end_
    · rw [after_congr (sizes c member)]
      exact (blocks.below c member).trans higher
  case apart =>
    refine List.pairwise_cons.mpr ⟨?_, ?_⟩
    · intro c member
      refine Or.inr ?_
      rw [after_congr (sizes c member)]
      exact (blocks.below c member).trans fresh
    · refine blocks.apart.imp_of_mem fun {c d} first second apart => ?_
      rw [Apart, after_congr (sizes c first), after_congr (sizes d second)]
      exact apart
  case units =>
    have before := blocks.units
    rw [total, new, total_congr sizes, units]
    omega

end Blocks

/-! ## The free list -/

/-- The free list `nodes`, in address order from `base`, and the blocks in use. -/
structure Shape (base : Nat) (h : Heap) (nodes used : List Nat) : Prop where
  ring : Ring (next h) nodes
  first : nodes.head? = some base
  freep : h.freep ∈ nodes
  /-- No free block touches the next one. -/
  sorted : nodes.Pairwise fun a b => after h a < b
  blocks : Blocks base h (nodes ++ used)
  other : base ∉ used

section Place
variable {base : Nat} {h : Heap} {nodes used : List Nat}

theorem sorted_nodup (sorted : nodes.Pairwise fun a b => after h a < b) : nodes.Nodup := by
  refine sorted.imp fun {a b} before same => ?_
  have grows := le_after h a
  omega

theorem Shape.nodup (shape : Shape base h nodes used) : nodes.Nodup := sorted_nodup shape.sorted

theorem Shape.lowest (shape : Shape base h nodes used) {a : Nat}
    (member : a ∈ nodes ++ used) : base ≤ a := by
  by_cases same : a = base
  · exact Nat.le_of_eq same.symm
  · exact Nat.le_of_add_right_le (shape.blocks.sized a member same).2

/-- The next node is the next free block in memory, or the first after the last. -/
theorem Shape.successor (shape : Shape base h nodes used) {a : Nat} (member : a ∈ nodes) :
    (next h a = base ∧ ∀ d ∈ nodes, d ≤ a) ∨
      (a < next h a ∧ next h a ∈ nodes ∧ ∀ d ∈ nodes, d ≤ a ∨ next h a ≤ d) := by
  have inside := shape.ring.next_mem member
  have below : ∀ {c d : Nat}, after h c < d → c < d := fun before =>
    Nat.lt_of_le_of_lt (le_after h _) before
  cases nodes with
  | nil => cases member
  | cons b rest =>
      have first : b = base := Option.some.inj shape.first
      by_cases wraps : next h a = base
      · refine Or.inl ⟨wraps, ?_⟩
        obtain ⟨before, later, split⟩ := List.append_of_mem member
        have ring := shape.ring
        have sorted := shape.sorted
        rw [split] at ring sorted
        have linked := ring_around.mp ring
        have last : later = [] := by
          cases later with
          | nil => rfl
          | cons c later =>
              have here : next h a = c := (List.isChain_cons_cons.mp linked).1
              have above := (List.pairwise_append.mp sorted).2.1
              have up := below ((List.pairwise_cons.mp above).1 c List.mem_cons_self)
              have low := shape.lowest (List.mem_append_left used member)
              omega
        intro d there
        rw [split, last] at there
        rcases List.mem_append.mp there with earlier | here
        · have lower := (List.pairwise_append.mp sorted).2.2 d earlier a List.mem_cons_self
          exact Nat.le_of_lt (below lower)
        · exact Nat.le_of_eq (List.mem_singleton.mp here)
      · obtain ⟨before, later, split⟩ := shape.ring.split member (first ▸ wraps)
        have sorted := shape.sorted
        rw [split] at sorted
        obtain ⟨_, upper, across⟩ := List.pairwise_append.mp sorted
        obtain ⟨fromA, upper⟩ := List.pairwise_cons.mp upper
        refine Or.inr ⟨below (fromA _ List.mem_cons_self), inside, fun d there => ?_⟩
        rw [split] at there
        rcases List.mem_append.mp there with earlier | there
        · exact Or.inl (Nat.le_of_lt (below (across d earlier a List.mem_cons_self)))
        · rcases List.mem_cons.mp there with rfl | there
          · exact Or.inl (Nat.le_refl d)
          · rcases List.mem_cons.mp there with rfl | there
            · exact Or.inr (Nat.le_refl _)
            · exact Or.inr (Nat.le_of_lt (below ((List.pairwise_cons.mp upper).1 d there)))

/-- A block that is not free stands behind one node and before all that follow it. -/
theorem place_exists {bp : Nat} (sorted : nodes.Pairwise fun a b => after h a < b)
    (first : nodes.head? = some base) (behind : base < bp) (other : bp ∉ nodes) :
    ∃ before p later, nodes = before ++ p :: later ∧ p < bp ∧ (∀ a ∈ before, a < bp) ∧
      ∀ a ∈ later, bp < a := by
  induction nodes generalizing base with
  | nil => cases first
  | cons c rest ih =>
      obtain rfl := Option.some.inj first
      obtain ⟨above, sorted⟩ := List.pairwise_cons.mp sorted
      have others : bp ∉ rest := fun member => other (List.mem_cons_of_mem c member)
      cases rest with
      | nil => exact ⟨[], c, [], rfl, behind, nofun, nofun⟩
      | cons d rest =>
          by_cases later : bp < d
          · refine ⟨[], c, d :: rest, rfl, behind, nofun, fun a member => ?_⟩
            rcases List.mem_cons.mp member with rfl | inside
            · exact later
            · have next := (List.pairwise_cons.mp sorted).1 a inside
              have grows := le_after h d
              omega
          · have different : bp ≠ d := fun same => others (same ▸ List.mem_cons_self)
            obtain ⟨before, p, after_, split, low, all, high⟩ :=
              ih sorted rfl (by omega) others
            refine ⟨c :: before, p, after_, by rw [split]; rfl, low, ?_, high⟩
            intro a member
            rcases List.mem_cons.mp member with rfl | inside
            · exact behind
            · exact all a inside

/-- The loop of free() comes to the node in front of the block. -/
theorem Shape.freeLoop (shape : Shape base h nodes used) {bp p : Nat} (member : p ∈ nodes)
    (behind : base < bp) (low : p < bp) (place : ∀ d ∈ nodes, d ≤ p ∨ bp < d) {fuel : Nat}
    (enough : nodes.length ≤ fuel) :
    walk (next h) (freeStop h bp) fuel h.freep = some p := by
  have stops : freeStop h bp p = true := by
    have where_ := shape.successor member
    rw [freeStop, Bool.or_eq_true, decide_eq_true_eq, decide_eq_true_eq]
    rcases where_ with ⟨wraps, _⟩ | ⟨up, inside, _⟩
    · have lowest := shape.lowest (List.mem_append_left used member)
      omega
    · have placed := place _ inside
      omega
  have goes : ∀ c ∈ nodes, c ≠ p → freeStop h bp c = false := by
    intro c there other
    have where_ := shape.successor there
    have placed := place c there
    rw [freeStop, Bool.or_eq_false_iff, decide_eq_false_iff_not, decide_eq_false_iff_not]
    rcases where_ with ⟨wraps, last⟩ | ⟨up, inside, gap⟩
    · have above := last p member
      omega
    · have between := gap p member
      omega
  exact walk_ring shape.ring shape.freep member stops goes enough

end Place

end Xv6.Public1.UserHeap
