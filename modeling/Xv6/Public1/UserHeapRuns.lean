import Xv6.Lib.Runs
import Xv6.Public1.UserHeapLists

/-!
# Programs on the user heap (xv6-public_1)

Calls of malloc() and free() in any order: every call ends, and the free list and the live
blocks share the memory that sbrk() has given.
-/

set_option autoImplicit false

namespace Xv6.Public1.UserHeap

open Xv6.Lib.Links
open Xv6.Lib.Runs
open scoped List

/-! ## More memory -/

section Grow
variable {base : Nat} {h : Heap} {nodes used : List Nat} {sbrk : Sbrk} {n : Nat}

theorem Blocks.below_top {all : List Nat} (blocks : Blocks base h all) {c : Nat}
    (member : c ∈ all) : c < h.top := by
  have room := blocks.room
  have below := blocks.below c member
  by_cases same : c = base
  · unfold HEADER at room
    omega
  · have positive := (blocks.sized c member same).1
    unfold after HEADER at below
    omega

/-- Fresh memory is one more block in use. -/
theorem Shape.grown (shape : Shape base h nodes used) {hp nu : Nat} (positive : 0 < nu)
    (fresh : h.top ≤ hp) :
    Shape base (grow h hp nu) nodes (hp :: used) ∧
      ∀ c ∈ nodes ++ used, size (grow h hp nu) c = size h c := by
  have notThere : ∀ c ∈ nodes ++ used, c ≠ hp := fun c member => by
    have below := shape.blocks.below_top member
    omega
  have room := shape.blocks.room
  have notBase : base ≠ hp := by
    unfold HEADER at room
    omega
  have sizes : ∀ c, c ≠ hp → size (grow h hp nu) c = size h c := by
    intro c other
    unfold grow
    rw [size_store, if_neg other]
    rfl
  refine ⟨?_, fun c member => sizes c (notThere c member)⟩
  constructor
  case ring =>
    refine shape.ring.congr fun c _ => ?_
    unfold grow
    rw [next_store]
    by_cases same : c = hp
    · rw [same, Function.update_self]
    · rw [Function.update_of_ne same]
      rfl
  case first => exact shape.first
  case freep => exact shape.freep
  case sorted =>
    refine shape.sorted.imp_of_mem fun {a b} member _ before => ?_
    rw [after_congr (sizes a (notThere a (List.mem_append_left used member)))]
    exact before
  case blocks =>
    have new : Blocks base _ (hp :: (nodes ++ used)) :=
      shape.blocks.grow positive fresh (sizes base notBase)
        (fun c member => sizes c (notThere c member))
        ((size_store _ _ _ _).trans (if_pos rfl)) rfl rfl
    exact new.perm List.perm_middle.symm
  case other =>
    intro member
    rcases List.mem_cons.mp member with same | inside
    · exact notBase same
    · exact shape.other inside

/-- How morecore() ends. -/
inductive Grown (base : Nat) (sbrk : Sbrk) (h : Heap) (nodes used : List Nat) (n : Nat) :
    Nat × Heap → Prop where
  | fails (none : ∃ m, sbrk.get h.top m = Option.none) : Grown base sbrk h nodes used n (0, h)
  | gets (h' : Heap) (nodes' : List Nat) (shape : Shape base h' nodes' used)
      (same : ∀ a ∈ used, size h' a = size h a) (large : ∃ c ∈ nodes', n ≤ size h' c)
      (length : nodes'.length ≤ nodes.length + 1) (inside : h'.top ≤ 2 ^ 32) :
      Grown base sbrk h nodes used n (h'.freep, h')

theorem morecore_ends {fuel : Nat} (shape : Shape base h nodes used)
    (small : n * HEADER < 2 ^ 32) (enough : nodes.length ≤ fuel) :
    ∃ r, morecore fuel sbrk h n = some r ∧ Grown base sbrk h nodes used n r := by
  obtain ⟨nu, least⟩ : ∃ nu, nu = if n < 4096 then 4096 else n := ⟨_, rfl⟩
  have more : n ≤ nu ∧ 0 < nu ∧ nu * HEADER < 2 ^ 32 := by
    rw [least]
    unfold HEADER at small ⊢
    split
    all_goals omega
  unfold morecore
  dsimp only
  rw [← least, Nat.mod_eq_of_lt more.2.2]
  cases asked : sbrk.get h.top (nu * HEADER) with
  | none => exact ⟨(0, h), rfl, .fails ⟨_, asked⟩⟩
  | some hp =>
      obtain ⟨fresh, inside⟩ := sbrk.fresh asked
      obtain ⟨grown, sizes⟩ := shape.grown more.2.1 fresh
      obtain ⟨h', nodes', freed, shape', same, ⟨c, there, large⟩, length, top, _⟩ :=
        free_shape grown enough
      have sizeHp : size (grow h hp nu) hp = nu :=
        (size_store _ _ _ _).trans (if_pos rfl)
      rw [sizeHp] at large
      dsimp only
      rw [freed]
      refine ⟨(h'.freep, h'), rfl, .gets h' nodes' shape' ?_ ⟨c, there, more.1.trans large⟩
        length ?_⟩
      · intro a member
        exact (same a member).trans (sizes a (List.mem_append_right nodes member))
      · rw [top]
        exact inside

end Grow

/-! ## The loop of malloc() -/

section Loop
variable {base : Nat} {h : Heap} {nodes used : List Nat} {sbrk : Sbrk} {n : Nat}

/-- A loop along the list passes the blocks that are too small. -/
theorem scan_passes {β : Type} {loop : Nat → Nat → Nat → β}
    (passes : ∀ fuel prevp p, size h p < n → p ≠ h.freep →
      loop (fuel + 1) prevp p = loop fuel p (next h p))
    {passed rest : List Nat} {prevp z : Nat}
    (linked : Linked (next h) (prevp :: (passed ++ z :: rest)))
    (small : ∀ c ∈ passed, size h c < n ∧ c ≠ h.freep) :
    ∃ q ∈ prevp :: passed, next h q = z ∧ ∀ fuel,
      loop (passed.length + fuel) prevp (next h prevp) = loop fuel q z := by
  induction passed generalizing prevp with
  | nil =>
      have here : next h prevp = z := (List.isChain_cons_cons.mp linked).1
      refine ⟨prevp, List.mem_cons_self, here, fun fuel => ?_⟩
      rw [here, List.length_nil, Nat.zero_add]
  | cons c passed ih =>
      obtain ⟨here, later⟩ := List.isChain_cons_cons.mp linked
      obtain ⟨little, other⟩ := small c List.mem_cons_self
      obtain ⟨q, member, link, looped⟩ := ih later fun d inside =>
        small d (List.mem_cons_of_mem c inside)
      refine ⟨q, List.mem_cons_of_mem prevp member, link, fun fuel => ?_⟩
      have step : (c :: passed).length + fuel = passed.length + fuel + 1 := by
        rw [List.length_cons]
        omega
      rw [step, here, passes _ prevp c little other, looped]

/-- One turn of the list ends at the first large block, or at `freep` if there is none. -/
theorem scan_turn (shape : Shape base h nodes used) (n : Nat) {β : Type}
    {loop : Nat → Nat → Nat → β}
    (passes : ∀ fuel prevp p, size h p < n → p ≠ h.freep →
      loop (fuel + 1) prevp p = loop fuel p (next h p)) :
    ∃ steps q z, steps < nodes.length ∧ q ∈ nodes ∧ next h q = z ∧
      (n ≤ size h z ∨ z = h.freep ∧ ∀ c ∈ nodes, size h c < n) ∧
      ∀ fuel, loop (steps + fuel) h.freep (next h h.freep) = loop fuel q z := by
  obtain ⟨before, later, split⟩ := List.append_of_mem shape.freep
  have ring := shape.ring
  have once := shape.nodup
  rw [split] at ring once
  have linked := ring_around.mp ring
  have turned : (h.freep :: (later ++ before)).Nodup := List.nodup_append_comm.mp once
  obtain ⟨notLater, _⟩ := List.nodup_cons.mp turned
  have inNodes : ∀ c, c ∈ h.freep :: (later ++ before) ↔ c ∈ nodes := fun c => by
    rw [split]
    exact mem_turned
  let found := fun c => decide (n ≤ size h c) || decide (c = h.freep)
  have stops : ((later ++ before ++ [h.freep]).find? found).isSome = true := by
    rw [List.find?_isSome]
    exact ⟨h.freep, List.mem_append_right _ List.mem_cons_self, by simp [found]⟩
  obtain ⟨z, first⟩ := Option.isSome_iff_exists.mp stops
  obtain ⟨here, passed, rest, whole, skips⟩ := List.find?_eq_some_iff_append.mp first
  have small : ∀ c ∈ passed, size h c < n ∧ c ≠ h.freep := by
    intro c member
    have skipped := skips c member
    simpa [found] using skipped
  have length : passed.length < nodes.length := by
    have sizes := congrArg List.length whole
    have total := congrArg List.length split
    simp only [List.length_append, List.length_cons, List.length_nil] at sizes total
    omega
  have inside : ∀ c ∈ h.freep :: passed, c ∈ nodes := by
    intro c member
    refine (inNodes c).mp ?_
    rcases List.mem_cons.mp member with rfl | there
    · exact List.mem_cons_self
    · have there : c ∈ later ++ before ++ [h.freep] :=
        whole ▸ List.mem_append_left _ there
      rcases List.mem_append.mp there with inside | last
      · exact List.mem_cons_of_mem _ inside
      · exact List.mem_singleton.mp last ▸ List.mem_cons_self
  have reached : n ≤ size h z ∨ z = h.freep ∧ ∀ c ∈ nodes, size h c < n := by
    by_cases large : n ≤ size h z
    · exact Or.inl large
    have last : z = h.freep := by simpa [found, large] using here
    refine Or.inr ⟨last, fun c member => ?_⟩
    -- `freep` is only at the end of its turn, so everything else was passed
    have others : later ++ before = passed := by
      have notPassed : h.freep ∉ passed := fun member => (small _ member).2 rfl
      rw [last] at whole
      rcases List.append_eq_append_iff.mp whole with ⟨more, same, rest⟩ | ⟨more, same, rest⟩
      · cases more with
        | nil => exact (List.append_nil _ ▸ same).symm
        | cons d more =>
            have there : d = h.freep := (List.cons.inj rest).1.symm
            exact absurd (same ▸ List.mem_append_right _ (there ▸ List.mem_cons_self)) notPassed
      · cases more with
        | nil => exact List.append_nil passed ▸ same
        | cons d more =>
            have there : d = h.freep := (List.cons.inj rest).1.symm
            have inside : h.freep ∈ later ++ before :=
              same ▸ List.mem_append_right _ (there ▸ List.mem_cons_self)
            exact absurd inside notLater
    rcases List.mem_cons.mp ((inNodes c).mpr member) with rfl | there
    · exact Nat.not_le.mp (last ▸ large)
    · exact (small c (others ▸ there)).1
  rw [whole] at linked
  obtain ⟨q, member, link, looped⟩ :=
    @scan_passes h n β loop passes passed rest h.freep z linked small
  exact ⟨passed.length, q, z, length, inside q member, link, reached, looped⟩

theorem loop_turn (shape : Shape base h nodes used) (sbrk : Sbrk) (n : Nat) :
    ∃ steps q z, steps < nodes.length ∧ q ∈ nodes ∧ next h q = z ∧
      (n ≤ size h z ∨ z = h.freep ∧ ∀ c ∈ nodes, size h c < n) ∧
      ∀ fuel, mallocLoop sbrk n (steps + fuel) h h.freep (next h h.freep) =
        mallocLoop sbrk n fuel h q z := by
  refine @scan_turn base h nodes used shape n _ (fun fuel => mallocLoop sbrk n fuel h) ?_
  intro fuel prevp p little other
  rw [mallocLoop, if_neg (Nat.not_le.mpr little), if_neg other]

/-- How malloc() ends: it fails with sbrk(), or it gives out a block of `n` units. -/
inductive Ending (base : Nat) (sbrk : Sbrk) (h : Heap) (used : List Nat) (n : Nat) :
    Nat × Heap → Prop where
  | fails (none : ∃ m, sbrk.get h.top m = Option.none) : Ending base sbrk h used n (0, h)
  | gives (bp : Nat) (h' : Heap) (nodes' : List Nat) (shape : Shape base h' nodes' (bp :: used))
      (units : size h' bp = n) (same : ∀ a ∈ used, size h' a = size h a)
      (inside : h'.top ≤ 2 ^ 32) : Ending base sbrk h used n (bp + HEADER, h')

/-- If there is a large block, the loop ends within one turn. -/
theorem mallocLoop_found {fuel : Nat} (shape : Shape base h nodes used) (some : 0 < n)
    (large : ∃ c ∈ nodes, n ≤ size h c) (inside : h.top ≤ 2 ^ 32)
    (enough : nodes.length + 1 ≤ fuel) :
    ∃ bp h' nodes', mallocLoop sbrk n fuel h h.freep (next h h.freep) =
        Option.some (bp + HEADER, h') ∧ Shape base h' nodes' (bp :: used) ∧ size h' bp = n ∧
      (∀ a ∈ used, size h' a = size h a) ∧ h'.top ≤ 2 ^ 32 := by
  obtain ⟨steps, q, z, less, member, link, reached, looped⟩ := loop_turn shape sbrk n
  obtain ⟨left, rfl⟩ : ∃ left, fuel = steps + (left + 1) := ⟨fuel - steps - 1, by omega⟩
  have fits : n ≤ size h z := by
    rcases reached with fits | ⟨_, little⟩
    · exact fits
    · obtain ⟨c, there, fits⟩ := large
      exact absurd fits (Nat.not_le.mpr (little c there))
  obtain ⟨bp, h', nodes', taken, shape', units, same, top⟩ :=
    allocate_shape shape member link some fits
  rw [looped, mallocLoop, if_pos fits, taken]
  exact ⟨bp, h', nodes', rfl, shape', units, same, top ▸ inside⟩

theorem mallocLoop_ends {fuel : Nat} (shape : Shape base h nodes used) (some : 0 < n)
    (small : n * HEADER < 2 ^ 32) (inside : h.top ≤ 2 ^ 32)
    (enough : 2 * nodes.length + 3 ≤ fuel) :
    ∃ r, mallocLoop sbrk n fuel h h.freep (next h h.freep) = Option.some r ∧
      Ending base sbrk h used n r := by
  by_cases large : ∃ c ∈ nodes, n ≤ size h c
  · obtain ⟨bp, h', nodes', found, shape', units, same, inside⟩ :=
      @mallocLoop_found base h nodes used sbrk n fuel shape some large inside (by omega)
    exact ⟨_, found, .gives bp h' nodes' shape' units same inside⟩
  obtain ⟨steps, q, z, less, member, link, reached, looped⟩ := loop_turn shape sbrk n
  obtain ⟨left, rfl⟩ : ∃ left, fuel = steps + (left + 1) := ⟨fuel - steps - 1, by omega⟩
  obtain ⟨last, little⟩ : z = h.freep ∧ size h z < n := by
    have inZ : z ∈ nodes := link ▸ shape.ring.next_mem member
    rcases reached with fits | ⟨last, little⟩
    · exact absurd ⟨z, inZ, fits⟩ large
    · exact ⟨last, little z inZ⟩
  obtain ⟨r, more, grown⟩ := @morecore_ends base h nodes used sbrk n left shape small (by omega)
  rw [looped, mallocLoop, if_neg (Nat.not_le.mpr little), if_pos last, more]
  dsimp only
  cases grown with
  | fails none =>
      rw [if_pos rfl]
      exact ⟨_, rfl, .fails none⟩
  | gets h' nodes' shape' same large length inside =>
      have low := shape'.lowest (List.mem_append_left used shape'.freep)
      have positive := shape'.blocks.positive
      have notNull : h'.freep ≠ 0 := by omega
      rw [if_neg notNull]
      obtain ⟨bp, h'', nodes'', found, shape'', units, same', inside⟩ :=
        @mallocLoop_found base h' nodes' used sbrk n left shape' some large inside (by omega)
      exact ⟨_, found, .gives bp h'' nodes'' shape'' units
        (fun a member => (same' a member).trans (same a member)) inside⟩

/-! ## More fuel changes nothing -/

theorem free_more {fuel more : Nat} {h h' : Heap} {ap : Nat} (freed : free fuel h ap = some h')
    (enough : fuel ≤ more) : free more h ap = some h' := by
  obtain ⟨p, found, result⟩ := Option.map_eq_some_iff.mp freed
  exact Option.map_eq_some_iff.mpr ⟨p, walk_more found enough, result⟩

theorem morecore_more {fuel more : Nat} {r : Nat × Heap} (got : morecore fuel sbrk h n = some r)
    (enough : fuel ≤ more) : morecore more sbrk h n = some r := by
  unfold morecore at got ⊢
  dsimp only at got ⊢
  split at got
  · exact got
  · obtain ⟨h', freed, result⟩ := Option.map_eq_some_iff.mp got
    exact Option.map_eq_some_iff.mpr ⟨h', free_more freed enough, result⟩

theorem mallocLoop_more {fuel more : Nat} {h : Heap} {prevp p : Nat} {r : Nat × Heap}
    (ended : mallocLoop sbrk n fuel h prevp p = some r) (enough : fuel ≤ more) :
    mallocLoop sbrk n more h prevp p = some r := by
  induction fuel generalizing more h prevp p with
  | zero => cases ended
  | succ fuel ih =>
      obtain ⟨left, rfl⟩ : ∃ left, more = left + 1 := ⟨more - 1, by omega⟩
      have less : fuel ≤ left := Nat.le_of_succ_le_succ enough
      rw [mallocLoop] at ended ⊢
      split
      case isTrue large =>
        rw [if_pos large] at ended
        exact ended
      case isFalse little =>
        rw [if_neg little] at ended
        split
        case isTrue last =>
          rw [if_pos last] at ended
          cases got : morecore fuel sbrk h n with
          | none =>
              rw [got] at ended
              cases ended
          | some found =>
              obtain ⟨p', h'⟩ := found
              rw [got] at ended
              rw [morecore_more got less]
              dsimp only at ended ⊢
              split
              case isTrue null =>
                rw [if_pos null] at ended
                exact ended
              case isFalse given =>
                rw [if_neg given] at ended
                exact ih ended less
        case isFalse passes =>
          rw [if_neg passes] at ended
          exact ih ended less

end Loop

/-! ## Programs -/

/-- A live pointer: its header and the bytes that were asked for. -/
structure Block where
  bp : Nat
  nbytes : Nat

structure State where
  heap : Heap
  live : List Block

/-- Where the program's memory is before the first call. -/
structure Image where
  base : Nat
  top : Nat
  positive : 0 < base
  room : base + HEADER ≤ top
  inside : top ≤ 2 ^ 32

inductive Event where
  | malloc (nbytes : Nat) (sbrk : Sbrk)
  | free (ap : Nat)

/-- No size overflows. -/
def Small (nbytes : Nat) : Prop := ((nbytes + 7) / HEADER + 1) * HEADER < 2 ^ 32

instance (nbytes : Nat) : Decidable (Small nbytes) := Nat.decLt _ _

/-- The fuel for a call. -/
def rounds (h : Heap) : Nat := 2 * h.units + 8

def isAt (ap : Nat) (b : Block) : Bool := decide (b.bp + HEADER = ap)

/-- A program frees only live pointers. -/
def step (base : Nat) (s : State) : Event → Option State
  | .malloc nbytes sbrk =>
      if Small nbytes then
        (malloc (rounds s.heap) base sbrk s.heap nbytes).map fun (ap, heap) =>
          ⟨heap, if ap = 0 then s.live else ⟨ap - HEADER, nbytes⟩ :: s.live⟩
      else none
  | .free ap =>
      if s.live.any (isAt ap) then
        (free (rounds s.heap) s.heap ap).map fun heap => ⟨heap, s.live.eraseP (isAt ap)⟩
      else none

def start (image : Image) (hdr : Nat → Header) : State := ⟨⟨hdr, 0, image.top, 0⟩, []⟩

/-! ## The property -/

structure FreeList (base : Nat) (h : Heap) (nodes used : List Nat) : Prop where
  /-- The list is circular, in increasing address order with one wrap. -/
  ring : Ring (next h) nodes
  freep : h.freep ∈ nodes
  ordered : nodes.Pairwise (· < ·)
  wrap : ∃! p, p ∈ nodes ∧ next h p ≤ p
  /-- No free block touches the next one. -/
  coalesced : nodes.Pairwise fun a b => after h a < b
  apart : (nodes ++ used).Pairwise (Apart h)
  units : total h (nodes ++ used) = h.units

structure Right (base : Nat) (s : State) : Prop where
  /-- The list is not there before the first call. -/
  list : s.heap.freep = 0 ∧ s.live = [] ∧ s.heap.units = 0 ∨
    ∃ nodes, FreeList base s.heap nodes (s.live.map Block.bp)
  room : ∀ b ∈ s.live, HEADER + b.nbytes ≤ HEADER * size s.heap b.bp
  /-- The loops end, and the pointer is null only if sbrk() fails. -/
  mallocs : ∀ nbytes sbrk, Small nbytes → ∃ ap h, (ap = 0 → ∃ n, sbrk.get s.heap.top n = none) ∧
    ∀ fuel, rounds s.heap ≤ fuel → malloc fuel base sbrk s.heap nbytes = some (ap, h)
  frees : ∀ b ∈ s.live, ∃ h, ∀ fuel, rounds s.heap ≤ fuel →
    free fuel s.heap (b.bp + HEADER) = some h

/-! ## Runs -/

/-- Before the first call there is no list. -/
structure Unused (base : Nat) (s : State) : Prop where
  positive : 0 < base
  room : base + HEADER ≤ s.heap.top
  freep : s.heap.freep = 0
  live : s.live = []
  units : s.heap.units = 0

structure Inv (base : Nat) (s : State) : Prop where
  list : Unused base s ∨ ∃ nodes, Shape base s.heap nodes (s.live.map Block.bp)
  room : ∀ b ∈ s.live, HEADER + b.nbytes ≤ HEADER * size s.heap b.bp
  inside : s.heap.top ≤ 2 ^ 32

section Calls
variable {base : Nat} {s : State} {nodes used : List Nat} {h : Heap}

theorem total_append (h : Heap) (first second : List Nat) :
    total h (first ++ second) = total h first + total h second := by
  induction first with
  | nil => exact (Nat.zero_add _).symm
  | cons a rest ih => rw [List.cons_append, total, total, ih, Nat.add_assoc]

theorem length_total {all : List Nat} (sized : ∀ a ∈ all, 0 < size h a) :
    all.length ≤ total h all := by
  induction all with
  | nil => exact Nat.le_refl 0
  | cons a rest ih =>
      have own := sized a List.mem_cons_self
      have others := ih fun b member => sized b (List.mem_cons_of_mem a member)
      rw [List.length_cons, total]
      omega

theorem Shape.rounds (shape : Shape base h nodes used) : 2 * nodes.length + 3 ≤ rounds h := by
  have units := shape.blocks.units
  rw [total_append] at units
  unfold UserHeap.rounds
  cases nodes with
  | nil => cases shape.freep
  | cons a rest =>
      obtain rfl := Option.some.inj shape.first
      obtain ⟨fresh, _⟩ := List.nodup_cons.mp shape.nodup
      have others : rest.length ≤ total h rest := by
        refine length_total fun b member => ?_
        have other : b ≠ a := fun same => fresh (same ▸ member)
        have there : b ∈ a :: rest ++ used :=
          List.mem_append_left used (List.mem_cons_of_mem a member)
        exact (shape.blocks.sized b there other).1
      rw [total] at units
      rw [List.length_cons]
      omega

theorem Shape.freeList (shape : Shape base h nodes used) : FreeList base h nodes used where
  ring := shape.ring
  freep := shape.freep
  ordered := shape.sorted.imp fun {a b} before => Nat.lt_of_le_of_lt (le_after h a) before
  coalesced := shape.sorted
  apart := shape.blocks.apart
  units := shape.blocks.units
  wrap := by
    have last : ∃ p ∈ nodes, next h p = base := by
      have ring := shape.ring
      have first := shape.first
      rcases List.eq_nil_or_concat nodes with rfl | ⟨before, p, rfl⟩
      · cases first
      · rw [List.concat_eq_append] at ring first
        have back := next_place ring first
        exact ⟨p, List.concat_eq_append ▸ List.mem_concat_self, (Option.some.inj back).symm⟩
    have top : ∀ p, p ∈ nodes → next h p ≤ p → ∀ d ∈ nodes, d ≤ p := by
      intro p member down
      rcases shape.successor member with ⟨_, all⟩ | ⟨up, _⟩
      · exact all
      · exact absurd down (Nat.not_le.mpr up)
    obtain ⟨p, member, back⟩ := last
    have down : next h p ≤ p := back ▸ shape.lowest (List.mem_append_left used member)
    refine ⟨p, ⟨member, down⟩, fun q wraps => ?_⟩
    exact Nat.le_antisymm (top p member down q wraps.1) (top q wraps.1 wraps.2 p member)

/-- The first call sets the list up. -/
theorem Inv.prepared (inv : Inv base s) :
    ∃ nodes, Shape base (prepare base s.heap) nodes (s.live.map Block.bp) ∧
      (∀ b ∈ s.live, size (prepare base s.heap) b.bp = size s.heap b.bp) ∧
      (prepare base s.heap).top = s.heap.top ∧ (prepare base s.heap).units = s.heap.units := by
  rcases inv.list with unused | ⟨nodes, shape⟩
  · have set : prepare base s.heap = { store s.heap base ⟨base, 0⟩ with freep := base } :=
      if_pos unused.freep
    have zero : size (prepare base s.heap) base = 0 := by
      rw [set]
      exact (size_store s.heap base ⟨base, 0⟩ base).trans (if_pos rfl)
    have self : next (prepare base s.heap) base = base := by
      rw [set]
      exact (congrFun (next_store s.heap base ⟨base, 0⟩) base).trans (Function.update_self ..)
    have top : (prepare base s.heap).top = s.heap.top := by
      rw [set]
      rfl
    have units : (prepare base s.heap).units = s.heap.units := by
      rw [set]
      rfl
    refine ⟨[base], ?_, ?_, top, units⟩
    · rw [unused.live]
      constructor
      case ring => exact List.isChain_cons_cons.mpr ⟨self, List.isChain_singleton base⟩
      case first => rfl
      case freep =>
        rw [set]
        exact List.mem_cons_self
      case sorted => exact List.pairwise_singleton _ _
      case other => exact List.not_mem_nil
      case blocks =>
        constructor
        case positive => exact unused.positive
        case room => exact top ▸ unused.room
        case zero => exact zero
        case sized => exact fun a member other => absurd (List.mem_singleton.mp member) other
        case below =>
          intro a member
          rw [List.mem_singleton.mp member, after, zero, top]
          exact Nat.le_of_add_right_le unused.room
        case apart => exact List.pairwise_singleton _ _
        case units =>
          rw [units, unused.units]
          exact congrArg (· + 0) zero
    · intro b member
      rw [unused.live] at member
      cases member
  · have positive := shape.blocks.positive
    have low := shape.lowest (List.mem_append_left _ shape.freep)
    have set : prepare base s.heap = s.heap := if_neg (by omega)
    rw [set]
    exact ⟨nodes, shape, fun _ _ => rfl, rfl, rfl⟩

/-- What malloc() returns and leaves behind. -/
theorem malloc_ends (inv : Inv base s) {nbytes : Nat} {sbrk : Sbrk} (small : Small nbytes) :
    ∃ ap h, (∀ fuel, rounds s.heap ≤ fuel → malloc fuel base sbrk s.heap nbytes = some (ap, h)) ∧
      (ap = 0 → ∃ n, sbrk.get s.heap.top n = none) ∧
      Inv base ⟨h, if ap = 0 then s.live else ⟨ap - HEADER, nbytes⟩ :: s.live⟩ := by
  obtain ⟨nodes, shape, same, top, units⟩ := inv.prepared
  have needed : unitsFor nbytes * HEADER < 2 ^ 32 ∧ HEADER + nbytes ≤ HEADER * unitsFor nbytes ∧
      0 < unitsFor nbytes := by
    unfold Small at small
    unfold unitsFor
    unfold HEADER at small ⊢
    rw [Nat.mod_eq_of_lt (by omega)]
    omega
  have inside : (prepare base s.heap).top ≤ 2 ^ 32 := top ▸ inv.inside
  have enough : 2 * nodes.length + 3 ≤ rounds s.heap := by
    have enough := shape.rounds
    unfold rounds at enough ⊢
    rwa [units] at enough
  obtain ⟨r, looped, ending⟩ := @mallocLoop_ends base (prepare base s.heap) nodes
    (s.live.map Block.bp) sbrk (unitsFor nbytes) (rounds s.heap) shape needed.2.2 needed.1 inside
    enough
  have returns : ∀ fuel, rounds s.heap ≤ fuel → malloc fuel base sbrk s.heap nbytes = some r :=
    fun fuel more => mallocLoop_more looped more
  cases ending with
  | fails none =>
      refine ⟨0, _, returns, fun _ => top ▸ none, ?_⟩
      rw [if_pos rfl]
      refine ⟨Or.inr ⟨nodes, shape⟩, fun b member => ?_, inside⟩
      rw [same b member]
      exact inv.room b member
  | gives bp h' nodes' shape' size_ same' inside =>
      have notNull : bp + HEADER ≠ 0 := Nat.succ_ne_zero _
      refine ⟨bp + HEADER, h', returns, fun null => absurd null notNull, ?_⟩
      rw [if_neg notNull, Nat.add_sub_cancel]
      refine ⟨Or.inr ⟨nodes', shape'⟩, fun b member => ?_, inside⟩
      rcases List.mem_cons.mp member with rfl | member
      · rw [size_]
        exact needed.2.1
      · rw [same' b.bp (List.mem_map_of_mem member), same b member]
        exact inv.room b member

/-- A live block among the others. -/
theorem Inv.taken (inv : Inv base s) {ap : Nat} (live : s.live.any (isAt ap) = true) :
    ∃ bp nodes, bp + HEADER = ap ∧
      Shape base s.heap nodes (bp :: (s.live.eraseP (isAt ap)).map Block.bp) := by
  obtain ⟨b, member, here⟩ := List.any_eq_true.mp live
  obtain ⟨c, before, later, _, at_, whole, erased⟩ := List.exists_of_eraseP member here
  have order : s.live.map Block.bp ~ c.bp :: (s.live.eraseP (isAt ap)).map Block.bp := by
    rw [erased, whole, List.map_append, List.map_append, List.map_cons]
    exact List.perm_middle
  rcases inv.list with unused | ⟨nodes, shape⟩
  · rw [unused.live] at member
    cases member
  refine ⟨c.bp, nodes, of_decide_eq_true at_, ?_⟩
  constructor
  case ring => exact shape.ring
  case first => exact shape.first
  case freep => exact shape.freep
  case sorted => exact shape.sorted
  case blocks => exact shape.blocks.perm (order.append_left nodes)
  case other => exact fun inside => shape.other (order.mem_iff.mpr inside)

/-- What free() leaves behind. -/
theorem free_ends (inv : Inv base s) {ap : Nat} (live : s.live.any (isAt ap) = true) :
    ∃ h, (∀ fuel, rounds s.heap ≤ fuel → free fuel s.heap ap = some h) ∧
      Inv base ⟨h, s.live.eraseP (isAt ap)⟩ := by
  obtain ⟨bp, nodes, own, turned⟩ := inv.taken live
  have enough : nodes.length ≤ rounds s.heap := by
    have enough := turned.rounds
    omega
  obtain ⟨h', nodes', freed, shape', same, _, _, top, _⟩ := free_shape turned enough
  rw [own] at freed
  refine ⟨h', fun fuel more => free_more freed more, Or.inr ⟨nodes', shape'⟩, ?_, ?_⟩
  · intro d inside
    rw [same d.bp (List.mem_map_of_mem inside)]
    exact inv.room d (List.mem_of_mem_eraseP inside)
  · rw [top]
    exact inv.inside

theorem Inv.right (inv : Inv base s) : Right base s where
  list := by
    rcases inv.list with unused | ⟨nodes, shape⟩
    · exact Or.inl ⟨unused.freep, unused.live, unused.units⟩
    · exact Or.inr ⟨nodes, shape.freeList⟩
  room := inv.room
  mallocs := by
    intro nbytes sbrk small
    obtain ⟨ap, h, returns, null, _⟩ := @malloc_ends base s inv nbytes sbrk small
    exact ⟨ap, h, null, returns⟩
  frees := by
    intro b member
    have live : s.live.any (isAt (b.bp + HEADER)) = true :=
      List.any_eq_true.mpr ⟨b, member, decide_eq_true rfl⟩
    obtain ⟨h, returns, _⟩ := free_ends inv live
    exact ⟨h, returns⟩

theorem step_inv (s : State) (e : Event) (after : State) (inv : Inv base s)
    (taken : step base s e = some after) : Inv base after := by
  cases e with
  | malloc nbytes sbrk =>
      simp only [step, Option.ite_none_right_eq_some] at taken
      obtain ⟨small, taken⟩ := taken
      obtain ⟨ap, h, returns, _, kept⟩ := @malloc_ends base s inv nbytes sbrk small
      rw [returns _ (Nat.le_refl _)] at taken
      exact Option.some.inj taken ▸ kept
  | free ap =>
      simp only [step, Option.ite_none_right_eq_some] at taken
      obtain ⟨live, taken⟩ := taken
      obtain ⟨h, returns, kept⟩ := free_ends inv live
      rw [returns _ (Nat.le_refl _)] at taken
      exact Option.some.inj taken ▸ kept

end Calls

theorem start_inv (image : Image) (hdr : Nat → Header) : Inv image.base (start image hdr) where
  list := Or.inl ⟨image.positive, image.room, rfl, rfl, rfl⟩
  room := nofun
  inside := image.inside

end Xv6.Public1.UserHeap
