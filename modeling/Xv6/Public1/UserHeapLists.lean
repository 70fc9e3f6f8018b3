import Xv6.Public1.UserHeap

/-!
# Blocks in and out of the free list (umalloc.c of xv6-public_1)

What free() and the end of malloc() do to the list, to the blocks in use and to the units.
-/

set_option autoImplicit false

namespace Xv6.Public1.UserHeap

open Xv6.Lib.Links
open scoped List

/-! ## Putting a block back -/

/-- The block `bp` behind the node `p`, which does not point to it yet. -/
structure Detached (base : Nat) (h : Heap) (before : List Nat) (p bp : Nat) (later : List Nat)
    (used : List Nat) : Prop where
  ring : Ring (Function.update (next h) p bp) (before ++ p :: bp :: later)
  first : (before ++ [p]).head? = some base
  sorted : (before ++ p :: later).Pairwise fun a b => after h a < b
  low : ∀ a ∈ before ++ [p], after h a ≤ bp
  high : ∀ b ∈ later, after h bp < b
  blocks : Blocks base h (bp :: (before ++ p :: later ++ used))
  other : base ∉ used
  notBase : bp ≠ base

section Join
variable {base : Nat} {h : Heap} {before later used : List Nat} {p bp : Nat}

theorem head_split (before : List Nat) (p : Nat) (later : List Nat) :
    (before ++ p :: later).head? = (before ++ [p]).head? := by
  cases before with
  | nil => rfl
  | cons a before => rfl

theorem next_store (h : Heap) (a : Nat) (header : Header) :
    next (store h a header) = Function.update (next h) a header.ptr := by
  funext b
  unfold next store
  by_cases same : b = a
  · subst same
    simp only [Function.update_self]
  · simp only [Function.update_of_ne same]

theorem size_store (h : Heap) (a : Nat) (header : Header) (b : Nat) :
    size (store h a header) b = if b = a then header.size else size h b := by
  unfold size store
  by_cases same : b = a
  · subst same
    simp only [Function.update_self, if_true]
  · simp only [Function.update_of_ne same, if_neg same]

/-- The node behind `p`. -/
theorem next_place (ring : Ring (next h) (before ++ p :: later))
    (first : (before ++ [p]).head? = some base) :
    (later ++ [base]).head? = some (next h p) := by
  have linked := ring_around.mp ring
  cases later with
  | cons r later => exact congrArg some (List.isChain_cons_cons.mp linked).1.symm
  | nil =>
      cases before with
      | nil =>
          have self : next h p = p := (List.isChain_cons_cons.mp linked).1
          have start : p = base := Option.some.inj first
          exact congrArg some (start.symm.trans self.symm)
      | cons a before =>
          have here : next h p = a := (List.isChain_cons_cons.mp linked).1
          have start : a = base := Option.some.inj first
          exact congrArg some (start.symm.trans here.symm)

/-- The block joins the free block behind it, if they touch. -/
theorem joinRight_detached (shape : Shape base h (before ++ p :: later) (bp :: used))
    (low : p < bp) (lows : ∀ a ∈ before, a < bp) (high : ∀ a ∈ later, bp < a) :
    ∃ later', later'.length ≤ later.length ∧
      Detached base (joinRight h bp p) before p bp later' used ∧
      (∀ a ∈ used, size (joinRight h bp p) a = size h a) ∧
      size h bp ≤ size (joinRight h bp p) bp := by
  have first : (before ++ [p]).head? = some base := (head_split before p later) ▸ shape.first
  have notBase : bp ≠ base := fun same => shape.other (same ▸ List.mem_cons_self)
  have other : base ∉ used := fun member => shape.other (List.mem_cons_of_mem bp member)
  have blocks : Blocks base h (bp :: (before ++ p :: later ++ used)) :=
    shape.blocks.perm List.perm_middle
  have apart := blocks.tail
  have fresh := blocks.fresh notBase
  have inNodes : ∀ {a}, a ∈ before ++ p :: later → a ∈ before ++ p :: later ++ used := fun member =>
    List.mem_append_left used member
  have stops : ∀ a ∈ before ++ [p], after h a ≤ bp := by
    intro a member
    have inside : a ∈ before ++ p :: later := by
      rcases List.mem_append.mp member with earlier | here
      · exact List.mem_append_left _ earlier
      · cases List.mem_singleton.mp here
        exact List.mem_append_right _ List.mem_cons_self
    have under : a < bp := by
      rcases List.mem_append.mp member with earlier | here
      · exact lows a earlier
      · exact List.mem_singleton.mp here ▸ low
    have grows := le_after h bp
    have where_ := apart a (inNodes inside)
    unfold Apart at where_
    omega
  have starts : ∀ b ∈ later, after h bp ≤ b := by
    intro b member
    have above := high b member
    have grows := le_after h b
    have where_ := apart b (inNodes (List.mem_append_right _ (List.mem_cons_of_mem p member)))
    unfold Apart at where_
    omega
  have place := next_place shape.ring first
  have notHere : bp ∉ before ++ p :: later := fun member => fresh (inNodes member)
  have different : bp ≠ p := Nat.ne_of_gt low
  unfold joinRight
  by_cases touch : after h bp = next h p
  · rw [if_pos touch]
    cases later with
    | nil =>
        have wraps : base = next h p := Option.some.inj place
        have grows := le_after h bp
        have lowest := (blocks.sized bp List.mem_cons_self notBase).2
        omega
    | cons r later =>
        have behind : r = next h p := Option.some.inj place
        have touches : after h bp = r := touch.trans behind.symm
        rw [← behind]
        refine ⟨later, Nat.le_succ _, ?_, ?_, ?_⟩
        · have sizes : ∀ c, c ≠ bp →
              size (store h bp ⟨next h r, size h bp + size h r⟩) c = size h c := by
            intro c apart
            rw [size_store, if_neg apart]
          have grown : size (store h bp ⟨next h r, size h bp + size h r⟩) bp =
              size h bp + size h r := by
            rw [size_store, if_pos rfl]
          have notR : r ≠ base := by
            have lowest := (blocks.sized bp List.mem_cons_self notBase).2
            have above := high r List.mem_cons_self
            omega
          have shorter : (before ++ p :: later).Sublist (before ++ p :: r :: later) :=
            ((List.sublist_cons_self r later).cons_cons p).append_left before
          have notShort : ∀ c ∈ before ++ p :: later, c ≠ bp := fun c member same =>
            notHere (shorter.subset (same ▸ member))
          have ends : after (store h bp ⟨next h r, size h bp + size h r⟩) bp = after h r := by
            rw [after, grown, Nat.mul_add, ← Nat.add_assoc]
            exact congrArg (· + HEADER * size h r) touches
          constructor
          case ring =>
            have removed := shape.ring.remove shape.nodup
            have inserted := removed.insert (shape.nodup.sublist shorter)
              (fun member => notHere (shorter.subset member))
            refine inserted.congr fun c _ => ?_
            rw [next_store]
            by_cases atP : c = p
            · rw [atP, Function.update_self, Function.update_self]
            · rw [Function.update_of_ne atP, Function.update_of_ne atP]
              by_cases atBp : c = bp
              · rw [atBp, Function.update_self, Function.update_self, Function.update_self]
              · rw [Function.update_of_ne atBp, Function.update_of_ne atBp,
                  Function.update_of_ne atP]
          case first => exact first
          case sorted =>
            refine (shape.sorted.sublist shorter).imp_of_mem fun {a b} member _ before => ?_
            rw [after_congr (sizes a (notShort a member))]
            exact before
          case low =>
            intro a member
            have different : a ≠ bp := by
              rcases List.mem_append.mp member with earlier | here
              · exact Nat.ne_of_lt (lows a earlier)
              · exact List.mem_singleton.mp here ▸ Nat.ne_of_lt low
            rw [after_congr (sizes a different)]
            exact stops a member
          case high =>
            intro b member
            rw [ends]
            have upper := (List.pairwise_append.mp shape.sorted).2.1
            have fromR := (List.pairwise_cons.mp upper).2
            exact (List.pairwise_cons.mp fromR).1 b member
          case blocks =>
            have order : bp :: (before ++ p :: r :: later ++ used) ~
                bp :: r :: (before ++ p :: later ++ used) := by
              refine List.Perm.cons bp ?_
              have shape_ : before ++ p :: r :: later ++ used =
                  (before ++ [p]) ++ r :: (later ++ used) := by simp
              have shape' : r :: (before ++ p :: later ++ used) =
                  r :: ((before ++ [p]) ++ (later ++ used)) := by simp
              rw [shape_, shape']
              exact List.perm_middle
            refine (blocks.perm order).merge notBase notR touches ?_ ?_ grown rfl rfl
            · exact sizes base (Ne.symm notBase)
            · intro c member
              refine sizes c fun same => ?_
              rcases List.mem_append.mp (same ▸ member) with inside | inside
              · exact notHere (shorter.subset inside)
              · exact fresh (List.mem_append_right _ inside)
          case other => exact other
          case notBase => exact notBase
        · intro a member
          have different : a ≠ bp := fun same =>
            fresh (List.mem_append_right _ (same ▸ member))
          rw [size_store, if_neg different]
        · rw [size_store, if_pos rfl]
          exact Nat.le_add_right _ _
  · rw [if_neg touch]
    have sizes : ∀ c, size (store h bp ⟨next h p, size h bp⟩) c = size h c := by
      intro c
      rw [size_store]
      split
      case isTrue same => exact same ▸ rfl
      case isFalse => rfl
    refine ⟨later, Nat.le_refl _, ?_, fun a _ => sizes a, Nat.le_of_eq (sizes bp).symm⟩
    constructor
    case ring =>
      have inserted := shape.ring.insert shape.nodup notHere
      rw [next_store]
      exact inserted
    case first => exact first
    case sorted =>
      refine shape.sorted.imp fun {a b} before => ?_
      rw [after_congr (sizes a)]
      exact before
    case low =>
      intro a member
      rw [after_congr (sizes a)]
      exact stops a member
    case high =>
      intro b member
      rw [after_congr (sizes bp)]
      cases later with
      | nil => cases member
      | cons r later =>
          have behind : r = next h p := Option.some.inj place
          have apartR : after h bp ≠ r := fun same => touch (same.trans behind)
          have close := starts r List.mem_cons_self
          rcases List.mem_cons.mp member with rfl | inside
          · omega
          · have upper := (List.pairwise_append.mp shape.sorted).2.1
            have fromR := (List.pairwise_cons.mp upper).2
            have further := (List.pairwise_cons.mp fromR).1 b inside
            have grows := le_after h r
            omega
    case blocks => exact blocks.congr (sizes base) (fun c _ => sizes c) rfl rfl
    case other => exact other
    case notBase => exact notBase

/-- The node in front of the block takes it in, if they touch, or points to it. -/
theorem joinLeft_shape (detached : Detached base h before p bp later used) :
    ∃ nodes, nodes.length ≤ before.length + later.length + 2 ∧
      Shape base { joinLeft h bp p with freep := p } nodes used ∧
      (∀ a ∈ used, size (joinLeft h bp p) a = size h a) ∧
      ∃ c ∈ nodes, size h bp ≤ size (joinLeft h bp p) c := by
  have blocks := detached.blocks
  have apart := blocks.tail
  have fresh := blocks.fresh detached.notBase
  have inP : p ∈ before ++ p :: later := List.mem_append_right _ List.mem_cons_self
  have different : bp ≠ p := fun same => fresh (List.mem_append_left used (same ▸ inP))
  have sorted := List.pairwise_append.mp detached.sorted
  obtain ⟨fromP, upper⟩ := List.pairwise_cons.mp sorted.2.1
  have lowP : after h p ≤ bp := detached.low p (List.mem_append_right _ List.mem_cons_self)
  unfold joinLeft
  by_cases touch : after h p = bp
  · rw [if_pos touch]
    have notP : p ≠ base := by
      intro same
      have zero := blocks.zero
      rw [after, same, zero] at touch
      exact detached.notBase touch.symm
    have sizes : ∀ c, c ≠ p →
        size (store h p ⟨next h bp, size h p + size h bp⟩) c = size h c := by
      intro c other
      rw [size_store, if_neg other]
    have grown : size (store h p ⟨next h bp, size h p + size h bp⟩) p =
        size h p + size h bp := by
      rw [size_store, if_pos rfl]
    have order : bp :: (before ++ p :: later ++ used) ~ p :: bp :: (before ++ later ++ used) := by
      have first : before ++ p :: later ++ used ~ p :: (before ++ later ++ used) := by
        rw [List.append_assoc, List.cons_append, List.append_assoc]
        exact List.perm_middle
      exact (List.Perm.cons bp first).trans (List.Perm.swap p bp _)
    have turned := blocks.perm order
    have freshP := turned.fresh notP
    have usedP : ∀ a ∈ used, a ≠ p := fun a member same =>
      freshP (List.mem_cons_of_mem bp (List.mem_append_right _ (same ▸ member)))
    have ends : after (store h p ⟨next h bp, size h p + size h bp⟩) p = after h bp := by
      rw [after, grown, Nat.mul_add, ← Nat.add_assoc]
      exact congrArg (· + HEADER * size h bp) touch
    have length : (before ++ p :: later).length ≤ before.length + later.length + 2 := by
      rw [List.length_append, List.length_cons]
      omega
    refine ⟨before ++ p :: later, length, ?_, fun a member => sizes a (usedP a member), p, inP,
      ?_⟩
    · constructor
      case ring =>
        have once : (before ++ p :: bp :: later).Nodup := by
          refine List.perm_middle.nodup_iff.mpr (List.nodup_cons.mpr ⟨?_, ?_⟩)
          · intro member
            refine freshP ?_
            rcases List.mem_append.mp member with inside | inside
            · exact List.mem_cons_of_mem bp (List.mem_append_left _ (List.mem_append_left _ inside))
            · rcases List.mem_cons.mp inside with same | inside
              · exact absurd same.symm different
              · exact List.mem_cons_of_mem bp
                  (List.mem_append_left _ (List.mem_append_right _ inside))
          · refine List.perm_middle.nodup_iff.mpr (List.nodup_cons.mpr ⟨?_, ?_⟩)
            · intro member
              refine fresh (List.mem_append_left used ?_)
              rcases List.mem_append.mp member with inside | inside
              · exact List.mem_append_left _ inside
              · exact List.mem_append_right _ (List.mem_cons_of_mem p inside)
            · exact (sorted_nodup detached.sorted).sublist
                (List.Sublist.append_left (List.sublist_cons_self p later) before)
        have removed := detached.ring.remove once
        refine removed.congr fun c _ => ?_
        show next (store h p _) c = _
        rw [next_store, Function.update_of_ne different]
        by_cases atP : c = p
        · rw [atP, Function.update_self, Function.update_self]
        · rw [Function.update_of_ne atP, Function.update_of_ne atP, Function.update_of_ne atP]
      case first => exact (head_split before p later).trans detached.first
      case freep => exact inP
      case sorted =>
        refine List.pairwise_append.mpr ⟨?_, List.pairwise_cons.mpr ⟨?_, ?_⟩, ?_⟩
        · refine sorted.1.imp_of_mem fun {a b} member _ before_ => ?_
          have other : a ≠ p := by
            have lower := sorted.2.2 a member p List.mem_cons_self
            have grows := le_after h a
            omega
          show after (store h p _) a < b
          rw [after_congr (sizes a other)]
          exact before_
        · intro b member
          show after (store h p _) p < b
          rw [ends]
          exact detached.high b member
        · refine upper.imp_of_mem fun {a b} member _ before_ => ?_
          have other : a ≠ p := by
            have higher := fromP a member
            have grows := le_after h p
            omega
          show after (store h p _) a < b
          rw [after_congr (sizes a other)]
          exact before_
        · intro a member b inside
          have lower := sorted.2.2 a member p List.mem_cons_self
          have grows := le_after h a
          show after (store h p _) a < b
          rw [after_congr (sizes a (by omega))]
          exact sorted.2.2 a member b inside
      case blocks =>
        have merged : Blocks base (store h p ⟨next h bp, size h p + size h bp⟩)
            (p :: (before ++ later ++ used)) := by
          refine turned.merge notP detached.notBase touch (sizes base (Ne.symm notP)) ?_ grown
            rfl rfl
          exact fun c member => sizes c fun same =>
            freshP (List.mem_cons_of_mem bp (same ▸ member))
        have back : p :: (before ++ later ++ used) ~ before ++ p :: later ++ used := by
          rw [List.append_assoc before (p :: later), List.cons_append, List.append_assoc]
          exact List.perm_middle.symm
        have restored := merged.perm back
        exact restored.congr rfl (fun _ _ => rfl) rfl rfl
      case other => exact detached.other
    · show size h bp ≤ size (store h p _) p
      rw [grown]
      exact Nat.le_add_left _ _
  · rw [if_neg touch]
    have sizes : ∀ c, size (store h p ⟨bp, size h p⟩) c = size h c := by
      intro c
      rw [size_store]
      split
      case isTrue same => exact same ▸ rfl
      case isFalse => rfl
    have length : (before ++ p :: bp :: later).length ≤ before.length + later.length + 2 := by
      rw [List.length_append, List.length_cons, List.length_cons]
      omega
    refine ⟨before ++ p :: bp :: later, length, ?_, fun a _ => sizes a, bp, by simp,
      Nat.le_of_eq (sizes bp).symm⟩
    constructor
    case ring =>
      show Ring (next (store h p _)) _
      rw [next_store]
      exact detached.ring
    case first => exact (head_split before p (bp :: later)).trans detached.first
    case freep => exact List.mem_append_right _ List.mem_cons_self
    case sorted =>
      have strict : after h p < bp := Nat.lt_of_le_of_ne lowP touch
      have whole : (before ++ p :: bp :: later).Pairwise fun a b => after h a < b := by
        refine List.pairwise_append.mpr ⟨sorted.1, List.pairwise_cons.mpr ⟨?_, ?_⟩, ?_⟩
        · intro b member
          rcases List.mem_cons.mp member with rfl | inside
          · exact strict
          · exact fromP b inside
        · exact List.pairwise_cons.mpr ⟨detached.high, upper⟩
        · intro a member b inside
          have lower := sorted.2.2 a member p List.mem_cons_self
          rcases List.mem_cons.mp inside with rfl | inside
          · exact lower
          · rcases List.mem_cons.mp inside with rfl | inside
            · have grows := le_after h p
              omega
            · exact sorted.2.2 a member b (List.mem_cons_of_mem p inside)
      refine whole.imp fun {a b} before_ => ?_
      show after (store h p _) a < b
      rw [after_congr (sizes a)]
      exact before_
    case blocks =>
      have order : bp :: (before ++ p :: later ++ used) ~ before ++ p :: bp :: later ++ used := by
        have shape₁ : before ++ p :: later ++ used = (before ++ [p]) ++ (later ++ used) := by simp
        have shape₂ : before ++ p :: bp :: later ++ used =
          (before ++ [p]) ++ bp :: (later ++ used) := by simp
        rw [shape₁, shape₂]
        exact List.perm_middle.symm
      exact (blocks.perm order).congr (sizes base) (fun c _ => sizes c) rfl rfl
    case other => exact detached.other

/-- free() of a block in use. -/
theorem free_shape {nodes : List Nat} {fuel : Nat} (shape : Shape base h nodes (bp :: used))
    (enough : nodes.length ≤ fuel) :
    ∃ h' nodes', free fuel h (bp + HEADER) = some h' ∧ Shape base h' nodes' used ∧
      (∀ a ∈ used, size h' a = size h a) ∧ (∃ c ∈ nodes', size h bp ≤ size h' c) ∧
      nodes'.length ≤ nodes.length + 1 ∧ h'.top = h.top ∧ h'.units = h.units := by
  have notBase : bp ≠ base := fun same => shape.other (same ▸ List.mem_cons_self)
  have member : bp ∈ nodes ++ bp :: used := List.mem_append_right _ List.mem_cons_self
  have behind : base < bp := by
    have lowest := (shape.blocks.sized bp member notBase).2
    unfold HEADER at lowest
    omega
  have turned : Blocks base h (bp :: (nodes ++ used)) := shape.blocks.perm List.perm_middle
  have other : bp ∉ nodes := fun inside =>
    turned.fresh notBase (List.mem_append_left used inside)
  obtain ⟨before, p, later, rfl, low, lows, highs⟩ :=
    place_exists shape.sorted shape.first behind other
  have inP : p ∈ before ++ p :: later := List.mem_append_right _ List.mem_cons_self
  have place : ∀ d ∈ before ++ p :: later, d ≤ p ∨ bp < d := by
    intro d inside
    rcases List.mem_append.mp inside with earlier | inside
    · have lower := (List.pairwise_append.mp shape.sorted).2.2 d earlier p List.mem_cons_self
      have grows := le_after h d
      omega
    · rcases List.mem_cons.mp inside with rfl | inside
      · exact Or.inl (Nat.le_refl d)
      · exact Or.inr (highs d inside)
  have found := shape.freeLoop inP behind low place enough
  obtain ⟨later', shorter, detached, used₁, grows⟩ := joinRight_detached shape low lows highs
  obtain ⟨nodes', length, after_, used₂, c, there, large⟩ := joinLeft_shape detached
  refine ⟨{ joinLeft (joinRight h bp p) bp p with freep := p }, nodes', ?_, after_, ?_,
    ⟨c, there, grows.trans large⟩, ?_, ?_, ?_⟩
  · rw [free, Nat.add_sub_cancel, found]
    rfl
  · exact fun a inside => (used₂ a inside).trans (used₁ a inside)
  · rw [List.length_append, List.length_cons]
    omega
  · show (joinLeft (joinRight h bp p) bp p).top = h.top
    unfold joinLeft joinRight
    split
    all_goals (split; all_goals rfl)
  · show (joinLeft (joinRight h bp p) bp p).units = h.units
    unfold joinLeft joinRight
    split
    all_goals (split; all_goals rfl)

end Join

/-! ## Taking a block -/

section Take
variable {base : Nat} {h : Heap} {nodes used : List Nat} {prevp p n : Nat}

/-- The node behind `prevp` is large enough. -/
theorem allocate_shape (shape : Shape base h nodes used) (member : prevp ∈ nodes)
    (behind : next h prevp = p) (some : 0 < n) (large : n ≤ size h p) :
    ∃ bp h' nodes', allocate h n prevp p = (bp + HEADER, h') ∧
      Shape base h' nodes' (bp :: used) ∧ size h' bp = n ∧
      (∀ a ∈ used, size h' a = size h a) ∧ h'.top = h.top := by
  have notBase : p ≠ base := by
    intro same
    have zero := shape.blocks.zero
    rw [same, zero] at large
    omega
  have split : ∃ before later, nodes = before ++ prevp :: p :: later := by
    have first := shape.first
    have ring := shape.ring
    cases nodes with
    | nil => cases member
    | cons a rest =>
        cases Option.some.inj first
        rw [← behind]
        exact ring.split member (behind ▸ notBase)
  obtain ⟨before, later, rfl⟩ := split
  have inP : p ∈ before ++ prevp :: p :: later :=
    List.mem_append_right _ (List.mem_cons_of_mem _ List.mem_cons_self)
  have different : p ≠ prevp := by
    intro same
    have once := (List.nodup_append.mp shape.nodup).2.1
    exact (List.nodup_cons.mp once).1 (same ▸ List.mem_cons_self)
  have order : before ++ prevp :: p :: later ++ used ~
      p :: (before ++ prevp :: later ++ used) := by
    have shape₁ : before ++ prevp :: p :: later ++ used =
        (before ++ [prevp]) ++ p :: (later ++ used) := by simp
    have shape₂ : before ++ prevp :: later ++ used = (before ++ [prevp]) ++ (later ++ used) := by
      simp
    rw [shape₁, shape₂]
    exact List.perm_middle
  have turned := shape.blocks.perm order
  have fresh := turned.fresh notBase
  unfold allocate
  by_cases exact_ : size h p = n
  · rw [if_pos exact_]
    have sizes : ∀ c, size (store h prevp ⟨next h p, size h prevp⟩) c = size h c := by
      intro c
      rw [size_store]
      split
      case isTrue same => exact same ▸ rfl
      case isFalse => rfl
    refine ⟨p, _, before ++ prevp :: later, rfl, ?_, (sizes p).trans exact_, fun a _ => sizes a,
      rfl⟩
    have shorter : (before ++ prevp :: later).Sublist (before ++ prevp :: p :: later) :=
      List.Sublist.append_left (List.Sublist.cons_cons prevp (List.sublist_cons_self p later))
        before
    constructor
    case ring =>
      show Ring (next (store h prevp _)) _
      rw [next_store]
      exact shape.ring.remove shape.nodup
    case first =>
      have first := shape.first
      rwa [head_split] at first ⊢
    case freep => exact List.mem_append_right _ List.mem_cons_self
    case sorted =>
      refine (shape.sorted.sublist shorter).imp fun {a b} before_ => ?_
      show after (store h prevp _) a < b
      rw [after_congr (sizes a)]
      exact before_
    case blocks =>
      have back : p :: (before ++ prevp :: later ++ used) ~
          before ++ prevp :: later ++ p :: used := List.perm_middle.symm
      exact (turned.perm back).congr (sizes base) (fun c _ => sizes c) rfl rfl
    case other =>
      intro inside
      rcases List.mem_cons.mp inside with same | inside
      · exact notBase same.symm
      · exact shape.other inside
  · rw [if_neg exact_]
    have less : n < size h p := Nat.lt_of_le_of_ne large (Ne.symm exact_)
    obtain ⟨q, cut⟩ : ∃ q, q = p + HEADER * (size h p - n) := ⟨_, rfl⟩
    have endP : after (store h p ⟨next h p, size h p - n⟩) p = q := by
      rw [after, size_store, if_pos rfl, cut]
    dsimp only
    rw [endP]
    -- `q` is in the block, so it is the start of no other one.
    have inside : p < q ∧ q < after h p := by
      have more : 0 < size h p - n := Nat.sub_pos_of_lt less
      rw [cut, after, HEADER]
      omega
    have freshQ : ∀ c ∈ before ++ prevp :: later ++ used, c ≠ q := by
      intro c there same
      have apart := turned.tail c there
      have grows := le_after h c
      unfold Apart at apart
      omega
    have low := (turned.sized p List.mem_cons_self notBase).2
    have baseQ : base ≠ q := by omega
    have sizes : ∀ c, c ≠ p → c ≠ q → size (store (store h p ⟨next h p, size h p - n⟩) q
        ⟨next (store h p ⟨next h p, size h p - n⟩) q, n⟩) c = size h c := by
      intro c other other'
      rw [size_store, if_neg other', size_store, if_neg other]
    have sizeP : size (store (store h p ⟨next h p, size h p - n⟩) q
        ⟨next (store h p ⟨next h p, size h p - n⟩) q, n⟩) p = size h p - n := by
      rw [size_store, if_neg (Nat.ne_of_lt inside.1), size_store, if_pos rfl]
    have sizeQ : size (store (store h p ⟨next h p, size h p - n⟩) q
        ⟨next (store h p ⟨next h p, size h p - n⟩) q, n⟩) q = n := by
      rw [size_store, if_pos rfl]
    have smaller : ∀ c ∈ before ++ prevp :: p :: later, after (store (store h p
        ⟨next h p, size h p - n⟩) q ⟨next (store h p ⟨next h p, size h p - n⟩) q, n⟩) c ≤
          after h c := by
      intro c there
      by_cases atP : c = p
      · rw [atP, after, sizeP, after]
        exact Nat.add_le_add_left (Nat.mul_le_mul_left _ (Nat.sub_le _ _)) p
      · have rest : c ∈ before ++ prevp :: later ++ used := by
          have turnedC := order.mem_iff.mp (List.mem_append_left used there)
          exact (List.mem_cons.mp turnedC).resolve_left atP
        exact Nat.le_of_eq (after_congr (sizes c atP (freshQ c rest)))
    refine ⟨q, _, before ++ prevp :: p :: later, rfl, ?_, sizeQ, ?_, rfl⟩
    · constructor
      case ring =>
        show Ring (next (store (store h p _) q _)) _
        refine shape.ring.congr fun c _ => ?_
        rw [next_store, next_store]
        by_cases atQ : c = q
        · rw [atQ, Function.update_self]
          exact Function.update_of_ne (Nat.ne_of_gt inside.1) _ _
        · rw [Function.update_of_ne atQ]
          by_cases atP : c = p
          · rw [atP, Function.update_self]
          · rw [Function.update_of_ne atP]
      case first => exact shape.first
      case freep => exact List.mem_append_right _ List.mem_cons_self
      case sorted =>
        refine shape.sorted.imp_of_mem fun {a b} there _ before_ => ?_
        exact Nat.lt_of_le_of_lt (smaller a there) before_
      case blocks =>
        have cutBlocks : Blocks base (store (store h p ⟨next h p, size h p - n⟩) q
            ⟨next (store h p ⟨next h p, size h p - n⟩) q, n⟩)
            (p :: q :: (before ++ prevp :: later ++ used)) := by
          refine turned.split notBase some less (sizes base (Ne.symm notBase) baseQ) ?_ sizeP cut
            sizeQ rfl rfl
          exact fun c there => sizes c (fun same => fresh (same ▸ there)) (freshQ c there)
        have back : p :: q :: (before ++ prevp :: later ++ used) ~
            before ++ prevp :: p :: later ++ q :: used := by
          have shape₁ : p :: q :: (before ++ prevp :: later ++ used) =
              p :: q :: ((before ++ [prevp]) ++ (later ++ used)) := by simp
          have shape₂ : before ++ prevp :: p :: later ++ q :: used =
              (before ++ [prevp]) ++ p :: (later ++ q :: used) := by simp
          rw [shape₁, shape₂]
          refine List.Perm.trans ?_ List.perm_middle.symm
          refine List.Perm.cons p ?_
          have shape₃ : (before ++ [prevp]) ++ (later ++ q :: used) =
              (before ++ [prevp] ++ later) ++ q :: used := by simp
          have shape₄ : (before ++ [prevp]) ++ (later ++ used) =
              (before ++ [prevp] ++ later) ++ used := by simp
          rw [shape₃, shape₄]
          exact List.perm_middle.symm
        exact (cutBlocks.perm back).congr rfl (fun _ _ => rfl) rfl rfl
      case other =>
        intro there
        rcases List.mem_cons.mp there with same | there
        · exact baseQ same
        · exact shape.other there
    · intro a there
      have rest : a ∈ before ++ prevp :: later ++ used := List.mem_append_right _ there
      exact sizes a (fun same => fresh (same ▸ rest)) (freshQ a rest)

end Take

end Xv6.Public1.UserHeap
