import Xv6.Public1.FileRefinement

/-!
# itrunc() frees the blocks of an inode (xv6-public_1)

What the loops of itrunc() have freed at every point, and what iput() leaves of an
inode that has no links.
-/

set_option autoImplicit false

namespace Xv6.Public1.Blocks

open Xv6.Lib.Words
open Xv6.Lib.Allocation
open Xv6.Lib.Outcome

variable {sb : Superblock}

/-- The blocks in some places of an inode have been freed, and the places are empty. -/
structure Freed (i : Inum sb) (S : Set (Slot sb)) (s t : Fs sb) : Prop where
  gone : ∀ slot ∈ S, t.held slot = none
  kept : ∀ slot, slot ∉ S → t.held slot = s.held slot
  bitmap : ∀ b, t.bitmap b = true ↔ s.bitmap b = true ∧ ∀ slot ∈ S, s.held slot ≠ some b
  block : t.block = s.block
  dinode : t.dinode = s.dinode
  inode : ∀ j, j ≠ i → t.inode j = s.inode j
  ref : (t.inode i).ref = (s.inode i).ref
  valid : (t.inode i).valid = (s.inode i).valid
  copy : ∃ addrs, t.ip i = { s.ip i with addrs := addrs }

namespace Freed

variable {i : Inum sb} {S S' : Set (Slot sb)} {s t u : Fs sb}

theorem nothing (i : Inum sb) (s : Fs sb) : Freed i ∅ s s := by
  constructor
  case gone => exact fun slot member => absurd member (Set.notMem_empty slot)
  case kept => exact fun _ _ => rfl
  case bitmap =>
    intro b
    exact (and_iff_left fun slot member => absurd member (Set.notMem_empty slot)).symm
  case block => rfl
  case dinode => rfl
  case inode => exact fun _ _ => rfl
  case ref => rfl
  case valid => rfl
  case copy => exact ⟨(s.ip i).addrs, rfl⟩

theorem trans (first : Freed i S s t) (second : Freed i S' t u) : Freed i (S ∪ S') s u := by
  constructor
  case gone =>
    intro slot member
    by_cases later : slot ∈ S'
    · exact second.gone slot later
    · rw [second.kept slot later]
      exact first.gone slot (member.resolve_right later)
  case kept =>
    intro slot outside
    obtain ⟨first_out, second_out⟩ := not_or.mp outside
    exact (second.kept slot second_out).trans (first.kept slot first_out)
  case bitmap =>
    intro b
    rw [second.bitmap b, first.bitmap b, and_assoc]
    refine and_congr_right fun _ => ?_
    constructor
    · rintro ⟨early, late⟩ slot (member | member)
      · exact early slot member
      · by_cases before : slot ∈ S
        · exact early slot before
        · rw [← first.kept slot before]
          exact late slot member
    · intro every
      refine ⟨fun slot member => every slot (Or.inl member), fun slot member held => ?_⟩
      by_cases before : slot ∈ S
      · rw [first.gone slot before] at held
        cases held
      · rw [first.kept slot before] at held
        exact every slot (Or.inr member) held
  case block => exact second.block.trans first.block
  case dinode => exact second.dinode.trans first.dinode
  case inode => exact fun j other => (second.inode j other).trans (first.inode j other)
  case ref => exact second.ref.trans first.ref
  case valid => exact second.valid.trans first.valid
  case copy =>
    obtain ⟨addrs, same⟩ := first.copy
    obtain ⟨addrs', same'⟩ := second.copy
    exact ⟨addrs', by rw [same', same]⟩

theorem sound (h : Sound s) (freed : Freed i S s t) : Sound t := by
  have used : t.used = s.used \ {b | ∃ slot ∈ S, s.held slot = some b} := by
    ext b
    simp only [Fs.used, Set.mem_ofPred_eq, Set.mem_sdiff, not_exists, not_and, freed.bitmap b,
      and_assoc]
  constructor
  case blocks =>
    rw [used]
    exact h.blocks.drop freed.gone freed.kept
  case metadata =>
    intro b low
    refine (freed.bitmap b).mpr ⟨h.metadata b low, fun slot _ held => ?_⟩
    exact absurd (h.data held).1 (Nat.not_le.mpr low)

theorem type (freed : Freed i S s t) : (t.ip i).type = (s.ip i).type := by
  obtain ⟨addrs, same⟩ := freed.copy
  rw [same]

end Freed

/-! ## The loops -/

section Itrunc
variable {s t : Fs sb} {i : Inum sb}

theorem bfree_ok {b : Word} (bit : s.bitmap b = true) :
    s.bfree b = .ok (s.setBit b false) := by
  unfold Fs.bfree
  rw [bit]
  rfl

/-- A direct block is freed, and the address is cleared. -/
theorem Freed.direct (loaded : (s.inode i).valid = true)
    (typed : (s.view i).type ≠ 0) {k : Fin NDIRECT} {b : Word}
    (held : s.held (.direct i k) = some b) :
    Freed i {.direct i k} s ((s.setBit b false).setAddr i k.castSucc 0) := by
  have after : ((s.setBit b false).setAddr i k.castSucc 0).held =
      Function.update s.held (.direct i k) none := by
    rw [held_setDirect (s := s.setBit b false) loaded typed k 0, nonzero_zero]
    rfl
  constructor
  case gone =>
    intro slot member
    obtain rfl := Set.mem_singleton_iff.mp member
    rw [after, Function.update_self]
  case kept =>
    intro slot outside
    rw [after, Function.update_of_ne outside]
  case bitmap =>
    intro c
    change Function.update s.bitmap b false c = true ↔ _
    by_cases here : c = b
    · subst here
      rw [Function.update_self]
      exact iff_of_false (by simp) fun both => both.2 _ rfl held
    · rw [Function.update_of_ne here]
      refine (and_iff_left ?_).symm
      rintro slot rfl other
      rw [held] at other
      exact here (Option.some.inj other).symm
  case block => rfl
  case dinode => rfl
  case inode => exact fun j other => Function.update_of_ne other _ _
  case ref => simp [Fs.setAddr, Fs.setCopy, Fs.setInode, Fs.setBit]
  case valid => simp [Fs.setAddr, Fs.setCopy, Fs.setInode, Fs.setBit]
  case copy =>
    refine ⟨Function.update (s.ip i).addrs k.castSucc 0, ?_⟩
    simp [Fs.setAddr, Fs.setCopy, Fs.setInode, Fs.setBit, Fs.ip]

/-- The loop over the direct blocks. -/
theorem directLoop_ends (h : Sound s) (loaded : (s.inode i).valid = true)
    (typed : (s.ip i).type ≠ 0) (ks : List (Fin NDIRECT)) (once : ks.Nodup) :
    Ends (ks.foldlM (fun s k =>
      if (s.ip i).addrs k.castSucc ≠ 0 then do
        let s ← s.bfree ((s.ip i).addrs k.castSucc)
        pure (s.setAddr i k.castSucc 0)
      else pure s) s) (fun _ : Panic => False) fun t =>
      Freed i {slot | ∃ k ∈ ks, slot = .direct i k} s t := by
  induction ks generalizing s with
  | nil =>
      have none_yet : {slot : Slot sb | ∃ k ∈ ([] : List (Fin NDIRECT)), slot = .direct i k} = ∅ := by
        ext slot
        simp
      rw [none_yet]
      exact ends_pure (.nothing i s)
  | cons k rest ih =>
      obtain ⟨fresh, once⟩ := List.nodup_cons.mp once
      have view := view_loaded loaded
      have split_first : {slot : Slot sb | ∃ k' ∈ k :: rest, slot = .direct i k'} =
          {.direct i k} ∪ {slot | ∃ k' ∈ rest, slot = .direct i k'} := by
        ext slot
        simp
      rw [split_first, List.foldlM_cons]
      have mine : s.held (.direct i k) = nonzero ((s.ip i).addrs k.castSucc) := by
        simp only [Fs.held, view, if_neg typed]
      by_cases zero : (s.ip i).addrs k.castSucc = 0
      · have empty : s.held (.direct i k) = none := mine.trans (nonzero_none.mpr zero)
        have first : Freed i {.direct i k} s s := by
          have start := Freed.nothing i s
          constructor
          case gone => rintro slot rfl; exact empty
          case kept => exact fun _ _ => rfl
          case bitmap =>
            intro b
            refine (and_iff_left ?_).symm
            rintro slot rfl held
            rw [empty] at held
            cases held
          case block => rfl
          case dinode => rfl
          case inode => exact start.inode
          case ref => rfl
          case valid => rfl
          case copy => exact start.copy
        rw [if_neg (not_not.mpr zero)]
        change Ends (List.foldlM _ s rest) _ _
        exact ends_mono (ih h loaded typed once) (fun e never => never) fun t rest => first.trans rest
      · have held : s.held (.direct i k) = some ((s.ip i).addrs k.castSucc) :=
          mine.trans (nonzero_of_ne zero)
        have first := Freed.direct loaded (view ▸ typed) held
        rw [if_pos zero, bfree_ok (h.bit held)]
        change Ends (List.foldlM _ _ rest) _ _
        refine ends_mono (ih (first.sound h) (first.valid.trans loaded) ?_ once)
          (fun e never => never) fun t rest => first.trans rest
        rw [first.type]
        exact typed

/-- The bits that the loop over the indirect block has cleared. -/
structure Cleared (i : Inum sb) (js : List (Fin NINDIRECT)) (s t : Fs sb) : Prop where
  same : t = { s with bitmap := t.bitmap }
  bitmap : ∀ b, t.bitmap b = true ↔
    s.bitmap b = true ∧ ∀ j ∈ js, s.held (.entry i j) ≠ some b

theorem entry_held (typed : (s.view i).type ≠ 0) {indirect : Word}
    (there : s.held (.indirect i) = some indirect) (j : Fin NINDIRECT) :
    s.held (.entry i j) = nonzero (word (s.block indirect) j) := by
  have addr : nonzero ((s.view i).addrs (Fin.last NDIRECT)) = some indirect := by
    simpa [Fs.held, typed] using there
  simp [Fs.held, typed, addr]

/-- The loop over the indirect block. -/
theorem entryLoop_ends (h : Sound s) (typed : (s.view i).type ≠ 0) {indirect : Word}
    (there : s.held (.indirect i) = some indirect) (js : List (Fin NINDIRECT)) :
    ∀ (done : List (Fin NINDIRECT)) (u : Fs sb), (done ++ js).Nodup → Cleared i done s u →
      Ends (js.foldlM (fun s' j =>
        if word (s.block indirect) j ≠ 0 then s'.bfree (word (s.block indirect) j) else pure s') u)
        (fun _ : Panic => False) fun v => Cleared i (done ++ js) s v := by
  induction js with
  | nil =>
      intro done u _ cleared
      rw [List.append_nil]
      exact ends_pure cleared
  | cons j rest ih =>
      intro done u once cleared
      have again : done ++ j :: rest = (done ++ [j]) ++ rest := by simp
      have mine := entry_held typed there j
      have fresh : j ∉ done := by
        intro member
        exact (List.nodup_append.mp once).2.2 j member j List.mem_cons_self rfl
      rw [List.foldlM_cons]
      rw [again] at once ⊢
      by_cases zero : word (s.block indirect) j = 0
      · rw [if_neg (not_not.mpr zero)]
        refine ih _ u once ⟨cleared.same, fun b => ?_⟩
        rw [cleared.bitmap b]
        refine and_congr_right fun _ => ⟨fun every k member => ?_, fun every k member => ?_⟩
        · obtain early | last := List.mem_append.mp member
          · exact every k early
          · obtain rfl := List.mem_singleton.mp last
            rw [mine, nonzero_none.mpr zero]
            simp
        · exact every k (List.mem_append_left _ member)
      · have held : s.held (.entry i j) = some (word (s.block indirect) j) :=
          mine.trans (nonzero_of_ne zero)
        have bit : u.bitmap (word (s.block indirect) j) = true := by
          refine (cleared.bitmap _).mpr ⟨h.bit held, fun k member other => ?_⟩
          have same := h.blocks.once other held
          cases same
          exact fresh member
        rw [if_pos zero, bfree_ok bit]
        refine ih _ (u.setBit (word (s.block indirect) j) false) once ⟨?_, fun b => ?_⟩
        · rw [cleared.same]
          rfl
        · change Function.update u.bitmap _ false b = true ↔ _
          by_cases here : b = word (s.block indirect) j
          · subst here
            rw [Function.update_self]
            refine iff_of_false (by simp) fun both => both.2 j ?_ held
            exact List.mem_append_right _ List.mem_cons_self
          · rw [Function.update_of_ne here, cleared.bitmap b]
            refine and_congr_right fun _ => ⟨fun every k member => ?_, fun every k member => ?_⟩
            · obtain early | last := List.mem_append.mp member
              · exact every k early
              · obtain rfl := List.mem_singleton.mp last
                rw [held]
                exact fun same => here (Option.some.inj same).symm
            · exact every k (List.mem_append_left _ member)

/-- The indirect block with its entries. -/
def indirectSlots (i : Inum sb) : Set (Slot sb) :=
  {slot | slot = .indirect i ∨ ∃ j, slot = .entry i j}

/-- The entries are freed, then the indirect block, and its address is cleared. -/
theorem Freed.indirect (h : Sound s) (loaded : (s.inode i).valid = true)
    (typed : (s.view i).type ≠ 0) {indirect : Word} (there : s.held (.indirect i) = some indirect)
    (cleared : Cleared i (List.finRange NINDIRECT) s t) :
    t.bfree indirect = .ok (t.setBit indirect false) ∧
      Freed i (indirectSlots i) s ((t.setBit indirect false).setAddr i (Fin.last NDIRECT) 0) := by
  have inode : t.inode = s.inode := by rw [cleared.same]
  have block : t.block = s.block := by rw [cleared.same]
  have dinode : t.dinode = s.dinode := by rw [cleared.same]
  have view : ∀ j, (t.setBit indirect false).view j = s.view j := by
    intro j
    rw [cleared.same]
    rfl
  have loaded' : ((t.setBit indirect false).inode i).valid = true := by
    change (t.inode i).valid = true
    rw [inode]
    exact loaded
  have after : ∀ j, ((t.setBit indirect false).setAddr i (Fin.last NDIRECT) 0).view j =
      if j = i then
        { s.view i with addrs := Function.update (s.view i).addrs (Fin.last NDIRECT) 0 }
      else s.view j := by
    intro j
    rw [view_setAddr loaded', view, view]
  have bit : t.bitmap indirect = true := by
    refine (cleared.bitmap indirect).mpr ⟨h.bit there, fun j _ other => ?_⟩
    cases h.blocks.once other there
  refine ⟨bfree_ok bit, ?_⟩
  constructor
  case gone =>
    rintro slot (rfl | ⟨j, rfl⟩)
    · simp only [Fs.held, after, if_true, Function.update_self, nonzero_zero, ite_self]
    · simp only [Fs.held, after, if_true, Function.update_self, nonzero_zero, Option.bind_none,
        ite_self]
  case kept =>
    intro slot outside
    cases slot with
    | direct j k =>
        by_cases here : j = i
        · subst here
          simp only [Fs.held, after, if_true, Function.update_of_ne (Fin.castSucc_ne_last k)]
        · simp only [Fs.held, after, if_neg here]
    | indirect j =>
        have here : j ≠ i := by
          rintro rfl
          exact outside (Or.inl rfl)
        simp only [Fs.held, after, if_neg here]
    | entry j k =>
        have here : j ≠ i := by
          rintro rfl
          exact outside (Or.inr ⟨k, rfl⟩)
        have same : ((t.setBit indirect false).setAddr i (Fin.last NDIRECT) 0).block = s.block := block
        simp only [Fs.held, after, if_neg here, same]
  case bitmap =>
    intro b
    change Function.update t.bitmap indirect false b = true ↔ _
    by_cases here : b = indirect
    · subst here
      rw [Function.update_self]
      exact iff_of_false (by simp) fun both => both.2 _ (Or.inl rfl) there
    · rw [Function.update_of_ne here, cleared.bitmap b]
      refine and_congr_right fun _ => ⟨?_, fun every j _ => every _ (Or.inr ⟨j, rfl⟩)⟩
      rintro every slot (rfl | ⟨j, rfl⟩)
      · rw [there]
        exact fun same => here (Option.some.inj same).symm
      · exact every j (List.mem_finRange j)
  case block => exact block
  case dinode => exact dinode
  case inode =>
    intro j other
    change Function.update t.inode i _ j = _
    rw [Function.update_of_ne other, inode]
  case ref => simp [Fs.setAddr, Fs.setCopy, Fs.setInode, Fs.setBit, inode]
  case valid => simp [Fs.setAddr, Fs.setCopy, Fs.setInode, Fs.setBit, inode]
  case copy =>
    refine ⟨Function.update (s.ip i).addrs (Fin.last NDIRECT) 0, ?_⟩
    simp [Fs.setAddr, Fs.setCopy, Fs.setInode, Fs.setBit, Fs.ip, inode]

/-- There is no indirect block. -/
theorem Freed.absent (empty : s.held (.indirect i) = none) : Freed i (indirectSlots i) s s := by
  have start := Freed.nothing i s
  have none_there : ∀ slot ∈ indirectSlots i, s.held slot = none := by
    rintro slot (rfl | ⟨j, rfl⟩)
    · exact empty
    · cases found : s.held (.entry i j) with
      | none => rfl
      | some b => exact absurd empty (indirect_of_entry found)
  constructor
  case gone => exact none_there
  case kept => exact fun _ _ => rfl
  case bitmap =>
    intro b
    refine (and_iff_left ?_).symm
    intro slot member held
    rw [none_there slot member] at held
    cases held
  case block => rfl
  case dinode => rfl
  case inode => exact start.inode
  case ref => rfl
  case valid => rfl
  case copy => exact start.copy

/-- All the places of an inode. -/
def slotsOf (i : Inum sb) : Set (Slot sb) := {slot | slot.inum = i}

theorem slotsOf_eq (i : Inum sb) :
    slotsOf i = {slot | ∃ k ∈ List.finRange NDIRECT, slot = .direct i k} ∪ indirectSlots i := by
  ext slot
  cases slot with
  | direct j k => simp [slotsOf, indirectSlots, Slot.inum]
  | indirect j => simp [slotsOf, indirectSlots, Slot.inum]
  | entry j k => simp [slotsOf, indirectSlots, Slot.inum]

/-- itrunc() never finds a block free, and frees the blocks of the inode. -/
theorem itrunc_ends (h : Sound s) (loaded : (s.inode i).valid = true) (typed : (s.ip i).type ≠ 0) :
    Ends (s.itrunc i) (fun _ => False) fun t =>
      ∃ u, Freed i (slotsOf i) s u ∧ t = (u.setCopy i { u.ip i with size := 0 }).iupdate i := by
  unfold Fs.itrunc
  apply ends_bind
  refine ends_mono (directLoop_ends h loaded typed _ (List.nodup_finRange NDIRECT))
    (fun e never => never) ?_
  intro t first
  have sound := first.sound h
  have loaded := first.valid.trans loaded
  have typed : (t.ip i).type ≠ 0 := by
    rw [first.type]
    exact typed
  have view := view_loaded loaded
  have mine : t.held (.indirect i) = nonzero ((t.ip i).addrs (Fin.last NDIRECT)) := by
    simp only [Fs.held, view, if_neg typed]
  dsimp only
  rw [slotsOf_eq]
  by_cases zero : (t.ip i).addrs (Fin.last NDIRECT) = 0
  · have empty : t.held (.indirect i) = none := mine.trans (nonzero_none.mpr zero)
    rw [if_neg (not_not.mpr zero)]
    exact ends_pure ⟨t, first.trans (.absent empty), rfl⟩
  · rw [if_pos zero]
    have there : t.held (.indirect i) = some ((t.ip i).addrs (Fin.last NDIRECT)) :=
      mine.trans (nonzero_of_ne zero)
    apply ends_bind
    refine ends_mono (entryLoop_ends sound (view ▸ typed) there _ [] t (List.nodup_finRange _) ?_)
      (fun e never => never) ?_
    · exact ⟨rfl, fun b => by simp⟩
    · intro u cleared
      obtain ⟨freed, second⟩ := Freed.indirect sound loaded (view ▸ typed) there cleared
      rw [freed]
      exact ends_pure ⟨_, first.trans second, rfl⟩

end Itrunc

end Xv6.Public1.Blocks
