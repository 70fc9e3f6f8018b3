import Xv6.Public1.FileContents

/-!
# Appending to an inode (xv6-public_1)

An inode that has the blocks of its first bytes and no others, with zeroes past
these bytes: the round of a loop that appends keeps that, and takes the blocks
that the longer content needs.
-/

set_option autoImplicit false

namespace Xv6.Public1.Blocks

open Xv6.Lib.Words
open Xv6.Lib.Outcome

variable {sb : Superblock} {s s' : Fs sb} {i : Inum sb}

/-- The blocks of a content of this size, the indirect block among them. -/
def need (size : Nat) : Nat :=
  (size + (BSIZE - 1)) / BSIZE + if NDIRECT * BSIZE < size then 1 else 0

/-- The blocks that bmap() has to take. -/
def Fs.cost (s : Fs sb) (i : Inum sb) (bn : Nat) : Nat :=
  (if s.lookup i bn = none then 1 else 0) +
    if NDIRECT ≤ bn ∧ s.held (.indirect i) = none then 1 else 0

/-- bmap() has taken these blocks. -/
structure Taken (i : Inum sb) (bn : Nat) (s s' : Fs sb) : Prop where
  only : ∀ slot, s'.held slot ≠ none →
    s.held slot ≠ none ∨ place i bn = some slot ∨ slot = .indirect i ∧ NDIRECT ≤ bn
  indirect : NDIRECT ≤ bn → s'.held (.indirect i) ≠ none
  free : s'.free + s.cost i bn = s.free

section Bmap

theorem Claimed.only {slot : Slot sb} {b : Word} (claimed : Claimed i s slot b s')
    {other : Slot sb} (held : s'.held other ≠ none) : s.held other ≠ none ∨ other = slot := by
  rcases claimed.how with ⟨_, same⟩ | ⟨_, same, _⟩
  · rw [same] at held
    exact Or.inl held
  · by_cases here : other = slot
    · exact Or.inr here
    · rw [same, Function.update_of_ne here] at held
      exact Or.inl held

theorem Claimed.free {slot : Slot sb} {b : Word} (claimed : Claimed i s slot b s') :
    s'.free + (if s.held slot = none then 1 else 0) = s.free := by
  rcases claimed.how with ⟨found, same⟩ | ⟨absent, _, _, less⟩
  · rw [if_neg (by simp [found]), same]
    rfl
  · rw [if_pos absent]
    exact less

/-- An address of the inode, which fails only if there was none. -/
theorem bmapAddr_claims (h : Sound s) {k : Fin (NDIRECT + 1)} {slot : Slot sb}
    (mine : slot.inum = i) (here : s.held slot = nonzero ((s.ip i).addrs k))
    (store : ∀ (t : Fs sb) b, t.inode = s.inode → t.held slot = none → t.view i = s.view i →
      t.block b = (fun _ => 0) →
      (t.setAddr i k b).held = Function.update t.held slot (nonzero b)) :
    Ends (s.bmapAddr i k) (fun _ => s.held slot = none ∧ s.free = 0) fun r =>
      Claimed i s slot r.1 r.2 := by
  have ends := bmapAddr_ends h mine here store
  by_cases absent : s.held slot = none
  · exact ends_mono ends (fun e full => ⟨absent, full.2⟩) fun r claimed => claimed
  · have found : (s.ip i).addrs k ≠ 0 := fun zero => absent (here.trans (nonzero_none.mpr zero))
    have returned : s.bmapAddr i k = .ok ((s.ip i).addrs k, s) := if_neg found
    rw [returned]
    exact ends_pure (ends.ok returned)

theorem bmapEntry_claims (h : Sound s) {indirect : Word}
    (there : s.held (.indirect i) = some indirect) (j : Fin NINDIRECT) :
    Ends (s.bmapEntry indirect j) (fun _ => s.held (.entry i j) = none ∧ s.free = 0) fun r =>
      Claimed i s (.entry i j) r.1 r.2 := by
  have ends := bmapEntry_ends h there j
  by_cases absent : s.held (.entry i j) = none
  · exact ends_mono ends (fun e full => ⟨absent, full.2⟩) fun r claimed => claimed
  · have typed : (s.view i).type ≠ 0 := by
      intro zero
      simp [Fs.held, zero] at there
    have addr : nonzero ((s.view i).addrs (Fin.last NDIRECT)) = some indirect := by
      simpa [Fs.held, typed] using there
    have here : s.held (.entry i j) = nonzero (word (s.block indirect) j) := by
      simp [Fs.held, typed, addr]
    have found : word (s.block indirect) j ≠ 0 := fun zero =>
      absent (here.trans (nonzero_none.mpr zero))
    have returned : s.bmapEntry indirect j = .ok (word (s.block indirect) j, s) := if_neg found
    rw [returned]
    exact ends_pure (ends.ok returned)

/-- bmap() fails only for want of the blocks it has to take. -/
theorem bmap_takes (h : Sound s) (loaded : (s.inode i).valid = true) (typed : (s.ip i).type ≠ 0)
    {bn : Nat} (small : bn < MAXFILE) :
    Ends (s.bmap i bn) (fun _ => s.free < s.cost i bn) fun r => Taken i bn s r.2 := by
  have view := view_loaded loaded
  unfold Fs.bmap
  split
  · rename_i direct
    have there : place i bn = some (.direct i ⟨bn, direct⟩) := dif_pos direct
    have low : ¬ NDIRECT ≤ bn := Nat.not_le.mpr direct
    have here : s.held (.direct i ⟨bn, direct⟩) =
        nonzero ((s.ip i).addrs (Fin.castSucc ⟨bn, direct⟩)) := by
      simp only [Fs.held, view, if_neg typed]
    have cost : s.cost i bn = if s.held (.direct i ⟨bn, direct⟩) = none then 1 else 0 := by
      have none_indirect : ¬ (NDIRECT ≤ bn ∧ s.held (.indirect i) = none) := fun both => low both.1
      unfold Fs.cost
      rw [lookup_of_held there, if_neg none_indirect, Nat.add_zero]
    refine ends_mono (bmapAddr_claims h rfl here ?_) ?_ ?_
    · intro t b inode _ same _
      exact held_setDirect (inode ▸ loaded) (by rw [same, view]; exact typed) _ b
    · rintro e ⟨absent, full⟩
      rw [cost, if_pos absent, full]
      exact Nat.zero_lt_one
    · intro r claimed
      constructor
      case only =>
        intro slot held
        rcases claimed.only held with before | same
        · exact Or.inl before
        · exact Or.inr (Or.inl (same ▸ there))
      case indirect => exact fun high => absurd high low
      case free => rw [cost]; exact claimed.free
  · rename_i direct
    have high : NDIRECT ≤ bn := Nat.le_of_not_lt direct
    have inside : bn - NDIRECT < NINDIRECT := by
      simp only [MAXFILE, NDIRECT, NINDIRECT] at *
      omega
    have there : place i bn = some (.entry i ⟨bn - NDIRECT, inside⟩) :=
      (dif_neg direct).trans (dif_pos inside)
    have here : s.held (.indirect i) = nonzero ((s.ip i).addrs (Fin.last NDIRECT)) := by
      simp only [Fs.held, view, if_neg typed]
    have cost : s.cost i bn = (if s.held (.entry i ⟨bn - NDIRECT, inside⟩) = none then 1 else 0) +
        if s.held (.indirect i) = none then 1 else 0 := by
      unfold Fs.cost
      rw [lookup_of_held there]
      simp only [high, true_and]
    rw [dif_pos inside]
    apply ends_bind
    refine ends_mono (bmapAddr_claims h rfl here ?_) ?_ ?_
    · intro t b inode absent same zeroed
      exact held_setIndirect (inode ▸ loaded) (by rw [same, view]; exact typed) absent zeroed
    · rintro e ⟨absent, full⟩
      rw [cost, if_pos absent, full]
      exact Nat.succ_pos _
    · rintro ⟨indirect, t⟩ first
      have taken := first.free
      -- Whether the entry was there is not changed by the first step.
      have entry : t.held (.entry i ⟨bn - NDIRECT, inside⟩) =
          s.held (.entry i ⟨bn - NDIRECT, inside⟩) := by
        rcases first.how with ⟨_, same⟩ | ⟨_, same, _⟩
        · dsimp only at same
          rw [same]
        · dsimp only at same
          rw [same, Function.update_of_ne (by simp)]
      refine ends_mono (bmapEntry_claims first.grows.sound first.here _) ?_ ?_
      · rintro e ⟨absent, full⟩
        rw [entry] at absent
        dsimp only at taken full
        rw [cost, if_pos absent]
        omega
      · rintro ⟨b, u⟩ second
        have taken' := second.free
        dsimp only at taken taken' ⊢
        rw [entry] at taken'
        constructor
        case only =>
          intro slot held
          rcases second.only held with before | same
          · rcases first.only before with before | same
            · exact Or.inl before
            · exact Or.inr (Or.inr ⟨same, high⟩)
          · exact Or.inr (Or.inl (same ▸ there))
        case indirect =>
          intro _ absent
          have kept := second.grows.more _ _ first.here
          dsimp only at kept
          rw [absent] at kept
          cases kept
        case free =>
          rw [cost]
          omega

end Bmap

/-! ## One round of a loop -/

/-- The inode has the blocks of its first `off` bytes. -/
structure Appended (i : Inum sb) (off : Nat) (s : Fs sb) : Prop where
  lookup : ∀ bn, (s.lookup i bn).isSome = true ↔ bn * BSIZE < off
  indirect : s.held (.indirect i) ≠ none ↔ NDIRECT * BSIZE < off
  tail : ∀ p x, off ≤ p → s.byte i p = some x → x = 0

/-- `m` bytes have been appended. -/
structure Appends (i : Inum sb) (off m : Nat) (src : Nat → Byte) (s s' : Fs sb) : Prop where
  written : Written i off m src s s'
  others : ∀ slot : Slot sb, slot.inum ≠ i → s'.held slot = s.held slot
  here : Appended i (off + m) s'
  free : s'.free + need (off + m) = s.free + need off

/-- The blocks that an appended piece takes. -/
theorem Appended.cost {off m : Nat} (before : Appended i off s) (some_byte : 0 < m)
    (fits : off % BSIZE + m ≤ BSIZE) :
    s.cost i (off / BSIZE) + need off = need (off + m) := by
  have lookup : s.lookup i (off / BSIZE) = none ↔ ¬ off / BSIZE * BSIZE < off := by
    rw [← before.lookup, Option.not_isSome_iff_eq_none]
  have indirect : s.held (.indirect i) = none ↔ ¬ NDIRECT * BSIZE < off := by
    rw [← before.indirect, not_not]
  unfold Fs.cost need
  simp only [lookup, indirect, NDIRECT, BSIZE] at *
  split_ifs <;> omega

theorem Appends.nothing {off : Nat} (h : Sound s) (before : Appended i off s) (src : Nat → Byte) :
    Appends i off 0 src s s := by
  constructor
  case written => exact .nothing h off src
  case others => exact fun _ _ => rfl
  case here => exact before
  case free => rfl

theorem Appends.append {off m k : Nat} {src : Nat → Byte} {s'' : Fs sb}
    (first : Appends i off m src s s')
    (second : Appends i (off + m) k (fun q => src (m + q)) s' s'') :
    Appends i off (m + k) src s s'' := by
  constructor
  case written => exact first.written.append second.written
  case others => exact fun slot other => (second.others slot other).trans (first.others slot other)
  case here =>
    rw [← Nat.add_assoc]
    exact second.here
  case free =>
    have before := first.free
    have after := second.free
    rw [← Nat.add_assoc]
    omega

/-- A round of the loop. -/
theorem Appends.round {off m : Nat} {b : Word} (src : Nat → Byte) (before : Appended i off s)
    (mapped : Mapped i (off / BSIZE) s b s') (taken : Taken i (off / BSIZE) s s')
    (some_byte : 0 < m) (fits : off % BSIZE + m ≤ BSIZE) :
    Appends i off m src s (s'.setBlock b (memmove (s'.block b) (off % BSIZE) m src)) := by
  have sound := mapped.grows.sound
  have kept : ∀ data, (s'.setBlock b data).held = s'.held := fun data =>
    held_setBlock (sound.not_indirect mapped.here) data
  -- The places that are new.
  have only : ∀ bn, (s'.lookup i bn).isSome = true → (s.lookup i bn).isSome = true ∨
      bn = off / BSIZE := by
    intro bn found
    obtain ⟨c, found⟩ := Option.isSome_iff_exists.mp found
    obtain ⟨slot, there, held⟩ := lookup_some found
    rcases taken.only slot (by simp [held]) with old | new | ⟨indirect, _⟩
    · rw [lookup_of_held there]
      exact Or.inl (Option.isSome_iff_ne_none.mpr old)
    · exact Or.inr (place_inj there new)
    · exact absurd indirect ((place_inum there).2 i)
  have more : ∀ bn, (s.lookup i bn).isSome = true → (s'.lookup i bn).isSome = true := by
    intro bn found
    obtain ⟨c, found⟩ := Option.isSome_iff_exists.mp found
    rw [mapped.grows.lookup found]
    rfl
  constructor
  case written => exact Written.round mapped some_byte fits
  case others =>
    intro slot other
    rw [kept]
    exact mapped.grows.others slot other
  case here =>
    constructor
    case lookup =>
      intro bn
      rw [lookup_setBlock sound mapped.here]
      constructor
      · intro found
        rcases only bn found with old | rfl
        · exact Nat.lt_of_lt_of_le ((before.lookup bn).mp old) (Nat.le_add_right off m)
        · simp only [BSIZE] at *
          omega
      · intro below
        by_cases old : bn * BSIZE < off
        · exact more bn ((before.lookup bn).mpr old)
        · have here : bn = off / BSIZE := by
            simp only [BSIZE] at *
            omega
          rw [here, mapped.here]
          rfl
    case indirect =>
      rw [kept]
      constructor
      · intro held
        rcases taken.only _ held with old | new | ⟨_, high⟩
        · exact Nat.lt_of_lt_of_le (before.indirect.mp old) (Nat.le_add_right off m)
        · exact absurd rfl ((place_inum new).2 i)
        · simp only [NDIRECT, BSIZE] at *
          omega
      · intro below
        apply taken.indirect
        simp only [NDIRECT, BSIZE] at *
        omega
    case tail =>
      intro p x beyond found
      rw [byte_setBlock sound mapped.here] at found
      have old : ∀ y, s.byte i p = some y → y = 0 := fun y =>
        before.tail p y (Nat.le_trans (Nat.le_add_right off m) beyond)
      split at found
      · rename_i here
        have away : ¬ (off % BSIZE ≤ p % BSIZE ∧ p % BSIZE < off % BSIZE + m) := by
          have block := here.2
          simp only [BSIZE] at *
          omega
        simp only [memmove, if_neg away, Option.some.injEq] at found
        rw [← found]
        cases looked : s.lookup i (off / BSIZE) with
        | none => rw [mapped.zeroed looked]
        | some c =>
            obtain rfl := mapped.still (by rw [looked]; rfl)
            exact old _ (byte_of_lookup (here.2 ▸ mapped.here))
      · rename_i elsewhere
        have looked : (s'.lookup i (p / BSIZE)).isSome = true := by
          rw [← byte_isSome, found]
          rfl
        rcases only _ looked with present | same
        · obtain ⟨y, there⟩ := Option.isSome_iff_exists.mp (byte_isSome.trans present)
          rw [mapped.grows.byte there] at found
          cases found
          exact old _ there
        · exact absurd ⟨rfl, same⟩ elsewhere
  case free =>
    have free : (s'.setBlock b (memmove (s'.block b) (off % BSIZE) m src)).free = s'.free := rfl
    have total := taken.free
    have cost := before.cost some_byte fits
    rw [free]
    omega

theorem Appended.congr {off : Nat} (h : Appended i off s) (held : s'.held = s.held)
    (byte : ∀ p, s'.byte i p = s.byte i p) : Appended i off s' := by
  constructor
  case lookup =>
    intro bn
    unfold Fs.lookup
    rw [held]
    exact h.lookup bn
  case indirect =>
    rw [held]
    exact h.indirect
  case tail =>
    intro p x beyond
    rw [byte]
    exact h.tail p x beyond

/-- Another inode keeps what it has. -/
theorem Appends.other {off m : Nat} {src : Nat → Byte} (appends : Appends i off m src s s')
    {j : Inum sb} (other : j ≠ i) {size : Nat} (before : Appended j size s) :
    Appended j size s' := by
  have lookup : ∀ bn, s'.lookup j bn = s.lookup j bn := by
    intro bn
    cases there : place j bn with
    | none => simp [Fs.lookup, there]
    | some slot =>
        rw [lookup_of_held there, lookup_of_held there]
        refine appends.others slot ?_
        rw [(place_inum there).1]
        exact other
  constructor
  case lookup =>
    intro bn
    rw [lookup]
    exact before.lookup bn
  case indirect =>
    rw [appends.others (.indirect j) other]
    exact before.indirect
  case tail =>
    intro p x beyond
    rw [appends.written.others j p other]
    exact before.tail p x beyond

end Xv6.Public1.Blocks
