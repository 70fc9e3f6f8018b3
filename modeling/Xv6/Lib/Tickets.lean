import Mathlib.Logic.Function.Basic
import Mathlib.Tactic.Common

/-!
# Tickets that have to come back

Tickets are numbered in the order in which they are issued.  A holder has room for one
and gives back what it holds; its account is open from its first ticket until it is
closed.  Nothing is lost as long as no ticket is issued over another and no account is
closed with a ticket in it.
-/

set_option autoImplicit false

namespace Xv6.Lib.Tickets

universe u

structure Ledger (H : Type u) where
  issued : Nat
  held : H → Option Nat
  /-- Who got the ticket, until the account is closed. -/
  owner : Nat → Option H
  /-- How often the ticket has been returned. -/
  returned : Nat → Nat

variable {H : Type u}

namespace Ledger

def empty : Ledger H := ⟨0, fun _ => none, fun _ => none, fun _ => 0⟩

variable [DecidableEq H]

def issue (l : Ledger H) (h : H) : Ledger H :=
  { l with
    issued := l.issued + 1
    held := Function.update l.held h (some l.issued)
    owner := Function.update l.owner l.issued (some h) }

/-- The holder forgets what it holds. -/
def lose (l : Ledger H) (h : H) : Ledger H := { l with held := Function.update l.held h none }

def giveBack (l : Ledger H) (h : H) : Ledger H :=
  match l.held h with
  | none => l
  | some t =>
      { l with
        held := Function.update l.held h none
        returned := Function.update l.returned t (l.returned t + 1) }

def close (l : Ledger H) (h : H) : Ledger H :=
  { l with owner := fun t => if l.owner t = some h then none else l.owner t }

end Ledger

open Ledger

/-- Every ticket has been returned once, or the one who got it still holds it. -/
structure Conserved (l : Ledger H) : Prop where
  once : ∀ t < l.issued, l.returned t ≤ 1
  closed : ∀ t < l.issued, l.owner t = none → l.returned t = 1
  out : ∀ t < l.issued, l.returned t = 0 → ∃ h, l.held h = some t ∧ l.owner t = some h

theorem Conserved.of_out {l : Ledger H} (once : ∀ t < l.issued, l.returned t ≤ 1)
    (out : ∀ t < l.issued, l.returned t = 0 → ∃ h, l.held h = some t ∧ l.owner t = some h) :
    Conserved l where
  once := once
  closed := by
    intro t issued nobody
    by_contra notOnce
    have upper := once t issued
    obtain ⟨h, _, owned⟩ := out t issued (by omega)
    rw [nobody] at owned
    cases owned
  out := out

/-- The invariant: nobody holds a ticket that is not out, and no two hold the same. -/
structure Sound (l : Ledger H) : Prop where
  conserved : Conserved l
  future : ∀ t, l.issued ≤ t → l.returned t = 0
  fresh : ∀ h t, l.held h = some t → t < l.issued ∧ l.returned t = 0
  apart : ∀ h h' t, l.held h = some t → l.held h' = some t → h = h'

theorem empty_sound : Sound (empty : Ledger H) where
  conserved := Conserved.of_out (fun t issued => absurd issued (Nat.not_lt_zero t))
    (fun t issued => absurd issued (Nat.not_lt_zero t))
  future := fun _ _ => rfl
  fresh := fun _ _ held => by cases held
  apart := fun _ _ _ held => by cases held

section Steps
variable [DecidableEq H] {l : Ledger H} {h : H}

theorem Sound.issue (sound : Sound l) (free : l.held h = none) : Sound (l.issue h) := by
  have heldBy : ∀ {h' t}, (l.issue h).held h' = some t →
      h' = h ∧ t = l.issued ∨ h' ≠ h ∧ l.held h' = some t := by
    intro h' t held
    by_cases here : h' = h
    · subst here
      simp only [Ledger.issue, Function.update_self, Option.some.injEq] at held
      exact Or.inl ⟨rfl, held.symm⟩
    · simp only [Ledger.issue, Function.update_of_ne here] at held
      exact Or.inr ⟨here, held⟩
  constructor
  case conserved =>
    refine Conserved.of_out ?_ ?_
    · intro t issued
      rcases Nat.lt_succ_iff_lt_or_eq.mp issued with old | new
      · exact sound.conserved.once t old
      · have unused : l.returned t = 0 := sound.future t (Nat.le_of_eq new.symm)
        exact Nat.le_trans (Nat.le_of_eq unused) (Nat.zero_le 1)
    · intro t issued out
      rcases Nat.lt_succ_iff_lt_or_eq.mp issued with old | new
      · obtain ⟨h', held, owned⟩ := sound.conserved.out t old out
        have other : h' ≠ h := by
          rintro rfl
          rw [free] at held
          cases held
        refine ⟨h', ?_, ?_⟩
        · simp only [Ledger.issue, Function.update_of_ne other, held]
        · simp only [Ledger.issue, Function.update_of_ne (Nat.ne_of_lt old), owned]
      · subst new
        exact ⟨h, Function.update_self .., Function.update_self ..⟩
  case future => exact fun t later => sound.future t (Nat.le_of_succ_le later)
  case fresh =>
    intro h' t held
    rcases heldBy held with ⟨_, rfl⟩ | ⟨_, held⟩
    · exact ⟨Nat.lt_succ_self _, sound.future _ (Nat.le_refl _)⟩
    · obtain ⟨issued, out⟩ := sound.fresh h' t held
      exact ⟨Nat.lt_succ_of_lt issued, out⟩
  case apart =>
    intro h' h'' t held held'
    rcases heldBy held with ⟨rfl, new⟩ | ⟨other, held⟩
    · rcases heldBy held' with ⟨rfl, _⟩ | ⟨_, held'⟩
      · rfl
      · exact absurd (new ▸ (sound.fresh h'' t held').1) (Nat.lt_irrefl _)
    · rcases heldBy held' with ⟨_, new⟩ | ⟨_, held'⟩
      · exact absurd (new ▸ (sound.fresh h' t held).1) (Nat.lt_irrefl _)
      · exact sound.apart h' h'' t held held'

theorem lose_none (free : l.held h = none) : l.lose h = l := by
  rw [Ledger.lose, ← free, Function.update_eq_self]

theorem giveBack_held : (l.giveBack h).held = Function.update l.held h none := by
  unfold Ledger.giveBack
  split
  case h_1 free => rw [← free, Function.update_eq_self]
  case h_2 => rfl

theorem Sound.giveBack (sound : Sound l) : Sound (l.giveBack h) := by
  cases held : l.held h with
  | none =>
      rw [Ledger.giveBack, held]
      exact sound
  | some t =>
      obtain ⟨issued, out⟩ := sound.fresh h t held
      have same : l.giveBack h =
          { l with
            held := Function.update l.held h none
            returned := Function.update l.returned t 1 } := by
        rw [Ledger.giveBack, held]
        simp only [out]
      have heldBy : ∀ {h' t'}, Function.update l.held h none h' = some t' →
          h' ≠ h ∧ l.held h' = some t' := by
        intro h' t' held'
        by_cases here : h' = h
        · subst here
          rw [Function.update_self] at held'
          cases held'
        · rw [Function.update_of_ne here] at held'
          exact ⟨here, held'⟩
      rw [same]
      constructor
      case conserved =>
        refine Conserved.of_out ?_ ?_
        · intro t' issued'
          by_cases here : t' = t
          · subst here
            simp
          · simpa [here] using sound.conserved.once t' issued'
        · intro t' issued' out'
          have other : t' ≠ t := by
            rintro rfl
            simp at out'
          simp only [Function.update_of_ne other] at out'
          obtain ⟨h', held', owned⟩ := sound.conserved.out t' issued' out'
          have elsewhere : h' ≠ h := by
            rintro rfl
            exact other (Option.some.inj (held'.symm.trans held))
          exact ⟨h', by simp only [Function.update_of_ne elsewhere, held'], owned⟩
      case future =>
        intro t' later
        have other : t' ≠ t := fun here => absurd issued (Nat.not_lt_of_le (here ▸ later))
        simp only [Function.update_of_ne other]
        exact sound.future t' later
      case fresh =>
        intro h' t' held'
        obtain ⟨elsewhere, still⟩ := heldBy held'
        have other : t' ≠ t := by
          intro same
          rw [same] at still
          exact elsewhere (sound.apart h' h t still held)
        simp only [Function.update_of_ne other]
        exact sound.fresh h' t' still
      case apart =>
        intro h' h'' t' held' held''
        exact sound.apart h' h'' t' (heldBy held').2 (heldBy held'').2

theorem Sound.close (sound : Sound l) (free : l.held h = none) : Sound (l.close h) where
  conserved := by
    refine Conserved.of_out sound.conserved.once ?_
    intro t issued out
    obtain ⟨h', held, owned⟩ := sound.conserved.out t issued out
    have other : h' ≠ h := by
      rintro rfl
      rw [free] at held
      cases held
    refine ⟨h', held, ?_⟩
    have notClosed : ¬ some h' = some h := fun same => other (Option.some.inj same)
    simp only [Ledger.close, owned, if_neg notClosed]
  future := sound.future
  fresh := sound.fresh
  apart := sound.apart

/-! ## What loses a ticket -/

omit [DecidableEq H] in
theorem out_owner (sound : Sound l) {t : Nat} (held : l.held h = some t) : l.owner t = some h := by
  obtain ⟨issued, out⟩ := sound.fresh h t held
  obtain ⟨h', held', owned⟩ := sound.conserved.out t issued out
  rw [owned, sound.apart h h' t held held']

/-- A ticket that is out and that its holder no longer has is lost. -/
theorem Sound.dropped {l' : Ledger H} (sound : Sound l) {t : Nat} (held : l.held h = some t)
    (issued : l.issued ≤ l'.issued) (returned : l'.returned = l.returned)
    (gone : l'.held h ≠ some t) (others : ∀ h' ≠ h, l'.held h' = l.held h') : ¬ Conserved l' := by
  intro conserved
  obtain ⟨old, out⟩ := sound.fresh h t held
  obtain ⟨h', held', _⟩ := conserved.out t (Nat.lt_of_lt_of_le old issued) (by rw [returned, out])
  by_cases here : h' = h
  · exact gone (here ▸ held')
  · rw [others h' here] at held'
    exact here (sound.apart h' h t held' held)

theorem conserved_issue (sound : Sound l) (conserved : Conserved (l.issue h)) :
    l.held h = none := by
  cases held : l.held h with
  | none => rfl
  | some t =>
      refine absurd conserved (sound.dropped held (Nat.le_succ _) rfl ?_ ?_)
      · simp only [Ledger.issue, Function.update_self, ne_eq, Option.some.injEq]
        exact (Nat.ne_of_lt (sound.fresh h t held).1).symm
      · exact fun h' other => Function.update_of_ne other _ _

theorem conserved_lose (sound : Sound l) (conserved : Conserved (l.lose h)) :
    l.held h = none := by
  cases held : l.held h with
  | none => rfl
  | some t =>
      refine absurd conserved (sound.dropped held (Nat.le_refl _) rfl ?_ ?_)
      · simp [Ledger.lose]
      · exact fun h' other => Function.update_of_ne other _ _

theorem conserved_close (sound : Sound l) (conserved : Conserved (l.close h)) :
    l.held h = none := by
  cases held : l.held h with
  | none => rfl
  | some t =>
      obtain ⟨issued, out⟩ := sound.fresh h t held
      have owned := out_owner sound held
      have once := conserved.closed t issued (by simp [Ledger.close, owned])
      rw [show (l.close h).returned = l.returned from rfl, out] at once
      cases once

end Steps

end Xv6.Lib.Tickets
