import Xv6.Public3.KallocRuns

/-!
# Programs over the real free list (kalloc.c, vm.c of xv6-public_3)

What `Wp` says of a program over kalloc() and kfree() holds when it runs on kalloc.c,
while any number of other threads run theirs.
-/

set_option autoImplicit false

namespace Xv6.Public3.Kalloc

open Xv6.Lib.Words
open Xv6.Lib.Runs
open Xv6.Lib.Allocation (Wp)

variable {l : Placed} {m m' : Machine} {s t : Thread} {v : Word} {free : List Word}

/-! ## Programs in threads -/

/-- The threads with what is left of their programs. -/
structure System (α : Type) where
  kernel : Machine
  left : Thread → Vm α
  /-- What a thread has from kalloc(). -/
  own : Thread → List Page

/-- The call of kfree() is one of freerange(). -/
def Machine.ranging (m : Machine) (t : Thread) : Bool :=
  match m.stage with
  | .kinit1 _ | .kinit2 _ => decide (t = main)
  | _ => false

variable {α : Type}

namespace System

/-- kalloc() returns `r`. -/
def given (s : System α) (t : Thread) (m : Machine) (r : Word) (next : Option Page → Vm α) :
    System α where
  kernel := m
  left := Function.update s.left t (next ((pointer r).map V2P))
  own := if r = 0 then s.own else Function.update s.own t (V2P r :: s.own t)

/-- A step of a thread in kalloc.c, and what its program goes on with. -/
def go (s : System α) (t : Thread) (m : Machine) : System α :=
  match s.kernel.point t, s.left t with
  | .taken r, .alloc next => s.given t m r next
  | .freed, .free _ next =>
      if s.kernel.ranging t = true then { s with kernel := m }
      else { s with kernel := m, left := Function.update s.left t next }
  | _, _ => { s with kernel := m }

end System

inductive Move where
  /-- The program of a thread comes to its next call. -/
  | call (t : Thread)
  | kinit2
  | go (t : Thread)
  deriving DecidableEq

variable (l)

def programStep (s : System α) : Move → Option (System α)
  | .call t =>
      match s.left t with
      | .alloc _ => (step l s.kernel (.kalloc t)).map fun m => { s with kernel := m }
      | .free r _ =>
          (step l s.kernel (.kfree t (P2V r.toNat))).map fun m =>
            { s with
              kernel := m
              own := Function.update s.own t ((s.own t).filter fun u => decide (u ≠ r)) }
      | _ => none
  | .kinit2 => (step l s.kernel .kinit2).map fun m => { s with kernel := m }
  | .go t => (step l s.kernel (.go t)).map fun m => s.go t m

variable {l}

/-! ## Calls -/

inductive Phase where
  | away | kalloc | kfree | freerange

def Point.phase : Point → Phase
  | .away => .away
  | .kalloc | .first | .unlink _ | .taken _ => .kalloc
  | .memset _ _ | .kfree _ | .link _ | .push _ | .freed => .kfree
  | .freerange => .freerange

/-- What one step of a thread in kalloc.c does to its call. -/
def Phase.Next (m : Machine) (t : Thread) (m' : Machine) : Prop :=
  match m.point t with
  | .away => False
  | .kalloc | .first | .unlink _ => (m'.point t).phase = .kalloc
  | .taken _ => m'.point t = .away
  | .memset _ _ | .kfree _ | .link _ | .push _ =>
      (m'.point t).phase = .kfree ∧ m'.ranging t = m.ranging t
  | .freed => m'.point t = if m.ranging t then .freerange else .away
  | .freerange => m'.point t = .away ∨ (m'.point t).phase = .kfree ∧ m'.ranging t = true

/-- What one step of a thread in kalloc.c does. -/
structure Going (m : Machine) (t : Thread) (m' : Machine) : Prop where
  others : ∀ s, s ≠ t → m'.point s = m.point s
  ranging : ∀ s, s ≠ t → m'.ranging s = m.ranging s
  held : (∀ r, m.point t ≠ .taken r) → m'.held = m.held
  next : Phase.Next m t m'

theorem ranging_of_stage (same : m'.stage = m.stage) : m'.ranging s = m.ranging s := by
  unfold Machine.ranging
  rw [same]

theorem ranging_other (other : s ≠ main) : m.ranging s = false := by
  unfold Machine.ranging
  split
  · exact decide_eq_false other
  · exact decide_eq_false other
  · rfl

theorem Going.of_goto {p : Point} (point : m'.point = (m.goto t p).point)
    (stage : t ≠ main → m'.stage = m.stage) (held : (∀ r, m.point t ≠ .taken r) → m'.held = m.held)
    (next : Phase.Next m t m') : Going m t m' := by
  constructor
  case others =>
    intro s other
    rw [point]
    exact goto_point_other other
  case ranging =>
    intro s other
    by_cases first : s = main
    · subst first
      exact ranging_of_stage (stage other.symm)
    · rw [ranging_other first, ranging_other first]
  case held => exact held
  case next => exact next

theorem kfree_goto (fine : (kfree l m t v).panicked = none) :
    kfree l m t v = m.goto t (.memset v 0) := by
  unfold kfree at fine ⊢
  split
  case isTrue wrong =>
    rw [if_pos wrong] at fine
    cases fine
  case isFalse => rfl

theorem caller_point (m : Machine) (t : Thread) :
    (caller m t).point =
      (m.goto t (if m.ranging t = true then .freerange else .away)).point := by
  unfold caller Machine.ranging
  by_cases first : t = main
  · rw [if_pos first]
    cases m.stage <;> simp [first]
  · rw [if_neg first]
    cases m.stage <;> simp [first]

theorem caller_held (m : Machine) (t : Thread) : (caller m t).held = m.held := by
  unfold caller
  split_ifs
  · cases m.stage <;> rfl
  · rfl

theorem caller_stage (m : Machine) (other : t ≠ main) : (caller m t).stage = m.stage := by
  unfold caller
  rw [if_neg other]
  rfl

theorem Inv.going (inv : Inv l m free) (taken : go l m t = some m') : Going m t m' := by
  obtain ⟨free', after⟩ := go_inv inv taken
  have fine := after.data.fine
  unfold go at taken
  cases here : m.point t with
  | away =>
      simp only [here] at taken
      cases taken
  | kalloc =>
      simp only [here] at taken
      obtain ⟨lock, rfl, _⟩ := acquire_spec inv.locks (inv.locks.here (t := t) (by
        rw [here]
        exact Point.noConfusion)) (by rw [here]; rfl) rfl taken
      refine Going.of_goto rfl (fun _ => rfl) (fun _ => rfl) ?_
      simp only [Phase.Next, here, goto_point]
      rfl
  | kfree v =>
      simp only [here] at taken
      obtain ⟨lock, rfl, _⟩ := acquire_spec inv.locks (inv.locks.here (t := t) (by
        rw [here]
        exact Point.noConfusion)) (by rw [here]; rfl) rfl taken
      refine Going.of_goto rfl (fun _ => rfl) (fun _ => rfl) ?_
      simp only [Phase.Next, here, goto_point]
      exact ⟨rfl, rfl⟩
  | first =>
      simp only [here] at taken
      cases taken
      refine Going.of_goto rfl (fun _ => rfl) (fun _ => rfl) ?_
      simp only [Phase.Next, here, goto_point]
      rfl
  | unlink r =>
      simp only [here] at taken
      cases taken
      refine Going.of_goto (p := .taken r) ?_ (fun _ => ?_) (fun _ => ?_) ?_
      · split <;> rfl
      · split <;> rfl
      · split <;> rfl
      · simp only [Phase.Next, here, goto_point]
        rfl
  | taken r =>
      simp only [here] at taken
      cases taken
      obtain ⟨lock, eq, _⟩ := release_spec (p := .away) inv.locks (inv.locks.here (t := t) (by
        rw [here]
        exact Point.noConfusion)) (by rw [here]; rfl) rfl
      refine Going.of_goto (p := .away) ?_ (fun _ => ?_) (fun other => absurd here (other r)) ?_
      · rw [eq]
        rfl
      · rw [eq]
        rfl
      · rw [eq]
        simp only [Phase.Next, here]
        exact goto_point
  | memset v n =>
      simp only [here] at taken
      split_ifs at taken with inside <;> cases taken
      · refine Going.of_goto (p := .memset v (n + 1)) rfl (fun _ => rfl) (fun _ => rfl) ?_
        simp only [Phase.Next, here, goto_point]
        exact ⟨rfl, rfl⟩
      · refine Going.of_goto (p := .kfree v) rfl (fun _ => rfl) (fun _ => rfl) ?_
        simp only [Phase.Next, here, goto_point]
        exact ⟨rfl, rfl⟩
  | link v =>
      simp only [here] at taken
      cases taken
      refine Going.of_goto (p := .push v) rfl (fun _ => rfl) (fun _ => rfl) ?_
      simp only [Phase.Next, here, goto_point]
      exact ⟨rfl, rfl⟩
  | push v =>
      simp only [here] at taken
      cases taken
      refine Going.of_goto (p := .freed) rfl (fun _ => rfl) (fun _ => rfl) ?_
      simp only [Phase.Next, here, goto_point]
      exact ⟨rfl, rfl⟩
  | freed =>
      simp only [here] at taken
      cases taken
      obtain ⟨lock, eq, _⟩ := release_spec (p := .away) inv.locks (inv.locks.here (t := t) (by
        rw [here]
        exact Point.noConfusion)) (by rw [here]; rfl) rfl
      have point : (caller (release m t .away) t).point =
          (m.goto t (if m.ranging t = true then .freerange else .away)).point := by
        rw [eq, caller_point]
        have twice : (((m.setLock lock).goto t .away).goto t
            (if m.ranging t = true then .freerange else .away)).point = _ :=
          congrArg Machine.point goto_goto
        exact twice
      refine Going.of_goto point (fun other => ?_) (fun _ => ?_) ?_
      · rw [caller_stage _ other, eq]
        rfl
      · rw [caller_held, eq]
        rfl
      · simp only [Phase.Next, here]
        rw [point, goto_point]
  | freerange =>
      simp only [here] at taken
      have away : m.point t ≠ .away := by
        rw [here]
        exact Point.noConfusion
      unfold Kalloc.freerange at taken
      cases stage : m.stage with
      | kinit1 page =>
          simp only [stage] at taken
          obtain rfl := inv.locks.first (by rw [stage]; exact Stage.noConfusion) away
          split_ifs at taken <;> cases taken
          · rw [kfree_goto fine]
            refine Going.of_goto rfl (fun _ => rfl) (fun _ => rfl) ?_
            simp only [Phase.Next, here, goto_point]
            have ranging : m.ranging main = true := by
              rw [Machine.ranging, stage]
              rfl
            exact Or.inr ⟨rfl, ranging⟩
          · refine Going.of_goto (p := .away) rfl (fun other => absurd rfl other) (fun _ => rfl) ?_
            simp only [Phase.Next, here]
            exact Or.inl goto_point
      | kinit2 page =>
          simp only [stage] at taken
          obtain rfl := inv.locks.first (by rw [stage]; exact Stage.noConfusion) away
          split_ifs at taken <;> cases taken
          · rw [kfree_goto fine]
            refine Going.of_goto rfl (fun _ => rfl) (fun _ => rfl) ?_
            simp only [Phase.Next, here, goto_point]
            have ranging : m.ranging main = true := by
              rw [Machine.ranging, stage]
              rfl
            exact Or.inr ⟨rfl, ranging⟩
          · refine Going.of_goto (p := .away) rfl (fun other => absurd rfl other) (fun _ => rfl) ?_
            simp only [Phase.Next, here]
            exact Or.inl goto_point
      | early =>
          simp only [stage] at taken
          cases taken
      | running =>
          simp only [stage] at taken
          cases taken

/-! ## Addresses -/

theorem p2v_inj {r u : Page} (same : P2V r.toNat = P2V u.toNat) : r = u := by
  unfold P2V at same
  bv_omega

theorem v2p_pool (member : v ∈ pool l) : V2P v ∈ l.pool ∧ P2V (V2P v).toNat = v := by
  obtain ⟨aligned, first, last⟩ := member
  have after : KERNLINK < l.kend := l.kend_after
  have base : KERNBASE < KERNLINK := by decide
  have round : KERNBASE % PGSIZE = 0 := by decide
  have physical : (V2P v).toNat = v.toNat - KERNBASE := by
    have high : KERNBASE ≤ v.toNat := by omega
    unfold V2P
    unfold KERNBASE at high ⊢
    bv_omega
  refine ⟨⟨?_, ?_, ?_⟩, ?_⟩
  · rw [physical]
    unfold PGSIZE at aligned round ⊢
    omega
  · rw [physical]
    omega
  · rw [physical]
    omega
  · unfold P2V
    rw [physical, Nat.sub_add_cancel (by omega)]
    exact BitVec.eq_of_toNat_eq (by simp)

/-! ## The invariant -/

section Sound
variable {ok : Thread → Xv6.Public3.Panic → Prop} {post : Thread → Set Page → α → Prop}
variable {sys : System α} {left : Vm α} {own : List Page}

/-- Where a thread is in its program. -/
def Active (l : Placed) (ok : Xv6.Public3.Panic → Prop) (post : Set Page → α → Prop) (m : Machine)
    (t : Thread) (left : Vm α) (own : List Page) : Prop :=
  match (m.point t).phase with
  | .kalloc => ∃ next, left = .alloc next ∧ Wp l.pool ok left {r | r ∈ own} post
  | .kfree =>
      if m.ranging t = true then Wp l.pool ok left {r | r ∈ own} post
      else ∃ r next, left = .free r next ∧ Wp l.pool ok next {r | r ∈ own} post
  | _ => Wp l.pool ok left {r | r ∈ own} post

/-- The threads have pages of their own, for which they are in their programs. -/
structure Fits (l : Placed) (ok : Thread → Xv6.Public3.Panic → Prop)
    (post : Thread → Set Page → α → Prop) (sys : System α) : Prop where
  kernel : ∃ free, Inv l sys.kernel free
  shares : ∀ t r, r ∈ sys.own t → P2V r.toNat ∈ sys.kernel.held
  apart : ∀ t s r, r ∈ sys.own t → r ∈ sys.own s → s = t
  active : ∀ t, Active l (ok t) (post t) sys.kernel t (sys.left t) (sys.own t)

theorem Active.congr {ok : Xv6.Public3.Panic → Prop} {post : Set Page → α → Prop}
    (active : Active l ok post m t left own) (point : m'.point t = m.point t)
    (ranging : m'.ranging t = m.ranging t) : Active l ok post m' t left own := by
  unfold Active
  rw [point, ranging]
  exact active

theorem Active.meets {ok : Xv6.Public3.Panic → Prop} {post : Set Page → α → Prop}
    (active : Active l ok post m t left own) (away : m.point t = .away) :
    Wp l.pool ok left {r | r ∈ own} post := by
  unfold Active at active
  rw [away] at active
  exact active

theorem active_kalloc {ok : Xv6.Public3.Panic → Prop} {post : Set Page → α → Prop}
    {next : Option Page → Vm α} (here : (m.point t).phase = .kalloc)
    (meets : Wp l.pool ok (.alloc next) {r | r ∈ own} post) :
    Active l ok post m t (.alloc next) own := by
  unfold Active
  rw [here]
  exact ⟨next, rfl, meets⟩

theorem active_away {ok : Xv6.Public3.Panic → Prop} {post : Set Page → α → Prop}
    (here : m.point t = .away) (meets : Wp l.pool ok left {r | r ∈ own} post) :
    Active l ok post m t left own := by
  unfold Active
  rw [here]
  exact meets

theorem active_freerange {ok : Xv6.Public3.Panic → Prop} {post : Set Page → α → Prop}
    (here : (m.point t).phase = .freerange) (meets : Wp l.pool ok left {r | r ∈ own} post) :
    Active l ok post m t left own := by
  unfold Active
  rw [here]
  exact meets

theorem active_kfree {ok : Xv6.Public3.Panic → Prop} {post : Set Page → α → Prop} {r : Page}
    {next : Vm α} (here : (m.point t).phase = .kfree) (own_call : m.ranging t = false)
    (meets : Wp l.pool ok next {r | r ∈ own} post) :
    Active l ok post m t (.free r next) own := by
  unfold Active
  rw [here]
  show if m.ranging t = true then _ else _
  rw [own_call, if_neg Bool.false_ne_true]
  exact ⟨r, next, rfl, meets⟩

/-- A thread that is not in kalloc.c is not in freerange(). -/
theorem Inv.not_ranging (inv : Inv l m free) (away : m.point t = .away) : m.ranging t = false := by
  by_cases first : t = main
  · subst first
    have staged := inv.staged
    unfold Staged at staged
    rw [away] at staged
    unfold Machine.ranging
    cases stage : m.stage with
    | kinit1 page =>
        rw [stage] at staged
        rcases staged.at_point with impossible | ⟨impossible, _⟩ <;> cases impossible
    | kinit2 page =>
        rw [stage] at staged
        rcases staged.at_point with impossible | ⟨impossible, _⟩ <;> cases impossible
    | _ => rfl
  · exact ranging_other first

/-! ## Steps -/

theorem Fits.kalloc (fits : Fits l ok post sys) {next : Option Page → Vm α}
    (here : sys.left t = .alloc next) (taken : step l sys.kernel (.kalloc t) = some m') :
    Fits l ok post { sys with kernel := m' } := by
  obtain ⟨free, inv⟩ := fits.kernel
  have after := step_inv inv taken
  rw [step, if_pos inv.data.fine, act] at taken
  split at taken
  case isFalse => cases taken
  case isTrue calls =>
    cases taken
    refine ⟨after, fits.shares, fits.apart, fun s => ?_⟩
    by_cases mine : s = t
    · subst mine
      have meets := (fits.active s).meets calls.1
      show Active l _ _ _ s (sys.left s) (sys.own s)
      rw [here] at meets ⊢
      exact active_kalloc (by rw [goto_point]; rfl) meets
    · exact (fits.active s).congr (goto_point_other mine) (ranging_of_stage rfl)

theorem Fits.kfree (fits : Fits l ok post sys) {r : Page} {next : Vm α}
    (here : sys.left t = .free r next)
    (taken : step l sys.kernel (.kfree t (P2V r.toNat)) = some m') :
    Fits l ok post
      { sys with
        kernel := m'
        own := Function.update sys.own t ((sys.own t).filter fun u => decide (u ≠ r)) } := by
  obtain ⟨free, inv⟩ := fits.kernel
  have after := step_inv inv taken
  rw [step, if_pos inv.data.fine, act] at taken
  split at taken
  case isFalse => cases taken
  case isTrue both =>
    obtain ⟨⟨away, allowed⟩, member⟩ := both
    rw [kfree_eq (inv.data.listed (List.mem_append_right free member))] at taken
    cases taken
    have meets := (fits.active t).meets away
    rw [here] at meets
    obtain ⟨mine, meets⟩ := meets.of_free
    have kept : ∀ s u, u ∈ Function.update sys.own t
        ((sys.own t).filter fun u => decide (u ≠ r)) s → u ∈ sys.own s ∧ u ≠ r := by
      intro s u there
      by_cases same : s = t
      · subst same
        rw [Function.update_self] at there
        obtain ⟨there, other⟩ := List.mem_filter.mp there
        exact ⟨there, of_decide_eq_true other⟩
      · rw [Function.update_of_ne same] at there
        refine ⟨there, ?_⟩
        rintro rfl
        exact same (fits.apart t s u mine there)
    refine ⟨after, ?_, ?_, ?_⟩
    · intro s u there
      obtain ⟨there, other⟩ := kept s u there
      have away : P2V u.toNat ≠ P2V r.toNat := fun same => other (p2v_inj same)
      exact (List.mem_erase_of_ne away).mpr (fits.shares s u there)
    · intro s s' u first second
      exact fits.apart s s' u (kept s u first).1 (kept s' u second).1
    · intro s
      by_cases same : s = t
      · subst same
        show Active l _ _ _ s (sys.left s) (Function.update sys.own s _ s)
        rw [Function.update_self, here]
        refine active_kfree (by rw [goto_point]; rfl) ?_ ?_
        · exact (ranging_of_stage rfl).trans (inv.not_ranging away)
        · have rest : {u | u ∈ (sys.own s).filter fun u => decide (u ≠ r)} =
              {u | u ∈ sys.own s} \ {r} := by
            ext u
            simp
          rw [rest]
          exact meets
      · show Active l _ _ _ s (sys.left s) (Function.update sys.own t _ s)
        rw [Function.update_of_ne same]
        exact (fits.active s).congr (goto_point_other same) (ranging_of_stage rfl)

theorem Fits.kinit2 (fits : Fits l ok post sys) (taken : step l sys.kernel .kinit2 = some m') :
    Fits l ok post { sys with kernel := m' } := by
  obtain ⟨free, inv⟩ := fits.kernel
  have after := step_inv inv taken
  rw [step, if_pos inv.data.fine, act] at taken
  split at taken
  case isFalse => cases taken
  case isTrue both =>
    cases taken
    refine ⟨after, fits.shares, fits.apart, fun s => ?_⟩
    by_cases first : s = main
    · subst first
      have meets := (fits.active main).meets both.1
      show Active l _ _ _ main (sys.left main) (sys.own main)
      have phase : ((sys.kernel.goto main .freerange).point main).phase = .freerange := by
        rw [goto_point]
        rfl
      exact active_freerange phase meets
    · refine (fits.active s).congr (goto_point_other first) ?_
      rw [ranging_other first, ranging_other first]

/-- A thread is still in its call. -/
theorem Fits.stay (fits : Fits l ok post sys) (after : ∃ free, Inv l m' free)
    (going : Going sys.kernel t m') (held : m'.held = sys.kernel.held)
    (active : Active l (ok t) (post t) m' t (sys.left t) (sys.own t)) :
    Fits l ok post { sys with kernel := m' } := by
  refine ⟨after, fun s r there => ?_, fits.apart, fun s => ?_⟩
  · show P2V r.toNat ∈ m'.held
    rw [held]
    exact fits.shares s r there
  · by_cases same : s = t
    · subst same
      exact active
    · exact (fits.active s).congr (going.others s same) (going.ranging s same)

/-- A call of kfree() by a program has returned. -/
theorem Fits.back (fits : Fits l ok post sys) (after : ∃ free, Inv l m' free)
    (going : Going sys.kernel t m') (held : m'.held = sys.kernel.held) {next : Vm α}
    (active : Active l (ok t) (post t) m' t next (sys.own t)) :
    Fits l ok post { sys with kernel := m', left := Function.update sys.left t next } := by
  refine ⟨after, fun s r there => ?_, fits.apart, fun s => ?_⟩
  · show P2V r.toNat ∈ m'.held
    rw [held]
    exact fits.shares s r there
  · show Active l _ _ m' s (Function.update sys.left t next s) (sys.own s)
    by_cases same : s = t
    · subst same
      rw [Function.update_self]
      exact active
    · rw [Function.update_of_ne same]
      exact (fits.active s).congr (going.others s same) (going.ranging s same)

/-- kalloc() has returned to a program. -/
theorem Fits.given (fits : Fits l ok post sys) (after : ∃ free, Inv l m' free)
    (going : Going sys.kernel t m') {r : Word} (kept : Kept l sys.kernel (.go t) m')
    (here : sys.kernel.point t = .taken r) (same_held : r = 0 → m'.held = sys.kernel.held)
    {next : Option Page → Vm α}
    (meets : Wp l.pool (ok t) (.alloc next) {u | u ∈ sys.own t} (post t)) :
    Fits l ok post (sys.given t m' r next) := by
  obtain ⟨empty, taken⟩ := meets.of_alloc
  have away : m'.point t = .away := by
    have phase := going.next
    rw [Phase.Next, here] at phase
    exact phase
  by_cases null : r = 0
  · have same : sys.given t m' r next =
        { sys with kernel := m', left := Function.update sys.left t (next none) } := by
      subst null
      rfl
    rw [same]
    exact fits.back after going (same_held null) (active_away away empty)
  · obtain ⟨member, fresh, _, held⟩ := kept.given t r rfl here null
    obtain ⟨pooled, round⟩ := v2p_pool member
    have mine : V2P r ∉ sys.own t := by
      intro there
      have had := fits.shares t _ there
      rw [round] at had
      exact fresh had
    have notMine : ∀ s, V2P r ∉ sys.own s := by
      intro s there
      have had := fits.shares s _ there
      rw [round] at had
      exact fresh had
    have shape : sys.given t m' r next =
        { kernel := m'
          left := Function.update sys.left t (next (some (V2P r)))
          own := Function.update sys.own t (V2P r :: sys.own t) } := by
      unfold System.given
      rw [pointer_some null, if_neg null]
      rfl
    have split : ∀ {s u}, u ∈ Function.update sys.own t (V2P r :: sys.own t) s →
        (s = t ∧ u = V2P r) ∨ u ∈ sys.own s := by
      intro s u there
      by_cases same : s = t
      · subst same
        rw [Function.update_self] at there
        exact (List.mem_cons.mp there).imp_left fun eq => ⟨rfl, eq⟩
      · rw [Function.update_of_ne same] at there
        exact Or.inr there
    rw [shape]
    refine ⟨after, ?_, ?_, ?_⟩
    · intro s u there
      show P2V u.toNat ∈ m'.held
      rw [held]
      rcases split there with ⟨_, rfl⟩ | there
      · rw [round]
        exact List.mem_cons_self
      · exact List.mem_cons_of_mem r (fits.shares s u there)
    · intro s s' u first second
      rcases split first with ⟨rfl, rfl⟩ | had
      · rcases split second with ⟨rfl, _⟩ | has
        · rfl
        · exact absurd has (notMine s')
      · rcases split second with ⟨rfl, rfl⟩ | has
        · exact absurd had (notMine s)
        · exact fits.apart s s' u had has
    · intro s
      show Active l _ _ m' s (Function.update sys.left t _ s) (Function.update sys.own t _ s)
      by_cases same : s = t
      · subst same
        rw [Function.update_self, Function.update_self]
        refine active_away away ?_
        have more : {u | u ∈ V2P r :: sys.own s} = insert (V2P r) {u | u ∈ sys.own s} := by
          ext u
          exact List.mem_cons
        rw [more]
        exact taken _ pooled mine
      · rw [Function.update_of_ne same, Function.update_of_ne same]
        exact (fits.active s).congr (going.others s same) (going.ranging s same)

/-- In kalloc(), before its end. -/
theorem Fits.still_kalloc (fits : Fits l ok post sys) (after : ∃ free, Inv l m' free)
    (going : Going sys.kernel t m') (before : (sys.kernel.point t).phase = .kalloc)
    (later : (m'.point t).phase = .kalloc) (ends : ∀ r, sys.kernel.point t ≠ .taken r) :
    Fits l ok post { sys with kernel := m' } := by
  have active := fits.active t
  unfold Active at active
  rw [before] at active
  obtain ⟨next, left, meets⟩ := active
  refine fits.stay after going (going.held ends) ?_
  rw [left] at meets ⊢
  exact active_kalloc later meets

/-- In kfree(), before its end. -/
theorem Fits.still_kfree (fits : Fits l ok post sys) (after : ∃ free, Inv l m' free)
    (going : Going sys.kernel t m') (before : (sys.kernel.point t).phase = .kfree)
    (later : (m'.point t).phase = .kfree ∧ m'.ranging t = sys.kernel.ranging t) :
    Fits l ok post { sys with kernel := m' } := by
  refine fits.stay after going (going.held fun r here => ?_) ?_
  · rw [here] at before
    cases before
  · have active := fits.active t
    unfold Active at active ⊢
    rw [before] at active
    rw [later.1, later.2]
    exact active

theorem Fits.go (fits : Fits l ok post sys) (taken : step l sys.kernel (.go t) = some m') :
    Fits l ok post (sys.go t m') := by
  obtain ⟨free, inv⟩ := fits.kernel
  have after := step_inv inv taken
  have kept := step_kept inv taken
  rw [step, if_pos inv.data.fine] at taken
  have going := inv.going taken
  have phase := going.next
  have active := fits.active t
  unfold Phase.Next at phase
  unfold Active at active
  unfold System.go
  cases here : sys.kernel.point t with
  | away =>
      rw [here] at phase
      exact phase.elim
  | kalloc =>
      rw [here] at phase
      exact fits.still_kalloc after going (by rw [here]; rfl) phase
        fun r => by rw [here]; exact Point.noConfusion
  | first =>
      rw [here] at phase
      exact fits.still_kalloc after going (by rw [here]; rfl) phase
        fun r => by rw [here]; exact Point.noConfusion
  | unlink r =>
      rw [here] at phase
      exact fits.still_kalloc after going (by rw [here]; rfl) phase
        fun r => by rw [here]; exact Point.noConfusion
  | taken r =>
      rw [here] at active
      obtain ⟨next, left, meets⟩ := active
      rw [left] at meets ⊢
      refine fits.given after going kept here (fun null => ?_) meets
      subst null
      have eq : Kalloc.go l sys.kernel t =
          some { release sys.kernel t .away with held := sys.kernel.held } := by
        unfold Kalloc.go
        simp only [here, if_true]
      rw [act, eq] at taken
      cases taken
      rfl
  | memset v n =>
      rw [here] at phase
      exact fits.still_kfree after going (by rw [here]; rfl) phase
  | kfree v =>
      rw [here] at phase
      exact fits.still_kfree after going (by rw [here]; rfl) phase
  | link v =>
      rw [here] at phase
      exact fits.still_kfree after going (by rw [here]; rfl) phase
  | push v =>
      rw [here] at phase
      exact fits.still_kfree after going (by rw [here]; rfl) phase
  | freed =>
      have held : m'.held = sys.kernel.held :=
        going.held fun r => by rw [here]; exact Point.noConfusion
      rw [here] at phase active
      -- freerange() has called kfree(), or the program of the thread.
      cases ranging : sys.kernel.ranging t with
      | true =>
          have point : (m'.point t).phase = .freerange := by
            rw [phase, ranging]
            rfl
          have meets : Wp l.pool (ok t) (sys.left t) {r | r ∈ sys.own t} (post t) := by
            rw [ranging] at active
            exact active
          have stays := fits.stay after going held (active_freerange point meets)
          cases left : sys.left t <;> exact stays
      | false =>
          have point : m'.point t = .away := by
            rw [phase, ranging]
            rfl
          rw [ranging] at active
          obtain ⟨r, next, left, meets⟩ := active
          rw [left]
          exact fits.back after going held (active_away point meets)
  | freerange =>
      have held : m'.held = sys.kernel.held :=
        going.held fun r => by rw [here]; exact Point.noConfusion
      rw [here] at phase active
      refine fits.stay after going held ?_
      rcases phase with away | ⟨phase, ranging⟩
      · exact active_away away active
      · unfold Active
        rw [phase]
        show if m'.ranging t = true then _ else _
        rw [if_pos ranging]
        exact active

theorem programStep_fits {sys' : System α} {move : Move} (fits : Fits l ok post sys)
    (taken : programStep l sys move = some sys') : Fits l ok post sys' := by
  cases move with
  | call t =>
      rw [programStep] at taken
      cases left : sys.left t with
      | ret a =>
          rw [left] at taken
          cases taken
      | fail e =>
          rw [left] at taken
          cases taken
      | alloc next =>
          rw [left] at taken
          obtain ⟨m', moved, rfl⟩ := Option.map_eq_some_iff.mp taken
          exact fits.kalloc left moved
      | free r next =>
          rw [left] at taken
          obtain ⟨m', moved, rfl⟩ := Option.map_eq_some_iff.mp taken
          exact fits.kfree left moved
  | kinit2 =>
      obtain ⟨m', moved, rfl⟩ := Option.map_eq_some_iff.mp taken
      exact fits.kinit2 moved
  | go t =>
      obtain ⟨m', moved, rfl⟩ := Option.map_eq_some_iff.mp taken
      exact fits.go moved

/-! ## Runs -/

/-- The threads with their pages, none of them in a call of its program. -/
structure Ready (l : Placed) (mem : Memory) (sys : System α) : Prop where
  kernel : Reachable (step l) (boot l mem) sys.kernel
  outside : ∀ t, sys.kernel.point t = .away ∨ sys.kernel.point t = .freerange
  shares : ∀ t r, r ∈ sys.own t → P2V r.toNat ∈ sys.kernel.held
  apart : ∀ t s r, r ∈ sys.own t → r ∈ sys.own s → s = t

/-- What the specifications of the programs promise. -/
structure Verified (l : Placed) (ok : Thread → Xv6.Public3.Panic → Prop)
    (post : Thread → Set Page → α → Prop) (sys : System α) : Prop where
  kernel : Sound l sys.kernel
  /-- No page is with two threads. -/
  apart : ∀ t s r, r ∈ sys.own t → r ∈ sys.own s → s = t
  /-- What a thread gives to kfree() is its own, and allocated. -/
  gives : ∀ t r next, sys.kernel.point t = .away → sys.left t = .free r next →
    r ∈ sys.own t ∧ P2V r.toNat ∈ sys.kernel.held
  returned : ∀ t a, sys.kernel.point t = .away → sys.left t = .ret a →
    post t {r | r ∈ sys.own t} a
  failed : ∀ t e, sys.kernel.point t = .away → sys.left t = .fail e → ok t e

theorem Fits.verified (fits : Fits l ok post sys) : Verified l ok post sys := by
  obtain ⟨free, inv⟩ := fits.kernel
  refine ⟨inv.sound, fits.apart, ?_, ?_, ?_⟩
  · intro t r next away left
    have meets := (fits.active t).meets away
    rw [left] at meets
    exact ⟨meets.of_free.1, fits.shares t r meets.of_free.1⟩
  · intro t a away left
    have meets := (fits.active t).meets away
    rw [left] at meets
    exact meets.of_ret
  · intro t e away left
    have meets := (fits.active t).meets away
    rw [left] at meets
    exact meets.of_fail

theorem Ready.fits {mem : Memory} (ready : Ready l mem sys)
    (meets : ∀ t, Wp l.pool (ok t) (sys.left t) {r | r ∈ sys.own t} (post t)) :
    Fits l ok post sys := by
  have start : ∃ free, Inv l (boot l mem) free := ⟨[], boot_inv l mem⟩
  have kept : ∀ m e m', (∃ free, Inv l m free) → step l m e = some m' → ∃ free, Inv l m' free := by
    rintro m e m' ⟨free, inv⟩ taken
    exact step_inv inv taken
  have kernel := reachable_invariant (step l) start kept ready.kernel
  refine ⟨kernel, ready.shares, ready.apart, fun t => ?_⟩
  rcases ready.outside t with away | ranging
  · exact active_away away (meets t)
  · exact active_freerange (by rw [ranging]; rfl) (meets t)

/-- Whatever the threads do in turn, each program does on the free list of kalloc.c what its
specification says of an allocator that may give any page. -/
theorem programs_verified {mem : Memory} (ready : Ready l mem sys)
    (meets : ∀ t, Wp l.pool (ok t) (sys.left t) {r | r ∈ sys.own t} (post t))
    (moves : List Move) : Always (programStep l) (Verified l ok post) sys moves := by
  have kept : ∀ sys move sys', Fits l ok post sys → programStep l sys move = some sys' →
      Fits l ok post sys' := fun _ _ _ fits taken => programStep_fits fits taken
  exact always_of_invariant (programStep l) (fun _ fits => fits.verified) kept moves sys
    (ready.fits meets)

end Sound

/-- A kernel of some 90 KB. -/
def kernelElf : Placed where
  data := 0x8010a000
  kend := 0x80117000
  data_aligned := rfl
  data_after := by decide
  data_before := by decide
  kend_after := by decide
  kend_before := by decide

/-- Every thread makes a page directory for the kernel. -/
def setupThreads : System (Option Pgdir) where
  kernel := boot kernelElf fun _ => 0
  left := fun _ => setupkvm kernelElf.toLayout
  own := fun _ => []

theorem programs_verified_setupkvm :
    Always (programStep kernelElf)
      (Verified kernelElf (fun _ _ => ¬ True) fun _ held r =>
        (r = none ∧ held = {r | r ∈ []}) ∨
          ∃ d, r = some d ∧ Owns kernelElf.toLayout d {r | r ∈ []} held ∧ d.NoUser)
      setupThreads [.go main, .call 1, .go main, .go main] := by
  have points : ∀ t, setupThreads.kernel.point t = .away ∨
      setupThreads.kernel.point t = .freerange := by
    intro t
    by_cases first : t = main
    · subst first
      exact Or.inr rfl
    · left
      show Function.update (fun _ => Point.away) main .freerange t = .away
      exact Function.update_of_ne first _ _
  have nothing : ∀ r : Page, r ∉ ([] : List Page) := fun _ => List.not_mem_nil
  refine programs_verified ⟨⟨[], rfl⟩, points, fun _ r there => absurd there (nothing r),
    fun _ _ r there => absurd there (nothing r)⟩ ?_ _
  intro t
  exact setupkvm_wp fun r there => absurd there (nothing r)

end Xv6.Public3.Kalloc
