import Xv6.Common.SleepLocks

/-!
# Who has a sleep lock (sleeplock.c)

One process at a time, and none sleeps that nobody will wake.
-/

set_option autoImplicit false

namespace Xv6.Common.SleepLocks

open Xv6.Lib.Runs

/-! ## One spinlock -/

/-- What a step of `me`, who is inside the lock or not when it is over, does to the holder. -/
structure Turn {H : Type} (holder holder' : Option H) (me : H) (inside : Bool) : Prop where
  mine : holder' = some me ↔ inside = true
  others : ∀ h, h ≠ me → (holder' = some h ↔ holder = some h)

section Turns

variable {H : Type} {holder : Option H} {me : H} {inside : Bool}

theorem Turn.take (free : holder.isNone = true) (after : inside = true) :
    Turn holder (some me) me inside := by
  cases holder with
  | some h => cases free
  | none =>
      refine ⟨iff_of_true rfl after, fun h other => iff_of_false (fun same => ?_) ?_⟩
      · exact other (Option.some.inj same).symm
      · exact (Option.some_ne_none h).symm

theorem Turn.drop (held : holder = some me) (after : inside = false) :
    Turn holder none me inside := by
  refine ⟨iff_of_false (Option.some_ne_none me).symm (by rw [after]; exact Bool.false_ne_true),
    fun h other => iff_of_false (Option.some_ne_none h).symm fun same => ?_⟩
  rw [held] at same
  exact other (Option.some.inj same).symm

theorem Turn.stay {before : Bool} (held : holder = some me ↔ before = true)
    (after : inside = before) : Turn holder holder me inside :=
  ⟨after ▸ held, fun _ _ => Iff.rfl⟩

end Turns

/-! ## Steps that leave the lock to whom it belongs -/

variable {P : Type} [DecidableEq P] {pids : Pids P} {s s' : State P} {p q : P} {point : Point}

/-- The process `p` comes to `point`. -/
structure Arrives (s s' : State P) (p : P) (point : Point) : Prop where
  moved : s'.point = Function.update s.point p point
  holds : ∀ q, q ≠ p → s'.holds q = s.holds q
  spin : Turn s.spin s'.spin p point.spins
  table : Turn s.table s'.table (.proc p) point.tables
  free : s'.holds p = true → point.free = true
  answer : ∀ r, point = .answer r → (r = true ↔ s'.holds p = true)

theorem Arrives.here (arrives : Arrives s s' p point) : s'.point p = point := by
  rw [arrives.moved, Function.update_self]

theorem Arrives.there (arrives : Arrives s s' p point) (other : q ≠ p) :
    s'.point q = s.point q := by
  rw [arrives.moved, Function.update_of_ne other]

theorem Arrives.owner (arrives : Arrives s s' p point) (other : q ≠ p) :
    Owns s' q ↔ Owns s q := by
  rw [Owns, arrives.holds q other, arrives.there other, Owns]

theorem Arrives.guards (arrives : Arrives s s' p point) (guards : Guards s) : Guards s' := by
  constructor
  case spin =>
    intro q
    by_cases same : q = p
    · rw [same, arrives.here, arrives.spin.mine]
    · rw [arrives.there same, arrives.spin.others q same, guards.spin]
  case table =>
    intro q
    by_cases same : q = p
    · rw [same, arrives.here, arrives.table.mine]
    · have other : Holder.proc q ≠ .proc p := fun h => same (Holder.proc.inj h)
      rw [arrives.there same, arrives.table.others _ other, guards.table]
  case holder =>
    intro q has
    by_cases same : q = p
    · subst same
      rw [arrives.here]
      exact arrives.free has
    · rw [arrives.holds q same] at has
      rw [arrives.there same]
      exact guards.holder q has
  case answer =>
    intro q r answers
    by_cases same : q = p
    · subst same
      rw [arrives.here] at answers
      exact arrives.answer r answers
    · rw [arrives.there same] at answers
      rw [arrives.holds q same]
      exact guards.answer q r answers

/-- What has to be known of a place where the lock stays as it is. -/
structure Allowed (s s' : State P) (p : P) (point : Point) : Prop where
  locked : s'.locked = s.locked
  pid : s'.pid = s.pid
  owns : Owns s' p ↔ Owns s p
  sees : point.sees = true → s.locked = true
  take : point = .take → s.locked = false
  sleeps : point.sleeps = true → s.locked = true ∨ ∃ q, (s.point q).wakes = true
  wakes : (s.point p).wakes = true → point.wakes = true ∨ ∀ q, (s'.point q).sleeps = false

theorem Arrives.inv (arrives : Arrives s s' p point) (allowed : Allowed s s' p point)
    (inv : Inv pids s) : Inv pids s' := by
  have owner : ∀ q, Owns s' q ↔ Owns s q := by
    intro q
    by_cases same : q = p
    · rw [same]
      exact allowed.owns
    · exact arrives.owner same
  constructor
  case toGuards => exact arrives.guards inv.toGuards
  case locked =>
    rw [allowed.locked, inv.locked]
    exact exists_congr fun q => (owner q).symm
  case single => exact fun q r has has' => inv.single q r ((owner q).mp has) ((owner r).mp has')
  case pid =>
    intro q has
    rw [allowed.pid]
    exact inv.pid q ((owner q).mp has)
  case seen =>
    intro q sees
    rw [allowed.locked]
    by_cases same : q = p
    · subst same
      rw [arrives.here] at sees
      exact allowed.sees sees
    · rw [arrives.there same] at sees
      exact inv.seen q sees
  case take =>
    intro q takes
    rw [allowed.locked]
    by_cases same : q = p
    · subst same
      rw [arrives.here] at takes
      exact allowed.take takes
    · rw [arrives.there same] at takes
      exact inv.take q takes
  case asleep =>
    intro q sleeps
    have before : s.locked = true ∨ ∃ r, (s.point r).wakes = true := by
      by_cases same : q = p
      · subst same
        rw [arrives.here] at sleeps
        exact allowed.sleeps sleeps
      · rw [arrives.there same] at sleeps
        exact inv.asleep q sleeps
    rw [allowed.locked]
    refine before.imp_right fun ⟨r, wakes⟩ => ⟨r, ?_⟩
    by_cases same : r = p
    · subst same
      rw [arrives.here]
      rcases allowed.wakes wakes with wakes | nobody
      · exact wakes
      · exact absurd ((nobody q).symm.trans sleeps) Bool.false_ne_true
    · rwa [arrives.there same]

/-- A step to a place that asks nothing of the lock. -/
def Point.plain (before : Point) : Point → Bool
  | .take | .answer _ => false
  | after =>
      (!before.free || after.free) && after.owns == before.owns && !after.sees && !after.sleeps &&
        (!before.wakes || after.wakes)

theorem Point.plain_facts {before after : Point} (plain : before.plain after = true) :
    (before.free = true → after.free = true) ∧ after.owns = before.owns ∧ after.sees = false ∧
      after.sleeps = false ∧ (before.wakes = true → after.wakes = true) ∧ after ≠ .take ∧
        ∀ r, after ≠ .answer r := by
  cases after <;>
    simp_all [Point.plain, Bool.or_eq_true, ← Bool.not_eq_true, Decidable.imp_iff_not_or]

theorem inv_of_plain (inv : Inv pids s) {before : Point} (here : s.point p = before)
    (plain : before.plain point = true) (moved : s'.point = Function.update s.point p point)
    (holds : s'.holds = s.holds) (locked : s'.locked = s.locked) (pid : s'.pid = s.pid)
    (spin : Turn s.spin s'.spin p point.spins)
    (table : Turn s.table s'.table (.proc p) point.tables) : Inv pids s' := by
  obtain ⟨free, owns, sees, sleeps, wakes, takes, answers⟩ := Point.plain_facts plain
  have arrives : Arrives s s' p point := by
    refine ⟨moved, fun q _ => by rw [holds], spin, table, fun has => ?_, fun r h => ?_⟩
    · rw [holds] at has
      exact free (here ▸ inv.holder p has)
    · exact absurd h (answers r)
  refine arrives.inv ?_ inv
  refine ⟨locked, pid, ?_, fun h => ?_, fun h => absurd h takes, fun h => ?_, fun h => ?_⟩
  · rw [Owns, holds, arrives.here, owns, Owns, here]
  · exact absurd (sees.symm.trans h) Bool.false_ne_true
  · exact absurd (sleeps.symm.trans h) Bool.false_ne_true
  · exact Or.inl (wakes (here ▸ h))

/-! ## Each step -/

section Steps

variable {before : Point}

omit [DecidableEq P] in
theorem Guards.stays (guards : Guards s) (here : s.point p = before)
    (same : point.spins = before.spins) : Turn s.spin s.spin p point.spins :=
  .stay (guards.spin p) (here ▸ same)

omit [DecidableEq P] in
theorem Guards.stays_table (guards : Guards s) (here : s.point p = before)
    (same : point.tables = before.tables) : Turn s.table s.table (.proc p) point.tables :=
  .stay (guards.table p) (here ▸ same)

omit [DecidableEq P] in
theorem Guards.drops (guards : Guards s) (here : s.point p = before)
    (held : before.spins = true) (after : point.spins = false) : Turn s.spin none p point.spins :=
  .drop ((guards.spin p).mpr (here ▸ held)) after

omit [DecidableEq P] in
theorem Guards.drops_table (guards : Guards s) (here : s.point p = before)
    (held : before.tables = true) (after : point.tables = false) :
    Turn s.table none (.proc p) point.tables :=
  .drop ((guards.table p).mpr (here ▸ held)) after

omit [DecidableEq P] in
theorem Guards.spinner (guards : Guards s) (first : (s.point p).spins = true)
    (second : (s.point q).spins = true) : p = q := by
  have one := (guards.spin p).mpr first
  rw [(guards.spin q).mpr second] at one
  exact (Option.some.inj one).symm

omit [DecidableEq P] in
theorem Guards.tabler (guards : Guards s) (first : (s.point p).tables = true)
    (second : (s.point q).tables = true) : p = q := by
  have one := (guards.table p).mpr first
  rw [(guards.table q).mpr second] at one
  exact (Holder.proc.inj (Option.some.inj one)).symm

omit [DecidableEq P] in
/-- A process in a call that is not holdingsleep() does not count as a holder. -/
theorem Guards.busy (guards : Guards s) (here : s.point p = before) (busy : before.free = false) :
    s.holds p = false := by
  cases has : s.holds p with
  | false => rfl
  | true =>
      have free := guards.holder p has
      rw [here, busy] at free
      cases free

theorem acquire_inv (inv : Inv pids s) (here : s.point p = before)
    (taken : acquire s p point = some s') (spins : point.spins = true)
    (tables : point.tables = before.tables) (plain : before.plain point = true) :
    Inv pids s' := by
  unfold acquire at taken
  split at taken
  · rename_i free
    cases taken
    exact inv_of_plain inv here plain rfl rfl rfl rfl (.take free spins)
      (inv.stays_table here tables)
  · cases taken

theorem acquireTable_some (taken : acquireTable s p point = some s') :
    s.table.isNone = true ∧ s' = { s.goto p point with table := some (.proc p) } := by
  unfold acquireTable at taken
  split at taken
  · exact ⟨‹_›, (Option.some.inj taken).symm⟩
  · cases taken

/-- Who has the lock when `p` takes it or gives it back. -/
theorem Arrives.changes (arrives : Arrives s s' p point) (nobody : ∀ q, q ≠ p → ¬ Owns s q)
    (q : P) (owns : Owns s' q) : q = p := by
  by_contra other
  exact nobody q other ((arrives.owner other).mp owns)

/-- The lock is taken where it was free. -/
theorem Inv.takes (inv : Inv pids s) (here : s.point p = .take) :
    Inv pids { s.goto p .leave with locked := true, pid := pids.of p } := by
  have arrives : Arrives s { s.goto p .leave with locked := true, pid := pids.of p } p .leave :=
    ⟨rfl, fun _ _ => rfl, inv.stays here rfl, inv.stays_table here rfl,
      fun has => absurd ((inv.busy here rfl).symm.trans has) Bool.false_ne_true,
      fun _ answers => Point.noConfusion answers⟩
  have nobody : ∀ q, ¬ Owns s q := by
    intro q owns
    exact Bool.false_ne_true ((inv.take p here).symm.trans (inv.locked.mpr ⟨q, owns⟩))
  have owner := arrives.changes fun q _ => nobody q
  have owns : Owns { s.goto p .leave with locked := true, pid := pids.of p } p := by
    refine Or.inr ?_
    rw [arrives.here]
    rfl
  constructor
  case toGuards => exact arrives.guards inv.toGuards
  case locked => exact iff_of_true rfl ⟨p, owns⟩
  case single => exact fun q r first second => (owner q first).trans (owner r second).symm
  case pid => exact fun q owns => owner q owns ▸ rfl
  case seen => exact fun _ _ => rfl
  case take =>
    intro q takes
    by_cases same : q = p
    · rw [same, arrives.here] at takes
      cases takes
    · rw [arrives.there same] at takes
      exact absurd (inv.spinner (by rw [takes]; rfl) (by rw [here]; rfl)) same
  case asleep => exact fun _ _ => Or.inl rfl

/-- The lock is given back. -/
theorem Inv.clears (inv : Inv pids s) (here : s.point p = .clear) :
    Inv pids { s.goto p .wakeup with locked := false, pid := 0 } := by
  have idle := inv.busy here rfl
  have arrives : Arrives s { s.goto p .wakeup with locked := false, pid := 0 } p .wakeup :=
    ⟨rfl, fun _ _ => rfl, inv.stays here rfl, inv.stays_table here rfl,
      fun has => absurd (idle.symm.trans has) Bool.false_ne_true,
      fun _ answers => Point.noConfusion answers⟩
  have owns : Owns s p := Or.inr (by rw [here]; rfl)
  have nobody : ∀ q, ¬ Owns { s.goto p .wakeup with locked := false, pid := 0 } q := by
    intro q owns'
    have same := arrives.changes (fun q other owns' => other (inv.single q p owns' owns)) q owns'
    subst same
    rcases owns' with has | owns'
    · exact Bool.false_ne_true (idle.symm.trans has)
    · rw [arrives.here] at owns'
      cases owns'
  constructor
  case toGuards => exact arrives.guards inv.toGuards
  case locked => exact iff_of_false Bool.false_ne_true fun ⟨q, owns⟩ => nobody q owns
  case single => exact fun q _ owns => absurd owns (nobody q)
  case pid => exact fun q owns => absurd owns (nobody q)
  case seen =>
    intro q sees
    by_cases same : q = p
    · rw [same, arrives.here] at sees
      cases sees
    · rw [arrives.there same] at sees
      have inside : (s.point q).spins = true := by
        cases point : s.point q <;> rw [point] at sees <;> first | rfl | cases sees
      exact absurd (inv.spinner inside (by rw [here]; rfl)) same
  case take => exact fun _ _ => rfl
  case asleep =>
    refine fun _ _ => Or.inr ⟨p, ?_⟩
    rw [arrives.here]
    rfl

omit [DecidableEq P] in
theorem wakeup1_seen (f : Point → Bool) (same : f .awake = f .asleep) (at_ : P → Point) (q : P) :
    f (wakeup1 at_ q) = f (at_ q) := by
  unfold wakeup1
  split
  · rename_i asleep
    rw [asleep, same]
  · rfl

omit [DecidableEq P] in
theorem wakeup1_eq {at_ : P → Point} (other : point ≠ .awake) (there : wakeup1 at_ q = point) :
    at_ q = point := by
  unfold wakeup1 at there
  split at there
  · exact absurd there.symm other
  · exact there

omit [DecidableEq P] in
/-- All sleepers are woken, while the process that wakes them has yet to go on. -/
theorem Inv.woken (inv : Inv pids s) (wakes : (s.point p).wakes = true) :
    Inv pids { s with point := wakeup1 s.point } := by
  have owner : ∀ q, Owns { s with point := wakeup1 s.point } q ↔ Owns s q := by
    intro q
    rw [Owns, wakeup1_seen Point.owns rfl, Owns]
  constructor
  case toGuards =>
    constructor
    case spin => exact fun q => by rw [wakeup1_seen Point.spins rfl]; exact inv.spin q
    case table => exact fun q => by rw [wakeup1_seen Point.tables rfl]; exact inv.table q
    case holder => exact fun q has => by rw [wakeup1_seen Point.free rfl]; exact inv.holder q has
    case answer => exact fun q r answers => inv.answer q r (wakeup1_eq Point.noConfusion answers)
  case locked => exact inv.locked.trans (exists_congr fun q => (owner q).symm)
  case single => exact fun q r has has' => inv.single q r ((owner q).mp has) ((owner r).mp has')
  case pid => exact fun q has => inv.pid q ((owner q).mp has)
  case seen =>
    intro q sees
    rw [wakeup1_seen Point.sees rfl] at sees
    exact inv.seen q sees
  case take => exact fun q takes => inv.take q (wakeup1_eq Point.noConfusion takes)
  case asleep =>
    refine fun _ _ => Or.inr ⟨p, ?_⟩
    rw [wakeup1_seen Point.wakes rfl]
    exact wakes

theorem sleeps_cases (sleeps : point.sleeps = true) : point = .doze ∨ point = .asleep := by
  cases point
  case doze => exact Or.inl rfl
  case asleep => exact Or.inr rfl
  all_goals cases sleeps

theorem Inv.wakes (inv : Inv pids s) (here : s.point p = .wake) :
    Inv pids { s with point := Function.update (wakeup1 s.point) p .woken } := by
  have woken := inv.woken (p := p) (by rw [here]; rfl)
  have here' : wakeup1 s.point p = .wake := by
    rw [wakeup1, here]
    rfl
  have idle := inv.busy here rfl
  have arrives : Arrives { s with point := wakeup1 s.point }
      { s with point := Function.update (wakeup1 s.point) p .woken } p .woken :=
    ⟨rfl, fun _ _ => rfl, woken.stays here' rfl, woken.stays_table here' rfl,
      fun has => absurd (idle.symm.trans has) Bool.false_ne_true,
      fun _ answers => Point.noConfusion answers⟩
  refine arrives.inv ⟨rfl, rfl, ?_, Bool.noConfusion, Point.noConfusion, Bool.noConfusion,
    fun _ => Or.inr fun q => ?_⟩ woken
  · rw [Owns, arrives.here]
    show _ ↔ s.holds p = true ∨ (wakeup1 s.point p).owns = true
    rw [here']
    rfl
  · by_cases same : q = p
    · rw [same, arrives.here]
      rfl
    · rw [arrives.there same]
      show (wakeup1 s.point q).sleeps = false
      cases sleeps : (wakeup1 s.point q).sleeps with
      | false => rfl
      | true =>
          rcases sleeps_cases sleeps with doze | asleep
          · have dozes := wakeup1_eq Point.noConfusion doze
            exact absurd (inv.tabler (by rw [dozes]; rfl) (by rw [here]; rfl)) same
          · have slept := wakeup1_eq Point.noConfusion asleep
            rw [wakeup1, if_pos slept] at asleep
            cases asleep

/-- A step of a process that does not count as a holder, to a place where it does not either. -/
theorem arrives_busy (guards : Guards s) (here : s.point p = before) (busy : before.free = false)
    (moved : s'.point = Function.update s.point p point) (holds : s'.holds = s.holds)
    (spin : Turn s.spin s'.spin p point.spins)
    (table : Turn s.table s'.table (.proc p) point.tables) (silent : ∀ r, point ≠ .answer r) :
    Arrives s s' p point := by
  refine ⟨moved, fun q _ => by rw [holds], spin, table, fun has => ?_, fun r h => ?_⟩
  · rw [holds, guards.busy here busy] at has
    cases has
  · exact absurd h (silent r)

theorem Arrives.owns_same (arrives : Arrives s s' p point) (here : s.point p = before)
    (holds : s'.holds p = s.holds p) (same : point.owns = before.owns) :
    Owns s' p ↔ Owns s p := by
  rw [Owns, arrives.here, holds, same, Owns, here]

/-- while (lk->locked) -/
theorem Inv.tests (inv : Inv pids s) (here : s.point p = .test) :
    Inv pids (s.goto p (if s.locked then .sleep else .take)) := by
  cases locked : s.locked with
  | true =>
      have arrives : Arrives s (s.goto p .sleep) p .sleep :=
        arrives_busy inv.toGuards here rfl rfl rfl (inv.stays here rfl)
          (inv.stays_table here rfl) fun _ => Point.noConfusion
      exact arrives.inv ⟨rfl, rfl, arrives.owns_same here rfl rfl, fun _ => locked,
        Point.noConfusion, Bool.noConfusion, fun wakes => by rw [here] at wakes; cases wakes⟩ inv
  | false =>
      have arrives : Arrives s (s.goto p .take) p .take :=
        arrives_busy inv.toGuards here rfl rfl rfl (inv.stays here rfl)
          (inv.stays_table here rfl) fun _ => Point.noConfusion
      exact arrives.inv ⟨rfl, rfl, arrives.owns_same here rfl rfl, Bool.noConfusion,
        fun _ => locked, Bool.noConfusion, fun wakes => by rw [here] at wakes; cases wakes⟩ inv

/-- r = lk->locked && (lk->pid == myproc()->pid) -/
theorem Inv.reads (inv : Inv pids s) (here : s.point p = .read) :
    Inv pids (s.goto p (.answer (s.locked && s.pid == pids.of p))) := by
  have right : (s.locked && s.pid == pids.of p) = true ↔ s.holds p = true := by
    rw [Bool.and_eq_true, beq_iff_eq]
    constructor
    · intro ⟨locked, pid⟩
      obtain ⟨q, owns⟩ := inv.locked.mp locked
      rw [inv.pid q owns] at pid
      cases pids.distinct pid
      refine owns.resolve_right fun owns => ?_
      rw [here] at owns
      cases owns
    · exact fun has => ⟨inv.locked.mpr ⟨p, Or.inl has⟩, inv.pid p (Or.inl has)⟩
  have arrives : Arrives s (s.goto p (.answer (s.locked && s.pid == pids.of p))) p
      (.answer (s.locked && s.pid == pids.of p)) := by
    refine ⟨rfl, fun _ _ => rfl, inv.stays here rfl, inv.stays_table here rfl, fun _ => rfl,
      fun r same => ?_⟩
    cases same
    exact right
  exact arrives.inv ⟨rfl, rfl, arrives.owns_same here rfl rfl, Bool.noConfusion,
    Point.noConfusion, Bool.noConfusion, fun wakes => by rw [here] at wakes; cases wakes⟩ inv

theorem go_inv (inv : Inv pids s) (taken : go pids s p = some s') : Inv pids s' := by
  unfold go at taken
  cases here : s.point p with
  | outside => simp [here] at taken
  | asleep => simp [here] at taken
  | enter =>
      rw [here] at taken
      exact acquire_inv inv here taken rfl rfl rfl
  | relock =>
      rw [here] at taken
      exact acquire_inv inv here taken rfl rfl rfl
  | test =>
      simp only [here, Option.some.injEq] at taken
      subst taken
      exact inv.tests here
  | sleep =>
      rw [here] at taken
      obtain ⟨free, rfl⟩ := acquireTable_some taken
      have arrives : Arrives s { s.goto p .unlock with table := some (.proc p) } p .unlock :=
        arrives_busy inv.toGuards here rfl rfl rfl (inv.stays here rfl) (.take free rfl)
          fun _ => Point.noConfusion
      exact arrives.inv ⟨rfl, rfl, arrives.owns_same here rfl rfl,
        fun _ => inv.seen p (by rw [here]; rfl), Point.noConfusion, Bool.noConfusion,
        fun wakes => by rw [here] at wakes; cases wakes⟩ inv
  | unlock =>
      simp only [here, Option.some.injEq] at taken
      subst taken
      have arrives : Arrives s (release s p .doze) p .doze :=
        arrives_busy inv.toGuards here rfl rfl rfl (inv.drops here rfl rfl)
          (inv.stays_table here rfl) fun _ => Point.noConfusion
      exact arrives.inv ⟨rfl, rfl, arrives.owns_same here rfl rfl, Bool.noConfusion,
        Point.noConfusion, fun _ => Or.inl (inv.seen p (by rw [here]; rfl)),
        fun wakes => by rw [here] at wakes; cases wakes⟩ inv
  | doze =>
      simp only [here, Option.some.injEq] at taken
      subst taken
      have arrives : Arrives s (releaseTable s p .asleep) p .asleep :=
        arrives_busy inv.toGuards here rfl rfl rfl (inv.stays here rfl)
          (inv.drops_table here rfl rfl) fun _ => Point.noConfusion
      exact arrives.inv ⟨rfl, rfl, arrives.owns_same here rfl rfl, Bool.noConfusion,
        Point.noConfusion, fun _ => inv.asleep p (by rw [here]; rfl),
        fun wakes => by rw [here] at wakes; cases wakes⟩ inv
  | awake =>
      rw [here] at taken
      obtain ⟨free, rfl⟩ := acquireTable_some taken
      exact inv_of_plain inv here rfl rfl rfl rfl rfl (inv.stays here rfl) (.take free rfl)
  | resumed =>
      simp only [here, Option.some.injEq] at taken
      subst taken
      exact inv_of_plain inv here rfl rfl rfl rfl rfl (inv.stays here rfl)
        (inv.drops_table here rfl rfl)
  | take =>
      simp only [here, Option.some.injEq] at taken
      subst taken
      exact inv.takes here
  | leave =>
      simp only [here, Option.some.injEq] at taken
      subst taken
      have mine : Function.update s.holds p true p = true := Function.update_self ..
      have arrives : Arrives s
          { release s p .outside with holds := Function.update s.holds p true } p .outside :=
        ⟨rfl, fun q other => Function.update_of_ne other _ _, inv.drops here rfl rfl,
          inv.stays_table here rfl, fun _ => rfl, fun _ => Point.noConfusion⟩
      exact arrives.inv ⟨rfl, rfl, iff_of_true (Or.inl mine) (Or.inr (by rw [here]; rfl)),
        Bool.noConfusion, Point.noConfusion, Bool.noConfusion,
        fun wakes => by rw [here] at wakes; cases wakes⟩ inv
  | give =>
      rw [here] at taken
      exact acquire_inv inv here taken rfl rfl rfl
  | clear =>
      simp only [here, Option.some.injEq] at taken
      subst taken
      exact inv.clears here
  | wakeup =>
      rw [here] at taken
      obtain ⟨free, rfl⟩ := acquireTable_some taken
      exact inv_of_plain inv here rfl rfl rfl rfl rfl (inv.stays here rfl) (.take free rfl)
  | wake =>
      simp only [here, Option.some.injEq] at taken
      subst taken
      exact inv.wakes here
  | woken =>
      simp only [here, Option.some.injEq] at taken
      subst taken
      exact inv_of_plain inv here rfl rfl rfl rfl rfl (inv.stays here rfl)
        (inv.drops_table here rfl rfl)
  | given =>
      simp only [here, Option.some.injEq] at taken
      subst taken
      exact inv_of_plain inv here rfl rfl rfl rfl rfl (inv.drops here rfl rfl)
        (inv.stays_table here rfl)
  | ask =>
      rw [here] at taken
      exact acquire_inv inv here taken rfl rfl rfl
  | read =>
      simp only [here, Option.some.injEq] at taken
      subst taken
      exact inv.reads here
  | answer r =>
      simp only [here, Option.some.injEq] at taken
      subst taken
      exact inv_of_plain inv here rfl rfl rfl rfl rfl (inv.drops here rfl rfl)
        (inv.stays_table here rfl)

end Steps

/-! ## Runs -/

omit [DecidableEq P] in
/-- Other code takes or leaves ptable.lock. -/
theorem Inv.other (inv : Inv pids s) {table : Option (Holder P)}
    (same : ∀ q, table = some (.proc q) ↔ s.table = some (.proc q)) :
    Inv pids { s with table := table } :=
  { inv with
    spin := inv.spin
    table := fun q => (same q).trans (inv.table q)
    holder := inv.holder
    answer := inv.answer }

theorem step_inv (pids : Pids P) (s : State P) (e : Event P) (next : State P) (inv : Inv pids s)
    (taken : step pids s e = some next) : Inv pids next := by
  cases e with
  | acquiresleep p =>
      simp only [step, Option.ite_none_right_eq_some, Option.some.injEq] at taken
      obtain ⟨⟨here, idle⟩, rfl⟩ := taken
      have arrives : Arrives s (s.goto p .enter) p .enter :=
        ⟨rfl, fun _ _ => rfl, inv.stays here rfl, inv.stays_table here rfl,
          fun has => absurd (idle.symm.trans has) Bool.false_ne_true, fun _ => Point.noConfusion⟩
      exact arrives.inv ⟨rfl, rfl, arrives.owns_same here rfl rfl, Bool.noConfusion,
        Point.noConfusion, Bool.noConfusion, fun wakes => by rw [here] at wakes; cases wakes⟩ inv
  | releasesleep p =>
      simp only [step, Option.ite_none_right_eq_some, Option.some.injEq] at taken
      obtain ⟨⟨here, has⟩, rfl⟩ := taken
      have mine : Function.update s.holds p false p = false := Function.update_self ..
      have arrives : Arrives s
          { s.goto p .give with holds := Function.update s.holds p false } p .give :=
        ⟨rfl, fun q other => Function.update_of_ne other _ _, inv.stays here rfl,
          inv.stays_table here rfl, fun has => absurd (mine.symm.trans has) Bool.false_ne_true,
          fun _ => Point.noConfusion⟩
      have owns : Owns { s.goto p .give with holds := Function.update s.holds p false } p :=
        Or.inr (by rw [arrives.here]; rfl)
      exact arrives.inv ⟨rfl, rfl, iff_of_true owns (Or.inl has), Bool.noConfusion,
        Point.noConfusion, Bool.noConfusion, fun wakes => by rw [here] at wakes; cases wakes⟩ inv
  | holdingsleep p =>
      simp only [step, Option.ite_none_right_eq_some, Option.some.injEq] at taken
      obtain ⟨here, rfl⟩ := taken
      exact inv_of_plain inv here rfl rfl rfl rfl rfl (inv.stays here rfl)
        (inv.stays_table here rfl)
  | go p => exact go_inv inv taken
  | kill p =>
      simp only [step, Option.ite_none_right_eq_some, Option.some.injEq] at taken
      obtain ⟨⟨_, here⟩, rfl⟩ := taken
      exact inv_of_plain inv here rfl rfl rfl rfl rfl (inv.stays here rfl)
        (inv.stays_table here rfl)
  | lockTable =>
      simp only [step, Option.ite_none_right_eq_some, Option.some.injEq] at taken
      obtain ⟨free, rfl⟩ := taken
      refine inv.other fun q => iff_of_false (fun same => ?_) fun same => ?_
      · cases same
      · rw [same] at free
        cases free
  | unlockTable =>
      simp only [step] at taken
      split at taken
      · rename_i held
        cases taken
        refine inv.other fun q => iff_of_false (Option.some_ne_none _).symm fun same => ?_
        rw [held] at same
        cases same
      · cases taken

omit [DecidableEq P] in
theorem boot_inv : Inv pids (boot : State P) := by
  have nobody : ∀ q, ¬ Owns (boot : State P) q := by
    intro q owns
    rcases owns with owns | owns <;> cases owns
  constructor
  case toGuards =>
    exact ⟨fun q => iff_of_false (Option.some_ne_none q).symm Bool.false_ne_true,
      fun q => iff_of_false (Option.some_ne_none _).symm Bool.false_ne_true,
      fun q has => absurd has Bool.false_ne_true, fun q r answers => Point.noConfusion answers⟩
  case locked => exact iff_of_false Bool.false_ne_true fun ⟨q, owns⟩ => nobody q owns
  case single => exact fun q _ owns => absurd owns (nobody q)
  case pid => exact fun q owns => absurd owns (nobody q)
  case seen => exact fun _ sees => absurd sees Bool.false_ne_true
  case take => exact fun _ _ => rfl
  case asleep => exact fun _ sleeps => absurd sleeps Bool.false_ne_true

/-- What a sleep lock promises. -/
structure Sound (pids : Pids P) (s : State P) : Prop where
  exclusive : ∀ p q, s.holds p = true → s.holds q = true → p = q
  recorded : ∀ p, s.holds p = true → s.locked = true ∧ s.pid = pids.of p
  /-- holdingsleep() is about to return `r`. -/
  answers : ∀ p r, s.point p = .answer r → (r = true ↔ s.holds p = true)
  /-- No wakeup is lost. -/
  awaited : ∀ p, s.point p = .asleep →
    (∃ q, Owns s q) ∨ ∃ q, s.point q = .wakeup ∨ s.point q = .wake

omit [DecidableEq P] in
theorem wakes_cases (wakes : point.wakes = true) : point = .wakeup ∨ point = .wake := by
  cases point
  case wakeup => exact Or.inl rfl
  case wake => exact Or.inr rfl
  all_goals cases wakes

omit [DecidableEq P] in
theorem Inv.sound (inv : Inv pids s) : Sound pids s where
  exclusive := fun p q first second => inv.single p q (Or.inl first) (Or.inl second)
  recorded := fun p has => ⟨inv.locked.mpr ⟨p, Or.inl has⟩, inv.pid p (Or.inl has)⟩
  answers := inv.answer
  awaited := by
    intro p asleep
    rcases inv.asleep p (by rw [asleep]; rfl) with locked | ⟨q, wakes⟩
    · exact Or.inl (inv.locked.mp locked)
    · exact Or.inr ⟨q, wakes_cases wakes⟩

/-- One process at a time has the lock, holdingsleep() tells which, and who sleeps will be
woken. -/
theorem sleeplock_sound (pids : Pids P) (es : List (Event P)) :
    Always (step pids) (Sound pids) boot es :=
  always_of_invariant (step pids) (fun _ inv => Inv.sound inv) (step_inv pids) es boot boot_inv

end Xv6.Common.SleepLocks
