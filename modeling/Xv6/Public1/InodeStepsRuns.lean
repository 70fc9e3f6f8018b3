import Xv6.Public1.InodeStepsInv

/-!
# No inode is freed while it is referenced (xv6-public_1)

What a step changes, from which follows what those who hold a reference may rely on:
only the iput() that has held the last reference to an inode without links frees it.
-/

set_option autoImplicit false

namespace Xv6.Public1.InodeSteps

open Xv6.Lib
open Xv6.Lib.Words
open Xv6.Lib.References
open Xv6.Common
open Xv6.Public1.Blocks (Dinode)

variable {V : Type}

section Kept
variable [Fintype V] [DecidableEq V] {s t : State V} {v w : V} {ip : InodeSlot}

/-! ## What a step changes -/

/-- A turn that leaves what is loaded as it is or adds to it, and that writes at most this. -/
structure Gentle (s t : State V) (ip : InodeSlot) (x : Inode) : Prop where
  keeps : (s.inode ip).valid = true → x.valid = true ∧ Keeps (s.inode ip).copy x.copy
  disk : t.dinode ip = s.dinode ip ∨ (s.inode ip).valid = true ∧ t.dinode ip = x.copy

/-- A turn after which iput() is about to free the inode. -/
structure Dooms (s : State V) (e : Event V) (v : V) (ip : InodeSlot) (stage : Stage) : Prop where
  event : e = .next v
  why : stage.doomed = true ∨
    stage = .putting ∧ (s.inode ip).valid = true ∧ (s.inode ip).copy.nlink = 0 ∧
      (s.inode ip).ref = 1

inductive Change (s t : State V) (e : Event V) : Prop where
  | gain (v : V) (ip : InodeSlot) (x : Inode) (unset : s.var v = none)
      (used : s.Live ip → x = { s.inode ip with ref := x.ref })
      (same : t = (s.setInode ip x).point v (some (ip, .held)))
  | move (v w : V) (ip : InodeSlot) (event : e = .move v w) (points : s.var v = some (ip, .held))
      (unset : s.var w = none) (same : t = (s.point v none).point w (some (ip, .held)))
  | ialloc (dev inum : Word) (dip : Dinode) (free : (s.disk dev inum).type = 0)
      (same : t = s.write dev inum dip)
  | turn (v : V) (ip : InodeSlot) (stage stage' : Stage) (x : Inode)
      (turn : Turns s t v ip stage stage' x)
      (keeps : stage.keeps = true → stage'.keeps = true ∨ e = .iput v)
      (dooms : stage'.doomed = true → Dooms s e v ip stage)
      (doomed : stage.doomed = true → e = .next v)
      (gentle : stage.doomed = false → Gentle s t ip x)
  | drop (v : V) (ip : InodeSlot) (drops : Drops s t v ip)

omit [Fintype V] [DecidableEq V] in
theorem gentle_same {stage stage' : Stage} (turn : Turns s t v ip stage stage' (s.inode ip))
    (disk : t.disk = s.disk) : Gentle s t ip (s.inode ip) where
  keeps := fun valid => ⟨valid, Keeps.refl _⟩
  disk := Or.inl (turn.dinode disk)

theorem step_change {e : Event V} (h : s.Inv) (taken : step s e = some t) : Change s t e := by
  cases e with
  | iget v dev inum =>
      obtain ⟨unset, ip, ⟨used, -, -, same⟩ | ⟨absent, unused, copy, same⟩⟩ := iget_cases taken
      · exact .gain v ip _ unset (fun _ => rfl) same
      · refine .gain v ip _ unset (fun used => ?_) same
        unfold State.Live at used
        omega
  | idup v w =>
      obtain ⟨ip, points, unset, same⟩ := idup_cases taken
      exact .gain w ip _ unset (fun _ => rfl) same
  | move v w =>
      obtain ⟨ip, points, unset, same⟩ := move_cases taken
      exact .move v w ip rfl points unset same
  | ialloc dev inum type =>
      simp only [step, State.ialloc] at taken
      split at taken
      · rename_i free
        cases taken
        exact .ialloc dev inum _ free.1 rfl
      · cases taken
  | ilock v =>
      obtain ⟨ip, turn, disk⟩ := ilock_turns taken
      exact .turn v ip _ _ _ turn (fun _ => Or.inl rfl) (fun doomed => by cases doomed)
        (fun doomed => by cases doomed) fun _ => gentle_same turn disk
  | load v =>
      obtain ⟨ip, x, turn, disk, ⟨valid, same⟩ | ⟨unloaded, typed, same⟩⟩ := load_turns h taken
      · subst same
        exact .turn v ip _ _ _ turn (fun _ => Or.inl rfl) (fun doomed => by cases doomed)
          (fun doomed => by cases doomed) fun _ => gentle_same turn disk
      · refine .turn v ip _ _ _ turn (fun _ => Or.inl rfl) (fun doomed => by cases doomed)
          (fun doomed => by cases doomed)
          fun _ => ⟨fun valid => ?_, Or.inl (turn.dinode disk)⟩
        rw [unloaded] at valid
        cases valid
  | store v copy =>
      obtain ⟨ip, turn, disk, kept⟩ := store_turns h taken
      exact .turn v ip _ _ _ turn (fun _ => Or.inl rfl) (fun doomed => by cases doomed)
        (fun doomed => by cases doomed)
        fun _ => ⟨fun valid => ⟨valid, kept⟩, Or.inl (turn.dinode disk)⟩
  | update v =>
      obtain ⟨ip, turn, same⟩ := update_turns h taken
      have valid := (h.loaded v ip .inside turn.before rfl).1
      refine .turn v ip _ _ _ turn (fun _ => Or.inl rfl) (fun doomed => by cases doomed)
        (fun doomed => by cases doomed)
        fun _ => ⟨fun valid => ⟨valid, Keeps.refl _⟩, Or.inr ⟨valid, ?_⟩⟩
      rw [same]
      simp [State.dinode, State.iupdate, write_disk]
  | iunlock v =>
      obtain ⟨ip, turn, disk⟩ := iunlock_turns h taken
      exact .turn v ip _ _ _ turn (fun _ => Or.inl rfl) (fun doomed => by cases doomed)
        (fun doomed => by cases doomed) fun _ => gentle_same turn disk
  | iput v =>
      obtain ⟨ip, turn, disk⟩ := iput_turns taken
      exact .turn v ip _ _ _ turn (fun _ => Or.inr rfl) (fun doomed => by cases doomed)
        (fun doomed => by cases doomed) fun _ => gentle_same turn disk
  | next v =>
      obtain ⟨ip, stage, stage', x, turn, next⟩ | ⟨ip, drops⟩ := next_cases h taken
      · refine .turn v ip stage stage' x turn ?_ ?_ (fun _ => rfl) ?_
        · intro keeps
          cases next <;> cases keeps
        · intro doomed
          refine ⟨rfl, ?_⟩
          cases next with
          | last links only same disk => exact Or.inr ⟨rfl, links.1, links.2, only⟩
          | itrunc copy disk => exact Or.inl rfl
          | clear copy => exact Or.inl rfl
          | shared same disk => cases doomed
          | invalid same disk => cases doomed
          | release same disk => cases doomed
        · intro sound
          cases next with
          | last links only same disk =>
              subst same
              exact gentle_same turn disk
          | shared same disk =>
              subst same
              exact gentle_same turn disk
          | release same disk =>
              subst same
              exact gentle_same turn disk
          | itrunc copy disk => cases sound
          | clear copy => cases sound
          | invalid same disk => cases sound
      · exact .drop v ip drops

omit [Fintype V] [DecidableEq V] in
/-- An entry in use stays that of its inode. -/
theorem Change.identity [DecidableEq V] {e : Event V} (change : Change s t e) {j : InodeSlot}
    (used : s.Live j) :
    (t.inode j).dev = (s.inode j).dev ∧ (t.inode j).inum = (s.inode j).inum := by
  cases change with
  | gain v ip x unset live same =>
      subst same
      by_cases here : j = ip
      · subst here
        simp only [point_inode, setInode_inode, if_true]
        rw [live used]
        exact ⟨rfl, rfl⟩
      · simp [here]
  | move v w ip event points unset same =>
      subst same
      exact ⟨rfl, rfl⟩
  | ialloc dev inum dip free same =>
      subst same
      exact ⟨rfl, rfl⟩
  | turn v ip stage stage' x turn keeps dooms doomed gentle =>
      by_cases here : j = ip
      · rw [here, turn.here]
        exact ⟨turn.dev, turn.inum⟩
      · rw [turn.inode j here]
        exact ⟨rfl, rfl⟩
  | drop v ip drops =>
      rw [drops.inode]
      split
      · rename_i here
        rw [here]
        exact ⟨rfl, rfl⟩
      · exact ⟨rfl, rfl⟩

/-! ## Established references -/

omit [Fintype V] [DecidableEq V] in
theorem locks_of_doomed {stage : Stage} (doomed : stage.doomed = true) : stage.locks = true := by
  cases stage with
  | freeing | truncated | cleared => rfl
  | held | entering | inside | putting | done | leaving => cases doomed

omit [Fintype V] [DecidableEq V] in
theorem not_doomed_of_keeps {stage : Stage} (keeps : stage.keeps = true) :
    stage.doomed = false := by
  cases stage with
  | held | entering | inside => rfl
  | putting | freeing | truncated | cleared | done | leaving => cases keeps

omit [DecidableEq V] in
/-- The process that ilock() has given an inode is not missed. -/
theorem inside_established (h : s.Inv) (inside : s.var v = some (ip, .inside)) :
    Established s v ip where
  holds := ⟨.inside, inside, rfl⟩
  seen := by
    intro w stage points
    cases doomed : stage.doomed with
    | false => rfl
    | true =>
        have same := h.holder inside rfl points (locks_of_doomed doomed)
        rw [same, inside] at points
        cases points
        cases doomed

omit [DecidableEq V] in
/-- Two references count as two. -/
theorem two_references (h : s.Inv) {stage stage' : Stage} (first : s.var v = some (ip, stage))
    (second : s.var w = some (ip, stage')) (apart : v ≠ w) : (s.inode ip).ref ≠ 1 := by
  have slot : ∀ {u : V} {stage₂ : Stage}, s.var u = some (ip, stage₂) → s.slot u = some ip := by
    intro u stage₂ points
    unfold State.slot
    rw [points]
    rfl
  have two := two_le_refs apart (slot first) (slot second)
  have counted := h.counted ip
  omega

/-- What holds of an entry that is kept. -/
structure Stays (s t : State V) (ip : InodeSlot) : Prop where
  dev : (t.inode ip).dev = (s.inode ip).dev
  inum : (t.inode ip).inum = (s.inode ip).inum
  copy : (s.inode ip).valid = true →
    (t.inode ip).valid = true ∧ Keeps (s.inode ip).copy (t.inode ip).copy
  disk : (s.dinode ip).type ≠ 0 → Keeps (s.dinode ip) (t.dinode ip)

omit [Fintype V] [DecidableEq V] in
theorem Stays.refl (s : State V) (ip : InodeSlot) : Stays s s ip :=
  ⟨rfl, rfl, fun valid => ⟨valid, Keeps.refl _⟩, fun _ => Keeps.refl _⟩

omit [Fintype V] [DecidableEq V] in
theorem Stays.trans {u : State V} (first : Stays s t ip) (second : Stays t u ip) :
    Stays s u ip where
  dev := second.dev.trans first.dev
  inum := second.inum.trans first.inum
  copy := by
    intro valid
    obtain ⟨valid, kept⟩ := first.copy valid
    obtain ⟨valid, kept'⟩ := second.copy valid
    exact ⟨valid, kept.trans kept'⟩
  disk := by
    intro typed
    have kept := first.disk typed
    refine kept.trans (second.disk ?_)
    rwa [kept.type]

omit [Fintype V] [DecidableEq V] in
/-- A step that writes nothing to disk and does not touch what is loaded. -/
theorem stays_of_same (dev : (t.inode ip).dev = (s.inode ip).dev)
    (inum : (t.inode ip).inum = (s.inode ip).inum) (valid : (t.inode ip).valid = (s.inode ip).valid)
    (copy : (t.inode ip).copy = (s.inode ip).copy)
    (disk : t.disk = s.disk) : Stays s t ip where
  dev := dev
  inum := inum
  copy := by
    intro loaded
    rw [valid, copy]
    exact ⟨loaded, Keeps.refl _⟩
  disk := by
    intro _
    have dinode : t.dinode ip = s.dinode ip := by
      unfold State.dinode
      rw [dev, inum, disk]
    rw [dinode]
    exact Keeps.refl _

/-- What an established reference refers to stays, and the reference stays established while
it is not given away. -/
theorem Change.established {e : Event V} (change : Change s t e) (h : s.Inv)
    (est : Established s v ip) : Stays s t ip ∧ (¬e.takes v → Established t v ip) := by
  obtain ⟨⟨stage₀, points₀, keeps₀⟩, seen⟩ := est
  have used : s.Live ip := h.live points₀
  cases change with
  | gain u j x unset live same =>
      subst same
      have var : ∀ w, ((s.setInode j x).point u (some (j, .held))).var w =
          if w = u then some (j, .held) else s.var w := fun w => by simp
      have other : v ≠ u := by
        rintro rfl
        rw [unset] at points₀
        cases points₀
      refine ⟨?_, fun _ => ⟨⟨stage₀, by rw [var, if_neg other]; exact points₀, keeps₀⟩, ?_⟩⟩
      · by_cases here : ip = j
        · subst here
          have same := live used
          apply stays_of_same
          case disk => rfl
          all_goals
            simp only [point_inode, setInode_inode, if_true]
            rw [same]
        · apply stays_of_same
          case disk => rfl
          all_goals simp [here]
      · intro w stage points
        rw [var] at points
        split at points
        · cases points
          rfl
        · exact seen w stage points
  | move u u' j event points unset same =>
      subst same
      subst event
      have var : ∀ w, ((s.point u none).point u' (some (j, .held))).var w =
          if w = u' then some (j, .held) else if w = u then none else s.var w := fun w => by simp
      have other : v ≠ u' := by
        rintro rfl
        rw [unset] at points₀
        cases points₀
      refine ⟨stays_of_same rfl rfl rfl rfl rfl, fun stays => ⟨⟨stage₀, ?_, keeps₀⟩, ?_⟩⟩
      · rw [var, if_neg other, if_neg fun same => stays same.symm]
        exact points₀
      · intro w stage points
        rw [var] at points
        split at points
        · cases points
          rfl
        · split at points
          · cases points
          · exact seen w stage points
  | ialloc dev inum dip free same =>
      subst same
      refine ⟨⟨rfl, rfl, fun valid => ⟨valid, Keeps.refl _⟩, fun typed => ?_⟩,
        fun _ => ⟨⟨stage₀, points₀, keeps₀⟩, seen⟩⟩
      have dinode : (s.write dev inum dip).dinode ip = s.dinode ip := by
        unfold State.dinode
        rw [write_disk, write_inode, if_neg]
        rintro ⟨same, number⟩
        apply typed
        unfold State.dinode
        rw [same, number]
        exact free
      rw [dinode]
      exact Keeps.refl _
  | turn u j stage stage' x turn keeps dooms doomed gentle =>
      refine ⟨?_, fun stays => ⟨?_, ?_⟩⟩
      · by_cases here : ip = j
        · subst here
          have gentle := gentle (seen u stage turn.before)
          constructor
          case dev => rw [turn.here, turn.dev]
          case inum => rw [turn.here, turn.inum]
          case copy =>
            rw [turn.here]
            exact gentle.keeps
          case disk =>
            intro typed
            rcases gentle.disk with disk | ⟨valid, disk⟩
            · rw [disk]
              exact Keeps.refl _
            · rw [disk]
              have unclear : ∀ w, s.var w ≠ some (ip, .cleared) :=
                fun w cleared => Bool.noConfusion (seen w .cleared cleared)
              exact (h.agrees ip used valid unclear).2.trans (gentle.keeps valid).2
        · have inode := turn.inode ip here
          constructor
          case dev => rw [inode]
          case inum => rw [inode]
          case copy =>
            rw [inode]
            exact fun valid => ⟨valid, Keeps.refl _⟩
          case disk =>
            intro _
            have dinode : t.dinode ip = s.dinode ip := by
              unfold State.dinode
              rw [inode]
              refine turn.disk _ _ fun same => here ?_
              exact h.unique ip j used (h.live turn.before) same
            rw [dinode]
            exact Keeps.refl _
      · by_cases mine : v = u
        · subst mine
          rw [turn.before] at points₀
          cases points₀
          rcases keeps keeps₀ with kept | put
          · exact ⟨stage', turn.after, kept⟩
          · subst put
            exact absurd rfl stays
        · rw [← turn.vars v mine] at points₀
          exact ⟨stage₀, points₀, keeps₀⟩
      · intro w stage₂ points
        by_cases same : w = u
        · rw [same, turn.after] at points
          cases points
          cases doom : stage'.doomed with
          | false => rfl
          | true =>
              obtain ⟨event, before | ⟨putting, valid, links, only⟩⟩ := dooms doom
              · rw [seen u stage turn.before] at before
                cases before
              · refine absurd only (two_references h points₀ turn.before ?_)
                rintro rfl
                rw [turn.before] at points₀
                cases points₀
                rw [putting] at keeps₀
                cases keeps₀
        · rw [turn.vars w same] at points
          exact seen w stage₂ points
  | drop u j drops =>
      have other : v ≠ u := by
        rintro rfl
        rw [drops.before] at points₀
        cases points₀
        cases keeps₀
      refine ⟨?_, fun _ => ⟨⟨stage₀, ?_, keeps₀⟩, ?_⟩⟩
      · apply stays_of_same
        case disk => exact drops.disk
        all_goals
          rw [drops.inode]
          split
          · rename_i here
            rw [here]
          · rfl
      · rw [drops.var, if_neg other]
        exact points₀
      · intro w stage points
        rw [drops.var] at points
        split at points
        · cases points
        · exact seen w stage points

omit [Fintype V] in
/-- The variable that gets a copy, or the reference itself. -/
theorem established_idup (est : Established s v ip) (dup : step s (.idup v w) = some t) :
    Established t w ip := by
  obtain ⟨j, points, unset, same⟩ := idup_cases dup
  obtain ⟨⟨stage, points', -⟩, seen⟩ := est
  rw [points] at points'
  cases points'
  subst same
  have var : ∀ u, (s.take w ip).var u = if u = w then some (ip, .held) else s.var u :=
    fun u => by simp [State.take]
  refine ⟨⟨.held, by rw [var, if_pos rfl], rfl⟩, fun u stage points => ?_⟩
  rw [var] at points
  split at points
  · cases points
    rfl
  · exact seen u stage points

omit [Fintype V] in
theorem established_move (est : Established s v ip) (moved : step s (.move v w) = some t) :
    Established t w ip := by
  obtain ⟨j, points, unset, same⟩ := move_cases moved
  obtain ⟨⟨stage, points', -⟩, seen⟩ := est
  rw [points] at points'
  cases points'
  subst same
  have var : ∀ u, ((s.point v none).point w (some (ip, .held))).var u =
      if u = w then some (ip, .held) else if u = v then none else s.var u := fun u => by simp
  refine ⟨⟨.held, by rw [var, if_pos rfl], rfl⟩, fun u stage points => ?_⟩
  rw [var] at points
  split at points
  · cases points
    rfl
  · split at points
    · cases points
    · exact seen u stage points

/-- An established reference, wherever it is handed to, and what it refers to. -/
theorem passed_established {es : List (Event V)} (passed : Passed v es w) :
    ∀ {s t : State V}, s.Inv → Established s v ip → Runs.run step s es = some t →
      Established t w ip ∧ Stays s t ip := by
  induction passed with
  | nil v =>
      intro s t _ est ran
      cases ran
      exact ⟨est, Stays.refl s ip⟩
  | stay stays later ih =>
      intro s t h est ran
      obtain ⟨u, taken, ran⟩ := (Runs.run_cons_some step).mp ran
      obtain ⟨same, kept⟩ := (step_change h taken).established h est
      obtain ⟨final, rest⟩ := ih (step_inv _ h taken) (kept stays) ran
      exact ⟨final, same.trans rest⟩
  | move later ih =>
      intro s t h est ran
      obtain ⟨u, taken, ran⟩ := (Runs.run_cons_some step).mp ran
      obtain ⟨same, -⟩ := (step_change h taken).established h est
      obtain ⟨final, rest⟩ := ih (step_inv _ h taken) (established_move est taken) ran
      exact ⟨final, same.trans rest⟩
  | idup later ih =>
      intro s t h est ran
      obtain ⟨u, taken, ran⟩ := (Runs.run_cons_some step).mp ran
      obtain ⟨same, -⟩ := (step_change h taken).established h est
      obtain ⟨final, rest⟩ := ih (step_inv _ h taken) (established_idup est taken) ran
      exact ⟨final, same.trans rest⟩

/-! ## Who frees an inode -/

/-- Only an iput() that has read that `ip->ref` is 1 takes anything from an inode on disk. -/
theorem Change.loses {e : Event V} (change : Change s t e) (h : s.Inv) {d n : Word}
    (loses : Loses (s.disk d n) (t.disk d n)) :
    ∃ v ip stage, e = .next v ∧ s.var v = some (ip, stage) ∧ stage.doomed = true ∧
      (s.inode ip).dev = d ∧ (s.inode ip).inum = n := by
  obtain ⟨typed, lost⟩ := loses
  cases change with
  | gain v ip x unset used same =>
      subst same
      exact absurd (Keeps.refl _) lost
  | move v w ip event points unset same =>
      subst same
      exact absurd (Keeps.refl _) lost
  | ialloc dev inum dip free same =>
      subst same
      rw [write_disk] at lost
      split at lost
      · rename_i here
        rw [here.1, here.2] at typed
        exact absurd free typed
      · exact absurd (Keeps.refl _) lost
  | drop v ip drops =>
      rw [drops.disk] at lost
      exact absurd (Keeps.refl _) lost
  | turn v ip stage stage' x turn keeps dooms doomed gentle =>
      by_cases here : d = (s.inode ip).dev ∧ n = (s.inode ip).inum
      · obtain ⟨dev, inum⟩ := here
        cases doom : stage.doomed with
        | true => exact ⟨v, ip, stage, doomed doom, turn.before, doom, dev.symm, inum.symm⟩
        | false =>
            have written : t.dinode ip = t.disk d n := by
              unfold State.dinode
              rw [turn.here, turn.dev, turn.inum, dev, inum]
            have read : s.dinode ip = s.disk d n := by
              unfold State.dinode
              rw [dev, inum]
            have gentle := gentle doom
            rcases gentle.disk with disk | ⟨valid, disk⟩
            · rw [written, read] at disk
              rw [disk] at lost
              exact absurd (Keeps.refl _) lost
            · have unclear : ∀ w, s.var w ≠ some (ip, .cleared) := by
                intro w cleared
                by_cases same : w = v
                · rw [same, turn.before] at cleared
                  cases cleared
                  cases doom
                · cases turn.alone h same cleared
              have agrees := (h.agrees ip (h.live turn.before) valid unclear).2
              rw [read] at agrees
              rw [written] at disk
              rw [disk] at lost
              exact absurd (agrees.trans (gentle.keeps valid).2) lost
      · rw [turn.disk d n here] at lost
        exact absurd (Keeps.refl _) lost

/-- At some earlier point of the iput() that `v` is in, it held the only reference to the
inode, which had no links. -/
def WasSole (start : State V) (es : List (Event V)) (s : State V) (v : V) (ip : InodeSlot) :
    Prop :=
  ∃ before after u, es = before ++ after ∧ Runs.run step start before = some u ∧
    u.var v = some (ip, .putting) ∧ Sole u v ip ∧
    (u.inode ip).dev = (s.inode ip).dev ∧ (u.inode ip).inum = (s.inode ip).inum ∧
    .iput v ∉ after

/-- Who is about to free an inode has been found to be the last one. -/
def Accounted (start : State V) (es : List (Event V)) (s : State V) : Prop :=
  ∀ v ip stage, s.var v = some (ip, stage) → stage.doomed = true → WasSole start es s v ip

theorem accounted_step {start : State V} {es : List (Event V)} {e : Event V}
    (ran : Runs.run step start es = some s) (h : s.Inv) (accounted : Accounted start es s)
    (taken : step s e = some t) : Accounted start (es ++ [e]) t := by
  intro v ip stage' points doom
  have change := step_change h taken
  have identity : ∀ {j : InodeSlot}, s.Live j →
      (t.inode j).dev = (s.inode j).dev ∧ (t.inode j).inum = (s.inode j).inum := change.identity
  have other : e ≠ .iput v := by
    rintro rfl
    obtain ⟨j, turn, -⟩ := iput_turns taken
    rw [turn.after] at points
    cases points
    cases doom
  have old : ∀ stage, s.var v = some (ip, stage) → stage.doomed = true →
      WasSole start (es ++ [e]) t v ip := by
    intro stage pointed doomed
    obtain ⟨before, after, u, split, first, putting, sole, dev, inum, none_since⟩ :=
      accounted v ip stage pointed doomed
    have same := identity (h.live pointed)
    refine ⟨before, after ++ [e], u, ?_, first, putting, sole, ?_, ?_, ?_⟩
    · rw [split, List.append_assoc]
    · rw [same.1, dev]
    · rw [same.2, inum]
    · intro member
      rcases List.mem_append.mp member with there | here
      · exact none_since there
      · exact other (List.mem_singleton.mp here).symm
  cases change with
  | gain u j x unset used same =>
      subst same
      rw [point_var] at points
      split at points
      · cases points
        cases doom
      · exact old stage' points doom
  | move u w j event pointed unset same =>
      subst same
      rw [point_var, point_var] at points
      split at points
      · cases points
        cases doom
      · split at points
        · cases points
        · exact old stage' points doom
  | ialloc dev inum dip free same =>
      subst same
      exact old stage' points doom
  | drop u j drops =>
      rw [drops.var] at points
      split at points
      · cases points
      · exact old stage' points doom
  | turn u j stage stage₂ x turn keeps dooms doomed gentle =>
      by_cases mine : v = u
      · subst mine
        rw [turn.after] at points
        cases points
        obtain ⟨event, before | ⟨putting, valid, links, only⟩⟩ := dooms doom
        · exact old stage turn.before before
        · subst putting
          have same := identity (h.live turn.before)
          refine ⟨es, [e], s, rfl, ran, turn.before, ⟨?_, valid, links⟩, same.1.symm,
            same.2.symm, ?_⟩
          · intro w stage pointed
            by_contra apart
            exact two_references h pointed turn.before apart only
          · intro member
            exact other (List.mem_singleton.mp member).symm
      · rw [turn.vars v mine] at points
        exact old stage' points doom

/-- The claim about a run: what holds of its last state, of a step that follows, and of the
references that are in use. -/
structure Promised (start : State V) (es : List (Event V)) (s : State V) : Prop where
  /-- An inode has one entry at most. -/
  unique : ∀ i j, s.Live i → s.Live j → s.SameInode i j → i = j
  /-- The counters count. -/
  counted : ∀ ip, (s.inode ip).ref = (refs s.slot ip : Int)
  /-- Whatever frees or truncates an inode is an iput() that has been the last to refer to it,
  at a moment when it had no links. -/
  freed : ∀ e t d n, step s e = some t → Loses (s.disk d n) (t.disk d n) →
    ∃ v ip stage, e = .next v ∧ s.var v = some (ip, stage) ∧ stage.doomed = true ∧
      (s.inode ip).dev = d ∧ (s.inode ip).inum = n ∧ WasSole start es s v ip
  /-- What ilock() has returned with is not missed. -/
  locked : ∀ v ip, s.var v = some (ip, .inside) → Established s v ip
  /-- The inode of an open file or of a current directory keeps its entry and its content,
  wherever the reference is handed to. -/
  kept : ∀ v w ip es' t, Established s v ip → Passed v es' w → Runs.run step s es' = some t →
    Established t w ip ∧ Stays s t ip

theorem run_promised {start : State V} (inv : start.Inv)
    (idle : Accounted start [] start) (es : List (Event V)) (s : State V)
    (ran : Runs.run step start es = some s) : Promised start es s := by
  have history : s.Inv ∧ Accounted start es s := by
    have first : start.Inv ∧ Accounted start [] start := ⟨inv, idle⟩
    refine @Runs.history_invariant _ _ step (fun es s => s.Inv ∧ Accounted start es s) start first
      ?_ es s ran
    intro es s e next before holds taken
    exact ⟨step_inv e holds.1 taken, accounted_step before holds.1 holds.2 taken⟩
  obtain ⟨h, accounted⟩ := history
  constructor
  case unique => exact h.unique
  case counted => exact h.counted
  case freed =>
    intro e t d n taken loses
    obtain ⟨v, ip, stage, event, points, doomed, dev, inum⟩ := (step_change h taken).loses h loses
    exact ⟨v, ip, stage, event, points, doomed, dev, inum, accounted v ip stage points doomed⟩
  case locked => exact fun v ip inside => inside_established h inside
  case kept => exact fun v w ip es' t est passed ran => passed_established passed h est ran

/-- Whatever the order of the steps of however many processes, no inode is freed while it is
referenced. -/
theorem inode_cache (disk : Word → Word → Dinode) (es : List (Event V)) (s : State V)
    (ran : Runs.run step (boot disk) es = some s) : Promised (boot disk) es s := by
  refine run_promised (boot_inv disk) ?_ es s ran
  intro v ip stage points
  cases points

end Kept

/-- An image with one file, which is inode 2 and has one link. -/
def oneFile (dev inum : Word) : Dinode :=
  { type := if dev = 1 ∧ inum = 2 then 2 else 0
    major := 0, minor := 0, nlink := 1, size := 5, mode := 7, addrs := fun _ => 600 }

/-- The file is open through the variable `true` when its last link goes, as in
unlinkread(); the other one is the local variable of the system calls. -/
def unlinkread : List (Event Bool) :=
  [.iget false 1 2, .ilock false, .load false, .iunlock false, .move false true,
    .iget false 1 2, .ilock false, .load false, .store false { oneFile 1 2 with nlink := 0 },
    .update false, .iunlock false, .iput false, .next false, .next false, .next false]

theorem inode_cache_unlinkread : ∃ s, Runs.run step (boot oneFile) unlinkread = some s ∧
    (s.disk 1 2).nlink = 0 ∧ (s.disk 1 2).size = 5 ∧ Promised (boot oneFile) unlinkread s := by
  have ran : ((Runs.run step (boot oneFile) unlinkread).map fun s =>
      ((s.disk 1 2).nlink, (s.disk 1 2).size)) = some (0, 5) := by decide
  obtain ⟨s, ran, same⟩ := Option.map_eq_some_iff.mp ran
  exact ⟨s, ran, congrArg Prod.fst same, congrArg Prod.snd same,
    inode_cache oneFile unlinkread s ran⟩

end Xv6.Public1.InodeSteps
