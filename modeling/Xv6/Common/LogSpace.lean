import Xv6.Common.LogCrash

/-!
# How much of the log the operations use (log.c)

`log.lh.n` is the number of distinct blocks logged since the last commit.  The
reservation of begin_op() keeps it within LOGSIZE.  The log on disk has one data
block fewer, log_write() gives up when those are in use, even for a block that
is logged already, and looks at the number before it takes log.lock.
-/

set_option autoImplicit false

namespace Xv6.Common.Log

open Xv6.Lib
open Xv6.Lib.Words
open Xv6.Lib.References (sum_le_refs)

variable {P : Type} [DecidableEq P]

/-- The machine while it does not go down. -/
def live (s : Kernel P × Group P) (e : Event P) : Option (Kernel P × Group P) :=
  match e with
  | .crash => none
  | e => tracked s e

/-- No operation logs more than MAXOPBLOCKS blocks. -/
def Modest (s : Kernel P × Group P) : Event P → Prop
  | .logTest p b _ => (insert b (s.2.used p)).card ≤ MAXOPBLOCKS
  | _ => True

instance (s : Kernel P × Group P) : DecidablePred (Modest s)
  | .logTest _ _ _ => inferInstanceAs (Decidable (_ ≤ _))
  | .bread _ | .recycle _ | .begin_op _ | .logAppend _ | .end_op _ | .advance | .crash =>
      isTrue trivial

/-- log_write() has not given up, and the log has a data block for each block of
the header. -/
def Enough (s : Kernel P × Group P) : Prop :=
  s.1.panic = false ∧ s.1.lh.length ≤ nlog - 1

/-- There is a data block for what a process logs. -/
def Thread.Room (blocks : Finset Word) : Thread → Prop
  | .logging b _ => (insert b blocks).card ≤ nlog - 1
  | .out | .inOp => True

/-- A log_write() is called while fewer blocks have been logged since the last
commit than the log has data blocks, and is not overtaken by others that take
what is left. -/
def Roomy (s : Kernel P × Group P) : Event P → Prop
  | .logTest _ _ _ => s.2.blocks.card < nlog - 1
  | .logAppend p => (s.1.thread p).Room s.2.blocks
  | _ => True

instance (blocks : Finset Word) : DecidablePred (Thread.Room blocks)
  | .out => isTrue trivial
  | .inOp => isTrue trivial
  | .logging _ _ => inferInstanceAs (Decidable (_ ≤ _))

instance (s : Kernel P × Group P) : DecidablePred (Roomy s)
  | .logTest _ _ _ => inferInstanceAs (Decidable (_ < _))
  | .logAppend _ => inferInstanceAs (Decidable (Thread.Room _ _))
  | .bread _ | .recycle _ | .begin_op _ | .end_op _ | .advance | .crash => isTrue trivial

/-! ## The header counts the blocks -/

structure Counts (k : Kernel P) (g : Group P) : Prop where
  nodup : k.lh.Nodup
  blocks : k.lh.toFinset = g.blocks

omit [DecidableEq P] in
theorem Counts.card {k : Kernel P} {g : Group P} (h : Counts k g) :
    k.lh.length = g.blocks.card := by
  rw [← h.blocks]
  exact (List.toFinset_card_of_nodup h.nodup).symm

/-- log_write() adds the block to the header if it is not there. -/
theorem Counts.append {lh : List Word} {blocks : Finset Word} (nodup : lh.Nodup)
    (same : lh.toFinset = blocks) (b : Word) :
    (if b ∈ lh then lh else lh ++ [b]).Nodup ∧
      (if b ∈ lh then lh else lh ++ [b]).toFinset = insert b blocks := by
  subst same
  split
  · rename_i already
    exact ⟨nodup, (Finset.insert_eq_of_mem (List.mem_toFinset.mpr already)).symm⟩
  · rename_i fresh
    constructor
    · rw [List.nodup_append]
      refine ⟨nodup, List.nodup_singleton b, ?_⟩
      intro c member d last same
      rw [List.mem_singleton.mp last] at same
      exact fresh (same ▸ member)
    · rw [List.toFinset_append, List.toFinset_cons, List.toFinset_nil, Finset.union_comm]
      rfl

omit [DecidableEq P] in
theorem Counts.start (k : Kernel P) (disk : Word → Block) (empty : k.lh = []) :
    Counts k (Group.start disk) := by
  refine ⟨?_, ?_⟩
  · rw [empty]
    exact List.nodup_nil
  · rw [empty]
    rfl

omit [DecidableEq P] in
theorem Counts.of_same {k next : Kernel P} {g g' : Group P} (h : Counts k g)
    (lh : next.lh = k.lh) (blocks : g'.blocks = g.blocks) : Counts next g' := by
  refine ⟨?_, ?_⟩
  · rw [lh]
    exact h.nodup
  · rw [lh, blocks]
    exact h.blocks

/-! ## Steps of a machine that does not go down -/

/-- Where the machine is when it has not gone down. -/
def Phase.commits : Phase → Prop
  | .running | .writeLog _ | .writeHead | .install _ | .clear => True
  | .readHead | .reinstall _ | .reclear => False

theorem live_some {s t : Kernel P × Group P} {e : Event P} (taken : live s e = some t) :
    e ≠ .crash ∧ ∃ next, act s.1 e = some next ∧ t = (next, record s.1 next s.2 e) := by
  have alive : e ≠ .crash := by
    rintro rfl
    cases taken
  have stepped : tracked s e = some t := by
    cases e with
    | crash => exact absurd rfl alive
    | _ => exact taken
  obtain ⟨next, moved, same⟩ := Option.map_eq_some_iff.mp stepped
  refine ⟨alive, next, ?_, same.symm⟩
  unfold step at moved
  split at moved
  · exact absurd rfl alive
  · cases moved
  · exact moved

/-- The steps that log nothing: the header is kept, or emptied when the commit is
done. -/
structure Idle (k next : Kernel P) (g g' : Group P) : Prop where
  panic : next.panic = k.panic
  commits : next.phase.commits
  log : (next.lh = k.lh ∧ g'.blocks = g.blocks) ∨ (next.lh = [] ∧ g'.blocks = ∅)

theorem Idle.advance {k next : Kernel P} (g : Group P) (up : k.phase.commits)
    (taken : k.advance = some next) : Idle k next g (record k next g .advance) := by
  unfold Kernel.advance at taken
  split at taken
  · cases taken
  · rename_i tail phase
    cases taken
    refine ⟨rfl, ?_, Or.inl ⟨rfl, ?_⟩⟩
    · dsimp only
      split <;> trivial
    · simp only [record, phase]
  · rename_i phase
    cases taken
    refine ⟨rfl, trivial, Or.inl ⟨rfl, ?_⟩⟩
    simp only [record, phase]
  · rename_i tail phase
    cases taken
    refine ⟨rfl, ?_, Or.inl ⟨rfl, ?_⟩⟩
    · dsimp only
      split <;> trivial
    · simp only [record, phase]
  · rename_i phase
    cases taken
    refine ⟨rfl, trivial, Or.inr ⟨rfl, ?_⟩⟩
    simp only [record, phase]
    rfl
  · rename_i phase
    rw [phase] at up
    exact up.elim
  · rename_i tail phase
    rw [phase] at up
    exact up.elim
  · rename_i phase
    rw [phase] at up
    exact up.elim

omit [DecidableEq P] in
/-- A commit and a recovery start and end no operation. -/
theorem advance_same {k next : Kernel P} (taken : k.advance = some next) :
    next.outstanding = k.outstanding ∧ next.thread = k.thread := by
  unfold Kernel.advance at taken
  split at taken
  · cases taken
  all_goals
    cases taken
    exact ⟨rfl, rfl⟩

/-- log_write() gives up when the data blocks of the log are in use, or moves on. -/
theorem logTest_some {k next : Kernel P} {p : P} {b : Word} {data : Block}
    (taken : k.logTest p b data = some next) :
    k.thread p = .inOp ∧
      ((nlog - 1 ≤ k.lh.length ∨ k.outstanding < 1) ∧ next = { k with panic := true } ∨
        k.lh.length < nlog - 1 ∧ next = k.setThread p (.logging b data)) := by
  have size : LOGSIZE = 30 ∧ nlog = 30 := by decide
  unfold Kernel.logTest at taken
  split at taken
  · rename_i inOp
    refine ⟨inOp, ?_⟩
    split at taken
    · rename_i used
      exact Or.inl ⟨Or.inl (by omega), (Option.some.inj taken).symm⟩
    · rename_i free
      split at taken
      · rename_i outside
        exact Or.inl ⟨Or.inr outside, (Option.some.inj taken).symm⟩
      · exact Or.inr ⟨by omega, (Option.some.inj taken).symm⟩
  · cases taken

theorem logAppend_some {k next : Kernel P} {p : P} (taken : k.logAppend p = some next) :
    ∃ b data, k.thread p = .logging b data ∧
      next = { k with
        lh := if b ∈ k.lh then k.lh else k.lh ++ [b]
        buf := Function.update k.buf b (some { data := data, dirty := true }) }.setThread p .inOp := by
  unfold Kernel.logAppend at taken
  split at taken
  · rename_i b data logging
    exact ⟨b, data, logging, (Option.some.inj taken).symm⟩
  · cases taken

/-! ## The data blocks of the log are enough -/

section Spaced
variable [Fintype P]

structure Spaced (s : Kernel P × Group P) : Prop where
  counted : Counted s.1
  counts : Counts s.1 s.2
  enough : Enough s
  commits : s.1.phase.commits

omit [DecidableEq P] in
theorem Spaced.start (disk : Word → Block) : Spaced (boot disk, (Group.start disk : Group P)) := by
  constructor
  case counted => exact Counted.none rfl fun _ => rfl
  case counts => exact Counts.start _ disk rfl
  case enough => exact ⟨rfl, Nat.zero_le _⟩
  case commits => trivial

omit [DecidableEq P] in
theorem Spaced.idle {s : Kernel P × Group P} (h : Spaced s) {next : Kernel P} {g : Group P}
    (idle : Idle s.1 next s.2 g) (counted : Counted next) : Spaced (next, g) := by
  have up : next.panic = false := idle.panic.trans h.enough.1
  obtain ⟨lh, blocks⟩ | ⟨lh, blocks⟩ := idle.log
  · refine ⟨counted, h.counts.of_same lh blocks, ⟨up, ?_⟩, idle.commits⟩
    exact lh.symm ▸ h.enough.2
  · refine ⟨counted, ⟨?_, ?_⟩, ⟨up, ?_⟩, idle.commits⟩
    · exact lh.symm ▸ List.nodup_nil
    · exact lh.symm ▸ blocks.symm
    · exact lh.symm ▸ Nat.zero_le _

omit [DecidableEq P] in
theorem Spaced.bread {s : Kernel P × Group P} (h : Spaced s) (b : Word) :
    Spaced (s.1.bread b, s.2) := by
  unfold Kernel.bread
  split
  · exact h
  · exact h.idle ⟨rfl, h.commits, Or.inl ⟨rfl, rfl⟩⟩ h.counted

omit [DecidableEq P] in
theorem Spaced.recycle {s : Kernel P × Group P} (h : Spaced s) {b : Word} {next : Kernel P}
    (taken : s.1.recycle b = some next) : Spaced (next, s.2) := by
  unfold Kernel.recycle at taken
  split at taken
  · split at taken
    · cases taken
    · cases taken
      exact h.idle ⟨rfl, h.commits, Or.inl ⟨rfl, rfl⟩⟩ h.counted
  · cases taken

theorem Spaced.begin_op {s : Kernel P × Group P} (h : Spaced s) {p : P} {next : Kernel P}
    (taken : s.1.begin_op p = some next) : Spaced (next, record s.1 next s.2 (.begin_op p)) := by
  have counted := h.counted.begin_op taken
  unfold Kernel.begin_op at taken
  split at taken
  · split at taken
    · cases taken
    · cases taken
      exact h.idle ⟨rfl, h.commits, Or.inl ⟨rfl, rfl⟩⟩ counted
  · cases taken

/-- While blocks are left, log_write() passes its test. -/
theorem Spaced.logTest {s : Kernel P × Group P} (h : Spaced s) {p : P} {b : Word} {data : Block}
    {next : Kernel P} (room : s.2.blocks.card < nlog - 1)
    (taken : s.1.logTest p b data = some next) :
    Spaced (next, record s.1 next s.2 (.logTest p b data)) := by
  have counted := h.counted.logTest taken
  obtain ⟨inOp, ⟨full, rfl⟩ | ⟨left, rfl⟩⟩ := logTest_some taken
  · have running := h.counted.outstanding (p := p) (by rw [inOp]; simp)
    have card := h.counts.card
    omega
  · exact h.idle ⟨rfl, h.commits, Or.inl ⟨rfl, rfl⟩⟩ counted

theorem Spaced.logAppend {s : Kernel P × Group P} (h : Spaced s) {p : P} {next : Kernel P}
    (room : Roomy s (.logAppend p)) (taken : s.1.logAppend p = some next) :
    Spaced (next, record s.1 next s.2 (.logAppend p)) := by
  have counted := h.counted.logAppend taken
  obtain ⟨b, data, logging, rfl⟩ := logAppend_some taken
  obtain ⟨nodup, same⟩ := Counts.append h.counts.nodup h.counts.blocks b
  simp only [Roomy, logging, Thread.Room] at room
  simp only [record, logging]
  refine ⟨counted, ⟨nodup, same⟩, ⟨h.enough.1, ?_⟩, h.commits⟩
  rw [← same, List.toFinset_card_of_nodup nodup] at room
  exact room

theorem Spaced.end_op {s : Kernel P × Group P} (h : Spaced s) {p : P} {next : Kernel P}
    (taken : s.1.end_op p = some next) : Spaced (next, s.2) := by
  have counted := h.counted.end_op taken
  unfold Kernel.end_op at taken
  split at taken
  · dsimp only at taken
    cases taken
    split
    · rename_i last
      rw [if_pos last] at counted
      exact h.idle ⟨rfl, trivial, Or.inl ⟨rfl, rfl⟩⟩ counted
    · rename_i others
      rw [if_neg others] at counted
      exact h.idle ⟨rfl, h.commits, Or.inl ⟨rfl, rfl⟩⟩ counted
  · cases taken

theorem Spaced.step {s t : Kernel P × Group P} (h : Spaced s) {e : Event P} (room : Roomy s e)
    (taken : live s e = some t) : Spaced t := by
  obtain ⟨alive, next, moved, rfl⟩ := live_some taken
  cases e with
  | bread b =>
      cases moved
      exact h.bread b
  | recycle b => exact h.recycle moved
  | begin_op p => exact h.begin_op moved
  | logTest p b data => exact h.logTest room moved
  | logAppend p => exact h.logAppend room moved
  | end_op p => exact h.end_op moved
  | advance =>
      obtain ⟨outstanding, thread⟩ := advance_same moved
      exact h.idle (Idle.advance s.2 h.commits moved) (h.counted.of_same outstanding thread)
  | crash => exact absurd rfl alive

/-- A step that is not roomy exhausts the log. -/
theorem Spaced.roomy {s t : Kernel P × Group P} (h : Spaced s) {e : Event P}
    (taken : live s e = some t) (enough : Enough t) : Roomy s e := by
  obtain ⟨alive, next, moved, rfl⟩ := live_some taken
  have card := h.counts.card
  cases e with
  | logTest p b data =>
      obtain ⟨_, ⟨_, rfl⟩ | ⟨left, _⟩⟩ := logTest_some moved
      · cases enough.1
      · exact card.symm.trans_lt left
  | logAppend p =>
      obtain ⟨b, data, logging, rfl⟩ := logAppend_some moved
      obtain ⟨nodup, same⟩ := Counts.append h.counts.nodup h.counts.blocks b
      simp only [Roomy, logging, Thread.Room]
      rw [← same, List.toFinset_card_of_nodup nodup]
      exact enough.2
  | _ => trivial

end Spaced

/-! ## What begin_op() sets aside -/

/-- How many more blocks a process may add to the header. -/
def Thread.claim (blocks used : Finset Word) : Thread → Nat
  | .out => 0
  | .inOp => MAXOPBLOCKS - used.card
  | .logging b _ => MAXOPBLOCKS - used.card + if b ∈ blocks then 0 else 1

/-- The blocks of an operation are in the header, except the one that it is logging. -/
def Thread.Owns (blocks used : Finset Word) : Thread → Prop
  | .out => True
  | .inOp => used ⊆ blocks
  | .logging b _ => b ∈ used ∧ used ⊆ insert b blocks ∧ used.card ≤ MAXOPBLOCKS

theorem Thread.claim_le {blocks used : Finset Word} {t : Thread} (owns : t.Owns blocks used) :
    t.claim blocks used ≤ if t.inside = some () then MAXOPBLOCKS else 0 := by
  cases t with
  | out => exact Nat.zero_le _
  | inOp => exact Nat.sub_le _ _
  | logging b data =>
      have named : 0 < used.card := Finset.card_pos.mpr ⟨b, owns.1⟩
      have few := owns.2.2
      simp only [Thread.claim, logging_inside, if_true]
      split <;> omega

/-- Other processes do not lose by what one logs. -/
theorem Thread.claim_insert (b : Word) (blocks used : Finset Word) (t : Thread) :
    t.claim (insert b blocks) used ≤ t.claim blocks used := by
  cases t with
  | out => exact Nat.le_refl _
  | inOp => exact Nat.le_refl _
  | logging c data =>
      simp only [Thread.claim, Finset.mem_insert]
      split <;> split <;> simp_all

/-- log_write() of a block of the operation's own takes nothing from its claim. -/
theorem Thread.claim_test {b : Word} {blocks used : Finset Word} (owned : used ⊆ blocks)
    (few : (insert b used).card ≤ MAXOPBLOCKS) (data : Block) :
    (Thread.logging b data).claim blocks (insert b used) ≤ Thread.inOp.claim blocks used := by
  simp only [Thread.claim]
  by_cases again : b ∈ used
  · rw [Finset.insert_eq_of_mem again, if_pos (owned again)]
    omega
  · rw [Finset.card_insert_of_notMem again] at few ⊢
    split <;> omega

theorem Thread.claim_append (b : Word) (data : Block) (blocks used : Finset Word) :
    (insert b blocks).card + Thread.inOp.claim (insert b blocks) used ≤
      blocks.card + (Thread.logging b data).claim blocks used := by
  simp only [Thread.claim]
  by_cases already : b ∈ blocks
  · rw [Finset.insert_eq_of_mem already, if_pos already]
    omega
  · rw [Finset.card_insert_of_notMem already, if_neg already]
    omega

theorem Thread.Owns.insert {b : Word} {blocks used : Finset Word} {t : Thread}
    (h : t.Owns blocks used) : t.Owns (insert b blocks) used := by
  have grown := Finset.subset_insert b blocks
  cases t with
  | out => trivial
  | inOp => exact Finset.Subset.trans h grown
  | logging c data =>
      exact ⟨h.1, Finset.Subset.trans h.2.1 (Finset.insert_subset_insert c grown), h.2.2⟩

section Reserved
variable [Fintype P]

def claims (thread : P → Thread) (blocks : Finset Word) (used : P → Finset Word) : Nat :=
  ∑ p, (thread p).claim blocks (used p)

/-- When one process moves, what it adds to the header is taken from its claim. -/
theorem claims_move {thread thread' : P → Thread} {blocks blocks' : Finset Word}
    {used used' : P → Finset Word} (p : P)
    (others : ∀ q, q ≠ p → (thread' q).claim blocks' (used' q) ≤ (thread q).claim blocks (used q))
    (mine : blocks'.card + (thread' p).claim blocks' (used' p) ≤
      blocks.card + (thread p).claim blocks (used p)) :
    blocks'.card + claims thread' blocks' used' ≤ blocks.card + claims thread blocks used := by
  have member := Finset.mem_univ p
  have rest : ∑ q ∈ Finset.univ.erase p, (thread' q).claim blocks' (used' q) ≤
      ∑ q ∈ Finset.univ.erase p, (thread q).claim blocks (used q) :=
    Finset.sum_le_sum fun q elsewhere => others q (Finset.ne_of_mem_erase elsewhere)
  have before := Finset.add_sum_erase _ (fun q => (thread q).claim blocks (used q)) member
  have after := Finset.add_sum_erase _ (fun q => (thread' q).claim blocks' (used' q)) member
  unfold claims
  omega

omit [DecidableEq P] in
theorem claims_le {thread : P → Thread} {blocks : Finset Word} {used : P → Finset Word}
    (owns : ∀ p, (thread p).Owns blocks (used p)) :
    claims thread blocks used ≤ insiders thread * MAXOPBLOCKS :=
  sum_le_refs fun p => Thread.claim_le (owns p)

omit [DecidableEq P] in
theorem claims_out {thread : P → Thread} (out : ∀ p, thread p = .out) (blocks : Finset Word)
    (used : P → Finset Word) : claims thread blocks used = 0 := by
  apply Finset.sum_eq_zero
  intro p _
  rw [out p]
  rfl

structure Reserved (s : Kernel P × Group P) : Prop where
  counted : Counted s.1
  counts : Counts s.1 s.2
  commits : s.1.phase.commits
  quiet : ∀ p, s.1.thread p ≠ .out → s.1.phase = .running
  owns : ∀ p, (s.1.thread p).Owns s.2.blocks (s.2.used p)
  room : s.2.blocks.card + claims s.1.thread s.2.blocks s.2.used ≤ LOGSIZE

omit [DecidableEq P] in
theorem Reserved.start (disk : Word → Block) :
    Reserved (boot disk, (Group.start disk : Group P)) := by
  constructor
  case counted => exact Counted.none rfl fun _ => rfl
  case counts => exact Counts.start _ disk rfl
  case commits => trivial
  case quiet => exact fun p inside => absurd rfl inside
  case owns => exact fun p => trivial
  case room =>
    have out : ∀ p, (boot disk : Kernel P).thread p = .out := fun _ => rfl
    have none_running := claims_out out ∅ fun _ => ∅
    exact (Nat.zero_add _).trans_le (none_running.trans_le (Nat.zero_le _))

omit [DecidableEq P] in
/-- A step of buffers only. -/
theorem Reserved.buffers {s : Kernel P × Group P} (h : Reserved s) {next : Kernel P}
    (lh : next.lh = s.1.lh) (outstanding : next.outstanding = s.1.outstanding)
    (thread : next.thread = s.1.thread) (phase : next.phase = s.1.phase) :
    Reserved (next, s.2) := by
  constructor
  case counted => exact h.counted.of_same outstanding thread
  case counts => exact h.counts.of_same lh rfl
  case commits => exact phase.symm ▸ h.commits
  case quiet =>
    intro p inside
    rw [thread] at inside
    exact phase.trans (h.quiet p inside)
  case owns =>
    intro p
    rw [thread]
    exact h.owns p
  case room =>
    rw [thread]
    exact h.room

omit [DecidableEq P] in
theorem Reserved.recycle {s : Kernel P × Group P} (h : Reserved s) {b : Word} {next : Kernel P}
    (taken : s.1.recycle b = some next) : Reserved (next, s.2) := by
  unfold Kernel.recycle at taken
  split at taken
  · split at taken
    · cases taken
    · cases taken
      exact h.buffers rfl rfl rfl rfl
  · cases taken

theorem Reserved.advance {s : Kernel P × Group P} (h : Reserved s) {next : Kernel P}
    (taken : s.1.advance = some next) : Reserved (next, record s.1 next s.2 .advance) := by
  obtain ⟨outstanding, thread⟩ := advance_same taken
  have idle := Idle.advance s.2 h.commits taken
  have committing : s.1.phase ≠ .running := by
    intro running
    unfold Kernel.advance at taken
    rw [running] at taken
    cases taken
  have out : ∀ p, next.thread p = .out := by
    intro p
    by_contra inside
    rw [thread] at inside
    exact committing (h.quiet p inside)
  constructor
  case counted => exact h.counted.of_same outstanding thread
  case counts =>
    obtain ⟨lh, blocks⟩ | ⟨lh, blocks⟩ := idle.log
    · exact h.counts.of_same lh blocks
    · exact ⟨lh.symm ▸ List.nodup_nil, lh.symm ▸ blocks.symm⟩
  case commits => exact idle.commits
  case quiet => exact fun p inside => absurd (out p) inside
  case owns =>
    intro p
    rw [out p]
    trivial
  case room =>
    have before := h.room
    have none_running := claims_out out (record s.1 next s.2 .advance).blocks
      (record s.1 next s.2 .advance).used
    obtain ⟨_, blocks⟩ | ⟨_, blocks⟩ := idle.log
    · rw [none_running, blocks]
      omega
    · rw [none_running, blocks]
      exact Nat.zero_le _

omit [Fintype P] in
/-- begin_op() waits until the log has room for one more operation. -/
theorem begin_op_some {k next : Kernel P} {p : P} (taken : k.begin_op p = some next) :
    k.thread p = .out ∧ k.phase = .running ∧
      k.lh.length + (k.outstanding + 1) * MAXOPBLOCKS ≤ LOGSIZE ∧
      next = { k with outstanding := k.outstanding + 1 }.setThread p .inOp := by
  unfold Kernel.begin_op at taken
  split at taken
  · rename_i out running
    split at taken
    · cases taken
    · rename_i room
      exact ⟨out, running, Nat.le_of_not_gt room, (Option.some.inj taken).symm⟩
  · cases taken

theorem Reserved.begin_op {s : Kernel P × Group P} (h : Reserved s) {p : P} {next : Kernel P}
    (taken : s.1.begin_op p = some next) :
    Reserved (next, record s.1 next s.2 (.begin_op p)) := by
  have counted := h.counted.begin_op taken
  obtain ⟨out, running, room, rfl⟩ := begin_op_some taken
  have owns : ∀ q, (Function.update s.1.thread p .inOp q).Owns s.2.blocks
      (Function.update s.2.used p ∅ q) := by
    intro q
    by_cases here : q = p
    · subst here
      rw [Function.update_self, Function.update_self]
      exact Finset.empty_subset _
    · rw [Function.update_of_ne here, Function.update_of_ne here]
      exact h.owns q
  refine ⟨counted, h.counts.of_same rfl rfl, h.commits, fun _ _ => running, owns, ?_⟩
  have card := h.counts.card
  have all := claims_le owns
  have counted : s.1.outstanding + 1 = insiders (Function.update s.1.thread p .inOp) := counted
  rw [← counted] at all
  calc s.2.blocks.card + claims (Function.update s.1.thread p .inOp) s.2.blocks
        (Function.update s.2.used p ∅)
      ≤ s.2.blocks.card + (s.1.outstanding + 1) * MAXOPBLOCKS := Nat.add_le_add_left all _
    _ = s.1.lh.length + (s.1.outstanding + 1) * MAXOPBLOCKS := by rw [card]
    _ ≤ LOGSIZE := room

theorem Reserved.logTest {s : Kernel P × Group P} (h : Reserved s) {p : P} {b : Word}
    {data : Block} {next : Kernel P} (modest : Modest s (.logTest p b data))
    (taken : s.1.logTest p b data = some next) :
    Reserved (next, record s.1 next s.2 (.logTest p b data)) ∨
      next.panic = true ∧ next.lh = s.1.lh := by
  have counted := h.counted.logTest taken
  obtain ⟨inOp, ⟨_, rfl⟩ | ⟨_, rfl⟩⟩ := logTest_some taken
  · exact Or.inr ⟨rfl, rfl⟩
  · left
    have running := h.quiet p (by rw [inOp]; simp)
    have mine := h.owns p
    rw [inOp] at mine
    have few : (insert b (s.2.used p)).card ≤ MAXOPBLOCKS := modest
    refine ⟨counted, h.counts.of_same rfl rfl, h.commits, fun _ _ => running, ?_, ?_⟩
    · intro q
      by_cases here : q = p
      · subst here
        simp only [record, Kernel.setThread, Function.update_self]
        exact ⟨Finset.mem_insert_self _ _, Finset.insert_subset_insert b mine, few⟩
      · simp only [record, Kernel.setThread, Function.update_of_ne here]
        exact h.owns q
    · refine (claims_move p ?_ ?_).trans h.room
      · intro q elsewhere
        simp only [record, Kernel.setThread, Function.update_of_ne elsewhere]
        exact Nat.le_refl _
      · have claim := Thread.claim_test mine few data
        simp only [record, Kernel.setThread, Function.update_self, inOp]
        exact Nat.add_le_add_left claim _

theorem Reserved.logAppend {s : Kernel P × Group P} (h : Reserved s) {p : P} {next : Kernel P}
    (taken : s.1.logAppend p = some next) :
    Reserved (next, record s.1 next s.2 (.logAppend p)) := by
  have counted := h.counted.logAppend taken
  obtain ⟨b, data, logging, rfl⟩ := logAppend_some taken
  obtain ⟨nodup, same⟩ := Counts.append h.counts.nodup h.counts.blocks b
  have running := h.quiet p (by rw [logging]; simp)
  have mine := h.owns p
  rw [logging] at mine
  simp only [record, logging]
  refine ⟨counted, ⟨nodup, same⟩, h.commits, fun _ _ => running, ?_, ?_⟩
  · intro q
    by_cases here : q = p
    · subst here
      simp only [Kernel.setThread, Function.update_self]
      exact mine.2.1
    · simp only [Kernel.setThread, Function.update_of_ne here]
      exact (h.owns q).insert
  · refine (claims_move p ?_ ?_).trans h.room
    · intro q elsewhere
      simp only [Kernel.setThread, Function.update_of_ne elsewhere]
      exact Thread.claim_insert b _ _ _
    · simp only [Kernel.setThread, Function.update_self, logging]
      exact Thread.claim_append b data _ _

theorem Reserved.end_op {s : Kernel P × Group P} (h : Reserved s) {p : P} {next : Kernel P}
    (taken : s.1.end_op p = some next) : Reserved (next, s.2) := by
  have counted := h.counted.end_op taken
  have owns : ∀ q, (Function.update s.1.thread p .out q).Owns s.2.blocks (s.2.used q) := by
    intro q
    by_cases here : q = p
    · subst here
      rw [Function.update_self]
      trivial
    · rw [Function.update_of_ne here]
      exact h.owns q
  have room : s.2.blocks.card + claims (Function.update s.1.thread p .out) s.2.blocks s.2.used ≤
      LOGSIZE := by
    refine (claims_move p ?_ ?_).trans h.room
    · intro q elsewhere
      rw [Function.update_of_ne elsewhere]
    · rw [Function.update_self]
      exact Nat.add_le_add_left (Nat.zero_le _) _
  unfold Kernel.end_op at taken
  split at taken
  · rename_i inOp
    have running := h.quiet p (by rw [inOp]; simp)
    dsimp only at taken
    cases taken
    split
    · rename_i last
      rw [if_pos last] at counted
      refine ⟨counted, h.counts.of_same rfl rfl, trivial, ?_, owns, room⟩
      intro q inside
      exact absurd (counted.out last.1 q) inside
    · rename_i others
      rw [if_neg others] at counted
      exact ⟨counted, h.counts.of_same rfl rfl, h.commits, fun _ _ => running, owns, room⟩
  · cases taken

theorem Reserved.step {s t : Kernel P × Group P} (h : Reserved s) {e : Event P}
    (modest : Modest s e) (taken : live s e = some t) :
    Reserved t ∨ t.1.panic = true ∧ t.1.lh = s.1.lh := by
  obtain ⟨alive, next, moved, rfl⟩ := live_some taken
  cases e with
  | bread b =>
      cases moved
      left
      unfold Kernel.bread
      split
      · exact h
      · exact h.buffers rfl rfl rfl rfl
  | recycle b => exact Or.inl (h.recycle moved)
  | begin_op p => exact Or.inl (h.begin_op moved)
  | logTest p b data => exact h.logTest modest moved
  | logAppend p => exact Or.inl (h.logAppend moved)
  | end_op p => exact Or.inl (h.end_op moved)
  | advance => exact Or.inl (h.advance moved)
  | crash => exact absurd rfl alive

omit [DecidableEq P] in
/-- The reservation of begin_op() keeps the header within LOGSIZE. -/
theorem Reserved.within {s : Kernel P × Group P} (h : Reserved s) : s.1.lh.length ≤ LOGSIZE := by
  have card := h.counts.card
  have room := h.room
  omega

omit [Fintype P] in
/-- Nothing happens after a panic. -/
theorem live_panic {s : Kernel P × Group P} (panic : s.1.panic = true) (e : Event P) :
    live s e = none := by
  cases taken : live s e with
  | none => rfl
  | some t =>
      obtain ⟨alive, _⟩ := live_some taken
      cases e with
      | crash => exact absurd rfl alive
      | _ => simp [live, tracked, Log.step, panic] at taken

theorem within_logsize {s final : Kernel P × Group P} {es : List (Event P)} (start : Reserved s)
    (modest : Runs.Guarded live Modest s es) (ran : Runs.run live s es = some final) :
    final.1.lh.length ≤ LOGSIZE := by
  have kept : ∀ (s : Kernel P × Group P) e t,
      (Reserved s ∨ s.1.panic = true ∧ s.1.lh.length ≤ LOGSIZE) → Modest s e →
      live s e = some t → Reserved t ∨ t.1.panic = true ∧ t.1.lh.length ≤ LOGSIZE := by
    intro s e t inv modest taken
    obtain reserved | ⟨panic, _⟩ := inv
    · obtain next | ⟨panic, same⟩ := reserved.step modest taken
      · exact Or.inl next
      · exact Or.inr ⟨panic, same ▸ reserved.within⟩
    · rw [live_panic panic] at taken
      cases taken
  obtain reserved | ⟨_, within⟩ :=
    Runs.run_invariant live kept es s final (Or.inl start) modest ran
  · exact reserved.within
  · exact within

end Reserved

/-! ## Every run -/

/-- In every run of any processes on an empty log: log_write() never gives up and
the header never outgrows the data blocks of the log exactly when each log_write()
finds fewer blocks logged than there are data blocks and still has one when it
appends.  If no operation logs more than MAXOPBLOCKS blocks, the reservation keeps
the header within LOGSIZE. -/
theorem log_space_of_roomy [Fintype P] (disk : Word → Block) (es : List (Event P))
    (final : Kernel P × Group P)
    (ran : Runs.run live (boot disk, Group.start disk) es = some final) :
    (Runs.Always live Enough (boot disk, Group.start disk) es ↔
      Runs.Guarded live Roomy (boot disk, Group.start disk) es) ∧
    (Runs.Guarded live Modest (boot disk, Group.start disk) es →
      final.1.lh.length ≤ LOGSIZE) := by
  constructor
  · have holds : ∀ s : Kernel P × Group P, Spaced s → Enough s := fun s inv => inv.enough
    have kept : ∀ s (e : Event P) t, Spaced s → Roomy s e → live s e = some t → Spaced t :=
      fun s e t inv room taken => inv.step room taken
    have broken : ∀ s (e : Event P) t, Spaced s → live s e = some t → Enough t → Roomy s e :=
      fun s e t inv taken enough => inv.roomy taken enough
    exact Runs.always_iff_guarded live holds kept broken es _ final (Spaced.start disk) ran
  · exact fun modest => within_logsize (Reserved.start disk) modest ran

-- Numerals for the processes of the runs below.
local instance processNeZero : @NeZero Nat Zero.ofOfNat0 3 := ⟨Nat.succ_ne_zero 2⟩

/-- Three operations that use their reservations, up to the test for the last block. -/
def fullReservation : List (Event (Fin 3)) :=
  [.begin_op 0, .begin_op 1, .begin_op 2] ++ writes 0 100 10 ++ writes 1 110 10 ++
    writes 2 120 9 ++ [.logTest 2 129 (fun _ => 1)]

theorem fullReservation_completes :
    (Runs.run live (boot zeros, Group.start zeros) fullReservation).isSome = true := by
  decide +kernel

theorem full_reservation_panics :
    ¬ ∀ (es : List (Event (Fin 3))) (final : Kernel (Fin 3) × Group (Fin 3)),
      Runs.Guarded live Modest (boot zeros, Group.start zeros) es →
      Runs.run live (boot zeros, Group.start zeros) es = some final →
      final.1.panic = false ∧ final.1.lh.length ≤ nlog - 1 := by
  intro claimed
  have enough := claimed fullReservation _ (by decide +kernel)
    (Option.some_get fullReservation_completes).symm
  revert enough
  decide +kernel

/-- Two operations that leave most of their reservations, and their commit. -/
def smallRun : List (Event (Fin 3)) :=
  [.begin_op 0, .begin_op 1] ++ writes 0 100 2 ++ writes 1 101 2 ++ [.end_op 0, .end_op 1] ++
    List.replicate 8 .advance

theorem smallRun_completes :
    (Runs.run live (boot zeros, Group.start zeros) smallRun).isSome = true := by
  decide +kernel

theorem log_space_of_roomy_smallRun :
    Runs.Always live Enough (boot zeros, Group.start zeros) smallRun ∧
      ((Runs.run live (boot zeros, Group.start zeros) smallRun).get
        smallRun_completes).1.lh.length ≤ LOGSIZE := by
  have space := log_space_of_roomy zeros smallRun _ (Option.some_get smallRun_completes).symm
  exact ⟨space.1.mpr (by decide +kernel), space.2 (by decide +kernel)⟩

end Xv6.Common.Log
