import Xv6.Public2.FileRefs

/-!
# The calls on open files keep the counts

Each call from one state between two calls to the next, with every way in which it
fails; a call that returns -1 has changed no table.
-/

set_option autoImplicit false

namespace Xv6.Public2.OpenFiles

open Xv6.Lib
open Xv6.Lib.Outcome
open Xv6.Lib.References
open Xv6.Lib.Words
open Xv6.Common (Descriptors File FileSlot FileTable FileType InodeSlot NOFILE fdalloc)
open Xv6.Public2.ProcTable (NPROC ProcState Slot)

variable {extra : FileSlot → Int} {fresh fresh' : FileSlot → Prop} {s : State}

/-- A process that is not there, or has gone through exit(). -/
def vacant (state : ProcState) : Bool :=
  match state with
  | .UNUSED | .EMBRYO | .ZOMBIE => true
  | .SLEEPING | .RUNNABLE | .RUNNING | .CUSTOM_WAIT => false

/-- What holds between two calls. -/
structure Sound (s : State) : Prop where
  counted : Counted s
  idle : ∀ p, vacant (s.proc p).state = true → ∀ fd, (s.proc p).ofile fd = none

/-- The tables of descriptors and all counts are the same. -/
def Unchanged (s t : State) : Prop :=
  (∀ p, (t.proc p).ofile = (s.proc p).ofile) ∧ (∀ f, (t.file f).ref = (s.file f).ref) ∧
    t.iref = s.iref

/-- What a call leaves. -/
def Kept (s : State) (r : Int × State) : Prop :=
  Sound r.2 ∧ (r.1 = -1 → Unchanged s r.2)

theorem Inv.of_fresh (inv : Inv extra fresh s) (same : ∀ f, fresh' f ↔ fresh f) :
    Inv extra fresh' s := by
  have equal : fresh' = fresh := funext fun f => propext (same f)
  rw [equal]
  exact inv

/-- An entry that was the only fresh one. -/
theorem once_fresh (f g : FileSlot) : False ↔ g ≠ f ∧ (g = f ∨ False) := by
  simp

theorem Inv.iref (inv : Inv extra fresh s) (count : InodeSlot → Int) :
    Inv extra fresh { s with iref := count } :=
  ⟨inv.counted, inv.watched, inv.inode, inv.free, inv.empty, inv.typed⟩

theorem Inv.live (inv : Inv extra fresh s) (f : FileSlot) (kept : 0 ≤ extra f)
    (used : ∃ v, held s v = some f) : 0 < (s.file f).ref := by
  obtain ⟨v, points⟩ := used
  have counted := inv.counted f
  have positive : 0 < descriptors s f := refs_pos points
  omega

theorem ref_of_counted {t : State} (before : Counted s) (after : Counted t)
    (same : ∀ p, (t.proc p).ofile = (s.proc p).ofile) (f : FileSlot) :
    (t.file f).ref = (s.file f).ref := by
  have points : held t = held s := by
    funext v
    rw [held, held, same]
  rw [before.counted f, after.counted f, descriptors, descriptors, points]

/-- A call that fails without a trace in the descriptors. -/
theorem kept_failed {t : State} (sound : Sound s) (counted : Counted t) (proc : t.proc = s.proc)
    (iref : t.iref = s.iref) : Kept s (-1, t) := by
  have ofile : ∀ p, (t.proc p).ofile = (s.proc p).ofile := fun p => by rw [proc]
  refine ⟨⟨counted, ?_⟩, fun _ => ⟨ofile, ref_of_counted sound.counted counted ofile, iref⟩⟩
  intro p gone fd
  rw [proc] at gone ⊢
  exact sound.idle p gone fd

/-- A call that returns something else, after a change to the descriptors of `p`. -/
theorem kept_ofile {t : State} {n : Int} {p : Slot} (sound : Sound s) (counted : Counted t)
    (alive : vacant (s.proc p).state = false) (state : (t.proc p).state = (s.proc p).state)
    (others : ∀ q, q ≠ p → t.proc q = s.proc q) (done : n ≠ -1) : Kept s (n, t) := by
  refine ⟨⟨counted, ?_⟩, fun absurd => (done absurd).elim⟩
  intro q gone fd
  by_cases here : q = p
  · subst here
    rw [state, alive] at gone
    cases gone
  · rw [others q here] at gone ⊢
    exact sound.idle q gone fd

theorem alive_of_runs {state : ProcState} (turn : runs state = true) : vacant state = false := by
  cases state <;> simp_all [runs, vacant]

/-- fileclose() of a reference that the call holds. -/
theorem release_ends {f : FileSlot} (inv : Inv (plus extra f) fresh s) (kept : 0 ≤ extra f)
    (single : fresh f → (s.file f).ref = 1) :
    Ends (fileclose s f) (fun _ => False) fun t =>
      t.proc = s.proc ∧ ((s.file f).type ≠ .FD_INODE → t.iref = s.iref) ∧
        (∀ g, g ≠ f → t.file g = s.file g) ∧ Inv extra (fun g => g ≠ f ∧ fresh g) t := by
  have counted := inv.counted f
  rw [plus_self] at counted
  refine ends_mono (fileclose_ends inv (by omega) single) (fun _ allowed => allowed) ?_
  rintro t ⟨proc, iref, others, closed⟩
  rw [minus_plus] at closed
  exact ⟨proc, iref, others, closed⟩

/-! ## fdalloc() -/

theorem fdalloc_some {ofile next : Descriptors} {f : FileSlot} {fd : Fin NOFILE}
    (found : fdalloc ofile f = some (fd, next)) :
    ofile fd = none ∧ next = Function.update ofile fd (some f) := by
  obtain ⟨d, first, same⟩ := Option.map_eq_some_iff.mp found
  cases same
  exact ⟨by simpa using List.find?_some first, rfl⟩

theorem setOfile_others (p : Slot) (ofile : Descriptors) {q : Slot} (other : q ≠ p) :
    (s.setOfile p ofile).proc q = s.proc q := Function.update_of_ne other ..

@[simp] theorem setOfile_self (p : Slot) (ofile : Descriptors) :
    (s.setOfile p ofile).proc p = { s.proc p with ofile := ofile } := Function.update_self ..

@[simp] theorem setOfile_ofile (p : Slot) (ofile : Descriptors) :
    ((s.setOfile p ofile).proc p).ofile = ofile := by
  rw [setOfile_self]

@[simp] theorem setOfile_file (p : Slot) (ofile : Descriptors) :
    (s.setOfile p ofile).file = s.file := rfl

@[simp] theorem setOfile_iref (p : Slot) (ofile : Descriptors) :
    (s.setOfile p ofile).iref = s.iref := rfl

/-- A descriptor that is taken and given back. -/
theorem setOfile_back (p : Slot) (fd : Fin NOFILE) (x : Option FileSlot)
    (unused : (s.proc p).ofile fd = none) :
    ((s.setOfile p (Function.update (s.proc p).ofile fd x)).setOfile p
      (Function.update (Function.update (s.proc p).ofile fd x) fd none)).proc = s.proc := by
  funext q
  by_cases here : q = p
  · subst here
    simp [← unused]
  · simp [setOfile_others, here]

/-! ## dup and close -/

theorem argfd_some {p : Slot} {n : Int} {fd : Fin NOFILE} {f : FileSlot}
    (found : argfd s p n = some (fd, f)) : (s.proc p).ofile fd = some f := by
  unfold argfd at found
  split at found
  · obtain ⟨g, points, same⟩ := Option.map_eq_some_iff.mp found
    cases same
    exact points
  · cases found

theorem sys_dup_kept {p : Slot} (sound : Sound s) (turn : runs (s.proc p).state = true) (n : Int) :
    Ends (sys_dup s p n) (fun _ => False) (Kept s) := by
  unfold sys_dup
  cases found : argfd s p n with
  | none => exact kept_failed sound sound.counted rfl rfl
  | some entry =>
      obtain ⟨from_, f⟩ := entry
      have points := argfd_some found
      simp only
      cases stored : fdalloc (s.proc p).ofile f with
      | none => exact kept_failed sound sound.counted rfl rfl
      | some slot =>
          obtain ⟨fd, ofile⟩ := slot
          obtain ⟨unused, same⟩ := fdalloc_some stored
          subst same
          have inv := store_inv f sound.counted unused
          have live : 0 < (s.file f).ref :=
            sound.counted.live f (le_refl 0) ⟨(p, from_), points⟩
          apply ends_bind
          refine ends_mono (filedup_ends inv live) (fun _ allowed => allowed) ?_
          rintro t ⟨proc, -, counted⟩
          rw [plus_minus] at counted
          apply ends_pure
          refine kept_ofile (p := p) sound counted (alive_of_runs turn) ?_ ?_ ?_
          · rw [proc, setOfile_self]
          · intro q other
            rw [proc, setOfile_others _ _ other]
          · omega

theorem sys_close_kept {p : Slot} (sound : Sound s) (turn : runs (s.proc p).state = true)
    (n : Int) : Ends (sys_close s p n) (fun _ => False) (Kept s) := by
  unfold sys_close
  cases found : argfd s p n with
  | none => exact kept_failed sound sound.counted rfl rfl
  | some entry =>
      obtain ⟨fd, f⟩ := entry
      have inv := clear_inv sound.counted (argfd_some found)
      apply ends_bind
      refine ends_mono (release_ends inv (le_refl 0) (fun isFresh => isFresh.elim))
        (fun _ allowed => allowed) ?_
      rintro t ⟨proc, -, -, counted⟩
      apply ends_pure
      refine kept_ofile (p := p) sound (counted.of_fresh (by simp)) (alive_of_runs turn) ?_ ?_ ?_
      · rw [proc, setOfile_self]
      · intro q other
        rw [proc, setOfile_others _ _ other]
      · omega

/-! ## open -/

theorem iput_iget (ip : InodeSlot) (t : State) (same : t.iref = (s.iget ip).iref) :
    (t.iput ip).iref = s.iref := by
  simp [State.iput, State.iget, same]

theorem sys_open_kept {p : Slot} (sound : Sound s) (turn : runs (s.proc p).state = true)
    (found : Option InodeSlot) (refused : Bool) (omode : Word) :
    Ends (sys_open s p found refused omode) (fun _ => False) (Kept s) := by
  unfold sys_open
  cases found with
  | none => exact kept_failed sound sound.counted rfl rfl
  | some ip =>
      simp only
      split
      · exact kept_failed sound (sound.counted.iref _) rfl (iput_iget ip _ rfl)
      cases allocated : filealloc (s.iget ip) with
      | none => exact kept_failed sound (sound.counted.iref _) rfl (iput_iget ip _ rfl)
      | some claimed =>
          obtain ⟨f, t⟩ := claimed
          obtain ⟨-, one, proc, iref, -, inv⟩ := filealloc_inv (sound.counted.iref _) allocated
          simp only
          cases stored : fdalloc (t.proc p).ofile f with
          | none =>
              apply ends_bind
              refine ends_mono (release_ends inv (le_refl 0) fun _ => one)
                (fun _ allowed => allowed) ?_
              rintro u ⟨procU, irefU, -, counted⟩
              apply ends_pure
              refine kept_failed sound ((counted.of_fresh (once_fresh f)).iref _)
                (procU.trans proc) ?_
              apply iput_iget ip u
              rw [irefU (by simp [inv.empty f (Or.inl rfl)]), iref]
              rfl
          | some slot =>
              obtain ⟨fd, ofile⟩ := slot
              obtain ⟨unused, same⟩ := fdalloc_some stored
              subst same
              have filled := setInode_inv ip omode inv (Or.inl rfl) one
              have counted := store_inv (p := p) f filled unused
              rw [minus_plus] at counted
              apply ends_pure
              refine kept_ofile (p := p) sound (counted.of_fresh (once_fresh f))
                (alive_of_runs turn) ?_ ?_ ?_
              · have state : (t.proc p).state = (s.proc p).state :=
                  congrArg Proc.state (congrFun proc p)
                change ((t.setOfile p _).proc p).state = (s.proc p).state
                rw [setOfile_self]
                exact state
              · intro q other
                exact (setOfile_others (s := t) p _ other).trans (congrFun proc q)
              · omega

/-! ## pipe -/

/-- What pipealloc() returns from `s`. -/
def Piped (s : State) (r : Option (FileSlot × FileSlot) × State) : Prop :=
  r.2.proc = s.proc ∧ r.2.iref = s.iref ∧
    match r.1 with
    | none => Counted r.2
    | some (f0, f1) =>
        f0 ≠ f1 ∧ Inv (plus (plus 0 f1) f0) (fun _ => False) r.2 ∧
          (r.2.file f0).type = .FD_PIPE ∧ (r.2.file f1).type = .FD_PIPE

theorem setPipe_other {f g : FileSlot} (page : Word) (writable : Bool) (other : g ≠ f) :
    (setPipe s f page writable).file g = s.file g := Function.update_of_ne other ..

theorem setPipe_type (f : FileSlot) (page : Word) (writable : Bool) :
    ((setPipe s f page writable).file f).type = .FD_PIPE := by
  simp [setPipe, State.note, FileTable.set]

theorem pipealloc_piped (counted : Counted s) (page : Option Word) :
    Ends (pipealloc s page) (fun _ => False) (Piped s) := by
  unfold pipealloc
  cases first : filealloc s with
  | none => exact ⟨rfl, rfl, counted⟩
  | some claimed =>
      obtain ⟨f0, t⟩ := claimed
      obtain ⟨-, one, proc, iref, -, inv⟩ := filealloc_inv counted first
      simp only
      cases second : filealloc t with
      | none =>
          apply ends_bind
          apply ends_bind
          refine ends_mono (release_ends inv (le_refl 0) fun _ => one)
            (fun _ allowed => allowed) ?_
          rintro u ⟨procU, irefU, -, closed⟩
          exact ⟨procU.trans proc, (irefU (by simp [inv.empty f0 (Or.inl rfl)])).trans iref,
            closed.of_fresh (once_fresh f0)⟩
      | some claimed =>
          obtain ⟨f1, u⟩ := claimed
          obtain ⟨zero, oneU, procU, irefU, othersU, invU⟩ := filealloc_inv inv second
          -- The second entry was free when the first had its reference.
          have apart : f0 ≠ f1 := by
            intro same
            subst same
            omega
          have one0 : (u.file f0).ref = 1 := by rw [othersU f0 apart, one]
          cases page with
          | none =>
              have swapped : plus (plus 0 f0) f1 = plus (plus 0 f1) f0 := by
                simp only [plus]
                abel
              rw [swapped] at invU
              apply ends_bind
              apply ends_bind
              refine ends_mono (release_ends invU ?_ fun _ => one0) (fun _ allowed => allowed) ?_
              · simp [plus_other apart]
              rintro v ⟨procV, irefV, othersV, closed⟩
              have oneV : (v.file f1).ref = 1 := by rw [othersV f1 apart.symm, oneU]
              refine ends_mono (release_ends closed (le_refl 0) fun _ => oneV)
                (fun _ allowed => allowed) ?_
              rintro w ⟨procW, irefW, -, closed'⟩
              refine ⟨procW.trans (procV.trans (procU.trans proc)), ?_, closed'.of_fresh ?_⟩
              · rw [irefW (by simp [othersV f1 apart.symm, invU.empty f1 (Or.inl rfl)]),
                  irefV (by simp [invU.empty f0 (Or.inr (Or.inl rfl))]), irefU, iref]
              · intro g
                simp
                tauto
          | some page =>
              have filled := setPipe_inv page false invU (Or.inr (Or.inl rfl)) one0
              have one1 : ((setPipe u f0 page false).file f1).ref = 1 := by
                rw [setPipe_other _ _ apart.symm, oneU]
              have both := setPipe_inv page true filled ⟨apart.symm, Or.inl rfl⟩ one1
              have swapped : plus (plus 0 f0) f1 = plus (plus 0 f1) f0 := by
                simp only [plus]
                abel
              rw [swapped] at both
              refine ⟨procU.trans proc, irefU.trans iref, apart, both.of_fresh ?_, ?_, ?_⟩
              · intro g
                simp
                tauto
              · rw [setPipe_other _ _ apart, setPipe_type]
              · exact setPipe_type ..

/-- Both ends are given back: no descriptor is left for one of them. -/
theorem close_both {t : State} {f0 f1 : FileSlot} (sound : Sound s) (proc : t.proc = s.proc)
    (iref : t.iref = s.iref) (apart : f0 ≠ f1) (inv : Inv (plus (plus 0 f1) f0) (fun _ => False) t)
    (pipe0 : (t.file f0).type = .FD_PIPE) (pipe1 : (t.file f1).type = .FD_PIPE) :
    Ends (do let u ← fileclose t f0; let v ← fileclose u f1; pure (-1, v))
      (fun _ => False) (Kept s) := by
  apply ends_bind
  refine ends_mono (release_ends inv ?_ (fun isFresh => isFresh.elim))
    (fun _ allowed => allowed) ?_
  · simp [plus_other apart]
  rintro u ⟨procU, irefU, othersU, closed⟩
  apply ends_bind
  refine ends_mono (release_ends closed (le_refl 0) (fun isFresh => isFresh.2.elim))
    (fun _ allowed => allowed) ?_
  rintro v ⟨procV, irefV, -, closed'⟩
  apply ends_pure
  refine kept_failed sound (closed'.of_fresh (by simp)) (procV.trans (procU.trans proc)) ?_
  rw [irefV (by simp [othersU f1 apart.symm, pipe1]), irefU (by simp [pipe0]), iref]

theorem sys_pipe_kept {p : Slot} (sound : Sound s) (turn : runs (s.proc p).state = true)
    (pointer : Bool) (page : Option Word) :
    Ends (sys_pipe s p pointer page) (fun _ => False) (Kept s) := by
  unfold sys_pipe
  split
  · exact kept_failed sound sound.counted rfl rfl
  apply ends_bind
  refine ends_mono (pipealloc_piped sound.counted page) (fun _ allowed => allowed) ?_
  rintro ⟨files, t⟩ ⟨proc, iref, piped⟩
  cases files with
  | none => exact kept_failed sound piped proc iref
  | some ends =>
      obtain ⟨rf, wf⟩ := ends
      obtain ⟨apart, inv, pipe0, pipe1⟩ := piped
      simp only at proc iref inv pipe0 pipe1 ⊢
      cases first : fdalloc (t.proc p).ofile rf with
      | none => exact close_both sound proc iref apart inv pipe0 pipe1
      | some slot =>
          obtain ⟨fd0, ofile⟩ := slot
          obtain ⟨unused, same⟩ := fdalloc_some first
          subst same
          have stored := store_inv (p := p) rf inv unused
          rw [minus_plus] at stored
          simp only [setOfile_self]
          cases second : fdalloc (Function.update (t.proc p).ofile fd0 (some rf)) wf with
          | none =>
              have points : ((t.setOfile p
                  (Function.update (t.proc p).ofile fd0 (some rf))).proc p).ofile fd0 =
                  some rf := by simp
              have cleared := clear_inv stored points
              simp only [setOfile_self] at cleared
              refine close_both sound ?_ iref apart cleared pipe0 pipe1
              rw [setOfile_back p fd0 _ unused, proc]
          | some slot =>
              obtain ⟨fd1, ofile⟩ := slot
              obtain ⟨unused1, same⟩ := fdalloc_some second
              subst same
              have both := store_inv (p := p) wf stored (by simpa using unused1)
              rw [minus_plus] at both
              simp only [setOfile_self] at both
              apply ends_pure
              refine kept_ofile (p := p) sound both (alive_of_runs turn) ?_ ?_ (by omega)
              · simp [proc]
              · intro q other
                rw [setOfile_others _ _ other, setOfile_others _ _ other, proc]

/-! ## fork and custom_fork -/

/-- Before a round of the loop of fork(): the descriptors that are still to come are free
in the child, and nothing else has moved. -/
structure Forking (s : State) (p np : Slot) (rest : List (Fin NOFILE)) (t : State) : Prop where
  counted : Counted t
  others : ∀ q, q ≠ np → t.proc q = s.proc q
  free : ∀ fd, (t.proc np).ofile fd = none ∨ fd ∉ rest
  copied : ∀ fd, fd ∈ rest ∨ (t.proc np).ofile fd = (s.proc p).ofile fd

theorem dupFile_ends {p np : Slot} {fd : Fin NOFILE} {rest : List (Fin NOFILE)} {t : State}
    (apart : p ≠ np) (once : (fd :: rest).Nodup) (forking : Forking s p np (fd :: rest) t) :
    Ends (dupFile p np t fd) (fun _ => False) (Forking s p np rest) := by
  obtain ⟨counted, others, free, copied⟩ := forking
  have parent : t.proc p = s.proc p := others p apart
  have unused : (t.proc np).ofile fd = none := by
    have either := free fd
    simpa using either
  have last : fd ∉ rest := (List.nodup_cons.mp once).1
  unfold dupFile
  cases points : (t.proc p).ofile fd with
  | none =>
      refine ⟨counted, others, ?_, ?_⟩
      · intro d
        exact (free d).imp id fun absent later => absent (List.mem_cons_of_mem _ later)
      · intro d
        by_cases here : d = fd
        · subst here
          exact .inr (by rw [unused, ← parent, points])
        · simpa [here] using copied d
  | some f =>
      apply ends_bind
      refine ends_mono (filedup_ends counted (counted.live f (le_refl 0) ⟨(p, fd), points⟩))
        (fun _ allowed => allowed) ?_
      rintro u ⟨procU, -, inv⟩
      apply ends_pure
      have stored := store_inv f inv (by rw [procU]; exact unused)
      rw [minus_plus] at stored
      refine ⟨stored, ?_, ?_, ?_⟩
      · intro q other
        rw [setOfile_others _ _ other, procU, others q other]
      · intro d
        rw [setOfile_ofile, procU]
        by_cases here : d = fd
        · subst here
          exact .inr last
        · rw [Function.update_of_ne here]
          exact (free d).imp id fun absent later => absent (List.mem_cons_of_mem _ later)
      · intro d
        rw [setOfile_ofile, procU]
        by_cases here : d = fd
        · subst here
          rw [Function.update_self, ← parent, points]
          exact .inr rfl
        · rw [Function.update_of_ne here]
          simpa [here] using copied d

theorem held_congr {t : State} (same : ∀ p, (t.proc p).ofile = (s.proc p).ofile) :
    held t = held s := by
  funext v
  rw [held, held, same]

/-- The rest of a process is not counted. -/
theorem Inv.setProc (inv : Inv extra fresh s) (p : Slot) (proc : Proc)
    (same : proc.ofile = (s.proc p).ofile) : Inv extra fresh (s.setProc p proc) where
  counted := by
    intro f
    have points : held (s.setProc p proc) = held s := by
      apply held_congr
      intro q
      by_cases here : q = p
      · subst here
        simp [State.setProc, same]
      · simp [State.setProc, here]
    rw [descriptors, points]
    exact inv.counted f
  watched := inv.watched
  inode := inv.inode
  free := inv.free
  empty := inv.empty
  typed := inv.typed

@[simp] theorem setProc_self (p : Slot) (proc : Proc) : (s.setProc p proc).proc p = proc :=
  Function.update_self ..

theorem setProc_others {p q : Slot} (proc : Proc) (other : q ≠ p) :
    (s.setProc p proc).proc q = s.proc q := Function.update_of_ne other ..

/-- The state of one process after its descriptors. -/
theorem Sound.setProc {u : State} {p : Slot} (sound : Sound s) (counted : Counted u)
    (others : ∀ q, q ≠ p → u.proc q = s.proc q) (proc : Proc)
    (same : proc.ofile = (u.proc p).ofile)
    (idle : vacant proc.state = true → ∀ fd, proc.ofile fd = none) : Sound (u.setProc p proc) := by
  refine ⟨counted.setProc p proc same, ?_⟩
  intro q gone fd
  by_cases here : q = p
  · subst here
    rw [setProc_self] at gone ⊢
    exact idle gone fd
  · rw [setProc_others _ here, others q here] at gone ⊢
    exact sound.idle q gone fd

/-- The child once it has its descriptors, with its directory and its state. -/
theorem forked_kept {p np : Slot} {u : State} {state : ProcState} (sound : Sound s)
    (begins : vacant state = false) (counted : Counted u)
    (others : ∀ q, q ≠ np → u.proc q = s.proc q)
    (copied : (u.proc np).ofile = (s.proc p).ofile) (cwd : Option InodeSlot) :
    Kept s (np.val, u.setProc np { u.proc np with cwd := cwd, state := state }) ∧
      ∃ child : Slot, (np.val : Int) = child.val ∧
        ((u.setProc np { u.proc np with cwd := cwd, state := state }).proc child).ofile =
          (s.proc p).ofile := by
  refine ⟨⟨sound.setProc counted others _ rfl ?_, by omega⟩, ⟨np, rfl, ?_⟩⟩
  · intro gone
    rw [begins] at gone
    cases gone
  · rw [setProc_self]
    exact copied

/-- Both forks leave a child with the descriptors of its parent. -/
theorem forkAs_ends {p : Slot} (sound : Sound s) (turn : runs (s.proc p).state = true)
    (state : ProcState) (begins : vacant state = false) (memory : Bool) :
    Ends (forkAs state s p memory) (fun _ => False) fun r => Kept s r ∧
      (r.1 ≠ -1 → ∃ np : Slot, r.1 = np.val ∧ (r.2.proc np).ofile = (s.proc p).ofile) := by
  unfold forkAs
  cases found : findUnused s with
  | none => exact ⟨kept_failed sound sound.counted rfl rfl, fun absurd => (absurd rfl).elim⟩
  | some np =>
      simp only
      split
      · exact ⟨kept_failed sound sound.counted rfl rfl, fun absurd => (absurd rfl).elim⟩
      have free : (s.proc np).state = .UNUSED := by simpa using List.find?_some found
      have apart : p ≠ np := by
        intro same
        rw [same, free] at turn
        cases turn
      have idle := sound.idle np (by rw [free]; rfl)
      apply ends_bind
      have start : (List.finRange NOFILE).Nodup ∧
          Forking s p np (List.finRange NOFILE) s :=
        ⟨List.nodup_finRange _, sound.counted, fun q _ => rfl, fun fd => .inl (idle fd),
          fun fd => .inl (List.mem_finRange fd)⟩
      have round : ∀ fd rest t, (fd :: rest).Nodup ∧ Forking s p np (fd :: rest) t →
          Ends (dupFile p np t fd) (fun _ : Panic => False) fun u =>
            rest.Nodup ∧ Forking s p np rest u := by
        intro fd rest t both
        refine ends_mono (dupFile_ends apart both.1 both.2) (fun _ allowed => allowed) ?_
        exact fun _ next => ⟨(List.nodup_cons.mp both.1).2, next⟩
      have loop :=
        @ends_foldlM _ _ (fun _ => False) _ _ (fun rest t => rest.Nodup ∧ Forking s p np rest t)
          round (List.finRange NOFILE) s start
      refine ends_mono loop (fun _ allowed => allowed) ?_
      rintro t ⟨-, counted, others, -, copied⟩
      apply ends_pure
      have child : (t.proc np).ofile = (s.proc p).ofile := by
        funext fd
        simpa using copied fd
      -- The reference to the directory is not one to a file.
      have done : ∀ u, Counted u → u.proc = t.proc → Kept s (np.val, u.setProc np
          { u.proc np with cwd := (t.proc p).cwd, state := state }) ∧ ∃ q : Slot,
            (np.val : Int) = q.val ∧ ((u.setProc np
              { u.proc np with cwd := (t.proc p).cwd, state := state }).proc q).ofile =
                (s.proc p).ofile := by
        intro u countedU procU
        exact forked_kept sound begins countedU (fun q other => by rw [procU, others q other])
          (by rw [procU, child]) _
      cases cwd : (t.proc p).cwd with
      | none =>
          rw [cwd] at done
          obtain ⟨kept, copies⟩ := done t counted rfl
          exact ⟨kept, fun _ => copies⟩
      | some ip =>
          rw [cwd] at done
          obtain ⟨kept, copies⟩ := done (t.iget ip) (counted.iref _) rfl
          exact ⟨kept, fun _ => copies⟩

theorem fork_kept {p : Slot} (sound : Sound s) (turn : runs (s.proc p).state = true)
    (memory : Bool) : Ends (fork s p memory) (fun _ => False) (Kept s) :=
  ends_mono (forkAs_ends sound turn .RUNNABLE rfl memory) (fun _ allowed => allowed)
    fun _ kept => kept.1

theorem custom_fork_kept {p : Slot} (sound : Sound s) (turn : runs (s.proc p).state = true)
    (start_later memory : Bool) :
    Ends (custom_fork start_later s p memory) (fun _ => False) (Kept s) := by
  refine ends_mono (forkAs_ends sound turn _ ?_ memory) (fun _ allowed => allowed)
    fun _ kept => kept.1
  split <;> rfl

/-! ## exit -/

/-- Before a round of the loop of exit(). -/
structure Exiting (s : State) (p : Slot) (rest : List (Fin NOFILE)) (t : State) : Prop where
  counted : Counted t
  others : ∀ q, q ≠ p → t.proc q = s.proc q
  closed : ∀ fd, fd ∈ rest ∨ (t.proc p).ofile fd = none

theorem closeFile_ends {p : Slot} {fd : Fin NOFILE} {rest : List (Fin NOFILE)} {t : State}
    (exiting : Exiting s p (fd :: rest) t) :
    Ends (closeFile p t fd) (fun _ => False) (Exiting s p rest) := by
  obtain ⟨counted, others, closed⟩ := exiting
  unfold closeFile
  cases points : (t.proc p).ofile fd with
  | none =>
      refine ⟨counted, others, ?_⟩
      intro d
      by_cases here : d = fd
      · subst here
        exact .inr points
      · simpa [here] using closed d
  | some f =>
      apply ends_bind
      refine ends_mono (fileclose_ends counted
        (counted.live f (le_refl 0) ⟨(p, fd), points⟩) (fun isFresh => isFresh.elim))
        (fun _ allowed => allowed) ?_
      rintro u ⟨procU, -, -, inv⟩
      apply ends_pure
      have cleared := clear_inv inv (by rw [procU]; exact points)
      rw [plus_minus] at cleared
      refine ⟨cleared.of_fresh (by simp), ?_, ?_⟩
      · intro q other
        rw [setOfile_others _ _ other, procU, others q other]
      · intro d
        rw [setOfile_ofile, procU]
        by_cases here : d = fd
        · subst here
          exact .inr (Function.update_self ..)
        · rw [Function.update_of_ne here]
          simpa [here] using closed d

/-- The process once it has no descriptor. -/
theorem exited_kept {p : Slot} {u : State} (sound : Sound s) (counted : Counted u)
    (others : ∀ q, q ≠ p → u.proc q = s.proc q) (closed : ∀ fd, (u.proc p).ofile fd = none) :
    Kept s (0, u.setProc p { u.proc p with cwd := none, state := .ZOMBIE }) := by
  exact ⟨sound.setProc counted others _ rfl fun _ => closed, by omega⟩

theorem exit_kept {p : Slot} (sound : Sound s) :
    Ends (exit s p) (fun e => e = .initExiting) (Kept s) := by
  unfold exit
  split
  · exact ends_error rfl
  apply ends_bind
  have start : Exiting s p (List.finRange NOFILE) s :=
    ⟨sound.counted, fun q _ => rfl, fun fd => .inl (List.mem_finRange fd)⟩
  have round : ∀ fd rest t, Exiting s p (fd :: rest) t → Ends (closeFile p t fd) _ _ :=
    fun _ _ _ exiting => closeFile_ends exiting
  have loop := ends_foldlM round (List.finRange NOFILE) s start
  refine ends_mono loop (fun _ absurd => absurd.elim) ?_
  rintro t ⟨counted, others, closed⟩
  apply ends_pure
  have empty : ∀ fd, (t.proc p).ofile fd = none := fun fd => by simpa using closed fd
  cases cwd : (t.proc p).cwd with
  | none => exact exited_kept sound counted others empty
  | some ip => exact exited_kept (u := t.iput ip) sound (counted.iref _) others empty

/-! ## Runs -/

theorem call_kept {p : Slot} (sound : Sound s) (turn : runs (s.proc p).state = true) (c : Call) :
    Ends (c.run s p) (fun e => c = .exit ∧ e = .initExiting) (Kept s) := by
  cases c with
  | sys_open found refused omode =>
      exact ends_mono (sys_open_kept sound turn found refused omode) (fun _ absurd => absurd.elim)
        fun _ kept => kept
  | sys_dup fd =>
      exact ends_mono (sys_dup_kept sound turn fd) (fun _ absurd => absurd.elim) fun _ kept => kept
  | sys_pipe pointer page =>
      exact ends_mono (sys_pipe_kept sound turn pointer page) (fun _ absurd => absurd.elim)
        fun _ kept => kept
  | sys_close fd =>
      exact ends_mono (sys_close_kept sound turn fd) (fun _ absurd => absurd.elim)
        fun _ kept => kept
  | fork memory =>
      exact ends_mono (fork_kept sound turn memory) (fun _ absurd => absurd.elim) fun _ kept => kept
  | custom_fork start_later memory =>
      exact ends_mono (custom_fork_kept sound turn start_later memory)
        (fun _ absurd => absurd.elim) fun _ kept => kept
  | exit =>
      exact ends_mono (exit_kept sound) (fun _ same => ⟨rfl, same⟩) fun _ kept => kept

theorem boot_sound (root : InodeSlot) : Sound (boot root) := by
  have ofile : ∀ p, ((boot root).proc p).ofile = fun _ => none := by
    intro p
    by_cases here : p = initproc
    · subst here
      simp [boot]
    · simp [boot, here]
  have none : held (boot root) = fun _ => none := by
    funext v
    rw [held, ofile]
  refine ⟨⟨?_, ?_, ?_, ?_, ?_, ?_⟩, fun p _ fd => by rw [ofile]⟩
  case refine_1 =>
    intro f
    rw [descriptors, none, refs_none]
    rfl
  all_goals simp [boot, watch, object]

theorem step_sound {a : Action} {t : State} (sound : Sound s) (moved : step s a = some t) :
    Sound t := by
  cases a with
  | call p c =>
      simp only [step] at moved
      split at moved
      case isTrue => cases moved
      case isFalse awake =>
        have turn : runs (s.proc p).state = true := by simpa using awake
        have kept := call_kept sound turn c
        cases ran : c.run s p with
        | error e => simp [ran] at moved
        | ok r =>
            simp only [ran, Option.some.injEq] at moved
            subst moved
            rw [ran] at kept
            exact kept.1
  | reap p =>
      simp only [step] at moved
      split at moved
      case isFalse => cases moved
      case isTrue gone =>
        cases moved
        refine sound.setProc sound.counted (fun q _ => rfl) _ rfl ?_
        exact fun _ => sound.idle p (by rw [gone]; rfl)
  | start =>
      cases moved
      have ofile : ∀ q, (if (s.proc q).state = .CUSTOM_WAIT then
          { s.proc q with state := .RUNNABLE } else s.proc q).ofile = (s.proc q).ofile := by
        intro q
        split <;> rfl
      refine ⟨⟨?_, sound.counted.watched, sound.counted.inode, sound.counted.free,
        sound.counted.empty, sound.counted.typed⟩, ?_⟩
      · intro f
        rw [descriptors, held_congr ofile]
        exact sound.counted.counted f
      · intro q gone fd
        simp only at gone ⊢
        rw [ofile]
        split at gone
        · cases gone
        · exact sound.idle q gone fd

theorem run_sound {root : InodeSlot} {actions : List Action}
    (ran : Runs.run step (boot root) actions = some s) : Sound s :=
  Runs.reachable_invariant step (boot_sound root) (fun _ _ _ holds moved => step_sound holds moved)
    ⟨actions, ran⟩

/-- After any sequence of calls the counts are the numbers of descriptors, the history of every
entry is in order, no panic but that of the first process in exit() is ahead, and a call that
returns -1 changes nothing. -/
theorem file_references_counted (root : InodeSlot) (actions : List Action) (s : State)
    (ran : Runs.run step (boot root) actions = some s) :
    (∀ f, (s.file f).ref = descriptors s f) ∧
    (∀ f, (s.file f).ref = 0 ↔ ∀ p fd, (s.proc p).ofile fd ≠ some f) ∧
    (∀ f, ∃ obj, watch f s.history = some ⟨(s.file f).ref, obj, none⟩ ∧
      (obj = none ↔ (s.file f).ref = 0)) ∧
    (∀ p (c : Call), runs (s.proc p).state = true →
      Ends (c.run s p) (fun e => c = .exit ∧ e = .initExiting)
        fun r => r.1 = -1 → Unchanged s r.2) := by
  have sound := run_sound ran
  have counted : ∀ f, (s.file f).ref = descriptors s f := by
    intro f
    exact (sound.counted.counted f).trans (Int.add_zero _)
  refine ⟨counted, ?free, ?history, ?calls⟩
  case free =>
    intro f
    rw [counted f]
    constructor
    · intro zero p fd points
      have positive : 0 < descriptors s f := refs_pos (v := (p, fd)) points
      omega
    · intro unused
      by_contra nonzero
      have nonzero : refs (held s) f ≠ 0 := by
        rw [descriptors] at nonzero
        omega
      obtain ⟨⟨p, fd⟩, points⟩ := exists_of_refs nonzero
      exact unused p fd points
  case history =>
    intro f
    refine ⟨_, sound.counted.watched f, ?_⟩
    rw [object_none (sound.counted.inode f)]
    constructor
    · intro none
      by_contra nonzero
      exact sound.counted.typed f nonzero id none
    · exact sound.counted.free f
  case calls =>
    intro p c turn
    exact ends_mono (call_kept sound turn c) (fun _ allowed => allowed) fun _ kept => kept.2

/-- The first process makes a pipe and forks, and the child closes one end. -/
def pipeRun : List Action :=
  [.call 0 (.sys_pipe true (some 0x1000)), .call 0 (.fork true), .call 1 (.sys_close 0)]

theorem pipeRun_counted : ∃ s, Runs.run step (boot 0) pipeRun = some s ∧
    ∀ f, (s.file f).ref = descriptors s f := by
  have some : (Runs.run step (boot 0) pipeRun).isSome = true := by decide +kernel
  obtain ⟨s, ran⟩ := Option.isSome_iff_exists.mp some
  exact ⟨s, ran, (file_references_counted 0 pipeRun s ran).1⟩

end Xv6.Public2.OpenFiles
