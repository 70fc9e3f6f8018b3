import Mathlib.Algebra.Group.Pi.Basic
import Mathlib.Data.Fintype.Prod
import Mathlib.Tactic.Abel
import Xv6.Lib.Outcome
import Xv6.Lib.References
import Xv6.Lib.Runs
import Xv6.Public2.OpenFiles

/-!
# References to open files

Each count in `ftable` against the descriptors that point to the entry.  Inside a
call the two differ by what the call holds itself, or has stored without counting it
yet: that is `extra`; `fresh` are the entries that have a reference and nothing else.
-/

set_option autoImplicit false

namespace Xv6.Public2.OpenFiles

open Xv6.Lib.Outcome
open Xv6.Lib.References
open Xv6.Lib.Words
open Xv6.Common (Descriptors File FileSlot FileTable FileType InodeSlot NOFILE fdalloc)
open Xv6.Public2.ProcTable (NPROC ProcState Slot)

/-! ## What is counted -/

/-- A descriptor of a process and the entry it points to. -/
def held (s : State) (v : Slot × Fin NOFILE) : Option FileSlot := (s.proc v.1).ofile v.2

/-- The number of descriptors that point to `f`. -/
def descriptors (s : State) (f : FileSlot) : Nat := refs (held s) f

/-- What an entry holds on to. -/
def object (file : File) : Option Obj :=
  match file.type with
  | .FD_NONE => none
  | .FD_PIPE => some (.pipe file.pipe file.writable)
  | .FD_INODE => file.ip.map Obj.inode

/-- One entry of `ftable` in the eyes of an observer of the history; `closing` is what has
to be dropped next. -/
structure Watch where
  ref : Int := 0
  obj : Option Obj := none
  closing : Option Obj := none

/-- None is a count that jumps, or an object that is dropped when it should not be, or is
not dropped when the count has gone from 1 to 0. -/
def observe (f : FileSlot) : Option Watch → Event → Option Watch
  | none, _ => none
  | some w, .counted g n =>
      if g ≠ f then some w
      else if w.closing ≠ none ∨ n < 0 ∨ (n ≠ w.ref + 1 ∧ n ≠ w.ref - 1) then none
      else if n = 0 then some { ref := 0, obj := none, closing := w.obj }
      else some { w with ref := n }
  | some w, .opened g obj =>
      if g ≠ f then some w
      else if w.ref = 1 ∧ w.obj = none ∧ w.closing = none then some { w with obj := some obj }
      else none
  | some w, .closed g obj =>
      if g ≠ f then some w
      else if w.closing = some obj then some { w with closing := none }
      else none

def watch (f : FileSlot) (history : List Event) : Option Watch :=
  history.foldl (observe f) (some {})

theorem watch_note (f : FileSlot) (history : List Event) (e : Event) :
    watch f (history ++ [e]) = observe f (watch f history) e := by
  rw [watch, List.foldl_append]
  rfl

theorem observe_counted {f g : FileSlot} (other : g ≠ f) (w : Option Watch) (n : Int) :
    observe f w (.counted g n) = w := by
  cases w with
  | none => rfl
  | some w => simp [observe, other]

theorem observe_opened {f g : FileSlot} (other : g ≠ f) (w : Option Watch) (obj : Obj) :
    observe f w (.opened g obj) = w := by
  cases w with
  | none => rfl
  | some w => simp [observe, other]

theorem observe_closed {f g : FileSlot} (other : g ≠ f) (w : Option Watch) (obj : Obj) :
    observe f w (.closed g obj) = w := by
  cases w with
  | none => rfl
  | some w => simp [observe, other]

/-! ## The invariant inside a call -/

structure Inv (extra : FileSlot → Int) (fresh : FileSlot → Prop) (s : State) : Prop where
  counted : ∀ f, (s.file f).ref = descriptors s f + extra f
  watched : ∀ f, watch f s.history = some ⟨(s.file f).ref, object (s.file f), none⟩
  inode : ∀ f, (s.file f).type = .FD_INODE → (s.file f).ip ≠ none
  free : ∀ f, (s.file f).ref = 0 → (s.file f).type = .FD_NONE
  empty : ∀ f, fresh f → (s.file f).type = .FD_NONE
  typed : ∀ f, (s.file f).ref ≠ 0 → ¬ fresh f → (s.file f).type ≠ .FD_NONE

/-- Between two calls nothing is in the air. -/
abbrev Counted (s : State) : Prop := Inv 0 (fun _ => False) s

variable {extra : FileSlot → Int} {fresh : FileSlot → Prop} {s : State}

theorem Inv.nonneg (inv : Inv extra fresh s) (f : FileSlot) (kept : 0 ≤ extra f) :
    0 ≤ (s.file f).ref := by
  have counted := inv.counted f
  omega

theorem object_none {file : File} (inode : file.type = .FD_INODE → file.ip ≠ none) :
    object file = none ↔ file.type = .FD_NONE := by
  unfold object
  cases kind : file.type with
  | FD_NONE => simp
  | FD_PIPE => simp
  | FD_INODE => simpa using inode kind

/-- A change of one entry that has been noted in the history. -/
theorem Inv.change {extra' : FileSlot → Int} {fresh' : FileSlot → Prop} {t : State}
    (inv : Inv extra fresh s) (f : FileSlot)
    (others : ∀ g, g ≠ f → t.file g = s.file g) (same : t.proc = s.proc)
    (keeps : ∀ g, g ≠ f → extra' g = extra g ∧ (fresh' g ↔ fresh g))
    (history : ∀ g, g ≠ f → watch g t.history = watch g s.history)
    (counted : (t.file f).ref = descriptors s f + extra' f)
    (watched : watch f t.history = some ⟨(t.file f).ref, object (t.file f), none⟩)
    (inode : (t.file f).type = .FD_INODE → (t.file f).ip ≠ none)
    (free : (t.file f).ref = 0 → (t.file f).type = .FD_NONE)
    (empty : fresh' f → (t.file f).type = .FD_NONE)
    (typed : (t.file f).ref ≠ 0 → ¬ fresh' f → (t.file f).type ≠ .FD_NONE) :
    Inv extra' fresh' t := by
  have points : held t = held s := by
    funext v
    rw [held, held, same]
  constructor
  case counted =>
    intro g
    rw [descriptors, points]
    by_cases here : g = f
    · subst here
      exact counted
    · rw [others g here, (keeps g here).1]
      exact inv.counted g
  case watched =>
    intro g
    by_cases here : g = f
    · subst here
      exact watched
    · rw [others g here, history g here]
      exact inv.watched g
  case inode =>
    intro g
    by_cases here : g = f
    · subst here
      exact inode
    · rw [others g here]
      exact inv.inode g
  case free =>
    intro g
    by_cases here : g = f
    · subst here
      exact free
    · rw [others g here]
      exact inv.free g
  case empty =>
    intro g
    by_cases here : g = f
    · subst here
      exact empty
    · rw [others g here, (keeps g here).2]
      exact inv.empty g
  case typed =>
    intro g
    by_cases here : g = f
    · subst here
      exact typed
    · rw [others g here, (keeps g here).2]
      exact inv.typed g

/-! ## One lemma for each operation on the table -/

/-- The extra references once the call has one more to `f`. -/
def plus (extra : FileSlot → Int) (f : FileSlot) : FileSlot → Int := extra + Pi.single f 1

def minus (extra : FileSlot → Int) (f : FileSlot) : FileSlot → Int := extra - Pi.single f 1

theorem plus_other {f g : FileSlot} (other : g ≠ f) : plus extra f g = extra g := by
  simp [plus, other]

theorem minus_other {f g : FileSlot} (other : g ≠ f) : minus extra f g = extra g := by
  simp [minus, other]

@[simp] theorem plus_self (f : FileSlot) : plus extra f f = extra f + 1 := by
  simp [plus]

@[simp] theorem minus_self (f : FileSlot) : minus extra f f = extra f - 1 := by
  simp [minus]

@[simp] theorem minus_plus (f : FileSlot) : minus (plus extra f) f = extra := by
  simp [minus, plus]

@[simp] theorem plus_minus (f : FileSlot) : plus (minus extra f) f = extra := by
  simp [minus, plus]

theorem minus_plus_comm (f g : FileSlot) :
    minus (plus extra g) f = plus (minus extra f) g := by
  simp only [minus, plus]
  abel

theorem filealloc_inv {f : FileSlot} {t : State} (inv : Inv extra fresh s)
    (allocated : filealloc s = some (f, t)) :
    (s.file f).ref = 0 ∧ (t.file f).ref = 1 ∧ t.proc = s.proc ∧ t.iref = s.iref ∧
      (∀ g, g ≠ f → t.file g = s.file g) ∧
      Inv (plus extra f) (fun g => g = f ∨ fresh g) t := by
  unfold filealloc at allocated
  cases found : s.file.filealloc with
  | none => simp [found] at allocated
  | some claimed =>
      obtain ⟨g, file⟩ := claimed
      rw [found] at allocated
      cases allocated
      obtain ⟨h, first, same⟩ := Option.map_eq_some_iff.mp found
      cases same
      have zero : (s.file f).ref = 0 := by simpa using List.find?_some first
      have none := inv.free f zero
      have watched := inv.watched f
      have here : s.file.claim f f = { s.file f with ref := 1 } := Function.update_self ..
      have others : ∀ g, g ≠ f → s.file.claim f g = s.file g := fun g other =>
        Function.update_of_ne other ..
      refine ⟨zero, ?_, rfl, rfl, others, ?_⟩
      · simp only [State.recount, State.note, here]
      refine inv.change f others rfl ?keeps ?history ?counted ?watched ?inode ?free ?empty ?typed
      case keeps => exact fun g other => ⟨plus_other other, by simp [other]⟩
      case history =>
        intro g other
        exact (watch_note g ..).trans (observe_counted (Ne.symm other) ..)
      case counted =>
        have counted := inv.counted f
        simp only [State.recount, State.note, here, plus_self]
        omega
      case watched =>
        simp only [State.recount, State.note, watch_note, watched, here, zero, observe]
        simp [object, none]
      case inode => simp [State.recount, State.note, here, none]
      case free => simp [State.recount, State.note, here]
      case empty => simp [State.recount, State.note, here, none]
      case typed => simp

theorem filedup_ends {f : FileSlot} (inv : Inv extra fresh s) (live : 0 < (s.file f).ref) :
    Ends (filedup s f) (fun _ => False) fun t =>
      t.proc = s.proc ∧ t.iref = s.iref ∧ Inv (plus extra f) fresh t := by
  have dup : s.file.filedup f = some (s.file.set f { s.file f with ref := (s.file f).ref + 1 }) :=
    if_neg (by omega)
  have others : ∀ g, g ≠ f →
      s.file.set f { s.file f with ref := (s.file f).ref + 1 } g = s.file g := fun g other =>
    Function.update_of_ne other ..
  have here : s.file.set f { s.file f with ref := (s.file f).ref + 1 } f =
      { s.file f with ref := (s.file f).ref + 1 } := Function.update_self ..
  have watched := inv.watched f
  rw [filedup, dup]
  refine ⟨rfl, rfl, ?_⟩
  refine inv.change f others rfl ?keeps ?history ?counted ?watched ?inode ?free ?empty ?typed
  case keeps => exact fun g other => ⟨plus_other other, Iff.rfl⟩
  case history =>
    intro g other
    exact (watch_note g ..).trans (observe_counted (Ne.symm other) ..)
  case counted =>
    have counted := inv.counted f
    simp only [State.recount, State.note, here, plus_self]
    omega
  case watched =>
    simp only [State.recount, State.note, watch_note, watched, here, observe]
    have positive : ¬ (s.file f).ref + 1 < 0 := by omega
    have nonzero : (s.file f).ref + 1 ≠ 0 := by omega
    simp [positive, nonzero, object]
  case inode =>
    simp only [State.recount, State.note, here]
    exact inv.inode f
  case free =>
    simp only [State.recount, State.note, here]
    omega
  case empty =>
    simp only [State.recount, State.note, here]
    exact inv.empty f
  case typed =>
    simp only [State.recount, State.note, here]
    exact fun _ => inv.typed f (by omega)

/-- The last reference and any other: what the entry holds on to goes with the last. -/
theorem fileclose_ends {f : FileSlot} (inv : Inv extra fresh s) (live : 0 < (s.file f).ref)
    (single : fresh f → (s.file f).ref = 1) :
    Ends (fileclose s f) (fun _ => False) fun t =>
      t.proc = s.proc ∧ ((s.file f).type ≠ .FD_INODE → t.iref = s.iref) ∧
        (∀ g, g ≠ f → t.file g = s.file g) ∧
        Inv (minus extra f) (fun g => g ≠ f ∧ fresh g) t := by
  have watched := inv.watched f
  have counted := inv.counted f
  by_cases last : (s.file f).ref = 1
  case neg =>
    have drop : s.file.drop f =
        some (s.file.set f { s.file f with ref := (s.file f).ref - 1 }, none) := by
      rw [FileTable.drop, if_neg (by omega), if_pos (by omega)]
    have others : ∀ g, g ≠ f →
        s.file.set f { s.file f with ref := (s.file f).ref - 1 } g = s.file g := fun g other =>
      Function.update_of_ne other ..
    have here : s.file.set f { s.file f with ref := (s.file f).ref - 1 } f =
        { s.file f with ref := (s.file f).ref - 1 } := Function.update_self ..
    rw [fileclose, drop]
    refine ⟨rfl, fun _ => rfl, others, ?_⟩
    refine inv.change f others rfl ?keeps ?history ?counted ?watched ?inode ?free ?empty ?typed
    case keeps => exact fun g other => ⟨minus_other other, and_iff_right other⟩
    case history =>
      intro g other
      exact (watch_note g ..).trans (observe_counted (Ne.symm other) ..)
    case counted =>
      simp only [State.recount, State.note, here, minus_self]
      omega
    case watched =>
      simp only [State.recount, State.note, watch_note, watched, here, observe]
      have positive : ¬ (s.file f).ref - 1 < 0 := by omega
      have nonzero : (s.file f).ref - 1 ≠ 0 := by omega
      simp [positive, nonzero, object]
    case inode =>
      simp only [State.recount, State.note, here]
      exact inv.inode f
    case free =>
      simp only [State.recount, State.note, here]
      omega
    case empty => exact fun absurd => (absurd.1 rfl).elim
    case typed =>
      simp only [State.recount, State.note, here]
      exact fun _ _ => inv.typed f (by omega) fun isFresh => last (single isFresh)
  case pos =>
    have drop : s.file.drop f =
        some (s.file.set f { s.file f with ref := 0, type := .FD_NONE },
          some { s.file f with ref := 0 }) := by
      rw [FileTable.drop, if_neg (by omega), if_neg (by omega), last]
      rfl
    have others : ∀ g, g ≠ f →
        s.file.set f { s.file f with ref := 0, type := .FD_NONE } g = s.file g := fun g other =>
      Function.update_of_ne other ..
    have here : s.file.set f { s.file f with ref := 0, type := .FD_NONE } f =
        { s.file f with ref := 0, type := .FD_NONE } := Function.update_self ..
    -- The three types differ in what the history has after the count.
    have gone : ∀ t : State, t.file = s.file.set f { s.file f with ref := 0, type := .FD_NONE } →
        t.proc = s.proc → (∀ g, g ≠ f → watch g t.history = watch g s.history) →
        watch f t.history = some ⟨0, none, none⟩ →
        Inv (minus extra f) (fun g => g ≠ f ∧ fresh g) t := by
      intro t file same history watched
      refine inv.change f ?_ same ?keeps history ?counted ?watched ?inode ?free ?empty ?typed
      · exact fun g other => by rw [file, others g other]
      case keeps => exact fun g other => ⟨minus_other other, and_iff_right other⟩
      case counted =>
        rw [file, here, minus_self]
        simp only
        omega
      case watched =>
        rw [file, here, watched]
        rfl
      all_goals simp [file, here]
    have closing : watch f (s.recount f (s.file.set f { s.file f with
        ref := 0, type := .FD_NONE })).history = some ⟨0, none, object (s.file f)⟩ := by
      simp only [State.recount, State.note, watch_note, watched, here, observe]
      simp [last]
    have counts : ∀ g, g ≠ f → watch g (s.recount f (s.file.set f { s.file f with
        ref := 0, type := .FD_NONE })).history = watch g s.history := by
      intro g other
      exact (watch_note g ..).trans (observe_counted (Ne.symm other) ..)
    rw [fileclose, drop]
    simp only
    cases kind : (s.file f).type with
    | FD_NONE =>
        refine ⟨rfl, fun _ => rfl, others, gone _ rfl rfl counts ?_⟩
        rw [closing, object, kind]
    | FD_PIPE =>
        refine ⟨rfl, fun _ => rfl, others, gone _ rfl rfl ?_ ?_⟩
        · intro g other
          rw [State.note, watch_note, observe_closed (Ne.symm other)]
          exact counts g other
        · rw [State.note, watch_note, closing, object, kind]
          simp [observe]
    | FD_INODE =>
        simp only
        split
        case h_1 absurd => exact (inv.inode f kind absurd).elim
        case h_2 ip found =>
          refine ⟨rfl, fun absurd => (absurd rfl).elim, others, gone _ rfl rfl ?_ ?_⟩
          · intro g other
            rw [State.note, watch_note, observe_closed (Ne.symm other)]
            exact counts g other
          · have has : (s.file f).ip = some ip := found
            rw [State.note, watch_note, State.iput, closing, object, kind, has]
            simp [observe]

/-- An entry with nothing in it gets its object. -/
theorem Inv.filled {f : FileSlot} {t : State} {file : File} {obj : Obj} (inv : Inv extra fresh s)
    (isFresh : fresh f) (one : (s.file f).ref = 1) (table : t.file = s.file.set f file)
    (same : t.proc = s.proc) (history : t.history = s.history ++ [.opened f obj])
    (ref : file.ref = (s.file f).ref) (holds : object file = some obj) :
    Inv extra (fun g => g ≠ f ∧ fresh g) t := by
  have none := inv.empty f isFresh
  have here : t.file f = file := by rw [table]; exact Function.update_self ..
  have others : ∀ g, g ≠ f → t.file g = s.file g := by
    intro g other
    rw [table]
    exact Function.update_of_ne other ..
  have typed : file.type ≠ .FD_NONE := by
    intro absurd
    simp [object, absurd] at holds
  refine inv.change f others same ?keeps ?history ?counted ?watched ?inode ?free ?empty ?typed
  case keeps => exact fun g other => ⟨rfl, and_iff_right other⟩
  case history =>
    intro g other
    rw [history, watch_note, observe_opened (Ne.symm other)]
  case counted =>
    rw [here, ref]
    exact inv.counted f
  case watched =>
    rw [history, watch_note, inv.watched f, here, one, holds, ref, one]
    simp [observe, object, none]
  case inode =>
    intro kind absurd
    rw [here] at kind absurd
    simp [object, kind, absurd] at holds
  case free =>
    intro absurd
    rw [here, ref, one] at absurd
    cases absurd
  case empty => exact fun absurd => (absurd.1 rfl).elim
  case typed =>
    rw [here]
    exact fun _ _ => typed

theorem setPipe_inv {f : FileSlot} (page : Word) (writable : Bool) (inv : Inv extra fresh s)
    (isFresh : fresh f) (one : (s.file f).ref = 1) :
    Inv extra (fun g => g ≠ f ∧ fresh g) (setPipe s f page writable) :=
  inv.filled isFresh one rfl rfl rfl rfl rfl

theorem setInode_inv {f : FileSlot} (ip : InodeSlot) (omode : Word) (inv : Inv extra fresh s)
    (isFresh : fresh f) (one : (s.file f).ref = 1) :
    Inv extra (fun g => g ≠ f ∧ fresh g) (setInode s f ip omode) :=
  inv.filled isFresh one rfl rfl rfl rfl rfl

/-! ## Descriptors -/

theorem held_setOfile (p : Slot) (fd : Fin NOFILE) (x : Option FileSlot) :
    held (s.setOfile p (Function.update (s.proc p).ofile fd x)) =
      Function.update (held s) (p, fd) x := by
  funext v
  obtain ⟨q, d⟩ := v
  by_cases here : q = p
  · subst here
    by_cases same : d = fd
    · subst same
      simp [held, State.setOfile, State.setProc]
    · simp [held, State.setOfile, State.setProc, same]
  · simp [held, State.setOfile, State.setProc, here]

/-- The counts stay, and one descriptor more or less points to the entry. -/
theorem Inv.point {extra' : FileSlot → Int} (inv : Inv extra fresh s) (p : Slot)
    (fd : Fin NOFILE) (x : Option FileSlot)
    (moves : ∀ g, extra' g + (if x = some g then 1 else 0) =
      extra g + (if (s.proc p).ofile fd = some g then 1 else 0)) :
    Inv extra' fresh (s.setOfile p (Function.update (s.proc p).ofile fd x)) where
  counted := by
    intro g
    have counted := inv.counted g
    have stored := refs_update (held s) (p, fd) x g
    have moves := moves g
    rw [descriptors, held_setOfile]
    rw [descriptors] at counted
    have now : held s (p, fd) = (s.proc p).ofile fd := rfl
    rw [now] at stored
    have file : (s.setOfile p (Function.update (s.proc p).ofile fd x)).file = s.file := rfl
    rw [file]
    by_cases points : x = some g
    · rw [if_pos points] at moves stored
      by_cases pointed : (s.proc p).ofile fd = some g
      · rw [if_pos pointed] at moves stored
        omega
      · rw [if_neg pointed] at moves stored
        omega
    · rw [if_neg points] at moves stored
      by_cases pointed : (s.proc p).ofile fd = some g
      · rw [if_pos pointed] at moves stored
        omega
      · rw [if_neg pointed] at moves stored
        omega
  watched := inv.watched
  inode := inv.inode
  free := inv.free
  empty := inv.empty
  typed := inv.typed

theorem store_inv {p : Slot} {fd : Fin NOFILE} (f : FileSlot) (inv : Inv extra fresh s)
    (unused : (s.proc p).ofile fd = none) :
    Inv (minus extra f) fresh
      (s.setOfile p (Function.update (s.proc p).ofile fd (some f))) := by
  apply inv.point
  intro g
  by_cases here : g = f
  · subst here
    simp [unused]
  · simp [unused, minus_other here, Ne.symm here]

theorem clear_inv {p : Slot} {fd : Fin NOFILE} {f : FileSlot} (inv : Inv extra fresh s)
    (used : (s.proc p).ofile fd = some f) :
    Inv (plus extra f) fresh
      (s.setOfile p (Function.update (s.proc p).ofile fd none)) := by
  apply inv.point
  intro g
  by_cases here : g = f
  · subst here
    simp [used]
  · simp [used, plus_other here, Ne.symm here]

end Xv6.Public2.OpenFiles
