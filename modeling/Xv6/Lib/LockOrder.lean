import Mathlib.Logic.Relation
import Mathlib.Order.Defs.Unbundled

/-!
# Lock order

A thread's path is the list of lock operations it still has to do.  Between them
stands code that decides, when it runs, which operations come next; it runs with
a known set of locks held and gives all of them back.  A path respects an order
on the locks when each lock it takes comes after all that it holds then.  Threads
whose paths all respect one strict order cannot wait for each other in a circle.
-/

set_option autoImplicit false

namespace Xv6.Lib.LockOrder

universe u v w

inductive Op (Lock : Type u) (Code : Type v) where
  | acquire (l : Lock)
  | release (l : Lock)
  | code (c : Code)
  deriving DecidableEq

section Paths
variable {Lock : Type u} {Code : Type v} (inside : Code → Lock → Prop)

/-- From `held` on, the path takes only locks that it does not hold and that
come after those it holds, releases only locks that it holds, reaches code with
the locks that the code runs inside of, and ends with no lock held. -/
def Respects (before : Lock → Lock → Prop) : (Lock → Prop) → List (Op Lock Code) → Prop
  | held, [] => ∀ l, ¬ held l
  | held, .acquire l :: path =>
      ¬ held l ∧ (∀ l', held l' → before l' l) ∧
        Respects before (fun l' => l' = l ∨ held l') path
  | held, .release l :: path => held l ∧ Respects before (fun l' => l' ≠ l ∧ held l') path
  | held, .code c :: path =>
      (∀ l, held l ↔ inside c l) ∧ Respects before (fun _ => False) path

/-- The first operation of a path is the acquisition of this lock. -/
def wants : List (Op Lock Code) → Option Lock
  | .acquire l :: _ => some l
  | _ => none

variable {inside} {before : Lock → Lock → Prop}

theorem Respects.congr {held held' : Lock → Prop} (same : ∀ l, held l ↔ held' l)
    {path : List (Op Lock Code)} (respects : Respects inside before held path) :
    Respects inside before held' path := by
  have equal : held = held' := funext fun l => propext (same l)
  exact equal ▸ respects

theorem Respects.mono {after : Lock → Lock → Prop} (weaker : ∀ l l', before l l' → after l l')
    {path : List (Op Lock Code)} :
    ∀ {held : Lock → Prop}, Respects inside before held path →
      Respects inside after held path := by
  induction path with
  | nil => exact fun respects => respects
  | cons op path ih =>
      intro held respects
      cases op with
      | acquire l =>
          obtain ⟨fresh, ordered, rest⟩ := respects
          exact ⟨fresh, fun l' holds => weaker l' l (ordered l' holds), ih rest⟩
      | release l => exact ⟨respects.1, ih respects.2⟩
      | code c => exact ⟨respects.1, ih respects.2⟩

/-- A path that respects the order, then one that does so from no lock held. -/
theorem Respects.append {path rest : List (Op Lock Code)}
    (later : Respects inside before (fun _ => False) rest) :
    ∀ {held : Lock → Prop}, Respects inside before held path →
      Respects inside before held (path ++ rest) := by
  induction path with
  | nil =>
      intro held respects
      exact later.congr fun l => iff_of_false id (respects l)
  | cons op path ih =>
      intro held respects
      cases op with
      | acquire l =>
          obtain ⟨fresh, ordered, path⟩ := respects
          exact ⟨fresh, ordered, ih path⟩
      | release l => exact ⟨respects.1, ih respects.2⟩
      | code c => exact ⟨respects.1, ih respects.2⟩

/-- A lock wanted comes after every lock held. -/
theorem Respects.wanted {held : Lock → Prop} {path : List (Op Lock Code)} {l l' : Lock}
    (respects : Respects inside before held path) (holds : held l') (waits : wants path = some l) :
    before l' l := by
  cases path with
  | nil => cases waits
  | cons op path =>
      cases op with
      | acquire l'' =>
          obtain rfl : l'' = l := Option.some.inj waits
          exact respects.2.1 l' holds
      | release l'' => cases waits
      | code c => cases waits

end Paths

section Threads
variable {Lock : Type u} {Code : Type v} {Thread : Type w}
variable (holds : Thread → Lock → Prop) (path : Thread → List (Op Lock Code))

/-- One thread waits for a lock that another holds. -/
def WaitsFor (a b : Thread) : Prop := ∃ l, wants (path a) = some l ∧ holds b l

variable {holds} {path} {inside : Code → Lock → Prop} {before : Lock → Lock → Prop}

theorem waitsFor_chain [IsTrans Lock before]
    (respects : ∀ t, Respects inside before (holds t) (path t)) {a b : Thread}
    (chain : Relation.TransGen (WaitsFor holds path) a b) :
    ∃ l, wants (path a) = some l ∧ ∀ l', wants (path b) = some l' → before l l' := by
  induction chain with
  | single waits =>
      obtain ⟨l, wanted, held⟩ := waits
      exact ⟨l, wanted, fun l' next => (respects _).wanted held next⟩
  | tail _ waits ih =>
      obtain ⟨l, wanted, earlier⟩ := ih
      obtain ⟨l', next, held⟩ := waits
      refine ⟨l, wanted, fun l'' last => ?_⟩
      exact IsTrans.trans l l' l'' (earlier l' next) ((respects _).wanted held last)

/-- No circle of threads in which each waits for the next. -/
theorem waitsFor_acyclic [IsStrictOrder Lock before]
    (respects : ∀ t, Respects inside before (holds t) (path t)) (a : Thread) :
    ¬ Relation.TransGen (WaitsFor holds path) a a := by
  intro circle
  obtain ⟨l, wanted, earlier⟩ := waitsFor_chain respects circle
  exact irrefl_of before l (earlier l wanted)

end Threads

end Xv6.Lib.LockOrder
