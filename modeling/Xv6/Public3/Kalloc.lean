import Xv6.Public3.VmRules

/-!
# The page allocator (kalloc.c of xv6-public_3, the same in the others)

The free list in the memory that it is about, with kmem and the place in kalloc.c
of every kernel thread.  Each access to the memory or to kmem is a step of its own, between
which the other threads take theirs.  Thread 0 is main(), which calls kinit1() and,
when the other processors are up, kinit2(); the other threads come after that.  Addresses
are those of the kernel.
-/

set_option autoImplicit false

namespace Xv6.Public3.Kalloc

open Xv6.Lib.Words

/-- A kernel that the first page directory maps. -/
structure Placed extends Layout where
  kend_before : kend ≤ KERNBASE + 4 * 1024 * 1024

abbrev Thread := Nat

def main : Thread := 0

def P2V (a : Nat) : Word := BitVec.ofNat 32 (a + KERNBASE)

def V2P (a : Word) : Word := a - BitVec.ofNat 32 KERNBASE

inductive Panic where
  /-- panic("kfree") -/
  | kfree
  /-- panic("acquire") -/
  | acquire
  /-- panic("release") -/
  | release
  deriving DecidableEq

/-- Where a thread is. -/
inductive Point where
  | away
  /-- kalloc(): the lock is next. -/
  | kalloc
  /-- `r = kmem.freelist` -/
  | first
  /-- `if(r) kmem.freelist = r->next` -/
  | unlink (r : Word)
  /-- The end of kalloc(). -/
  | taken (r : Word)
  /-- memset(v, 1, PGSIZE), at its word `n`. -/
  | memset (v : Word) (n : Nat)
  /-- kfree(), filled: the lock is next. -/
  | kfree (v : Word)
  /-- `r->next = kmem.freelist` -/
  | link (v : Word)
  /-- `kmem.freelist = r` -/
  | push (v : Word)
  /-- The end of kfree(). -/
  | freed
  /-- The test of the loop of freerange(). -/
  | freerange
  deriving DecidableEq

/-- How far main() is, with the variable `p` of freerange(). -/
inductive Stage where
  | kinit1 (p : Word)
  | early
  | kinit2 (p : Word)
  | running
  deriving DecidableEq

structure Kmem where
  /-- Who has `lock`. -/
  lock : Option Thread
  use_lock : Bool
  freelist : Word

structure Machine where
  mem : Memory
  kmem : Kmem
  point : Thread → Point
  stage : Stage
  /-- What callers of kalloc() have been given and have not passed to kfree(). -/
  held : List Word
  panicked : Option Panic

namespace Machine

def goto (m : Machine) (t : Thread) (point : Point) : Machine :=
  { m with point := Function.update m.point t point }

def store (m : Machine) (addr w : Word) : Machine := { m with mem := storeWord m.mem addr w }

def setList (m : Machine) (r : Word) : Machine := { m with kmem := { m.kmem with freelist := r } }

def setLock (m : Machine) (lock : Option Thread) : Machine :=
  { m with kmem := { m.kmem with lock := lock } }

def fail (m : Machine) (panic : Panic) : Machine := { m with panicked := some panic }

end Machine

/-- `if(kmem.use_lock) acquire(&kmem.lock)`: no step while another thread has the lock. -/
def acquire (m : Machine) (t : Thread) (next : Point) : Option Machine :=
  if m.kmem.use_lock = false then some (m.goto t next)
  else if m.kmem.lock = some t then some (m.fail .acquire)
  else if m.kmem.lock = none then some ((m.setLock (some t)).goto t next)
  else none

/-- `if(kmem.use_lock) release(&kmem.lock)` -/
def release (m : Machine) (t : Thread) (next : Point) : Machine :=
  if m.kmem.use_lock = false then m.goto t next
  else if m.kmem.lock = some t then (m.setLock none).goto t next
  else m.fail .release

variable (l : Placed)

/-- kfree() up to its memset(). -/
def kfree (m : Machine) (t : Thread) (v : Word) : Machine :=
  if v.toNat % PGSIZE ≠ 0 ∨ v.toNat < l.kend ∨ PHYSTOP ≤ (V2P v).toNat then m.fail .kfree
  else m.goto t (.memset v 0)

/-- The next page that freerange() gives to kfree(). -/
def next (p : Word) : Word := p + BitVec.ofNat 32 PGSIZE

/-- What the caller of kfree() does: freerange() takes the next page. -/
def caller (m : Machine) (t : Thread) : Machine :=
  if t = main then
    match m.stage with
    | .kinit1 p => { m.goto t .freerange with stage := .kinit1 (next p) }
    | .kinit2 p => { m.goto t .freerange with stage := .kinit2 (next p) }
    | _ => m.goto t .away
  else m.goto t .away

/-- The test of the loop of freerange(), and what its caller does behind it. -/
def freerange (m : Machine) (t : Thread) : Option Machine :=
  match m.stage with
  | .kinit1 p =>
      if (next p).toNat ≤ (P2V (4 * 1024 * 1024)).toNat then some (kfree l m t p)
      else some { m.goto t .away with stage := .early }
  | .kinit2 p =>
      if (next p).toNat ≤ (P2V PHYSTOP).toNat then some (kfree l m t p)
      else
        some { m.goto t .away with
          stage := .running
          kmem := { m.kmem with use_lock := true } }
  | _ => none

/-- What a thread in kalloc.c does next. -/
def go (m : Machine) (t : Thread) : Option Machine :=
  match m.point t with
  | .away => none
  | .kalloc => acquire m t .first
  | .first => some (m.goto t (.unlink m.kmem.freelist))
  | .unlink r =>
      some ((if r = 0 then m else m.setList (loadWord m.mem r)).goto t (.taken r))
  | .taken r =>
      some { release m t .away with held := if r = 0 then m.held else r :: m.held }
  | .memset v n =>
      if n < PGSIZE / 4 then
        some ((m.store (v + BitVec.ofNat 32 (4 * n)) 0x01010101).goto t (.memset v (n + 1)))
      else some (m.goto t (.kfree v))
  | .kfree v => acquire m t (.link v)
  | .link v => some ((m.store v m.kmem.freelist).goto t (.push v))
  | .push v => some ((m.setList v).goto t .freed)
  | .freed => some (caller (release m t .away) t)
  | .freerange => freerange l m t

inductive Event where
  /-- A call of kalloc(). -/
  | kalloc (t : Thread)
  /-- A call of kfree(v). -/
  | kfree (t : Thread) (v : Word)
  | kinit2
  | go (t : Thread)
  /-- A store to memory by other code than kalloc.c. -/
  | store (addr : Word) (b : Byte)
  deriving DecidableEq

/-- Other code is running in a thread. -/
def Machine.calls (m : Machine) (t : Thread) : Prop :=
  m.point t = .away ∧ (t = main ∨ m.stage = .running)

instance (m : Machine) (t : Thread) : Decidable (m.calls t) :=
  inferInstanceAs (Decidable (_ ∧ _))

/-- The address is in a page of the list. -/
def Within (pages : List Word) (addr : Word) : Prop :=
  ∃ v ∈ pages, addr.toNat / PGSIZE = v.toNat / PGSIZE

instance (pages : List Word) (addr : Word) : Decidable (Within pages addr) :=
  inferInstanceAs (Decidable (∃ v ∈ pages, _))

/-- Memory that freerange() does not get. -/
def Outside (addr : Word) : Prop :=
  addr.toNat < PGROUNDUP l.kend ∨ KERNBASE + PHYSTOP ≤ addr.toNat

instance (addr : Word) : Decidable (Outside l addr) := inferInstanceAs (Decidable (_ ∨ _))

theorem word_lawful : LawfulBEq Word := inferInstance

instance (m : Machine) (v : Word) : Decidable (v ∈ m.held) :=
  @List.instDecidableMemOfLawfulBEq Word _ word_lawful v m.held

def act (m : Machine) : Event → Option Machine
  | .kalloc t => if m.calls t then some (m.goto t .kalloc) else none
  | .kfree t v =>
      if m.calls t ∧ v ∈ m.held then some (kfree l { m with held := m.held.erase v } t v) else none
  | .kinit2 =>
      if m.point main = .away ∧ m.stage = .early then
        some { m.goto main .freerange with
          stage := .kinit2 (BitVec.ofNat 32 (PGROUNDUP (P2V (4 * 1024 * 1024)).toNat)) }
      else none
  | .go t => go l m t
  | .store addr b =>
      if Within m.held addr ∨ Outside l addr then
        some { m with mem := Function.update m.mem addr b }
      else none

/-- A panic stops the machine. -/
def step (m : Machine) (e : Event) : Option Machine :=
  if m.panicked = none then act l m e else none

/-- main() is in kinit1(), at the loop of freerange(). -/
def boot (mem : Memory) : Machine where
  mem := mem
  kmem := { lock := none, use_lock := false, freelist := 0 }
  point := Function.update (fun _ => .away) main .freerange
  stage := .kinit1 (BitVec.ofNat 32 (PGROUNDUP l.kend))
  held := []
  panicked := none

end Xv6.Public3.Kalloc
