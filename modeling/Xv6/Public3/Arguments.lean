import Xv6.Public3.Vm

/-!
# The arguments of system calls (syscall.c of xv6-public_3)

What the kernel fetches from the memory of the caller, with the addresses of the
bytes that it reads.  Every comparison is one of 32-bit words, as in the source;
the results are stated in exact arithmetic.
-/

set_option autoImplicit false

namespace Xv6.Public3

open Xv6.Lib.Words

namespace Arguments

/-- What fetching sees of the process: its size, the saved user stack pointer
and its memory. -/
structure Caller where
  sz : Word
  esp : Word
  mem : Memory

/-- The bytes that a fetch reads, and what it leaves for its caller, or `none`
where it returns -1. -/
structure Fetched (α : Type) where
  reads : List Word
  value : Option α

/-! ## The source -/

def fetchint (p : Caller) (addr : Word) : Fetched Word :=
  if addr ≥ p.sz ∨ addr + 4 > p.sz then ⟨[], none⟩
  else ⟨[addr, addr + 1, addr + 2, addr + 3], some (loadWord p.mem addr)⟩

/-- The loop of fetchstr() from `s` on; the length is an `int`. -/
def fetchstrLoop (mem : Memory) (pp ep s : Word) : Fetched Int :=
  if s < ep then
    if mem s = 0 then ⟨[s], some (s - pp).toInt⟩
    else
      let rest := fetchstrLoop mem pp ep (s + 1)
      ⟨s :: rest.reads, rest.value⟩
  else ⟨[], none⟩
termination_by ep.toNat - s.toNat
decreasing_by bv_omega

/-- `*pp` and the length. -/
def fetchstr (p : Caller) (addr : Word) : Fetched (Word × Int) :=
  if addr ≥ p.sz then ⟨[], none⟩
  else
    let loop := fetchstrLoop p.mem addr p.sz addr
    ⟨loop.reads, loop.value.map fun length => (addr, length)⟩

/-- Where the `n`th argument is. -/
def Caller.argument (p : Caller) (n : Word) : Word := p.esp + 4 + 4 * n

def argint (p : Caller) (n : Word) : Fetched Word := fetchint p (p.argument n)

def argptr (p : Caller) (n size : Word) : Fetched Word :=
  let i := argint p n
  ⟨i.reads, i.value.bind fun i =>
    if size.toInt < 0 ∨ i ≥ p.sz ∨ i + size > p.sz then none else some i⟩

def argstr (p : Caller) (n : Word) : Fetched (Word × Int) :=
  let addr := argint p n
  match addr.value with
  | none => ⟨addr.reads, none⟩
  | some i =>
      let string := fetchstr p i
      ⟨addr.reads ++ string.reads, string.value⟩

/-! ## What success means -/

variable {p : Caller}

/-- The string at `addr` has that length and ends inside the process. -/
def Caller.String (p : Caller) (addr : Word) (length : Nat) : Prop :=
  addr.toNat + length < p.sz.toNat ∧ p.mem (addr + BitVec.ofNat 32 length) = 0 ∧
    ∀ j, j < length → p.mem (addr + BitVec.ofNat 32 j) ≠ 0

theorem fetchint_value (below : p.sz.toNat < KERNBASE) (addr v : Word) :
    (fetchint p addr).value = some v ↔
      addr.toNat + 4 ≤ p.sz.toNat ∧ loadWord p.mem addr = v := by
  simp only [KERNBASE] at below
  unfold fetchint
  split
  · rename_i refused
    constructor
    · exact nofun
    · rintro ⟨inside, -⟩
      bv_omega
  · rename_i passes
    have inside : addr.toNat + 4 ≤ p.sz.toNat := by bv_omega
    simp [inside]

theorem argptr_value (below : p.sz.toNat < KERNBASE) (n size ptr : Word) :
    (argptr p n size).value = some ptr ↔
      (argint p n).value = some ptr ∧ 0 ≤ size.toInt ∧ ptr.toNat < p.sz.toNat ∧
        ptr.toNat + size.toNat ≤ p.sz.toNat := by
  simp only [KERNBASE] at below
  have sign := BitVec.toInt_eq_toNat_cond size
  simp only [argptr, Option.bind_eq_some_iff]
  constructor
  · rintro ⟨i, fetched, passed⟩
    split at passed
    · exact absurd passed nofun
    · rename_i passes
      cases passed
      refine ⟨fetched, by omega, by bv_omega, ?_⟩
      split at sign <;> bv_omega
  · rintro ⟨fetched, positive, first, last⟩
    refine ⟨ptr, fetched, if_neg ?_⟩
    rintro (negative | outside | outside)
    · omega
    · bv_omega
    · split at sign <;> bv_omega

/-- The loop finds the first NUL, `done` bytes after the start. -/
theorem fetchstrLoop_value (mem : Memory) (pp ep s : Word) (done : Nat)
    (at_s : s.toNat = pp.toNat + done) (below : ep.toNat < KERNBASE) (length : Int) :
    (fetchstrLoop mem pp ep s).value = some length ↔
      ∃ left : Nat, length = done + left ∧ s.toNat + left < ep.toNat ∧
        mem (s + BitVec.ofNat 32 left) = 0 ∧ ∀ j, j < left → mem (s + BitVec.ofNat 32 j) ≠ 0 := by
  simp only [KERNBASE] at below
  fun_induction fetchstrLoop mem pp ep s generalizing done with
  | case1 s more nul =>
      have offset : (s - pp).toInt = done := by
        rw [BitVec.toInt_eq_toNat_cond]
        bv_omega
      simp only [offset, Option.some.injEq]
      constructor
      · rintro rfl
        refine ⟨0, by omega, by bv_omega, by simpa using nul, ?_⟩
        exact fun j early => absurd early (by omega)
      · rintro ⟨left, rfl, inside, ends, before⟩
        cases left with
        | zero => omega
        | succ left => exact absurd (by simpa using nul) (before 0 (by omega))
  | case2 s more nul rest ih =>
      have next : (s + 1).toNat = pp.toNat + (done + 1) := by bv_omega
      have step : ∀ j : Nat, s + 1 + BitVec.ofNat 32 j = s + BitVec.ofNat 32 (j + 1) := by
        intro j
        bv_omega
      rw [ih (done + 1) next]
      simp only [step]
      constructor
      · rintro ⟨left, rfl, inside, ends, before⟩
        refine ⟨left + 1, by omega, by omega, ends, ?_⟩
        intro j early
        cases j with
        | zero => simpa using nul
        | succ j => exact before j (by omega)
      · rintro ⟨left, rfl, inside, ends, before⟩
        cases left with
        | zero => exact absurd (by simpa using ends) nul
        | succ left =>
            exact ⟨left, by omega, by omega, ends, fun j early => before (j + 1) (by omega)⟩
  | case3 s done' =>
      constructor
      · exact nofun
      · rintro ⟨left, -, inside, -⟩
        bv_omega

theorem fetchstr_value (below : p.sz.toNat < KERNBASE) (addr ptr : Word) (length : Int) :
    (fetchstr p addr).value = some (ptr, length) ↔
      ptr = addr ∧ ∃ n : Nat, length = n ∧ p.String addr n := by
  unfold fetchstr
  split
  · rename_i outside
    constructor
    · exact nofun
    · rintro ⟨-, n, -, inside, -⟩
      bv_omega
  · simp only [Option.map_eq_some_iff, Prod.mk.injEq]
    have found := fetchstrLoop_value p.mem addr p.sz addr 0 rfl below
    constructor
    · rintro ⟨length, value, rfl, rfl⟩
      obtain ⟨n, same, string⟩ := (found length).mp value
      exact ⟨rfl, n, by omega, string⟩
    · rintro ⟨rfl, n, rfl, string⟩
      exact ⟨n, (found n).mpr ⟨n, by omega, string⟩, rfl, rfl⟩

theorem argstr_value (n ptr : Word) (length : Int) :
    (argstr p n).value = some (ptr, length) ↔
      ∃ addr, (argint p n).value = some addr ∧ (fetchstr p addr).value = some (ptr, length) := by
  simp only [argstr]
  split
  · rename_i failed
    rw [failed]
    simp
  · rename_i addr fetched
    rw [fetched]
    simp

/-! ## What is read -/

theorem fetchint_reads (below : p.sz.toNat < KERNBASE) (addr : Word) :
    ∀ a ∈ (fetchint p addr).reads, a.toNat < p.sz.toNat := by
  simp only [KERNBASE] at below
  intro a read
  unfold fetchint at read
  split at read
  · cases read
  · rename_i passes
    simp only [List.mem_cons, List.not_mem_nil, or_false] at read
    obtain rfl | rfl | rfl | rfl := read <;> bv_omega

theorem fetchstrLoop_reads (mem : Memory) (pp ep s : Word) :
    (∀ a ∈ (fetchstrLoop mem pp ep s).reads, a < ep) ∧
      (fetchstrLoop mem pp ep s).reads.length ≤ ep.toNat - s.toNat := by
  fun_induction fetchstrLoop mem pp ep s with
  | case1 s more nul =>
      refine ⟨by simpa using more, ?_⟩
      simp only [List.length_singleton]
      bv_omega
  | case2 s more nul rest ih =>
      refine ⟨?_, ?_⟩
      · intro a read
        cases read with
        | head => exact more
        | tail _ later => exact ih.1 a later
      · have count : rest.reads.length ≤ ep.toNat - (s + 1).toNat := ih.2
        have next : (s + 1).toNat = s.toNat + 1 := by bv_omega
        have within : s.toNat < ep.toNat := more
        change rest.reads.length + 1 ≤ _
        omega
  | case3 s done => exact ⟨nofun, Nat.zero_le _⟩

theorem fetchstr_reads (addr : Word) :
    (∀ a ∈ (fetchstr p addr).reads, a.toNat < p.sz.toNat) ∧
      (fetchstr p addr).reads.length ≤ p.sz.toNat - addr.toNat := by
  unfold fetchstr
  split
  · exact ⟨nofun, Nat.zero_le _⟩
  · exact fetchstrLoop_reads p.mem addr p.sz addr

theorem argstr_reads (below : p.sz.toNat < KERNBASE) (n : Word) :
    ∀ a ∈ (argstr p n).reads, a.toNat < p.sz.toNat := by
  have first : ∀ a ∈ (argint p n).reads, a.toNat < p.sz.toNat := fetchint_reads below _
  intro a read
  simp only [argstr] at read
  split at read
  · exact first a read
  · obtain word | string := List.mem_append.mp read
    · exact first a word
    · exact (fetchstr_reads _).1 a string

/-! ## The bytes outside the process do not matter -/

section Local

variable {mem : Memory}

theorem fetchint_local (below : p.sz.toNat < KERNBASE)
    (same : ∀ a : Word, a.toNat < p.sz.toNat → mem a = p.mem a) (addr : Word) :
    fetchint { p with mem := mem } addr = fetchint p addr := by
  simp only [KERNBASE] at below
  unfold fetchint
  split
  · rfl
  · rename_i passes
    have inside : addr.toNat + 4 ≤ p.sz.toNat := by
      dsimp only at passes
      bv_omega
    have b0 := same addr (by omega)
    have b1 := same (addr + 1) (by bv_omega)
    have b2 := same (addr + 2) (by bv_omega)
    have b3 := same (addr + 3) (by bv_omega)
    simp only [loadWord, b0, b1, b2, b3]

theorem fetchstrLoop_local {old : Memory} {ep : Word} (same : ∀ a, a < ep → mem a = old a)
    (pp s : Word) : fetchstrLoop mem pp ep s = fetchstrLoop old pp ep s := by
  fun_induction fetchstrLoop mem pp ep s with
  | case1 s more nul =>
      have nul' : old s = 0 := (same s more).symm.trans nul
      rw [fetchstrLoop.eq_def old, if_pos more, if_pos nul']
  | case2 s more nul rest ih =>
      have nul' : ¬ old s = 0 := fun ends => nul ((same s more).trans ends)
      rw [fetchstrLoop.eq_def old, if_pos more, if_neg nul']
      simp only [rest, ih]
  | case3 s done => rw [fetchstrLoop.eq_def old, if_neg done]

theorem fetchstr_local (same : ∀ a : Word, a.toNat < p.sz.toNat → mem a = p.mem a)
    (addr : Word) : fetchstr { p with mem := mem } addr = fetchstr p addr := by
  simp only [fetchstr]
  rw [fetchstrLoop_local same]

/-- No fetch depends on a byte outside the process. -/
theorem arguments_local (below : p.sz.toNat < KERNBASE)
    (same : ∀ a : Word, a.toNat < p.sz.toNat → mem a = p.mem a) (n size : Word) :
    argptr { p with mem := mem } n size = argptr p n size ∧
      argstr { p with mem := mem } n = argstr p n := by
  have word : argint { p with mem := mem } n = argint p n := fetchint_local below same _
  constructor
  · simp only [argptr, word]
  · simp only [argstr, word, fetchstr_local same]

end Local

/-! ## The checks are exact -/

/-- Each fetch succeeds exactly where its bytes are in the process, with sums
that do not wrap, and all that is read is there. -/
theorem arguments_exact (p : Caller) (below : p.sz.toNat < KERNBASE) :
    (∀ addr v, (fetchint p addr).value = some v ↔
      addr.toNat + 4 ≤ p.sz.toNat ∧ loadWord p.mem addr = v) ∧
    (∀ n v, (argint p n).value = some v ↔
      (p.argument n).toNat + 4 ≤ p.sz.toNat ∧ loadWord p.mem (p.argument n) = v) ∧
    (∀ n size ptr, (argptr p n size).value = some ptr ↔
      (argint p n).value = some ptr ∧ 0 ≤ size.toInt ∧ ptr.toNat < p.sz.toNat ∧
        ptr.toNat + size.toNat ≤ p.sz.toNat) ∧
    (∀ addr ptr length, (fetchstr p addr).value = some (ptr, length) ↔
      ptr = addr ∧ ∃ n : Nat, length = n ∧ p.String addr n) ∧
    (∀ n ptr length, (argstr p n).value = some (ptr, length) ↔
      (argint p n).value = some ptr ∧ ∃ n : Nat, length = n ∧ p.String ptr n) ∧
    (∀ addr, ∀ a ∈ (fetchint p addr).reads, a.toNat < p.sz.toNat) ∧
    (∀ n size, ∀ a ∈ (argptr p n size).reads, a.toNat < p.sz.toNat) ∧
    (∀ addr, ∀ a ∈ (fetchstr p addr).reads, a.toNat < p.sz.toNat) ∧
    (∀ addr, (fetchstr p addr).reads.length ≤ p.sz.toNat - addr.toNat) ∧
    ∀ n, ∀ a ∈ (argstr p n).reads, a.toNat < p.sz.toNat := by
  refine ⟨fetchint_value below, fun n => fetchint_value below _, argptr_value below,
    fetchstr_value below, ?_, fetchint_reads below, fun n size => fetchint_reads below _,
    fun addr => (fetchstr_reads addr).1, fun addr => (fetchstr_reads addr).2,
    argstr_reads below⟩
  intro n ptr length
  rw [argstr_value]
  constructor
  · rintro ⟨addr, fetched, string⟩
    obtain ⟨rfl, found⟩ := (fetchstr_value below addr ptr length).mp string
    exact ⟨fetched, found⟩
  · rintro ⟨fetched, found⟩
    exact ⟨ptr, fetched, (fetchstr_value below ptr ptr length).mpr ⟨rfl, found⟩⟩

/-- A caller whose stack pointer wraps to the start of its memory. -/
def wrapped : Caller := ⟨16, 0xfffffffc, fun _ => 0⟩

theorem arguments_exact_wrapped :
    wrapped.sz.toNat < KERNBASE ∧ (argint wrapped 0).value = some 0 ∧
      (argint wrapped 4).value = none := by
  have exact_checks := arguments_exact wrapped (by decide)
  refine ⟨by decide, (exact_checks.2.1 0 0).mpr (by decide), ?_⟩
  cases value : (argint wrapped 4).value with
  | none => rfl
  | some v => exact absurd ((exact_checks.2.1 4 v).mp value).1 (by decide)

end Arguments

end Xv6.Public3
