import Xv6.Public1.TransactionSteps

/-!
# Transactions fit their reservations

The system calls, one by one, and from them what every run logs: no more than MAXOPBLOCKS
blocks, unless the path lookups free inodes of too many inode blocks.
-/

set_option autoImplicit false

namespace Xv6.Public1.Transactions

open Xv6.Lib.Words
open Xv6.Lib.Rely
open Xv6.Lib.Outcome
open Xv6.Lib.CString
open Xv6.Public1.Directory (Inum direntSize direntBytes entry)
open Xv6.Public1.Tree (T_DIR T_FILE T_DEV ROOTINO dot dotdot)

section Calls

variable {k : Machine} {p : Proc} {c : Budget} {E I : List Inum} {n m : Nat} {i dp ip inum : Inum}
  {name : List Byte}

/-! ## Directories -/

/-- dirlink() from `P`: what holds when the name is there, and when the entry is added. -/
theorem dirlink_parts (added : State → Prop)
    (steady : Steady (Others p) (c.Fits k) added)
    (found : ∀ i, Keeps k p c (Within k p c E I n) (iput k p false i)
      fun _ => Within k p c [] I (n + 2))
    (add : ∀ s, Within k p c E I n s → Gives (s.addEntry k dp name inum) fun r => added r.2) :
    Keeps k p c (Within k p c E I n) (dirlink k p dp name inum) fun r s =>
      (r < 0 → Within k p c [] I (n + 2) s) ∧ (¬ r < 0 → added s) := by
  refine triple_bind dirlookup_keeps fun here => triple_known fun _ => ?_
  cases here with
  | some here =>
      refine triple_bind (found here.1) fun _ => triple_pure steady_within fun s within => ?_
      exact ⟨fun _ => within, fun returned => absurd (by decide) returned⟩
  | none =>
      refine triple_bind (triple_atomic steady_within (fun _ => steady) add) fun _ => ?_
      exact triple_pure steady fun s holds =>
        ⟨fun failed => absurd failed (by decide), fun _ => holds⟩

/-- iput() of any inode, for one more block. -/
theorem iput_other (room : 1 + I.length + (n + 1) ≤ c.blocks) :
    Keeps k p c (Within k p c [] I n) (iput k p false i) fun _ => Within k p c [] I (n + 1) := by
  have put : Keeps k p c (Within k p c [] (i :: I) n) (iput k p false i)
      fun _ => Within k p c [] (i :: I) n :=
    iput_keeps (fun _ => List.mem_cons_self) fun lookup => absurd lookup Bool.false_ne_true
  refine triple_mono put (fun s within => within.widen i ?_) fun _ s within => within.narrow
  simp only [List.length_cons, List.length_nil]
  omega

theorem dirlink_keeps (may : dp ∈ I) (room : 1 + I.length + (n + 2) ≤ c.blocks) :
    Keeps k p c (Within k p c [] I n) (dirlink k p dp name inum)
      fun _ => Within k p c [] I (n + 2) := by
  refine triple_mono (dirlink_parts (Within k p c [] I (n + 2)) steady_within (fun i => ?_)
    fun s within => ?_) (fun _ within => within) fun r s both => ?_
  · refine triple_mono (iput_other (by omega)) (fun _ within => within) fun _ s within => ?_
    exact within.more (Nat.le_succ _) (by simp only [List.length_nil]; omega)
  · refine ends_mono (addEntry_gives within.sane) (fun _ _ => trivial) ?_
    rintro r ⟨D, few, grows⟩
    exact within.write grows may few room
  · by_cases failed : r < 0
    · exact both.1 failed
    · exact both.2 failed

/-- In a new directory, which is locked. -/
theorem dirlink_dots (may : ip ∈ I) (room : 1 + I.length + (n + 2) ≤ c.blocks) :
    Keeps k p c (Within k p c [ip] I n) (dirlink k p ip name inum) fun r s =>
      (r < 0 → Within k p c [] I (n + 2) s) ∧ (¬ r < 0 → Within k p c [ip] I (n + 1) s) := by
  refine dirlink_parts (Within k p c [ip] I (n + 1)) steady_within (fun i => ?_) fun s within => ?_
  · exact triple_mono (iput_other (n := n + 1) (by omega)) (fun s within => within.drop)
      fun _ s within => within
  · refine ends_mono (addEntry_gives within.sane) (fun _ _ => trivial) ?_
    rintro r ⟨D, few, grows⟩
    refine within.grow grows may List.mem_cons_self few ?_
    simp only [List.length_cons, List.length_nil]
    omega

/-- Two entries, and the indirect block of the directory once. -/
theorem createDots_keeps (may : ip ∈ I) (room : 1 + I.length + 3 ≤ c.blocks) :
    Keeps k p c (Within k p c [ip] I 0) (createDots k p ip dp) fun _ => Within k p c [] I 3 := by
  refine triple_bind (dirlink_dots may (by omega)) fun r => triple_branch (fun failed => ?_)
    fun linked => ?_
  · exact triple_mono (triple_fail steady_within trivial) (fun s both => both.1 failed)
      fun _ _ within => within
  refine triple_mono (P := Within k p c [ip] I 1) ?_ (fun s both => both.2 linked)
    fun _ _ within => within
  refine triple_bind (dirlink_dots may (by omega)) fun r => triple_branch (fun failed => ?_)
    fun linked => ?_
  · exact triple_mono (triple_fail steady_within trivial) (fun s both => both.1 failed)
      fun _ _ within => within
  · refine triple_mono (triple_pure steady_within fun s within => within) (fun s both => ?_)
      fun _ _ within => within
    exact (both.2 linked).drop

/-! ## create() -/

/-- The blocks other than inodes that create() may write. -/
def contents (type : Int) : Nat := if type = T_DIR then 5 else 2

/-- What create() comes to: the inode is one that the transaction may write. -/
def Made (k : Machine) (p : Proc) (c : Budget) (type : Int) (made : Option Inum) (s : State) :
    Prop :=
  ∃ I : List Inum, I.length ≤ 2 ∧ (∀ ip ∈ made, ip ∈ I) ∧ Within k p c [] I (contents type) s

theorem steady_made (type : Int) (made : Option Inum) :
    Steady (Others p) (c.Fits k) (Made k p c type made) where
  stable _ _ := fun ⟨I, few, listed, within⟩ turn => ⟨I, few, listed, within.others turn⟩
  sees _ := fun ⟨_, _, _, within⟩ => within.fits

theorem Within.made {type : Int} {made : Option Inum} {s : State}
    (within : Within k p c [] I n s) (few : I.length ≤ 2) (le : n ≤ contents type)
    (listed : ∀ ip ∈ made, ip ∈ I) (room : 3 + contents type ≤ c.blocks) :
    Made k p c type made s :=
  ⟨I, few, listed, within.more le (by simp only [List.length_nil]; omega)⟩

/-- The new inode, with `.` and `..` if it is a directory. -/
theorem createInode_keeps (type major minor : Int) (room : 3 + contents type ≤ c.blocks) :
    Keeps k p c (Within k p c [] [ip, dp] 0) (createInode k p ip dp type major minor)
      fun _ => Within k p c [] [ip, dp] (contents type - 2) := by
  have first : ip ∈ [ip, dp] := List.mem_cons_self
  have second : dp ∈ [ip, dp] := List.mem_cons_of_mem _ List.mem_cons_self
  by_cases directory : type = T_DIR
  · have more : contents type = 5 := if_pos directory
    rw [more] at room ⊢
    have locked : Keeps k p c (Within k p c [] [ip, dp] 0) (ilock p ip)
        fun _ => Within k p c [ip] [ip, dp] 0 := by
      refine triple_mono ilock_locks (fun s within => within) fun _ s both => ?_
      refine both.2.hold both.1 ?_
      simp only [List.length_cons, List.length_nil]
      omega
    refine triple_bind locked fun _ => ?_
    refine triple_bind (triple_write (Q := Within k p c [ip] [ip, dp] 0) steady_within
      steady_within fun s within => within.store _ first fun _ => ⟨rfl, rfl, rfl⟩) fun _ => ?_
    rw [if_pos directory]
    refine triple_bind (triple_write (Q := Within k p c [ip] [ip, dp] 0) steady_within
      steady_within fun s within => within.store _ second fun _ => ⟨rfl, rfl, rfl⟩) fun _ => ?_
    refine createDots_keeps first ?_
    simp only [List.length_cons, List.length_nil]
    omega
  · have fewer : contents type = 2 := if_neg directory
    rw [fewer] at room ⊢
    refine triple_bind ilock_keeps fun _ => ?_
    refine triple_bind (triple_write (Q := Within k p c [] [ip, dp] 0) steady_within
      steady_within fun s within => within.store _ first fun _ => ⟨rfl, rfl, rfl⟩) fun _ => ?_
    rw [if_neg directory]
    exact triple_pure steady_within fun s within => within

theorem create_keeps (looks : c.lookups = true) (path : List Byte) (type major minor : Int)
    (room : 3 + contents type ≤ c.blocks) :
    Keeps k p c (Within k p c [] [] 0) (create k p path type major minor)
      (Made k p c type) := by
  have some_room : 2 ≤ contents type := by
    unfold contents
    split
    · decide
    · decide
  refine triple_bind (nameiparent_keeps looks path) fun parent => ?_
  cases parent with
  | none =>
      exact triple_pure steady_within fun s within =>
        within.made (Nat.zero_le _) (Nat.zero_le _) (fun _ absent => absurd absent (by simp)) room
  | some parent =>
      obtain ⟨dp, name⟩ := parent
      refine triple_mono (P := Within k p c [] [dp] 0) ?_ (fun s within => within.widen dp ?_)
        fun _ _ made => made
      · refine triple_bind ilock_keeps fun _ => triple_bind dirlookup_keeps fun found => ?_
        refine triple_known fun _ => ?_
        cases found with
        | some found =>
            obtain ⟨ip, off⟩ := found
            refine triple_bind (put_keeps List.mem_cons_self) fun _ => ?_
            refine triple_mono (P := Within k p c [] [ip, dp] 0) ?_
              (fun s within => within.widen ip ?_) fun _ _ made => made
            · refine triple_bind ilock_keeps fun _ => triple_bind typeOf_keeps fun old => ?_
              refine triple_branch (fun _ => ?_) fun _ => ?_
              · refine triple_pure steady_within fun s within =>
                  within.made (Nat.le_refl 2) (Nat.zero_le _) (fun i same => ?_) room
                obtain rfl := Option.mem_some_iff.mp same
                exact List.mem_cons_self
              · refine triple_bind (put_keeps List.mem_cons_self) fun _ => ?_
                exact triple_pure steady_within fun s within => within.made (Nat.le_refl 2)
                  (Nat.zero_le _) (fun _ absent => absurd absent (by simp)) room
            · simp only [List.length_cons, List.length_nil]
              omega
        | none =>
            refine triple_bind (triple_atomic (Q := fun ip => Within k p c [] [ip, dp] 0)
              steady_within (fun _ => steady_within) fun s within => ialloc_gives within ?_)
              fun ip => ?_
            · simp only [List.length_cons, List.length_nil]
              omega
            refine triple_bind (createInode_keeps type major minor room) fun _ => ?_
            have second : dp ∈ [ip, dp] := List.mem_cons_of_mem _ List.mem_cons_self
            refine triple_bind (dirlink_keeps second ?_) fun r => triple_branch
              (fun _ => triple_fail steady_within trivial) fun _ => ?_
            · simp only [List.length_cons, List.length_nil]
              omega
            refine triple_bind (put_keeps second) fun _ => triple_pure steady_within fun s within =>
              within.made (Nat.le_refl 2) (Nat.le_of_eq (Nat.sub_add_cancel some_room))
                (fun i same => ?_) room
            obtain rfl := Option.mem_some_iff.mp same
            exact List.mem_cons_self
      · simp only [List.length_cons, List.length_nil]
        omega

/-! ## System calls -/

/-- What a call promises once it has returned, which is nothing more. -/
abbrev Fitting (k : Machine) (p : Proc) (c : Budget) (I : List Inum) (n : Nat) (x : Code Int) :
    Prop :=
  Keeps k p c (Within k p c [] I n) x fun _ _ => True

theorem fitting_pure (r : Int) : Fitting k p c I n (pure r) :=
  triple_pure steady_within fun _ _ => trivial

theorem fitting_put (may : i ∈ I) {x : Code Int} (rest : Fitting k p c I n x) :
    Fitting k p c I n (iunlockput k p false i >>= fun _ => x) :=
  triple_bind (put_keeps may) fun _ => rest

theorem fitting_widen (i : Inum) {x : Code Int} (rest : Fitting k p c (i :: I) n x)
    (room : 1 + (i :: I).length + n ≤ c.blocks) : Fitting k p c I n x :=
  triple_mono rest (fun _ within => within.widen i (by simpa using room)) fun _ _ done => done

/-- A call that goes on with what create() has made. -/
theorem fitting_create (looks : c.lookups = true) (path : List Byte) (type major minor : Int)
    (room : 3 + contents type ≤ c.blocks) {next : Option Inum → Code Int}
    (none_made : ∀ I n, Fitting k p c I n (next none))
    (made : ∀ ip I n, ip ∈ I → Fitting k p c I n (next (some ip))) :
    Fitting k p c [] 0 (create k p path type major minor >>= next) := by
  refine triple_bind (create_keeps looks path type major minor room) fun r => ?_
  rintro s ⟨I, _, listed, within⟩
  cases r with
  | none => exact none_made I _ s within
  | some ip => exact made ip I _ (listed ip rfl) s within

theorem sys_open_fits (looks : c.lookups = true) (path : List Byte) (fd : Option Nat)
    (room : 5 ≤ c.blocks) : Fitting k p c [] 0 (sys_open k p path fd) := by
  refine fitting_create looks path T_FILE 0 0 room (fun _ _ => fitting_pure _) fun ip _ _ may => ?_
  cases fd with
  | none => exact fitting_put may (fitting_pure _)
  | some fd => exact triple_bind iunlock_keeps fun _ => fitting_pure _

theorem sys_create_fits (looks : c.lookups = true) (path : List Byte) (type major minor : Int)
    (room : 3 + contents type ≤ c.blocks) :
    Fitting k p c [] 0 (sys_create k p path type major minor) :=
  fitting_create looks path type major minor room (fun _ _ => fitting_pure _)
    fun _ _ _ may => fitting_put may (fitting_pure _)

theorem sys_linkBad_fits (may : ip ∈ I) : Fitting k p c I n (sys_linkBad k p ip) := by
  refine triple_bind ilock_keeps fun _ => ?_
  refine triple_bind (triple_write (Q := Within k p c [] I n) steady_within steady_within
    fun s within => within.store _ may fun _ => ⟨rfl, rfl, rfl⟩) fun _ => ?_
  exact fitting_put may (fitting_pure _)

theorem sys_link_fits (looks : c.lookups = true) (old new : List Byte) (room : 5 ≤ c.blocks) :
    Fitting k p c [] 0 (sys_link k p old new) := by
  refine triple_bind (namei_keeps looks old) fun found => ?_
  cases found with
  | none => exact fitting_pure _
  | some ip =>
      refine fitting_widen ip ?_ (by simp only [List.length_cons, List.length_nil]; omega)
      refine triple_bind ilock_keeps fun _ => triple_bind typeOf_keeps fun type => ?_
      refine triple_branch (fun _ => fitting_put List.mem_cons_self (fitting_pure _)) fun _ => ?_
      refine triple_bind (triple_write (Q := Within k p c [] [ip] 0) steady_within steady_within
        fun s within => within.store _ List.mem_cons_self fun _ => ⟨rfl, rfl, rfl⟩) fun _ => ?_
      refine triple_bind iunlock_keeps fun _ => triple_bind (nameiparent_keeps looks new)
        fun parent => ?_
      cases parent with
      | none => exact sys_linkBad_fits List.mem_cons_self
      | some parent =>
          obtain ⟨dp, name⟩ := parent
          refine fitting_widen dp ?_ (by simp only [List.length_cons, List.length_nil]; omega)
          have first : dp ∈ [dp, ip] := List.mem_cons_self
          have second : ip ∈ [dp, ip] := List.mem_cons_of_mem _ List.mem_cons_self
          refine triple_bind ilock_keeps fun _ => triple_bind (dirlink_keeps first ?_)
            fun r => triple_branch (fun _ => ?_) fun _ => ?_
          · simp only [List.length_cons, List.length_nil]
            omega
          · exact fitting_put first (sys_linkBad_fits second)
          · refine fitting_put first (triple_bind (iput_keeps (fun _ => second)
              fun lookup => absurd lookup Bool.false_ne_true) fun _ => fitting_pure _)

theorem clearName_keeps {type : Int} {q : Nat} (may : dp ∈ I)
    (room : 1 + I.length + (n + 2) ≤ c.blocks) :
    Keeps k p c (Within k p c [] I n) (clearName k dp (direntSize * q) type)
      fun _ => Within k p c [] I (n + 2) := by
  refine triple_bind (triple_atomic (Q := fun _ => Within k p c [] I (n + 2)) steady_within
    (fun _ => steady_within) fun s within => ?_) fun _ => ?_
  · refine ends_mono (clearEntry_gives within.sane) (fun _ _ => trivial) ?_
    rintro r ⟨D, few, grows⟩
    exact within.write grows may few room
  · refine triple_branch (fun _ => ?_) fun _ => triple_pure steady_within fun s within => within
    exact triple_write steady_within steady_within fun s within =>
      within.store _ may fun _ => ⟨rfl, rfl, rfl⟩

theorem unlinkEntry_fits {type : Int} {q : Nat} (may : dp ∈ I) (may' : ip ∈ I)
    (room : 1 + I.length + (n + 2) ≤ c.blocks) :
    Fitting k p c I n (unlinkEntry k p dp ip (direntSize * q) type) := by
  refine triple_bind (clearName_keeps may room) fun _ => fitting_put may ?_
  refine triple_bind (triple_write (Q := Within k p c [] I (n + 2)) steady_within steady_within
    fun s within => within.store _ may' fun _ => ⟨rfl, rfl, rfl⟩) fun _ => ?_
  exact fitting_put may' (fitting_pure _)

theorem sys_unlink_fits (looks : c.lookups = true) (path : List Byte) (room : 5 ≤ c.blocks) :
    Fitting k p c [] 0 (sys_unlink k p path) := by
  refine triple_bind (nameiparent_keeps looks path) fun parent => ?_
  cases parent with
  | none => exact fitting_pure _
  | some parent =>
      obtain ⟨dp, name⟩ := parent
      refine fitting_widen dp ?_ (by simp only [List.length_cons, List.length_nil]; omega)
      refine triple_bind ilock_keeps fun _ => triple_branch
        (fun _ => fitting_put List.mem_cons_self (fitting_pure _)) fun _ => ?_
      refine triple_bind dirlookup_keeps fun found => triple_known fun aligned => ?_
      cases found with
      | none => exact fitting_put List.mem_cons_self (fitting_pure _)
      | some found =>
          obtain ⟨ip, off⟩ := found
          obtain ⟨q, rfl⟩ := aligned _ rfl
          refine fitting_widen ip ?_ (by simp only [List.length_cons, List.length_nil]; omega)
          have first : ip ∈ [ip, dp] := List.mem_cons_self
          have second : dp ∈ [ip, dp] := List.mem_cons_of_mem _ List.mem_cons_self
          have fits : ∀ type, Fitting k p c [ip, dp] 0
              (unlinkEntry k p dp ip (direntSize * q) type) := fun type => by
            refine unlinkEntry_fits second first ?_
            simp only [List.length_cons, List.length_nil]
            omega
          refine triple_bind ilock_keeps fun _ => triple_bind (triple_look steady_within)
            fun nlink => triple_branch (fun _ => triple_fail steady_within trivial) fun _ => ?_
          refine triple_bind typeOf_keeps fun type => triple_branch (fun _ => ?_) fun _ => fits type
          refine triple_bind (triple_atomic (Q := fun _ => Within k p c [] [ip, dp] 0)
            steady_within (fun _ => steady_within) fun s within => isdirempty_gives within)
            fun empty => triple_branch (fun _ => fits type) fun _ => ?_
          exact fitting_put first (fitting_put second (fitting_pure _))

theorem sys_chdir_fits (looks : c.lookups = true) (path : List Byte) (room : 2 ≤ c.blocks) :
    Fitting k p c [] 0 (sys_chdir k p path) := by
  refine triple_bind (namei_keeps looks path) fun found => ?_
  cases found with
  | none => exact fitting_pure _
  | some ip =>
      refine triple_bind ilock_keeps fun _ => triple_bind typeOf_keeps fun type =>
        triple_branch (fun _ => ?_) fun _ => ?_
      · refine fitting_widen ip (fitting_put List.mem_cons_self (fitting_pure _)) ?_
        simp only [List.length_cons, List.length_nil]
        omega
      · refine triple_bind iunlock_keeps fun _ => fitting_widen p.cwd ?_ ?_
        · exact triple_bind (iput_keeps (fun _ => List.mem_cons_self)
            fun lookup => absurd lookup Bool.false_ne_true) fun _ => fitting_pure _
        · simp only [List.length_cons, List.length_nil]
          omega

theorem chmod_actual_fits (looks : c.lookups = true) (file : List Byte) (mode : Word)
    (room : 2 ≤ c.blocks) : Fitting k p c [] 0 (chmod_actual k p file mode) := by
  refine triple_bind (namei_keeps looks file) fun found => ?_
  cases found with
  | none => exact fitting_pure _
  | some ip =>
      refine fitting_widen ip ?_ (by simp only [List.length_cons, List.length_nil]; omega)
      refine triple_bind ilock_keeps fun _ => ?_
      refine triple_bind (triple_write (Q := Within k p c [] [ip] 0) steady_within steady_within
        fun s within => within.store _ List.mem_cons_self fun _ => ⟨rfl, rfl, rfl⟩) fun _ => ?_
      exact fitting_put List.mem_cons_self (fitting_pure _)

theorem fileclose_fits (room : 2 ≤ c.blocks) : Fitting k p c [] 0 (fileclose k p ip) := by
  refine fitting_widen ip ?_ (by simp only [List.length_cons, List.length_nil]; omega)
  exact triple_bind (iput_keeps (fun _ => List.mem_cons_self)
    fun lookup => absurd lookup Bool.false_ne_true) fun _ => fitting_pure _

/-- The bytes of a round have at most four blocks, wherever they start. -/
theorem spanned_chunk (off : Nat) (addr : List Byte) :
    spanned off (addr.take maxChunk).length ≤ 4 := by
  have short : (addr.take maxChunk).length ≤ 1536 := List.length_take_le _ _
  generalize (addr.take maxChunk).length = n at short
  unfold spanned
  simp only [Blocks.BSIZE]
  split
  · omega
  · omega

theorem filewrite_fits (off : Nat) (addr : List Byte) (room : 7 ≤ c.blocks) :
    Fitting k p c [] 0 (filewrite k p ip off addr) := by
  refine fitting_widen ip ?_ (by simp only [List.length_cons, List.length_nil]; omega)
  refine triple_bind ilock_keeps fun _ => triple_bind
    (triple_atomic (Q := fun _ => Within k p c [] [ip] 5) steady_within
      (fun _ => steady_within) fun s within => ?_) fun r => triple_bind iunlock_keeps
    fun _ => fitting_pure _
  refine ends_mono (writei_gives within.sane _ off) (fun _ _ => trivial) ?_
  rintro r ⟨D, few, grows⟩
  have grown := within.write grows List.mem_cons_self (Nat.le_trans few (spanned_chunk off addr))
    (by simp only [List.length_cons, List.length_nil]; omega)
  exact grown

end Calls

/-! ## Runs -/

/-- What a call may log itself. -/
def Op.budget : Op → Budget
  | .write _ _ _ => ⟨7, false⟩
  | .create _ _ | .mknod _ _ _ | .link _ _ | .unlink _ => ⟨5, true⟩
  | .mkdir _ => ⟨8, true⟩
  | .chdir _ | .chmod _ _ => ⟨2, true⟩
  | .close _ => ⟨2, false⟩

/-- How many inode blocks the inodes may lie in that its path lookups free. -/
def Op.Allows (blocks : Nat) : Op → Prop
  | .write _ _ _ | .close _ => True
  | .create _ _ | .mknod _ _ _ | .link _ _ | .unlink _ => blocks ≤ 5
  | .mkdir _ => blocks ≤ 2
  | .chdir _ | .chmod _ _ => blocks ≤ 8

theorem op_fits (k : Machine) (p : Proc) (op : Op) :
    Fitting k p op.budget [] 0 (op.code k p) := by
  cases op with
  | write ip off addr => exact filewrite_fits off addr (Nat.le_refl 7)
  | create path fd => exact sys_open_fits rfl path fd (Nat.le_refl 5)
  | mkdir path => exact sys_create_fits rfl path T_DIR 0 0 (Nat.le_refl 8)
  | mknod path major minor => exact sys_create_fits rfl path T_DEV major minor (Nat.le_refl 5)
  | link old new => exact sys_link_fits rfl old new (Nat.le_refl 5)
  | unlink path => exact sys_unlink_fits rfl path (Nat.le_refl 5)
  | chdir path => exact sys_chdir_fits rfl path (Nat.le_refl 2)
  | chmod file mode => exact chmod_actual_fits rfl file mode (Nat.le_refl 2)
  | close ip => exact fileclose_fits (Nat.le_refl 2)

section Runs

variable {k : Machine} {p : Proc} {op : Op} {s s' : State} {x : Code Int}

theorem runs_fit (sane : Sane s) (run : Runs (Others p) (op.code k p, s.begin_op) (x, s')) :
    op.budget.Fits k s' := by
  have start : Within k p op.budget [] [] 0 s.begin_op :=
    { sane := ⟨sane.boot_block, sane.fine⟩
      held := List.forall_mem_nil _
      room := by cases op <;> exact Nat.le_of_ble_eq_true rfl
      log := ⟨[], Nat.le_refl 0, List.forall_mem_nil _⟩ }
  exact (wp_runs (op_fits k p op _ start) run).seen

/-- A transaction logs at most MAXOPBLOCKS blocks, whatever the other processes do, unless its
path lookups free inodes of too many inode blocks. -/
theorem transactions_fit (sane : Sane s)
    (run : Runs (Others p) (op.code k p, s.begin_op) (x, s'))
    (few : op.Allows (distinct (s'.freed.map k.IBLOCK))) : distinct s'.log ≤ MAXOPBLOCKS := by
  have fits := runs_fit sane run
  unfold Budget.Fits Budget.freed at fits
  unfold MAXOPBLOCKS
  cases op with
  | write _ _ _ =>
      have bound : distinct s'.log ≤ 7 := fits
      omega
  | create _ _ | mknod _ _ _ | link _ _ | unlink _ =>
      have allowed : distinct (s'.freed.map k.IBLOCK) ≤ 5 := few
      have bound : distinct s'.log ≤ 5 + distinct (s'.freed.map k.IBLOCK) := fits
      omega
  | mkdir _ =>
      have allowed : distinct (s'.freed.map k.IBLOCK) ≤ 2 := few
      have bound : distinct s'.log ≤ 8 + distinct (s'.freed.map k.IBLOCK) := fits
      omega
  | chdir _ | chmod _ _ =>
      have allowed : distinct (s'.freed.map k.IBLOCK) ≤ 8 := few
      have bound : distinct s'.log ≤ 2 + distinct (s'.freed.map k.IBLOCK) := fits
      omega
  | close _ =>
      have bound : distinct s'.log ≤ 2 := fits
      omega

end Runs

/-! ## A chain of removed directories -/

/-- The layout that mkfs gives an image. -/
def image : Machine where
  inodestart := 32
  bmapstart := 58
  ninodes := 200
  devwrite := fun _ => none

/-- A directory with one block, that has the entries `.` and `..` alone. -/
def bare (self parent : Inum) (block : Nat) (nlink : Int) : Inode where
  type := T_DIR
  major := 0
  minor := 0
  nlink := nlink
  size := 2 * direntSize
  mode := 7
  addrs := fun bn => if bn = 0 then block else 0
  indirect := 0
  data := fun q => (direntBytes (entry dot self) ++ direntBytes (entry dotdot parent)).getD q 0

/-- The inodes 8, 16, ..., 80. -/
def Removed (i : Inum) : Prop := i.toNat % 8 = 0 ∧ 8 ≤ i.toNat ∧ i.toNat ≤ 80

instance (i : Inum) : Decidable (Removed i) := inferInstanceAs (Decidable (_ ∧ _))

/-- Each of ten directories was in the one before it.  All are removed, and each is the
current directory of one process. -/
def chain : State where
  inode := fun i =>
    if i = ROOTINO then bare ROOTINO ROOTINO 59 1
    else if Removed i then bare i (if i = 8 then ROOTINO else i - 8) (100 + i.toNat) 0
    else cleared 0
  ref := fun i => if Removed i then 1 else 0
  valid := fun i => decide (Removed i)
  lock := fun _ => none
  used := fun b => decide (b < 200)
  log := []
  freed := []

/-- The process in the last of them. -/
def last : Proc where
  pid := 1
  cwd := 80

theorem bare_fine {self parent : Inum} {block : Nat} {nlink : Int} (some_block : block ≠ 0)
    (inside : block < FSSIZE) : Fine (bare self parent block nlink) where
  mapped := by
    intro bn low
    have first : bn = 0 := by
      simp only [bare, direntSize, Blocks.BSIZE] at low
      omega
    rw [first]
    exact some_block
  entries := fun _ bn high => if_neg (Nat.ne_of_gt (Nat.lt_of_lt_of_le (by decide) high))
  inside := by
    intro bn
    dsimp only [bare]
    split
    · exact inside
    · exact image_pos
  indirect := image_pos

theorem chain_sane : Sane chain where
  boot_block := rfl
  fine := by
    intro i
    dsimp only [chain]
    split
    · exact bare_fine (by decide) (by decide +kernel)
    split
    · rename_i removed
      have small : i.toNat ≤ 80 := removed.2.2
      refine bare_fine (by omega) (Nat.lt_of_le_of_lt (Nat.add_le_add_left small 100) ?_)
      decide +kernel
    · exact ⟨fun _ low => absurd low (Nat.not_lt_zero _), fun _ _ _ => rfl, fun _ => image_pos,
        image_pos⟩

/-- iput() by another process, when the reference is not the last one. -/
def leave (i : Inum) (s : State) : Option State :=
  if 2 ≤ s.ref i ∧ s.lock i = none then some (s.setRef i (s.ref i - 1)) else none

def Leaves (s s' : State) : Prop := ∃ i, leave i s = some s'

theorem leaves_others {p : Proc} {s s' : State} (leaves : Leaves s s') : Others p s s' := by
  obtain ⟨i, left⟩ := leaves
  unfold leave at left
  split at left
  · cases left
    exact ⟨fun sane => ⟨sane.boot_block, sane.fine⟩, fun _ _ => rfl, fun _ => Iff.rfl, rfl, rfl⟩
  · cases left

/-- A process leaves a directory, and the transaction goes past it. -/
def departure (j : Nat) : List (Option Inum) :=
  some (BitVec.ofNat 16 (72 - 8 * j)) :: List.replicate 10 none

/-- Each directory is left before the transaction takes the lock of it. -/
def departures : List (Option Inum) :=
  List.replicate 6 none ++ (List.range 9).flatMap departure ++ List.replicate 12 none

def up : List Byte := bytes "../../../../../../../../../.."

theorem mkdir_fits : ∃ c : Code Int × State,
    replay leave (List.replicate 32 none)
        ((Op.mkdir (bytes "/a")).code image last, chain.begin_op) = some c ∧
      distinct c.2.log = 4 ∧ distinct c.2.log ≤ MAXOPBLOCKS := by
  have made : ((replay leave (List.replicate 32 none)
      ((Op.mkdir (bytes "/a")).code image last, chain.begin_op)).map fun c =>
        (distinct c.2.log, c.2.freed)) = some (4, []) := by decide +kernel
  obtain ⟨⟨x, s'⟩, played, counts⟩ := Option.map_eq_some_iff.mp made
  obtain ⟨four, nothing⟩ := Prod.mk.inj counts
  have moves : ∀ i s s', leave i s = some s' → Others last s s' :=
    fun i _ _ left => leaves_others ⟨i, left⟩
  have run := runs_of_replay moves played
  refine ⟨(x, s'), played, four, transactions_fit chain_sane run ?_⟩
  rw [nothing]
  exact Nat.zero_le 2

/-- The path lookup of one chdir() frees nine directories. -/
theorem lookups_overflow : ¬ ∀ (k : Machine) (p : Proc) (op : Op) (s s' : State) (x : Code Int),
    Sane s → Runs Leaves (op.code k p, s.begin_op) (x, s') → distinct s'.log ≤ MAXOPBLOCKS := by
  intro every
  have made : ((replay leave departures ((Op.chdir up).code image last, chain.begin_op)).map
      fun c => distinct c.2.log) = some 11 := by decide +kernel
  obtain ⟨⟨x, s'⟩, played, eleven⟩ := Option.map_eq_some_iff.mp made
  have moves : ∀ i s s', leave i s = some s' → Leaves s s' := fun i _ _ left => ⟨i, left⟩
  have run := runs_of_replay moves played
  have bound := every image last (.chdir up) chain s' x chain_sane run
  rw [eleven] at bound
  exact absurd bound (by decide)

end Xv6.Public1.Transactions
