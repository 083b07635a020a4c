-- The inode cache of fs.c under any interleaving: processes that get, lock, change, unlock and put
-- inodes, while ialloc takes free inodes on the disk and iput frees inodes without links. A step is
-- a critical section of icache.lock, a use of a disk inode in its buffer, or a write to an inode.
import Xv6.Fs
import Xv6.Places
import Xv6.Runs

open Option Function runs places

namespace xv6.inodes

open fs (Dinode Inode)

/-! ## The state -/

/-- Where a process stands. -/
inductive Pc where
  /-- outside of the functions below -/
  | user
  /-- in `ilock`, at the loop that waits for I_BUSY -/
  | lock (k : Nat)
  /-- in `ilock`, at the test of I_VALID -/
  | load (k : Nat)
  /-- in `ilock`, at the test of the type -/
  | check (k : Nat)
  /-- in `iput`, in `itrunc`, at `addrs[i]` -/
  | trunc (k i : Nat)
  /-- in `iput`, in `itrunc`, at `iupdate` -/
  | trunc_update (k : Nat)
  /-- in `iput`, at `ip->type = 0` -/
  | free (k : Nat)
  /-- in `iput`, at `iupdate` -/
  | free_update (k : Nat)
  /-- in `iput`, at the second `acquire` -/
  | drop (k : Nat)
  /-- in `ialloc`, at inode `inum` of the loop -/
  | alloc (dev : Nat) (type : UInt16) (inum : Nat)
  /-- in `ialloc`, at `iget` -/
  | get (dev inum : Nat)
  deriving DecidableEq

structure Sys where
  /-- the inodes on the disk, as the buffer cache gives them -/
  disk : Nat → Nat → Dinode
  /-- `icache.inode`, of which the first NINODE are there -/
  icache : Nat → Inode
  pc : Nat → Pc
  /-- how many pointers a process has to an entry -/
  refs : Nat → Nat → Nat
  /-- a process has locked an entry -/
  locks : Nat → Nat → Bool
  /-- an entry was changed after the last `iupdate` of its holder -/
  dirty : Nat → Bool
  panic : Option String

/-- After boot: nothing is in the cache. -/
def init (disk : Nat → Nat → Dinode) : Sys :=
  { disk := disk, icache := fun _ => ⟨0, 0, 0, false, false, Dinode.zero⟩, pc := fun _ => .user
    refs := fun _ _ => 0, locks := fun _ _ => false, dirty := fun _ => false, panic := none }

namespace Sys

def setInode (s : Sys) (k : Nat) (ip : Inode) : Sys :=
  { s with icache := Function.update s.icache k ip }

def move (s : Sys) (p : Nat) (x : Pc) : Sys := { s with pc := Function.update s.pc p x }

/-- Process `p` has `n` pointers to entry `k`. -/
def setRefs (s : Sys) (p k n : Nat) : Sys :=
  { s with refs := Function.update s.refs p (Function.update (s.refs p) k n) }

def setLock (s : Sys) (p k : Nat) (b : Bool) : Sys :=
  { s with locks := Function.update s.locks p (Function.update (s.locks p) k b) }

def setDirty (s : Sys) (k : Nat) (b : Bool) : Sys := { s with dirty := Function.update s.dirty k b }

def setDisk (s : Sys) (dev inum : Nat) (d : Dinode) : Sys :=
  { s with disk := Function.update s.disk dev (Function.update (s.disk dev) inum d) }

/-- The disk inode of entry `k`. -/
def dinode (s : Sys) (k : Nat) : Dinode := s.disk (s.icache k).dev (s.icache k).inum

/-- The first entry, in a scan of the cache, that passes the test. -/
def first (s : Sys) (test : Inode → Prop) [DecidablePred test] : Option Nat :=
  (List.range NINODE).find? fun k => test (s.icache k)

def stop (s : Sys) (msg : String) : Sys := { s with panic := some msg }

end Sys

/-! ## The functions -/

/-- `ref++`, for an `int`. -/
def inc (ref : Int) : Int := toInt (ofInt (ref + 1))

/-- `ref--`, for an `int`. -/
def dec (ref : Int) : Int := toInt (ofInt (ref - 1))

/-- `iget`, by process `p`. -/
def iget (s : Sys) (p dev inum : Nat) : Sys :=
  match s.first fun ip => ip.ref > 0 ∧ ip.dev = dev ∧ ip.inum = inum with
  | some k =>
    ((s.setInode k { s.icache k with ref := inc (s.icache k).ref }).setRefs p k
      (s.refs p k + 1)).move p .user
  | none =>
    match s.first fun ip => ip.ref = 0 with
    | none => s.stop "iget: no inodes"
    | some k =>
      ((s.setInode k { s.icache k with
        dev := dev, inum := inum, ref := 1, busy := false, valid := false }).setRefs p k
        (s.refs p k + 1)).move p .user

def idup (s : Sys) (p k : Nat) : Sys :=
  ((s.setInode k { s.icache k with ref := inc (s.icache k).ref }).setRefs p k
    (s.refs p k + 1)).move p .user

/-- `ip->ref--`, by process `p`. -/
def putRef (s : Sys) (p k : Nat) : Sys :=
  ((s.setInode k { s.icache k with ref := dec (s.icache k).ref }).setRefs p k
    (s.refs p k - 1)).move p .user

/-- `ilock`, up to its loop. -/
def ilock (s : Sys) (p k : Nat) : Sys :=
  if (s.icache k).ref < 1 then s.stop "ilock" else s.move p (.lock k)

def iunlock (s : Sys) (p k : Nat) : Sys :=
  if ¬ (s.icache k).busy ∨ (s.icache k).ref < 1 then s.stop "iunlock"
  else (s.setInode k { s.icache k with busy := false }).setLock p k false

/-- `iput`, up to the `itrunc` of an inode with no links and no other references. -/
def iput (s : Sys) (p k : Nat) : Sys :=
  if (s.icache k).ref = 1 ∧ (s.icache k).valid ∧ (s.icache k).din.nlink = 0 then
    if (s.icache k).busy then s.stop "iput busy"
    else ((s.setInode k { s.icache k with busy := true }).setLock p k true).move p (.trunc k 0)
  else putRef s p k

/-- Write the entry to the disk. -/
def iupdate (s : Sys) (k : Nat) : Sys :=
  (s.setDisk (s.icache k).dev (s.icache k).inum (s.icache k).din).setDirty k false

/-- A write to the fields of the entry. -/
def change (s : Sys) (k : Nat) (d : Dinode) : Sys :=
  (s.setInode k { s.icache k with din := d }).setDirty k true

/-- The next step of process `p` in the function it is in. There are `ninodes` inodes. -/
def go (ninodes : Nat) (s : Sys) (p : Nat) : Option Sys :=
  match s.pc p with
  | .user => none
  | .lock k =>
    if (s.icache k).busy then none
    else some ((((s.setInode k { s.icache k with busy := true }).setLock p k true).setDirty k
      false).move p (.load k))
  | .load k =>
    if (s.icache k).valid then some (s.move p .user)
    else some ((s.setInode k { s.icache k with din := s.dinode k, valid := true }).move p
      (.check k))
  | .check k =>
    if (s.icache k).din.type = 0 then some (s.stop "ilock: no type") else some (s.move p .user)
  | .trunc k i =>
    if i ≤ NDIRECT then some ((change s k ((s.icache k).din.setAddr i 0)).move p (.trunc k (i + 1)))
    else some ((change s k { (s.icache k).din with size := 0 }).move p (.trunc_update k))
  | .trunc_update k => some ((iupdate s k).move p (.free k))
  | .free k => some ((change s k { (s.icache k).din with type := 0 }).move p (.free_update k))
  | .free_update k => some ((iupdate s k).move p (.drop k))
  | .drop k =>
    some (putRef ((s.setInode k { s.icache k with busy := false, valid := false }).setLock p
      k false) p k)
  | .alloc dev type inum =>
    if inum < ninodes then
      if (s.disk dev inum).type = 0 then
        some ((s.setDisk dev inum { Dinode.zero with type := type }).move p (.get dev inum))
      else some (s.move p (.alloc dev type (inum + 1)))
    else some (s.stop "ialloc: no inodes")
  | .get dev inum => some (iget s p dev inum)

/-- What can happen next. -/
inductive Act where
  | iget (p dev inum : Nat)
  | idup (p k : Nat)
  | ilock (p k : Nat)
  | iunlock (p k : Nat)
  | iput (p k : Nat)
  | ialloc (p dev : Nat) (type : UInt16)
  | iupdate (p k : Nat)
  /-- process `p` writes to the fields of entry `k` -/
  | change (p k : Nat) (d : Dinode)
  /-- process `p` goes on in the function it is in -/
  | go (p : Nat)

/-- The process that takes the action. -/
def Act.proc : Act → Nat
  | .iget p _ _ | .idup p _ | .ilock p _ | .iunlock p _ | .iput p _ | .ialloc p _ _
  | .iupdate p _ | .change p _ _ | .go p => p

/-- The state after a call, for a process that is in no function. -/
def call (s : Sys) : Act → Sys
  | .iget p dev inum => iget s p dev inum
  | .idup p k => idup s p k
  | .ilock p k => ilock s p k
  | .iunlock p k => iunlock s p k
  | .iput p k => iput s p k
  | .ialloc p dev type => s.move p (.alloc dev type 1)
  | .iupdate _ k => iupdate s k
  | .change _ k d => change s k d
  | .go _ => s

def step (ninodes : Nat) (s : Sys) (a : Act) : Option Sys :=
  if s.panic.isSome then none
  else
    match a with
    | .go p => go ninodes s p
    | a => if s.pc a.proc = .user then some (call s a) else none

/-! ## The contract -/

/-- There is room for one more pointer to each entry. -/
def Sys.Room (s : Sys) : Prop := ∀ k < NINODE, (s.icache k).ref < 2 ^ 31 - 1

instance (s : Sys) : Decidable s.Room := inferInstanceAs (Decidable (∀ k < NINODE, _))

/-- Processes use the entries that they have pointers to, and keep one while they hold the lock;
they change fields only while they hold I_BUSY, and call `iupdate` before `iunlock`. -/
def Careful (s : Sys) : Act → Prop
  | .iget _ _ _ | .go _ => s.Room
  | .idup p k => 0 < s.refs p k ∧ s.Room
  | .ilock p k => 0 < s.refs p k
  | .iunlock p k => s.locks p k = true ∧ s.dirty k = false
  | .iput p k => 0 < s.refs p k ∧ (s.locks p k = true → 1 < s.refs p k)
  | .ialloc _ _ _ => True
  | .iupdate p k => s.locks p k = true
  | .change p k _ => s.locks p k = true

instance (s : Sys) (a : Act) : Decidable (Careful s a) := by
  cases a <;> unfold Careful <;> infer_instance

/-- Nobody but `iput` makes an inode one of type 0, which is a free one. -/
def KeepsType : Act → Prop
  | .change _ _ d => d.type ≠ 0
  | _ => True

instance (a : Act) : Decidable (KeepsType a) := by
  cases a <;> unfold KeepsType <;> infer_instance

/-! ## The invariant -/

/-- The entry that a process has locked and that is not ready for it yet, or no more. -/
def Pc.busy : Pc → Option Nat
  | .load k | .check k | .trunc k _ | .trunc_update k | .free k | .free_update k | .drop k => some k
  | _ => none

/-- The entry has what the disk has, and is not free. -/
def Sys.Agrees (s : Sys) (k : Nat) : Prop :=
  (s.icache k).din = s.dinode k ∧ (s.icache k).din.type ≠ 0

/-- What holds for process `p` at a place. -/
def Sys.At (s : Sys) (p : Nat) : Pc → Prop
  | .lock k => 0 < s.refs p k
  | .load k => s.locks p k = true ∧ s.dirty k = false ∧ ((s.icache k).valid = true → s.Agrees k)
  | .check k => s.locks p k = true ∧ s.dirty k = false ∧ (s.icache k).valid = true ∧
      ((s.icache k).din.type ≠ 0 → s.Agrees k)
  | .trunc k _ | .trunc_update k | .free k | .free_update k | .drop k => s.locks p k = true
  | _ => True

/-- An entry in the hands of the process that has locked it. -/
structure Sys.Working (s : Sys) (k : Nat) : Prop where
  valid : (s.icache k).valid = true
  type : (s.icache k).din.type ≠ 0
  alloc : (s.dinode k).type ≠ 0
  clean : s.dirty k = false → (s.icache k).din = s.dinode k

structure Inv (s : Sys) : Prop where
  small : ∀ k, 0 < (s.icache k).ref → k < NINODE
  refs : ∀ k, ∃ n : Nat, n < 2 ^ 31 ∧ (s.icache k).ref = n ∧
    Total (fun r : Nat → Nat => r k) s.refs n
  unique : ∀ k k', 0 < (s.icache k).ref → 0 < (s.icache k').ref →
    (s.icache k).dev = (s.icache k').dev → (s.icache k).inum = (s.icache k').inum → k = k'
  held : ∀ p k, s.locks p k = true → (s.icache k).busy = true ∧ 0 < s.refs p k
  one : ∀ p q k, s.locks p k = true → s.locks q k = true → p = q
  idle : ∀ k, 0 < (s.icache k).ref → (s.icache k).valid = true → (s.icache k).busy = false →
    s.Agrees k
  place : ∀ p, s.At p (s.pc p)
  mine : ∀ p k, s.locks p k = true → (s.pc p).busy ≠ some k → s.Working k

theorem inv_init (disk : Nat → Nat → Dinode) : Inv (init disk) := by
  constructor
  · intro k hk
    simp [init] at hk
  · intro k
    exact ⟨0, by decide, rfl, Total.zero fun _ => rfl⟩
  · intro k k' hk
    simp [init] at hk
  · intro p k h
    cases h
  · intro p q k h
    cases h
  · intro k hk
    simp [init] at hk
  · intro p
    trivial
  · intro p k h
    cases h

/-- One value of a table changes. -/
theorem table_update {α : Type*} (f : Nat → Nat → α) (p k : Nat) (v : α) (q k' : Nat) :
    update f p (update (f p) k v) q k' = if q = p ∧ k' = k then v else f q k' := by
  by_cases hq : q = p
  · subst hq
    by_cases hk : k' = k
    · subst hk
      simp
    · simp [hk]
  · simp [hq]

section Inv

variable {s s' : Sys} {p q k k' : Nat} {x : Pc}

/-- Who has a pointer is counted. -/
theorem Inv.ref_pos (h : Inv s) (hp : 0 < s.refs p k) : 0 < (s.icache k).ref := by
  obtain ⟨n, _, hn, htotal⟩ := h.refs k
  have hle : s.refs p k ≤ n := htotal.le p
  omega

theorem Inv.ref_of_lock (h : Inv s) (hp : s.locks p k = true) : 0 < (s.icache k).ref :=
  h.ref_pos (h.held p k hp).2

/-- Nobody holds an entry that is not busy. -/
theorem Inv.free_of_idle (h : Inv s) (hb : (s.icache k).busy = false) (q : Nat) :
    s.locks q k = false := by
  by_contra hq
  have := (h.held q k (by simpa using hq)).1
  rw [hb] at this
  cases this

/-- Nobody else holds an entry that `p` holds. -/
theorem Inv.free_of_lock (h : Inv s) (hp : s.locks p k = true) (q : Nat) (hq : q ≠ p) :
    s.locks q k = false := by
  by_contra hc
  exact hq (h.one q p k (by simpa using hc) hp)

/-- An entry, but for its count, and its disk inode are as before. -/
structure Sys.Same (s s' : Sys) (k : Nat) : Prop where
  busy : (s'.icache k).busy = (s.icache k).busy
  valid : (s'.icache k).valid = (s.icache k).valid
  din : (s'.icache k).din = (s.icache k).din
  dinode : s'.dinode k = s.dinode k
  dirty : s'.dirty k = s.dirty k

theorem same_of_eq (hic : s'.icache k = s.icache k) (hdin : s'.dinode k = s.dinode k)
    (hdirty : s'.dirty k = s.dirty k) : s.Same s' k := by
  constructor
  · rw [hic]
  · rw [hic]
  · rw [hic]
  · exact hdin
  · exact hdirty

theorem Sys.Same.agrees (h : s.Same s' k) (ha : s.Agrees k) : s'.Agrees k := by
  unfold Sys.Agrees
  rw [h.din, h.dinode]
  exact ha

theorem Sys.Same.working (h : s.Same s' k) (hw : s.Working k) : s'.Working k := by
  constructor
  · rw [h.valid]
    exact hw.valid
  · rw [h.din]
    exact hw.type
  · rw [h.dinode]
    exact hw.alloc
  · rw [h.din, h.dinode, h.dirty]
    exact hw.clean

/-- A place stays good while its entry and the pointers and locks of its process do. -/
theorem Sys.At.mono (h : s.At q x) (hrefs : ∀ k, s'.refs q k = s.refs q k)
    (hlocks : ∀ k, s'.locks q k = s.locks q k) (hsame : ∀ k, s.locks q k = true → s.Same s' k) :
    s'.At q x := by
  cases x with
  | lock k =>
    show 0 < s'.refs q k
    rw [hrefs]
    exact h
  | load k =>
    obtain ⟨h1, h2, h3⟩ := h
    have hs := hsame k h1
    refine ⟨(hlocks k).trans h1, hs.dirty.trans h2, fun hv => hs.agrees (h3 ?_)⟩
    rw [← hs.valid]
    exact hv
  | check k =>
    obtain ⟨h1, h2, h3, h4⟩ := h
    have hs := hsame k h1
    refine ⟨(hlocks k).trans h1, hs.dirty.trans h2, hs.valid.trans h3, fun ht => hs.agrees (h4 ?_)⟩
    rw [← hs.din]
    exact ht
  | trunc k i | trunc_update k | free k | free_update k | drop k => exact (hlocks k).trans h
  | _ => trivial

/-! ## Kinds of steps -/

theorem Inv.move (h : Inv s) (hx : s.At p x)
    (hw : ∀ k, s.locks p k = true → x.busy ≠ some k → s.Working k) : Inv (s.move p x) := by
  have hsame : ∀ k, s.Same (s.move p x) k := fun k => ⟨rfl, rfl, rfl, rfl, rfl⟩
  have hpc : ∀ q, q ≠ p → (s.move p x).pc q = s.pc q := fun q hq => update_of_ne hq ..
  have hp : (s.move p x).pc p = x := update_self ..
  refine ⟨h.small, h.refs, h.unique, h.held, h.one, h.idle, fun q => ?_, fun q k hq hb => ?_⟩
  · have hat : s.At q ((s.move p x).pc q) := by grind [h.place]
    exact hat.mono (fun _ => rfl) (fun _ => rfl) fun k _ => hsame k
  · apply (hsame k).working
    by_cases hqp : q = p
    · rw [hqp, hp] at hb
      rw [hqp] at hq
      exact hw k hq hb
    · rw [hpc q hqp] at hb
      exact h.mine q k hq hb

/-- What another process than `p` has, when `p` has changed entry `k`, which that one has not
locked. -/
theorem Inv.others (h : Inv s) (hic : ∀ k', k' ≠ k → s'.icache k' = s.icache k')
    (hdisk : ∀ k', k' ≠ k → 0 < (s.icache k').ref → s'.dinode k' = s.dinode k')
    (hdirty : ∀ k', k' ≠ k → s'.dirty k' = s.dirty k') (hk : k' ≠ k) (hp : s.locks q k' = true) :
    s.Same s' k' :=
  same_of_eq (hic k' hk) (hdisk k' hk (h.ref_of_lock hp)) (hdirty k' hk)

/-- Nothing changes but entry `k`, its disk inode, and what process `p` has of it. -/
structure Frame (s s' : Sys) (p k : Nat) : Prop where
  icache : ∀ k', k' ≠ k → s'.icache k' = s.icache k'
  key : (s'.icache k).dev = (s.icache k).dev ∧ (s'.icache k).inum = (s.icache k).inum ∧
    (s'.icache k).ref = (s.icache k).ref
  disk : ∀ dev inum, ¬ (dev = (s.icache k).dev ∧ inum = (s.icache k).inum) →
    s'.disk dev inum = s.disk dev inum
  pc : ∀ q, q ≠ p → s'.pc q = s.pc q
  refs : s'.refs = s.refs
  locks : ∀ q k', ¬ (q = p ∧ k' = k) → s'.locks q k' = s.locks q k'
  dirty : ∀ k', k' ≠ k → s'.dirty k' = s.dirty k'

theorem Frame.refl (s : Sys) (p k : Nat) : Frame s s p k :=
  ⟨fun _ _ => rfl, ⟨rfl, rfl, rfl⟩, fun _ _ _ => rfl, fun _ _ => rfl, rfl, fun _ _ _ => rfl,
  fun _ _ => rfl⟩

theorem Frame.setInode (h : Frame s s' p k) (ip : Inode)
    (hip : ip.dev = (s'.icache k).dev ∧ ip.inum = (s'.icache k).inum ∧ ip.ref = (s'.icache k).ref) :
    Frame s (s'.setInode k ip) p k := by
  refine { h with icache := fun k' hk' => ?_, key := ?_ }
  · simp only [Sys.setInode]
    rw [update_of_ne hk']
    exact h.icache k' hk'
  · simp only [Sys.setInode, update_self]
    rw [hip.1, hip.2.1, hip.2.2]
    exact h.key

theorem Frame.setDisk (h : Frame s s' p k) (d : Dinode) :
    Frame s (s'.setDisk (s'.icache k).dev (s'.icache k).inum d) p k := by
  refine { h with disk := fun dev inum hne => ?_ }
  simp only [Sys.setDisk, table_update]
  rw [h.key.1, h.key.2.1, if_neg hne]
  exact h.disk dev inum hne

theorem Frame.move (h : Frame s s' p k) (x : Pc) : Frame s (s'.move p x) p k := by
  refine { h with pc := fun q hq => ?_ }
  simp only [Sys.move]
  rw [update_of_ne hq]
  exact h.pc q hq

theorem Frame.setLock (h : Frame s s' p k) (b : Bool) : Frame s (s'.setLock p k b) p k := by
  refine { h with locks := fun q k' hne => ?_ }
  simp only [Sys.setLock, table_update]
  rw [if_neg hne]
  exact h.locks q k' hne

theorem Frame.setDirty (h : Frame s s' p k) (b : Bool) : Frame s (s'.setDirty k b) p k := by
  refine { h with dirty := fun k' hk' => ?_ }
  simp only [Sys.setDirty]
  rw [update_of_ne hk']
  exact h.dirty k' hk'

/-- Process `p`, which alone can hold entry `k`, changes it or writes it to the disk. -/
theorem Inv.own (h : Inv s) (hf : Frame s s' p k) (hfree : ∀ q, q ≠ p → s.locks q k = false)
    (href : 0 < s.refs p k) (hbefore : ∀ k', k' ≠ k → (s.pc p).busy ≠ some k')
    (hheld : s'.locks p k = true → (s'.icache k).busy = true)
    (hidle : (s'.icache k).valid = true → (s'.icache k).busy = false → s'.Agrees k)
    (hat : s'.At p (s'.pc p))
    (hw : s'.locks p k = true → (s'.pc p).busy ≠ some k → s'.Working k) : Inv s' := by
  obtain ⟨hic, hkey, hdisk, hpc, hrefs, hlocks, hdirty⟩ := hf
  have hpos := h.ref_pos href
  have hdin : ∀ k', k' ≠ k → 0 < (s.icache k').ref → s'.dinode k' = s.dinode k' := by
    grind [Sys.dinode, h.unique]
  have hfields : ∀ k', (s'.icache k').dev = (s.icache k').dev ∧
      (s'.icache k').inum = (s.icache k').inum ∧ (s'.icache k').ref = (s.icache k').ref := by
    intro k'
    by_cases hk' : k' = k
    · rw [hk']
      exact hkey
    · grind
  constructor
  · intro k' hk'
    rw [(hfields k').2.2] at hk'
    exact h.small k' hk'
  · intro k'
    rw [(hfields k').2.2, hrefs]
    exact h.refs k'
  · grind [h.unique]
  · intro q k' hl
    rw [hrefs]
    by_cases hk' : k' = k
    · grind
    · rw [hlocks q k' fun hc => hk' hc.2] at hl
      rw [hic k' hk']
      exact h.held q k' hl
  · intro q1 q2 k' h1 h2
    by_cases hk' : k' = k
    · grind
    · grind [h.one]
  · intro k' hr hv hb
    by_cases hk' : k' = k
    · subst hk'
      exact hidle hv hb
    · rw [hic k' hk'] at hr hv hb
      apply Sys.Same.agrees (same_of_eq (hic k' hk') (hdin k' hk' hr) (hdirty k' hk'))
      exact h.idle k' hr hv hb
  · intro q
    by_cases hq : q = p
    · rw [hq]
      exact hat
    · rw [hpc q hq]
      apply Sys.At.mono (h.place q)
      · intro k'
        rw [hrefs]
      · intro k'
        exact hlocks q k' fun hc => hq hc.1
      · intro k' hl
        refine h.others hic hdin hdirty (fun hc => ?_) hl
        rw [hc, hfree q hq] at hl
        cases hl
  · intro q k' hl hb
    by_cases hk' : k' = k
    · grind
    · rw [hlocks q k' fun hc => hk' hc.2] at hl
      apply Sys.Same.working (h.others hic hdin hdirty hk' hl)
      apply h.mine q k' hl
      by_cases hq : q = p
      · rw [hq]
        exact hbefore k' hk'
      · rw [← hpc q hq]
        exact hb

/-- Entry `k` and the number of pointers that `p` has to it change. -/
theorem Inv.recount {e : Inode} {m n : Nat} (h : Inv s) (hic : s'.icache = update s.icache k e)
    (hrefs : s'.refs = update s.refs p (update (s.refs p) k m)) (hk : k < NINODE)
    (hr : e.ref = n) (hn : n < 2 ^ 31) (htotal : Total (fun r : Nat → Nat => r k) s'.refs n)
    (hnew : ∀ k', k' ≠ k → 0 < (s.icache k').ref →
      ¬ ((s.icache k').dev = e.dev ∧ (s.icache k').inum = e.inum))
    (hlocked : ∀ q, s.locks q k = true → s.Same s' k ∧ (q = p → 0 < m))
    (hidle : e.valid = true → e.busy = false → s'.Agrees k) (hpc : s'.pc = update s.pc p .user)
    (hbefore : (s.pc p).busy = none) (hdisk : s'.disk = s.disk) (hlocks : s'.locks = s.locks)
    (hdirty : s'.dirty = s.dirty) : Inv s' := by
  have hself : s'.icache k = e := by
    rw [hic, update_self]
  have hne : ∀ k', k' ≠ k → s'.icache k' = s.icache k' := fun k' hk' => by
    rw [hic, update_of_ne hk']
  have hrow : ∀ q k', ¬ (q = p ∧ k' = k) → s'.refs q k' = s.refs q k' := by
    intro q k' hqk
    rw [hrefs, table_update, if_neg hqk]
  have hother : ∀ k', k' ≠ k → s.Same s' k' := by
    intro k' hk'
    refine same_of_eq (hne k' hk') ?_ (by rw [hdirty])
    unfold Sys.dinode
    rw [hdisk, hne k' hk']
  have hsame : ∀ q k', s.locks q k' = true → s.Same s' k' := by
    intro q k' hl
    by_cases hk' : k' = k
    · subst hk'
      exact (hlocked q hl).1
    · exact hother k' hk'
  constructor
  · intro k' hk'
    by_cases hkk : k' = k
    · rw [hkk]
      exact hk
    · rw [hne k' hkk] at hk'
      exact h.small k' hk'
  · intro k'
    by_cases hk' : k' = k
    · subst hk'
      exact ⟨n, hn, by rw [hself, hr], htotal⟩
    · obtain ⟨n', hn', he, ht⟩ := h.refs k'
      refine ⟨n', hn', by rw [hne k' hk', he], ht.congr fun q => ?_⟩
      exact hrow q k' fun hc => hk' hc.2
  · intro k1 k2 h1 h2 hd hi
    by_cases hk1 : k1 = k
    · grind
    · grind [h.unique]
  · intro q k' hl
    rw [hlocks] at hl
    obtain ⟨hb, href⟩ := h.held q k' hl
    refine ⟨(hsame q k' hl).busy.trans hb, ?_⟩
    by_cases hqk : q = p ∧ k' = k
    · obtain ⟨rfl, rfl⟩ := hqk
      rw [hrefs, update_self, update_self]
      exact (hlocked q hl).2 rfl
    · rw [hrow q k' hqk]
      exact href
  · rw [hlocks]
    exact h.one
  · intro k' hr' hv hb
    by_cases hkk : k' = k
    · subst hkk
      rw [hself] at hv hb
      exact hidle hv hb
    · rw [hne k' hkk] at hr' hv hb
      exact (hother k' hkk).agrees (h.idle k' hr' hv hb)
  · intro q
    rw [hpc]
    by_cases hq : q = p
    · rw [hq, update_self]
      trivial
    · rw [update_of_ne hq]
      apply (h.place q).mono
      · exact fun k' => hrow q k' fun hc => hq hc.1
      · exact fun k' => by rw [hlocks]
      · exact hsame q
  · intro q k' hl hb
    rw [hlocks] at hl
    apply (hsame q k' hl).working
    apply h.mine q k' hl
    rw [hpc] at hb
    by_cases hq : q = p
    · rw [hq, hbefore]
      simp
    · grind

/-- The number of pointers that `p` has to entry `k` changes, and with it the count. -/
theorem Inv.count {r : Int} {m n : Nat} (h : Inv s) (hic : s'.icache = update s.icache k
      { s.icache k with ref := r }) (hr : r = n) (hn : n < 2 ^ 31)
    (hrefs : s'.refs = update s.refs p (update (s.refs p) k m))
    (htotal : Total (fun r : Nat → Nat => r k) s'.refs n) (hpos : 0 < (s.icache k).ref)
    (hlock : s.locks p k = true → 0 < m) (hpc : s'.pc = update s.pc p .user)
    (hbefore : (s.pc p).busy = none) (hdisk : s'.disk = s.disk) (hlocks : s'.locks = s.locks)
    (hdirty : s'.dirty = s.dirty) : Inv s' := by
  have hself : s'.icache k = { s.icache k with ref := r } := by
    rw [hic, update_self]
  have hsame : s.Same s' k := by
    refine ⟨by rw [hself], by rw [hself], by rw [hself], ?_, by rw [hdirty]⟩
    unfold Sys.dinode
    rw [hdisk, hself]
  refine h.recount hic hrefs (h.small k hpos) hr hn htotal (fun k' hk' hpos' hc => ?_)
    (fun q hl => ⟨hsame, fun hq => hlock (hq ▸ hl)⟩)
    (fun hv hb => hsame.agrees (h.idle k hpos hv hb)) hpc hbefore hdisk hlocks hdirty
  exact hk' (h.unique k' k hpos' hpos hc.1 hc.2)

/-- An entry that nobody has a pointer to is taken for another inode, that no entry is for. -/
theorem Inv.recycle {dev inum : Nat} (h : Inv s) (hk : k < NINODE) (hzero : (s.icache k).ref = 0)
    (hnew : ∀ k', 0 < (s.icache k').ref → ¬ ((s.icache k').dev = dev ∧ (s.icache k').inum = inum))
    (hic : s'.icache = update s.icache k { s.icache k with
      dev := dev, inum := inum, ref := 1, busy := false, valid := false })
    (hrefs : s'.refs = update s.refs p (update (s.refs p) k (s.refs p k + 1)))
    (hpc : s'.pc = update s.pc p .user) (hbefore : (s.pc p).busy = none)
    (hdisk : s'.disk = s.disk) (hlocks : s'.locks = s.locks) (hdirty : s'.dirty = s.dirty) :
    Inv s' := by
  have hnobody : ∀ q, s.refs q k = 0 := by
    intro q
    by_contra hq
    have := h.ref_pos (Nat.pos_of_ne_zero hq)
    omega
  obtain ⟨n, _, hn, htotal⟩ := h.refs k
  obtain rfl : n = 0 := by omega
  refine h.recount (n := 1) hic hrefs hk rfl (by decide) ?_ (fun k' _ => hnew k') (fun q hl => ?_)
    (fun hv => by cases hv) hpc hbefore hdisk hlocks hdirty
  · rw [hrefs]
    apply htotal.move
    rw [update_self, hnobody p]
  · have := (h.held q k hl).2
    rw [hnobody q] at this
    exact absurd this (Nat.lt_irrefl 0)

/-- A free inode is taken on the disk: no entry that agrees with the disk is for it. -/
theorem Inv.alloc {dev inum : Nat} {d : Dinode} (h : Inv s) (hfree : (s.disk dev inum).type = 0) :
    Inv (s.setDisk dev inum d) := by
  have hdin : ∀ k, (s.dinode k).type ≠ 0 → (s.setDisk dev inum d).dinode k = s.dinode k := by
    intro k hk
    simp only [Sys.dinode, Sys.setDisk, table_update] at hk ⊢
    rw [if_neg]
    rintro ⟨hdev, hinum⟩
    rw [hdev, hinum] at hk
    exact hk hfree
  have hagrees : ∀ k, s.Agrees k → (s.setDisk dev inum d).Agrees k := by
    intro k ha
    unfold Sys.Agrees
    rw [hdin k (ha.1 ▸ ha.2)]
    exact ha
  refine ⟨h.small, h.refs, h.unique, h.held, h.one, fun k hr hv hb => hagrees k (h.idle k hr hv hb),
    fun q => ?_, fun q k hl hb => ?_⟩
  · have hplace := h.place q
    show (s.setDisk dev inum d).At q (s.pc q)
    cases hx : s.pc q with
    | load k =>
      rw [hx] at hplace
      exact ⟨hplace.1, hplace.2.1, fun hv => hagrees k (hplace.2.2 hv)⟩
    | check k =>
      rw [hx] at hplace
      exact ⟨hplace.1, hplace.2.1, hplace.2.2.1, fun ht => hagrees k (hplace.2.2.2 ht)⟩
    | _ =>
      rw [hx] at hplace
      exact hplace
  · have hw := h.mine q k hl hb
    have he := hdin k hw.alloc
    refine ⟨hw.valid, hw.type, ?_, ?_⟩ <;> rw [he]
    · exact hw.alloc
    · exact hw.clean

/-! ## Steps -/

theorem inc_eq {n : Nat} (hn : n + 1 < 2 ^ 31) : inc n = (n + 1 : Nat) := by
  unfold inc
  rw [toInt_ofInt (by omega) (by omega)]
  omega

theorem dec_eq {n : Nat} (hn : n < 2 ^ 31) (hpos : 0 < n) : dec n = (n - 1 : Nat) := by
  unfold dec
  rw [toInt_ofInt (by omega) (by omega)]
  omega

/-- One more pointer. -/
theorem Inv.get (h : Inv s) (hpos : 0 < (s.icache k).ref) (hroom : s.Room)
    (hbefore : (s.pc p).busy = none) : Inv (idup s p k) := by
  obtain ⟨n, hn, he, htotal⟩ := h.refs k
  have hlt := hroom k (h.small k hpos)
  rw [he] at hlt
  refine h.count (n := n + 1) rfl ?_ (by omega) rfl ?_ hpos
    (fun _ => Nat.succ_pos _) rfl hbefore rfl rfl rfl
  · rw [he]
    exact inc_eq (by omega)
  · apply htotal.move
    rw [update_self]
    omega

/-- One pointer less. -/
theorem Inv.put (h : Inv s) (hp : 0 < s.refs p k) (hlock : s.locks p k = true → 1 < s.refs p k)
    (hbefore : (s.pc p).busy = none) : Inv (putRef s p k) := by
  obtain ⟨n, hn, he, htotal⟩ := h.refs k
  have hle : s.refs p k ≤ n := htotal.le p
  refine h.count (n := n - 1) rfl ?_ (by omega) rfl ?_ (h.ref_pos hp) ?_ rfl hbefore rfl rfl rfl
  · rw [he]
    exact dec_eq hn (by omega)
  · apply htotal.move
    rw [update_self]
    omega
  · grind

theorem first_eq_some {test : Inode → Prop} [DecidablePred test] (h : s.first test = some k) :
    k < NINODE ∧ test (s.icache k) :=
  (bytes.scan_eq_some h).imp_right of_decide_eq_true

theorem first_eq_none {test : Inode → Prop} [DecidablePred test] (h : s.first test = none)
    (hk : k < NINODE) : ¬ test (s.icache k) :=
  of_decide_eq_false (bytes.scan_eq_none h hk)

theorem Inv.stop (h : Inv s) (msg : String) : Inv (s.stop msg) :=
  ⟨h.small, h.refs, h.unique, h.held, h.one, h.idle, h.place, fun q k hl hb =>
    Sys.Same.working (s := s) ⟨rfl, rfl, rfl, rfl, rfl⟩ (h.mine q k hl hb)⟩

theorem inv_iget {dev inum : Nat} (h : Inv s) (hroom : s.Room) (hbefore : (s.pc p).busy = none) :
    Inv (iget s p dev inum) := by
  unfold iget
  split
  · rename_i k hk
    exact h.get (first_eq_some hk).2.1 hroom hbefore
  · rename_i hnone
    split
    · exact h.stop _
    · rename_i k hk
      obtain ⟨hlt, hzero⟩ := first_eq_some hk
      refine h.recycle hlt hzero ?_ rfl rfl rfl hbefore rfl rfl rfl
      intro k' hr hc
      exact first_eq_none hnone (h.small k' hr) ⟨hr, hc⟩

theorem busy_user (hpc : s.pc p = .user) : (s.pc p).busy = none := by
  rw [hpc]
  rfl

/-- The process is in no function, or in one for entry `k`. -/
theorem busy_ne (hpc : (s.pc p).busy = none ∨ (s.pc p).busy = some k) (hk : k' ≠ k) :
    (s.pc p).busy ≠ some k' := by
  rcases hpc with hpc | hpc <;> rw [hpc]
  · simp
  · simpa using hk.symm

theorem frame_change (s : Sys) (p k : Nat) (d : Dinode) : Frame s (change s k d) p k :=
  ((Frame.refl s p k).setInode { s.icache k with din := d } ⟨rfl, rfl, rfl⟩).setDirty true

theorem frame_iupdate (s : Sys) (p k : Nat) : Frame s (iupdate s k) p k :=
  ((Frame.refl s p k).setDisk _).setDirty false

/-- A process that is in no function changes an entry that it has locked. -/
theorem inv_change {d : Dinode} (h : Inv s) (hl : s.locks p k = true) (hpc : s.pc p = .user)
    (hd : d.type ≠ 0) : Inv (change s k d) := by
  have hw := h.mine p k hl (by rw [busy_user hpc]; simp)
  have hb := (h.held p k hl).1
  have hself : (change s k d).icache k = { s.icache k with din := d } := update_self ..
  apply h.own (frame_change s p k d) (h.free_of_lock hl) (h.held p k hl).2
  · exact fun k' => busy_ne (Or.inl (busy_user hpc))
  · grind
  · grind
  · show (change s k d).At p (s.pc p)
    rw [hpc]
    trivial
  · intro _ _
    constructor
    · rw [hself]
      exact hw.valid
    · rw [hself]
      exact hd
    · unfold Sys.dinode
      rw [hself]
      exact hw.alloc
    · intro hc
      simp [change, Sys.setDirty] at hc

/-- The disk inode after an `iupdate`. -/
theorem dinode_iupdate (s : Sys) (k : Nat) : (iupdate s k).dinode k = (s.icache k).din := by
  simp [iupdate, Sys.setDisk, Sys.setDirty, Sys.dinode]

theorem inv_iupdate (h : Inv s) (hl : s.locks p k = true) (hpc : s.pc p = .user) :
    Inv (iupdate s k) := by
  have hw := h.mine p k hl (by rw [busy_user hpc]; simp)
  have hb := (h.held p k hl).1
  apply h.own (frame_iupdate s p k) (h.free_of_lock hl) (h.held p k hl).2
  · exact fun k' => busy_ne (Or.inl (busy_user hpc))
  · exact fun _ => hb
  · intro _ hc
    exact absurd (hb.symm.trans hc) (by simp)
  · show (iupdate s k).At p (s.pc p)
    rw [hpc]
    trivial
  · intro _ _
    refine ⟨hw.valid, hw.type, ?_, fun _ => (dinode_iupdate s k).symm⟩
    rw [dinode_iupdate]
    exact hw.type

theorem inv_iunlock (h : Inv s) (hl : s.locks p k = true) (hclean : s.dirty k = false)
    (hpc : s.pc p = .user) : Inv (iunlock s p k) := by
  unfold iunlock
  split
  · exact h.stop _
  · have hw := h.mine p k hl (by rw [busy_user hpc]; simp)
    have hf :=
      ((Frame.refl s p k).setInode { s.icache k with busy := false } ⟨rfl, rfl, rfl⟩).setLock false
    apply h.own hf (h.free_of_lock hl) (h.held p k hl).2
    · exact fun k' => busy_ne (Or.inl (busy_user hpc))
    · intro hc
      simp [Sys.setLock] at hc
    · intro _ _
      have := hw.clean hclean
      simp only [Sys.Agrees, Sys.dinode, Sys.setInode, Sys.setLock, update_self]
      exact ⟨this, hw.type⟩
    · show Sys.At _ p (s.pc p)
      rw [hpc]
      trivial
    · intro hc
      simp [Sys.setLock] at hc

/-- `iput` of an inode with no links and no other references. -/
theorem inv_iput (h : Inv s) (hp : 0 < s.refs p k) (hlock : s.locks p k = true → 1 < s.refs p k)
    (hpc : s.pc p = .user) : Inv (iput s p k) := by
  unfold iput
  split
  · split
    · exact h.stop _
    · rename_i hb
      have hb : (s.icache k).busy = false := by simpa using hb
      have hf := (((Frame.refl s p k).setInode { s.icache k with busy := true }
        ⟨rfl, rfl, rfl⟩).setLock true).move (.trunc k 0)
      apply h.own hf (fun q _ => h.free_of_idle hb q) hp
      · exact fun k' => busy_ne (Or.inl (busy_user hpc))
      · intro _
        simp [Sys.move, Sys.setLock, Sys.setInode]
      · intro _ hc
        simp [Sys.move, Sys.setLock, Sys.setInode] at hc
      · simp [Sys.move, Sys.At, Sys.setLock]
      · intro _ hc
        simp [Sys.move, Pc.busy] at hc
  · exact h.put hp hlock (busy_user hpc)

/-- A process inside of `ilock` or `iput` changes the entry that it has locked, and stays inside. -/
theorem Inv.inside (h : Inv s) (hf : Frame s s' p k) (hl : s.locks p k = true)
    (hpc : (s.pc p).busy = some k) (hbusy : (s'.icache k).busy = (s.icache k).busy)
    (hat : s'.At p (s'.pc p)) (hx : (s'.pc p).busy = some k) : Inv s' := by
  have hb := (h.held p k hl).1
  apply h.own hf (h.free_of_lock hl) (h.held p k hl).2
  · grind
  · exact fun _ => hbusy.trans hb
  · grind
  · exact hat
  · exact fun _ hc => absurd hx hc

/-- A write to a field in `iput`. -/
theorem Inv.scrub (h : Inv s) (hl : s.locks p k = true) (hpc : (s.pc p).busy = some k) (d : Dinode)
    (hat : ((change s k d).move p x).At p x) (hx : x.busy = some k) :
    Inv ((change s k d).move p x) := by
  have hp : ((change s k d).move p x).pc p = x := update_self ..
  apply h.inside ((frame_change s p k d).move x) hl hpc
  · simp [change, Sys.move, Sys.setInode, Sys.setDirty]
  · rw [hp]
    exact hat
  · rw [hp]
    exact hx

/-- An `iupdate` in `iput`. -/
theorem Inv.flush (h : Inv s) (hl : s.locks p k = true) (hpc : (s.pc p).busy = some k)
    (hat : ((iupdate s k).move p x).At p x) (hx : x.busy = some k) :
    Inv ((iupdate s k).move p x) := by
  have hp : ((iupdate s k).move p x).pc p = x := update_self ..
  apply h.inside ((frame_iupdate s p k).move x) hl hpc
  · simp [iupdate, Sys.move, Sys.setDisk, Sys.setDirty]
  · rw [hp]
    exact hat
  · rw [hp]
    exact hx

theorem inv_go {ninodes : Nat} (h : Inv s) (hroom : s.Room) (hs : go ninodes s p = some s') :
    Inv s' := by
  have hplace := h.place p
  unfold go at hs
  cases hpc : s.pc p with
  | user => simp [hpc] at hs
  | lock k =>
    simp only [hpc] at hs hplace
    split at hs
    · cases hs
    · rename_i hb
      obtain rfl := some.inj hs
      have hb : (s.icache k).busy = false := by simpa using hb
      have hf := ((((Frame.refl s p k).setInode { s.icache k with busy := true }
        ⟨rfl, rfl, rfl⟩).setLock true).setDirty false).move (.load k)
      apply h.own hf (fun q _ => h.free_of_idle hb q) hplace
      · grind [Pc.busy]
      · intro _
        simp [Sys.move, Sys.setLock, Sys.setInode, Sys.setDirty]
      · intro _ hc
        simp [Sys.move, Sys.setLock, Sys.setInode, Sys.setDirty] at hc
      · have hidle := h.idle k (h.ref_pos hplace)
        simp only [Sys.move, Sys.At, Sys.setLock, Sys.setInode, Sys.setDirty,
          Sys.Agrees, Sys.dinode, update_self, true_and]
        exact fun hv => hidle hv hb
      · intro _ hc
        simp [Sys.move, Pc.busy] at hc
  | load k =>
    simp only [hpc] at hs hplace
    obtain ⟨hl, hclean, hvalid⟩ := hplace
    split at hs <;> obtain rfl := some.inj hs
    · rename_i hv
      have ha := hvalid hv
      apply h.move (x := .user) trivial
      intro k' hl' _
      by_cases hk : k' = k
      · subst hk
        exact ⟨hv, ha.2, ha.1 ▸ ha.2, fun _ => ha.1⟩
      · exact h.mine p k' hl' (busy_ne (Or.inr (by rw [hpc]; rfl)) hk)
    · have hf := ((Frame.refl s p k).setInode { s.icache k with din := s.dinode k, valid := true }
        ⟨rfl, rfl, rfl⟩).move (.check k)
      apply h.inside hf hl (by rw [hpc]; rfl)
      · simp [Sys.move, Sys.setInode]
      · simp only [Sys.move, Sys.At, Sys.setInode, Sys.Agrees, Sys.dinode, update_self, true_and]
        exact ⟨hl, hclean, id⟩
      · simp [Sys.move, Pc.busy]
  | check k =>
    simp only [hpc] at hs hplace
    obtain ⟨hl, hclean, hvalid, hagrees⟩ := hplace
    split at hs <;> obtain rfl := some.inj hs
    · exact h.stop _
    · rename_i ht
      have ha := hagrees ht
      apply h.move (x := .user) trivial
      intro k' hl' _
      by_cases hk : k' = k
      · subst hk
        exact ⟨hvalid, ht, ha.1 ▸ ht, fun _ => ha.1⟩
      · exact h.mine p k' hl' (busy_ne (Or.inr (by rw [hpc]; rfl)) hk)
  | trunc k i =>
    simp only [hpc] at hs hplace
    have hbusy : (s.pc p).busy = some k := by rw [hpc]; rfl
    split at hs <;> obtain rfl := some.inj hs
    · exact h.scrub hplace hbusy _ hplace rfl
    · exact h.scrub hplace hbusy _ hplace rfl
  | trunc_update k | free_update k =>
    simp only [hpc] at hs hplace
    obtain rfl := some.inj hs
    exact h.flush hplace (by rw [hpc]; rfl) hplace rfl
  | free k =>
    simp only [hpc] at hs hplace
    obtain rfl := some.inj hs
    exact h.scrub hplace (by rw [hpc]; rfl) _ hplace rfl
  | drop k =>
    simp only [hpc] at hs hplace
    obtain rfl := some.inj hs
    -- first the flags, then the count
    have hf := (((Frame.refl s p k).setInode { s.icache k with busy := false, valid := false }
      ⟨rfl, rfl, rfl⟩).setLock false).move .user
    have href := (h.held p k hplace).2
    have hflags := h.own hf (h.free_of_lock hplace) href
      (fun k' => busy_ne (Or.inr (by rw [hpc]; rfl)))
      (by intro hc; simp [Sys.move, Sys.setLock] at hc)
      (by intro hc; simp [Sys.move, Sys.setLock, Sys.setInode] at hc)
      (by simp [Sys.move, Sys.At])
      (by intro hc; simp [Sys.move, Sys.setLock] at hc)
    have hput := hflags.put (p := p) (k := k) href (by intro hc; simp [Sys.move, Sys.setLock] at hc)
      (by simp [Sys.move, Pc.busy])
    simpa [putRef, Sys.move, Sys.setLock, Sys.setInode, Sys.setRefs] using hput
  | alloc dev type inum =>
    simp only [hpc] at hs
    have hmine : ∀ k, s.locks p k = true → s.Working k := fun k hl =>
      h.mine p k hl (by rw [hpc]; simp [Pc.busy])
    split at hs
    · split at hs <;> obtain rfl := some.inj hs
      · rename_i hfree
        have hd := h.alloc (d := { Dinode.zero with type := type }) hfree
        apply hd.move (x := .get dev inum) trivial
        intro k hl _
        apply hd.mine p k hl
        show (s.pc p).busy ≠ some k
        rw [hpc]
        simp [Pc.busy]
      · exact h.move (x := .alloc dev type (inum + 1)) trivial fun k hl _ => hmine k hl
    · obtain rfl := some.inj hs
      exact h.stop _
  | get dev inum =>
    simp only [hpc] at hs
    obtain rfl := some.inj hs
    exact inv_iget h hroom (by rw [hpc]; rfl)

theorem inv_call {a : Act} (h : Inv s) (ha : Careful s a ∧ KeepsType a)
    (hpc : s.pc a.proc = .user) :
    Inv (call s a) := by
  cases a with
  | iget p dev inum => exact inv_iget h ha.1 (busy_user hpc)
  | idup p k => exact h.get (h.ref_pos ha.1.1) ha.1.2 (busy_user hpc)
  | ilock p k =>
    show Inv (ilock s p k)
    unfold ilock
    split
    · exact h.stop _
    · have hpc : s.pc p = .user := hpc
      refine h.move (x := .lock k) ha.1 fun k' hl _ => h.mine p k' hl ?_
      rw [busy_user hpc]
      simp
  | iunlock p k => exact inv_iunlock h ha.1.1 ha.1.2 hpc
  | iput p k => exact inv_iput h ha.1.1 ha.1.2 hpc
  | ialloc p dev type =>
    have hpc : s.pc p = .user := hpc
    refine h.move (x := .alloc dev type 1) trivial fun k' hl _ => h.mine p k' hl ?_
    rw [busy_user hpc]
    simp
  | iupdate p k => exact inv_iupdate h ha.1 hpc
  | change p k d => exact inv_change h ha.1 hpc ha.2
  | go p => exact h

theorem inv_step {ninodes : Nat} {a : Act} (h : Inv s) (ha : Careful s a ∧ KeepsType a)
    (hs : step ninodes s a = some s') : Inv s' := by
  unfold step at hs
  split at hs
  · cases hs
  · split at hs
    · exact inv_go h ha.1 hs
    · rw [ite_none_right_eq_some] at hs
      obtain ⟨hpc, hs⟩ := hs
      obtain rfl := some.inj hs
      exact inv_call h ha hpc

/-- What `ilock` leaves to its caller is what the disk has. -/
theorem Inv.ilock {ninodes : Nat} (h : Inv s) (hpc : s.pc p = .load k ∨ s.pc p = .check k)
    (hs : step ninodes s (.go p) = some s') (hdone : s'.pc p = .user) :
    (s'.icache k).din = s'.dinode k := by
  have hplace := h.place p
  unfold step at hs
  split at hs
  · cases hs
  · rcases hpc with hpc | hpc <;> rw [hpc] at hplace <;> simp only [go,
      hpc] at hs <;> split at hs <;>
      obtain rfl := some.inj hs
    · rename_i hv
      exact (hplace.2.2 hv).1
    · simp [Sys.move] at hdone
    · simp [Sys.stop, hpc] at hdone
    · rename_i ht
      exact (hplace.2.2.2 ht).1

end Inv

/-! ## The law -/

/-- In every state that careful processes reach: one entry at most is for an inode, one process at
most holds I_BUSY on an entry, an entry that is valid and not busy has what the disk has, and so has
an entry that `ilock` returns from. -/
theorem the_inode_cache_agrees_with_the_disk (ninodes : Nat) (disk : Nat → Nat → Dinode)
    (as : List Act) (s : Sys)
    (hcareful : Along (step ninodes) (fun s a => Careful s a ∧ KeepsType a) (init disk) as)
    (hrun : run (step ninodes) (init disk) as = some s) :
    (∀ k k', 0 < (s.icache k).ref → 0 < (s.icache k').ref → (s.icache k).dev = (s.icache k').dev →
      (s.icache k).inum = (s.icache k').inum → k = k') ∧
    (∀ p q k, s.locks p k = true → s.locks q k = true → p = q) ∧
    (∀ p k, s.locks p k = true → (s.icache k).busy = true) ∧
    (∀ k, 0 < (s.icache k).ref → (s.icache k).valid = true → (s.icache k).busy = false →
      (s.icache k).din = s.disk (s.icache k).dev (s.icache k).inum) ∧
    ∀ p k s', s.pc p = .load k ∨ s.pc p = .check k → step ninodes s (.go p) = some s' →
      s'.pc p = .user → (s'.icache k).din = s'.disk (s'.icache k).dev (s'.icache k).inum := by
  have h : Inv s := inv_of_along (fun _ _ _ h ha hs => inv_step h ha hs)
    (inv_init disk) hcareful hrun
  refine ⟨h.unique, h.one, fun p k hl => (h.held p k hl).1,
    fun k hr hv hb => (h.idle k hr hv hb).1, ?_⟩
  intro p k s' hpc hs hdone
  exact h.ilock hpc hs hdone

/-- The disk of a file system without files. -/
def noFiles : Nat → Nat → Dinode := fun _ _ => Dinode.zero

/-- Process 0 makes an inode and puts it, so that it is freed. Process 1 takes the inode as soon as
it is free on the disk, while process 0 still holds the entry, and locks it. -/
def reuse : List Act :=
  [.ialloc 0 1 2, .go 0, .go 0, .ilock 0 0, .go 0, .go 0, .go 0, .iunlock 0 0, .iput 0 0] ++
    List.replicate 17 (.go 0) ++ [.ialloc 1 1 3, .go 1, .go 1, .ilock 1 0, .go 0, .go 1, .go 1]

theorem the_new_owner_sees_the_new_inode :
    ∃ s s', run (step 10) (init noFiles) reuse = some s ∧ step 10 s (.go 1) = some s' ∧
      (s'.icache 0).din = s'.disk 1 1 ∧ (s'.disk 1 1).type = 3 := by
  have hcareful : Along (step 10) (fun s a => Careful s a ∧ KeepsType a) (init noFiles) reuse := by
    decide +kernel
  obtain ⟨s, hs, hpc, s', hs', h1, h2, h3, h4⟩ : ∃ s, run (step 10) (init noFiles) reuse = some s ∧
      s.pc 1 = .check 0 ∧ ∃ s', step 10 s (.go 1) = some s' ∧ s'.pc 1 = .user ∧
        (s'.icache 0).dev = 1 ∧ (s'.icache 0).inum = 1 ∧ (s'.disk 1 1).type = 3 := by decide +kernel
  have hlaw := (the_inode_cache_agrees_with_the_disk 10 noFiles reuse s hcareful hs).2.2.2.2
  have hsees := hlaw 1 0 s' (Or.inr hpc) hs' h1
  rw [h2, h3] at hsees
  exact ⟨s, s', hs, hs', hsees, h4⟩

/-- Process 0 makes an inode, and frees it by hand: it sets the type to 0. Process
1 takes the inode. -/
def handFreed : List Act :=
  [.ialloc 0 1 2, .go 0, .go 0, .ilock 0 0, .go 0, .go 0, .go 0, .change 0 0 Dinode.zero,
    .iupdate 0 0, .iunlock 0 0, .ialloc 1 1 3, .go 1]

theorem a_type_of_zero_breaks_the_cache : Along (step 10) Careful (init noFiles) handFreed ∧
    ∃ s, run (step 10) (init noFiles) handFreed = some s ∧ 0 < (s.icache 0).ref ∧
      (s.icache 0).valid = true ∧ (s.icache 0).busy = false ∧
      (s.icache 0).din.type ≠ (s.disk (s.icache 0).dev (s.icache 0).inum).type := by
  refine ⟨by decide +kernel, ?_⟩
  decide +kernel

end xv6.inodes
