-- The buffer cache of bio.c under any interleaving: processes that read blocks, change the buffers
-- they hold, pass them to log_write or bwrite, and release them. A step is a critical section of
-- bcache.lock, a transfer by iderw, or a change of a buffer.
import Mathlib.Data.List.Pairwise
import Xv6.Log
import Xv6.Ring
import Xv6.Runs

open Option List Function runs ring

namespace xv6.bio

/-! ## The state -/

/-- The device number of a buffer that was not used yet: -1. -/
def NODEV : Nat := 2 ^ 32 - 1

/-- `struct buf`, but for its pointers. -/
structure Buf where
  /-- B_BUSY -/
  busy : Bool
  /-- B_VALID -/
  valid : Bool
  /-- B_DIRTY -/
  dirty : Bool
  dev : Nat
  blockno : Nat
  data : Block

/-- The block that the buffer is for. -/
def Buf.key (x : Buf) : Nat × Nat := (x.dev, x.blockno)

/-- Where a process stands. -/
inductive Pc where
  /-- outside of the functions below -/
  | user
  /-- in `bget`, at `loop` -/
  | get (dev blockno : Nat)
  /-- in `bget`, asleep on the buffer `b` -/
  | sleep (b dev blockno : Nat)
  /-- in `bread`, at the test of B_VALID -/
  | read (b dev blockno : Nat)
  /-- in `iderw`, called by `bread` for the given block, or by `bwrite` -/
  | rw (b : Nat) (bread : Option (Nat × Nat))
  deriving DecidableEq

/-- What `log_write` reads and writes of the log. -/
structure Log where
  size : Nat
  outstanding : Int
  lh : List Nat

structure Sys where
  havedisk1 : Bool
  disk : Nat → Nat → Block
  /-- `bcache.buf`, of which the first NBUF are there -/
  buf : Nat → Buf
  /-- the pointers of the buffers and, as node NBUF, of `bcache.head` -/
  links : Links Nat
  log : Log
  pc : Nat → Pc
  /-- `bread` has returned the buffer to the process, or will, and `brelse` was not called yet -/
  holds : Nat → Nat → Bool
  /-- the holder has changed the buffer, and has not passed it to `log_write` or `bwrite` since -/
  changed : Nat → Bool
  panic : Option String

/-- The list that `binit` makes. -/
def binit : Links Nat :=
  (List.range NBUF).foldl (fun r b => r.linkFront NBUF b) ⟨fun _ => NBUF, fun _ => NBUF⟩

def init (havedisk1 : Bool) (disk : Nat → Nat → Block) (log : Log) : Sys :=
  { havedisk1 := havedisk1, disk := disk,
    buf := fun _ => ⟨false, false, false, NODEV, 0, fun _ => 0⟩, links := binit
    log := log, pc := fun _ => .user, holds := fun _ _ => false, changed := fun _ => false
    panic := none }

namespace Sys

def setBuf (s : Sys) (b : Nat) (x : Buf) : Sys := { s with buf := Function.update s.buf b x }

def move (s : Sys) (p : Nat) (x : Pc) : Sys := { s with pc := Function.update s.pc p x }

def setHold (s : Sys) (p b : Nat) (h : Bool) : Sys :=
  { s with holds := Function.update s.holds p (Function.update (s.holds p) b h) }

def setChanged (s : Sys) (b : Nat) (h : Bool) : Sys :=
  { s with changed := Function.update s.changed b h }

def setDisk (s : Sys) (dev blockno : Nat) (d : Block) : Sys :=
  { s with disk := Function.update s.disk dev (Function.update (s.disk dev) blockno d) }

def stop (s : Sys) (msg : String) : Sys := { s with panic := some msg }

/-- The first loop of `bget`. -/
def cached (s : Sys) (dev blockno : Nat) : Option Nat :=
  walk s.links.next NBUF (fun b => (s.buf b).key = (dev, blockno)) (NBUF + 1) (s.links.next NBUF)

/-- The second loop of `bget`. -/
def victim (s : Sys) : Option Nat :=
  walk s.links.prev NBUF (fun b => !(s.buf b).busy && !(s.buf b).dirty) (NBUF + 1)
    (s.links.prev NBUF)

/-- What the block holds: the data of the valid buffer for it, or else the disk block. -/
def logical (s : Sys) (dev blockno : Nat) : Block :=
  match (List.range NBUF).find? fun b => (s.buf b).key = (dev, blockno) ∧ (s.buf b).valid with
  | some b => (s.buf b).data
  | none => s.disk dev blockno

end Sys

/-! ## The functions -/

/-- `bget`, by process `p`, from its label `loop` on. -/
def bget (s : Sys) (p dev blockno : Nat) : Sys :=
  match s.cached dev blockno with
  | some b =>
    if (s.buf b).busy then s.move p (.sleep b dev blockno)
    else ((s.setBuf b { s.buf b with busy := true }).setHold p b true).move p (.read b dev blockno)
  | none =>
    match s.victim with
    | some b =>
      ((s.setBuf b { s.buf b with
        dev := dev, blockno := blockno, busy := true, valid := false, dirty := false }).setHold p b
        true).move p (.read b dev blockno)
    | none => s.stop "bget: no buffers"

/-- `iderw`: the driver transfers the block. -/
def iderw (s : Sys) (p b : Nat) : Sys :=
  if !(s.buf b).busy then s.stop "iderw: buf not busy"
  else if (s.buf b).valid && !(s.buf b).dirty then s.stop "iderw: nothing to do"
  else if (s.buf b).dev ≠ 0 && !s.havedisk1 then s.stop "iderw: ide disk 1 not present"
  else if (s.buf b).dirty then
    ((s.setDisk (s.buf b).dev (s.buf b).blockno (s.buf b).data).setBuf b
      { s.buf b with valid := true, dirty := false }).move p .user
  else
    (s.setBuf b { s.buf b with
      valid := true, data := s.disk (s.buf b).dev (s.buf b).blockno }).move p .user

/-- `bwrite`, up to `iderw`. -/
def bwrite (s : Sys) (p b : Nat) : Sys :=
  if !(s.buf b).busy then s.stop "bwrite"
  else ((s.setBuf b { s.buf b with dirty := true }).setChanged b false).move p (.rw b none)

def brelse (s : Sys) (p b : Nat) : Sys :=
  if !(s.buf b).busy then s.stop "brelse"
  else
    { (s.setBuf b { s.buf b with busy := false }).setHold p b false with
      links := (s.links.unlink b).linkFront NBUF b }

def log_write (s : Sys) (b : Nat) : Sys :=
  if log.tooBig s.log.lh s.log.size then s.stop "too big a transaction"
  else if s.log.outstanding < 1 then s.stop "log_write outside of trans"
  else
    { (s.setBuf b { s.buf b with dirty := true }).setChanged b false with
      log := { s.log with lh := log.absorb s.log.lh (s.buf b).blockno } }

/-- A change of the buffer in place. -/
def modify (s : Sys) (b : Nat) (d : Block) : Sys :=
  (s.setBuf b { s.buf b with data := d }).setChanged b true

/-- The next step of process `p` in the function it is in. -/
def go (s : Sys) (p : Nat) : Option Sys :=
  match s.pc p with
  | .user => none
  | .get dev blockno => some (bget s p dev blockno)
  | .sleep _ dev blockno => some (s.move p (.get dev blockno))
  | .read b dev blockno =>
    if (s.buf b).valid then some (s.move p .user) else some (s.move p (.rw b (some (dev, blockno))))
  | .rw b _ => some (iderw s p b)

/-- What can happen next. -/
inductive Act where
  | bread (p dev blockno : Nat)
  | bwrite (p b : Nat)
  | brelse (p b : Nat)
  | log_write (p b : Nat)
  /-- process `p` changes the data of buffer `b` -/
  | modify (p b : Nat) (d : Block)
  /-- process `p` goes on in the function it is in -/
  | go (p : Nat)
  /-- `begin_op`, `end_op` or `commit` changes the log -/
  | log (p : Nat) (l : Log)

/-- The process that takes the action. -/
def Act.proc : Act → Nat
  | .bread p _ _ | .bwrite p _ | .brelse p _ | .log_write p _ | .modify p _ _ | .go p
  | .log p _ => p

/-- The state after a call, for a process that is in no function. -/
def call (s : Sys) : Act → Sys
  | .bread p dev blockno => s.move p (.get dev blockno)
  | .bwrite p b => bwrite s p b
  | .brelse p b => brelse s p b
  | .log_write _ b => log_write s b
  | .modify _ b d => modify s b d
  | .log _ l => { s with log := l }
  | .go _ => s

def step (s : Sys) (a : Act) : Option Sys :=
  if s.panic.isSome then none
  else
    match a with
    | .go p => go s p
    | a => if s.pc a.proc = .user then some (call s a) else none

/-- Processes use the buffers that they hold, and pass a buffer that they have changed to
`log_write` or `bwrite` before they release it. -/
def Careful (s : Sys) : Act → Prop
  | .bread _ _ _ | .go _ | .log _ _ => True
  | .bwrite p b | .log_write p b | .modify p b _ => s.holds p b = true
  | .brelse p b => s.holds p b = true ∧ s.changed b = false

instance (s : Sys) (a : Act) : Decidable (Careful s a) := by
  cases a <;> unfold Careful <;> infer_instance

/-! ## The invariant -/

/-- A buffer that was not used yet. -/
def Buf.Fresh (x : Buf) : Prop := x.dev = NODEV ∧ x.valid = false ∧ x.busy = false

/-- The buffer that a process holds and that is not ready for it yet. -/
def Pc.busy : Pc → Option Nat
  | .read b _ _ | .rw b _ => some b
  | _ => none

/-- The buffer that `bread` will return, and the block it was asked for. -/
def Pc.bread : Pc → Option (Nat × Nat × Nat)
  | .read b dev blockno => some (b, dev, blockno)
  | .rw b (some (dev, blockno)) => some (b, dev, blockno)
  | _ => none

theorem Pc.busy_of_bread {x : Pc} {b dev blockno : Nat} (h : x.bread = some (b, dev, blockno)) :
    x.busy = some b := by
  unfold Pc.bread at h
  split at h
  · cases h
    rfl
  · cases h
    rfl
  · cases h

/-- Of the buffers for one block, those after the first were not used yet. -/
def Sys.Order (s : Sys) (l : List Nat) : Prop :=
  l.Pairwise fun b c => (s.buf b).key = (s.buf c).key → (s.buf c).Fresh

structure Inv (s : Sys) : Prop where
  ring : ∃ l, l.Perm (List.range NBUF) ∧ Ring s.links NBUF l ∧ s.Order l
  held : ∀ p b, s.holds p b = true → b < NBUF ∧ (s.buf b).busy = true
  one : ∀ p q b, s.holds p b = true → s.holds q b = true → p = q
  holder : ∀ b < NBUF, (s.buf b).busy = true → ∃ p, s.holds p b = true
  idle : ∀ b < NBUF, (s.buf b).busy = false → s.changed b = false
  clean : ∀ b < NBUF, (s.buf b).valid = true → (s.buf b).dirty = false → s.changed b = false →
    (s.buf b).data = s.disk (s.buf b).dev (s.buf b).blockno
  unread : ∀ b < NBUF, (s.buf b).valid = false → (s.buf b).dirty = false ∧ s.changed b = false
  inside : ∀ p b, (s.pc p).busy = some b → s.holds p b = true
  asked : ∀ p b dev blockno, (s.pc p).bread = some (b, dev, blockno) →
    (s.buf b).key = (dev, blockno)
  mine : ∀ p b, s.holds p b = true → (s.pc p).busy ≠ some b → (s.buf b).valid = true

theorem ring_foldl {r : Links Nat} {h : Nat} {l t : List Nat} (hr : Ring r h l)
    (hbs : (h :: (t ++ l)).Nodup) :
    Ring (t.foldl (fun r b => r.linkFront h b) r) h (t.reverse ++ l) := by
  induction t generalizing r l with
  | nil => exact hr
  | cons b t ih =>
    have hperm : (h :: (b :: t ++ l)).Perm (h :: (t ++ b :: l)) := by
      apply List.Perm.cons
      exact perm_middle.symm
    have hnodup := hperm.nodup_iff.mp hbs
    rw [foldl_cons, reverse_cons, append_assoc]
    refine ih (hr.linkFront ?_) hnodup
    intro hmem
    rw [nodup_cons, cons_append, nodup_cons] at hbs
    rcases mem_cons.mp hmem with rfl | hmem
    · exact hbs.1 mem_cons_self
    · grind

theorem binit_ring : Ring binit NBUF (List.range NBUF).reverse := by
  have h := ring_foldl (r := ⟨fun _ => NBUF, fun _ => NBUF⟩) (h := NBUF) (t := List.range NBUF)
    (ring_nil rfl rfl) (by simp [nodup_range])
  rwa [append_nil] at h

theorem inv_init (havedisk1 : Bool) (disk : Nat → Nat → Block) (log : Log) :
    Inv (init havedisk1 disk log) := by
  refine ⟨⟨_, reverse_perm _, binit_ring, ?_⟩, ?_, ?_, ?_, ?_, ?_, ?_, ?_, ?_, ?_⟩
  · exact pairwise_of_forall fun _ _ _ => ⟨rfl, rfl, rfl⟩
  all_goals simp [init, Pc.busy, Pc.bread]

variable {s s' : Sys} {p b : Nat}

/-- Two buffers for one block: one of them was not used yet. -/
theorem Inv.fresh {c : Nat} (h : Inv s) (hb : b < NBUF) (hc : c < NBUF) (hne : b ≠ c)
    (hkey : (s.buf b).key = (s.buf c).key) : (s.buf b).Fresh ∨ (s.buf c).Fresh := by
  obtain ⟨l, hperm, -, horder⟩ := h.ring
  have hmem : ∀ x < NBUF, x ∈ l := fun x hx => hperm.mem_iff.mpr (mem_range.mpr hx)
  let R := fun x y => (s.buf x).key = (s.buf y).key → (s.buf x).Fresh ∨ (s.buf y).Fresh
  have hsymm : Std.Symm R := ⟨fun x y hxy hk => (hxy hk.symm).symm⟩
  have hpair : l.Pairwise R := horder.imp fun hxy hk => Or.inr (hxy hk)
  exact hpair.forall (hmem b hb) (hmem c hc) hne hkey

theorem Inv.only {c : Nat} (h : Inv s) (hb : b < NBUF) (hc : c < NBUF)
    (hkey : (s.buf b).key = (s.buf c).key) (hbf : ¬(s.buf b).Fresh) (hcf : ¬(s.buf c).Fresh) :
    b = c := by
  by_contra hne
  rcases h.fresh hb hc hne hkey with hf | hf
  · exact hbf hf
  · exact hcf hf

theorem Inv.held_used (h : Inv s) (hb : s.holds p b = true) : ¬(s.buf b).Fresh := by
  intro hf
  have := (h.held p b hb).2
  rw [hf.2.2] at this
  cases this

theorem not_fresh_of_valid {x : Buf} (hv : x.valid = true) : ¬x.Fresh := by
  intro hf
  rw [hf.2.1] at hv
  cases hv

/-! ## The steps -/

theorem Inv.move (h : Inv s) {y : Pc} (hin : ∀ b, y.busy = some b → s.holds p b = true)
    (hask : ∀ b dev blockno, y.bread = some (b, dev, blockno) → (s.buf b).key = (dev, blockno))
    (hmine : ∀ b, s.holds p b = true → y.busy ≠ some b → (s.buf b).valid = true) :
    Inv (s.move p y) where
  ring := h.ring
  held := h.held
  one := h.one
  holder := h.holder
  idle := h.idle
  clean := h.clean
  unread := h.unread
  inside := (Function.forall_update_iff s.pc
    fun q x => ∀ b, x.busy = some b → s.holds q b = true).mpr ⟨hin, fun q _ => h.inside q⟩
  asked := (Function.forall_update_iff s.pc fun _ x => ∀ b dev blockno,
    x.bread = some (b, dev, blockno) → (s.buf b).key = (dev, blockno)).mpr
    ⟨hask, fun q _ => h.asked q⟩
  mine := (Function.forall_update_iff s.pc
    fun q x => ∀ b, s.holds q b = true → x.busy ≠ some b → (s.buf b).valid = true).mpr
    ⟨hmine, fun q _ => h.mine q⟩

/-- A process goes from a place where it waits for no buffer to another such place. -/
theorem Inv.wander (h : Inv s) {y : Pc} (hpc : (s.pc p).busy = none) (hy : y.busy = none)
    (hask : y.bread = none) : Inv (s.move p y) := by
  apply h.move
  · simp [hy]
  · simp [hask]
  · grind [h.mine]

/-- The holder `p` of the buffer `b` makes `x` of it, with `c` for whether it is
changed, and goes to `y`. -/
structure Work (s : Sys) (p b : Nat) (x : Buf) (c : Bool) (y : Pc) (s' : Sys) : Prop where
  holds : s.holds p b = true
  place : ∀ b', (s.pc p).busy = some b' → b' = b
  links_eq : s'.links = s.links
  buf_eq : s'.buf = Function.update s.buf b x
  holds_eq : s'.holds = s.holds
  changed_eq : s'.changed = Function.update s.changed b c
  pc_eq : s'.pc = Function.update s.pc p y
  disk_ne : ∀ dev blockno, (dev, blockno) ≠ x.key → s'.disk dev blockno = s.disk dev blockno
  key : x.key = (s.buf b).key
  busy : x.busy = true
  valid : x.valid = true
  clean : x.dirty = false → c = false → x.data = s'.disk x.dev x.blockno
  inside : ∀ b', y.busy = some b' → b' = b
  asked : y.bread = none

variable {x : Buf} {c : Bool} {y : Pc}

theorem Work.buf_self (w : Work s p b x c y s') : s'.buf b = x := by
  rw [w.buf_eq, update_self]

theorem Work.buf_ne {b' : Nat} (w : Work s p b x c y s') (hne : b' ≠ b) : s'.buf b' = s.buf b' := by
  rw [w.buf_eq, update_of_ne hne]

theorem Work.changed_self (w : Work s p b x c y s') : s'.changed b = c := by
  rw [w.changed_eq, update_self]

theorem Work.changed_ne {b' : Nat} (w : Work s p b x c y s') (hne : b' ≠ b) :
    s'.changed b' = s.changed b' := by
  rw [w.changed_eq, update_of_ne hne]

theorem Work.key_eq (w : Work s p b x c y s') (b' : Nat) : (s'.buf b').key = (s.buf b').key := by
  by_cases hb : b' = b
  · rw [hb, w.buf_self, w.key]
  · rw [w.buf_ne hb]

theorem Work.order (w : Work s p b x c y s') (h : Inv s) {l : List Nat} (hl : s.Order l) :
    s'.Order l := by
  refine hl.imp fun {u v} huv hkey => ?_
  rw [w.key_eq, w.key_eq] at hkey
  have hfresh := huv hkey
  have hv : v ≠ b := by
    rintro rfl
    exact h.held_used w.holds hfresh
  rw [w.buf_ne hv]
  exact hfresh

/-- A disk block that the step writes has no other buffer. -/
theorem Work.disk_eq {b' : Nat} (w : Work s p b x c y s') (h : Inv s) (hb' : b' < NBUF)
    (hne : b' ≠ b) (hv : (s.buf b').valid = true) :
    s'.disk (s.buf b').dev (s.buf b').blockno = s.disk (s.buf b').dev (s.buf b').blockno := by
  apply w.disk_ne
  intro hkey
  apply hne
  apply h.only hb' (h.held p b w.holds).1 (hkey.trans w.key)
  · exact not_fresh_of_valid hv
  · exact h.held_used w.holds

theorem Inv.work (h : Inv s) (w : Work s p b x c y s') : Inv s' := by
  obtain ⟨l, hperm, hring, horder⟩ := h.ring
  refine ⟨⟨l, hperm, w.links_eq ▸ hring, w.order h horder⟩, ?held, ?one, ?holder, ?idle, ?clean,
    ?unread, ?inside, ?asked, ?mine⟩
  case held =>
    intro q b' hq
    rw [w.holds_eq] at hq
    obtain ⟨hlt, hbusy⟩ := h.held q b' hq
    refine ⟨hlt, ?_⟩
    by_cases hb : b' = b
    · rw [hb, w.buf_self, w.busy]
    · rw [w.buf_ne hb, hbusy]
  case one =>
    rw [w.holds_eq]
    exact h.one
  case holder =>
    intro b' hlt hbusy
    rw [w.holds_eq]
    by_cases hb : b' = b
    · exact ⟨p, hb ▸ w.holds⟩
    · rw [w.buf_ne hb] at hbusy
      exact h.holder b' hlt hbusy
  case idle =>
    intro b' hlt hbusy
    by_cases hb : b' = b
    · rw [hb, w.buf_self, w.busy] at hbusy
      cases hbusy
    · rw [w.buf_ne hb] at hbusy
      rw [w.changed_ne hb]
      exact h.idle b' hlt hbusy
  case clean =>
    intro b' hlt hv hd hc
    by_cases hb : b' = b
    · rw [hb, w.buf_self] at hd ⊢
      rw [hb, w.changed_self] at hc
      exact w.clean hd hc
    · rw [w.buf_ne hb] at hv hd ⊢
      rw [w.changed_ne hb] at hc
      rw [w.disk_eq h hlt hb hv]
      exact h.clean b' hlt hv hd hc
  case unread =>
    intro b' hlt hv
    by_cases hb : b' = b
    · rw [hb, w.buf_self, w.valid] at hv
      cases hv
    · rw [w.buf_ne hb] at hv ⊢
      rw [w.changed_ne hb]
      exact h.unread b' hlt hv
  case inside =>
    rw [w.pc_eq, w.holds_eq]
    apply (Function.forall_update_iff s.pc fun q x => ∀ b, x.busy = some b → s.holds q b = true).mpr
    refine ⟨fun b' hb' => ?_, fun q _ => h.inside q⟩
    rw [w.inside b' hb']
    exact w.holds
  case asked =>
    rw [w.pc_eq]
    apply (Function.forall_update_iff s.pc fun _ x => ∀ b dev blockno,
      x.bread = some (b, dev, blockno) → (s'.buf b).key = (dev, blockno)).mpr
    refine ⟨fun b' dev blockno hb' => ?_, fun q _ b' dev blockno hb' => ?_⟩
    · rw [w.asked] at hb'
      cases hb'
    · rw [w.key_eq]
      exact h.asked q b' dev blockno hb'
  case mine =>
    intro q b' hq hpc
    rw [w.holds_eq] at hq
    by_cases hb : b' = b
    · rw [hb, w.buf_self, w.valid]
    · rw [w.buf_ne hb]
      apply h.mine q b' hq
      intro hin
      by_cases hqp : q = p
      · exact hb (w.place b' (hqp ▸ hin))
      · rw [w.pc_eq, update_of_ne hqp] at hpc
        exact hpc hin

/-- The buffer `b` becomes `x` and goes to `p`, which asked for the block. -/
def Sys.take (s : Sys) (p b : Nat) (x : Buf) : Sys :=
  ((s.setBuf b x).setHold p b true).move p (.read b x.dev x.blockno)

theorem take_buf_self : (s.take p b x).buf b = x := update_self ..

theorem take_buf_ne {b' : Nat} (h : b' ≠ b) : (s.take p b x).buf b' = s.buf b' :=
  update_of_ne h ..

theorem Inv.take (h : Inv s) (hb : b < NBUF) (hidle : (s.buf b).busy = false)
    (hpc : (s.pc p).busy = none) (hbusy : x.busy = true)
    (hring : ∃ l, l.Perm (List.range NBUF) ∧ Ring s.links NBUF l ∧ (s.take p b x).Order l)
    (hclean : x.valid = true → x.dirty = false → x.data = s.disk x.dev x.blockno)
    (hunread : x.valid = false → x.dirty = false) : Inv (s.take p b x) := by
  have hnobody : ∀ q, s.holds q b = false := by grind [h.held]
  -- who holds what now
  have hholds : ∀ q b', (s.take p b x).holds q b' = true ↔
      (q = p ∧ b' = b) ∨ s.holds q b' = true := by
    intro q b'
    by_cases hq : q = p
    · by_cases hb' : b' = b
      · simp [Sys.take, Sys.move, Sys.setHold, hq, hb']
      · simp [Sys.take, Sys.move, Sys.setHold, Sys.setBuf, hq, hb']
    · simp [Sys.take, Sys.move, Sys.setHold, Sys.setBuf, hq]
  have hother : ∀ {q b'}, s.holds q b' = true → b' ≠ b := by grind
  have hpcs : (s.take p b x).pc = update s.pc p (.read b x.dev x.blockno) := rfl
  refine ⟨hring, ?held, ?one, ?holder, ?idle, ?clean, ?unread, ?inside, ?asked, ?mine⟩
  case held =>
    intro q b' hq
    rcases (hholds q b').mp hq with ⟨-, rfl⟩ | hq
    · exact ⟨hb, by rw [take_buf_self, hbusy]⟩
    · rw [take_buf_ne (hother hq)]
      exact h.held q b' hq
  case one =>
    intro q q' b' hq hq'
    rcases (hholds q b').mp hq with ⟨hqp, hb'⟩ | hq <;>
      rcases (hholds q' b').mp hq' with ⟨hqp', hb''⟩ | hq'
    · rw [hqp, hqp']
    · exact absurd hb' (hother hq')
    · exact absurd hb'' (hother hq)
    · exact h.one q q' b' hq hq'
  case holder =>
    intro b' hlt hbusy'
    by_cases hb' : b' = b
    · exact ⟨p, (hholds p b').mpr (Or.inl ⟨rfl, hb'⟩)⟩
    · grind [take_buf_ne, h.holder]
  case idle =>
    intro b' hlt hbusy'
    by_cases hb' : b' = b
    · grind [take_buf_self]
    · rw [take_buf_ne hb'] at hbusy'
      exact h.idle b' hlt hbusy'
  case clean =>
    intro b' hlt hv hd hc
    by_cases hb' : b' = b
    · rw [hb', take_buf_self] at hv hd ⊢
      exact hclean hv hd
    · rw [take_buf_ne hb'] at hv hd ⊢
      exact h.clean b' hlt hv hd hc
  case unread =>
    intro b' hlt hv
    by_cases hb' : b' = b
    · rw [hb', take_buf_self] at hv ⊢
      exact ⟨hunread hv, h.idle b hb hidle⟩
    · rw [take_buf_ne hb'] at hv ⊢
      exact h.unread b' hlt hv
  case inside =>
    intro q b' hq
    rw [hpcs] at hq
    by_cases hqp : q = p
    · rw [hqp, update_self] at hq
      exact (hholds q b').mpr (Or.inl ⟨hqp, (some.inj hq).symm⟩)
    · grind [h.inside]
  case asked =>
    intro q b' dev blockno hq
    rw [hpcs] at hq
    by_cases hqp : q = p
    · rw [hqp, update_self] at hq
      simp only [Pc.bread, some.injEq, Prod.mk.injEq] at hq
      obtain ⟨rfl, rfl, rfl⟩ := hq
      rw [take_buf_self, Buf.key]
    · rw [update_of_ne hqp] at hq
      have hin : s.holds q b' = true := by
        apply h.inside q b'
        exact Pc.busy_of_bread hq
      rw [take_buf_ne (hother hin)]
      exact h.asked q b' dev blockno hq
  case mine =>
    intro q b' hq hin
    rw [hpcs] at hin
    rcases (hholds q b').mp hq with ⟨rfl, rfl⟩ | hq
    · rw [update_self] at hin
      exact absurd rfl hin
    · grind [take_buf_ne, h.mine]

/-- What one run through `bget` does. -/
inductive Got (s : Sys) (p dev blockno : Nat) (s' : Sys) : Prop
  /-- the buffer is busy -/
  | sleep (b : Nat) (heq : s' = s.move p (.sleep b dev blockno))
  /-- the block is cached: its buffer is the first one for the block -/
  | hit (b : Nat) (hb : b < NBUF) (hkey : (s.buf b).key = (dev, blockno))
      (hidle : (s.buf b).busy = false)
      (hfirst : ∀ l, Ring s.links NBUF l → l.Perm (List.range NBUF) →
        l.Pairwise fun u v => v = b → (s.buf u).key ≠ (dev, blockno))
      (heq : s' = s.take p b { s.buf b with busy := true })
  /-- the block is not cached: a buffer is recycled -/
  | recycle (b : Nat) (hb : b < NBUF) (hnone : ∀ c < NBUF, (s.buf c).key ≠ (dev, blockno))
      (hidle : (s.buf b).busy = false) (hclean : (s.buf b).dirty = false)
      (heq : s' = s.take p b { s.buf b with
        dev := dev, blockno := blockno, busy := true, valid := false, dirty := false })
  | stop (heq : s' = s.stop "bget: no buffers")

/-- Nothing before the node that is found passes the test. -/
theorem pairwise_find {l : List Nat} {test : Nat → Bool} (hl : l.Nodup)
    (hf : l.find? test = some b) :
    l.Pairwise fun u v => v = b → test u = false := by
  induction l with
  | nil => exact List.Pairwise.nil
  | cons a l ih =>
    obtain ⟨ha, hl⟩ := nodup_cons.mp hl
    rw [List.find?_cons] at hf
    apply pairwise_cons.mpr
    by_cases htest : test a = true
    · grind [pairwise_of_forall_mem_list]
    · grind

section
variable {dev blockno : Nat}

/-- The loops of `bget` run over the list of the buffers. -/
theorem loops {l : List Nat} (hperm : l.Perm (List.range NBUF)) (hring : Ring s.links NBUF l)
    (dev blockno : Nat) : s.cached dev blockno = l.find? (fun b => (s.buf b).key = (dev, blockno)) ∧
    s.victim = l.reverse.find? fun b => !(s.buf b).busy && !(s.buf b).dirty := by
  have hlen : l.length < NBUF + 1 := by
    rw [hperm.length_eq, length_range]
    exact Nat.lt_succ_self _
  exact ⟨hring.walk_next hlen, hring.walk_prev hlen⟩

theorem Inv.bget (h : Inv s) : Got s p dev blockno (bget s p dev blockno) := by
  obtain ⟨l, hperm, hring, -⟩ := h.ring
  obtain ⟨hcached, hvictim⟩ := loops hperm hring dev blockno
  have hmem : ∀ {c}, c ∈ l ↔ c < NBUF := fun {c} => hperm.mem_iff.trans mem_range
  unfold bio.bget
  cases hc : s.cached dev blockno with
  | some b =>
    rw [hc] at hcached
    have hb := hmem.mp (mem_of_find?_eq_some hcached.symm)
    have hkey : (s.buf b).key = (dev, blockno) := by simpa using List.find?_some hcached.symm
    dsimp only
    split
    · exact .sleep b rfl
    · rename_i hbusy
      refine .hit b hb hkey (by simpa using hbusy) (fun l' hring' hperm' => ?_) ?_
      · have hfind := (loops hperm' hring' dev blockno).1
        rw [hc] at hfind
        have := pairwise_find (hperm'.nodup_iff.mpr nodup_range) hfind.symm
        simpa using this
      · simp only [Buf.key, Prod.mk.injEq] at hkey
        simp only [Sys.take, hkey]
  | none =>
    rw [hc] at hcached
    have hnone : ∀ c < NBUF, (s.buf c).key ≠ (dev, blockno) := by grind
    dsimp only
    cases hv : s.victim with
    | some b =>
      rw [hv] at hvictim
      have hb := hmem.mp (mem_reverse.mp (mem_of_find?_eq_some hvictim.symm))
      have htest := List.find?_some hvictim.symm
      simp only [Bool.and_eq_true, Bool.not_eq_eq_eq_not, Bool.not_true] at htest
      exact .recycle b hb hnone htest.1 htest.2 rfl
    | none => exact .stop rfl

theorem Got.inv (h : Inv s) (hpc : (s.pc p).busy = none) (g : Got s p dev blockno s') : Inv s' := by
  obtain ⟨l, hperm, hring, horder⟩ := h.ring
  have hnodup : l.Nodup := hperm.nodup_iff.mpr nodup_range
  cases g with
  | sleep b heq =>
    rw [heq]
    exact h.wander hpc rfl rfl
  | hit b hb hkey hidle hfirst heq =>
    rw [heq]
    refine h.take hb hidle hpc rfl ⟨l, hperm, hring, ?_⟩ (fun hv hd => ?_) fun hv => ?_
    · refine (horder.and (hfirst l hring hperm)).imp fun {u v} ⟨huv, hfirst⟩ hk => ?_
      have hkeys : ∀ c, ((s.take p b { s.buf b with busy := true }).buf c).key = (s.buf c).key := by
        intro c
        by_cases hc : c = b
        · rw [hc, take_buf_self, Buf.key, Buf.key]
        · rw [take_buf_ne hc]
      rw [hkeys, hkeys] at hk
      have hv : v ≠ b := by grind
      rw [take_buf_ne hv]
      exact huv hk
    · exact h.clean b hb hv hd (h.idle b hb hidle)
    · exact (h.unread b hb hv).1
  | recycle b hb hnone hidle hclean heq =>
    rw [heq]
    refine h.take hb hidle hpc rfl ⟨l, hperm, hring, ?_⟩ (by simp) fun _ => rfl
    refine (horder.and hnodup).imp_of_mem fun {u v} hu hv ⟨huv, hne⟩ hk => ?_
    have hlt : ∀ c ∈ l, c < NBUF := fun c hc => mem_range.mp (hperm.mem_iff.mp hc)
    by_cases hub : u = b
    · have hvb : v ≠ b := fun hvb => hne (hub.trans hvb.symm)
      rw [hub, take_buf_self, take_buf_ne hvb] at hk
      exact absurd hk.symm (hnone v (hlt v hv))
    · rw [take_buf_ne hub] at hk
      by_cases hvb : v = b
      · rw [hvb, take_buf_self] at hk
        exact absurd hk (hnone u (hlt u hu))
      · rw [take_buf_ne hvb] at hk ⊢
        exact huv hk
  | stop heq =>
    rw [heq]
    exact ⟨h.ring, h.held, h.one, h.holder, h.idle, h.clean, h.unread, h.inside, h.asked, h.mine⟩

/-! ## The flat array -/

theorem Inv.logical_of_valid (h : Inv s) (hb : b < NBUF) (hkey : (s.buf b).key = (dev, blockno))
    (hv : (s.buf b).valid = true) : s.logical dev blockno = (s.buf b).data := by
  unfold Sys.logical
  split
  · rename_i c hc
    obtain ⟨hmem, htest⟩ := bytes.scan_eq_some hc
    simp only [decide_eq_true_eq] at htest
    rw [h.only hmem hb (htest.1.trans hkey.symm) (not_fresh_of_valid htest.2)
      (not_fresh_of_valid hv)]
  · grind

theorem logical_of_none (hnone : ∀ b < NBUF, (s.buf b).key = (dev, blockno) →
    (s.buf b).valid = false) :
    s.logical dev blockno = s.disk dev blockno := by
  unfold Sys.logical
  have hfind : (List.range NBUF).find? (fun b => (s.buf b).key = (dev, blockno) ∧ (s.buf b).valid) =
      none := by
    apply List.find?_eq_none.mpr
    intro b hb
    have := hnone b (mem_range.mp hb)
    simpa using this
  rw [hfind]

/-- The buffer is valid, and has `d` for the block. -/
def Sys.Has (s : Sys) (dev blockno b : Nat) (d : Block) : Prop :=
  (s.buf b).key = (dev, blockno) ∧ (s.buf b).valid = true ∧ (s.buf b).data = d

/-- The logical contents are the same when every buffer has the same for the block. -/
theorem logical_congr (h : Inv s) (h' : Inv s') (hdisk : s'.disk dev blockno = s.disk dev blockno)
    (hbuf : ∀ b < NBUF, ∀ d, s'.Has dev blockno b d ↔ s.Has dev blockno b d) :
    s'.logical dev blockno = s.logical dev blockno := by
  by_cases hex : ∃ b < NBUF, (s.buf b).key = (dev, blockno) ∧ (s.buf b).valid = true
  · obtain ⟨b, hb, hkey, hv⟩ := hex
    obtain ⟨hkey', hv', hd⟩ := (hbuf b hb _).mpr ⟨hkey, hv, rfl⟩
    rw [h.logical_of_valid hb hkey hv, h'.logical_of_valid hb hkey' hv', hd]
  · rw [logical_of_none, logical_of_none, hdisk]
    · grind
    · intro b hb hkey
      by_contra hv
      obtain ⟨hkey', hv', -⟩ := (hbuf b hb _).mp ⟨hkey, by simpa using hv, rfl⟩
      exact hex ⟨b, hb, hkey', hv'⟩

theorem Work.logical_self (w : Work s p b x c y s') (h : Inv s) :
    s'.logical x.dev x.blockno = x.data := by
  have hb := (h.held p b w.holds).1
  rw [(h.work w).logical_of_valid hb, w.buf_self]
  · rw [w.buf_self, Buf.key]
  · rw [w.buf_self, w.valid]

theorem Work.logical_ne (w : Work s p b x c y s') (h : Inv s) (hne : (dev, blockno) ≠ x.key) :
    s'.logical dev blockno = s.logical dev blockno := by
  apply logical_congr h (h.work w) (w.disk_ne dev blockno hne)
  intro b' _ d
  by_cases hb : b' = b
  · have hno : (s'.buf b').key ≠ (dev, blockno) := by
      rw [hb, w.buf_self]
      exact hne.symm
    have hno' : (s.buf b').key ≠ (dev, blockno) := by
      rw [← w.key_eq]
      exact hno
    exact ⟨fun hd => absurd hd.1 hno, fun hd => absurd hd.1 hno'⟩
  · rw [Sys.Has, Sys.Has, w.buf_ne hb]

theorem Got.logical (h : Inv s) (hpc : (s.pc p).busy = none) {dev' blockno' : Nat}
    (g : Got s p dev blockno s') : s'.logical dev' blockno' = s.logical dev' blockno' := by
  have h' := g.inv h hpc
  cases g with
  | sleep b heq =>
    rw [heq]
    rfl
  | hit b hb hkey hidle hfirst heq =>
    rw [heq] at h' ⊢
    apply logical_congr h h' rfl
    intro c _ d
    by_cases hc : c = b
    · rw [Sys.Has, Sys.Has, hc, take_buf_self, Buf.key, Buf.key]
    · rw [Sys.Has, Sys.Has, take_buf_ne hc]
  | recycle b hb hnone hidle hclean heq =>
    rw [heq] at h' ⊢
    -- the block of the buffer that is recycled is on the disk
    by_cases hold : (s.buf b).key = (dev', blockno') ∧ (s.buf b).valid = true
    · obtain ⟨hkey, hv⟩ := hold
      rw [h.logical_of_valid hb hkey hv, h.clean b hb hv hclean (h.idle b hb hidle),
        logical_of_none]
      · simp only [Buf.key, Prod.mk.injEq] at hkey
        rw [hkey.1, hkey.2]
        rfl
      · grind [take_buf_self, take_buf_ne, h.only, not_fresh_of_valid]
    · apply logical_congr h h' rfl
      intro c _ d
      by_cases hc : c = b
      · rw [Sys.Has, Sys.Has, hc, take_buf_self]
        constructor
        · simp
        · grind
      · rw [Sys.Has, Sys.Has, take_buf_ne hc]
  | stop heq =>
    rw [heq]
    rfl

end

/-! ## The calls -/

theorem Inv.stop (h : Inv s) (m : String) : Inv (s.stop m) :=
  ⟨h.ring, h.held, h.one, h.holder, h.idle, h.clean, h.unread, h.inside, h.asked, h.mine⟩

theorem Inv.setLog (h : Inv s) (l : Log) : Inv { s with log := l } :=
  ⟨h.ring, h.held, h.one, h.holder, h.idle, h.clean, h.unread, h.inside, h.asked, h.mine⟩

/-- The holder of the buffer works on it, and leaves `d` in it, or the step stops the kernel. -/
def Works (s : Sys) (p b : Nat) (d : Block) (s' : Sys) : Prop :=
  (∃ m, s' = s.stop m) ∨ ∃ x c y, Work s p b x c y s' ∧ x.data = d

theorem Inv.logical_held (h : Inv s) (hb : s.holds p b = true) (hv : (s.buf b).valid = true) :
    s.logical (s.buf b).dev (s.buf b).blockno = (s.buf b).data :=
  h.logical_of_valid (h.held p b hb).1 rfl hv

theorem Inv.ready (h : Inv s) (hpc : s.pc p = .user) (hb : s.holds p b = true) :
    (s.buf b).valid = true :=
  h.mine p b hb (by simp [hpc, Pc.busy])

theorem Works.inv {d : Block} (h : Inv s) (w : Works s p b d s') : Inv s' := by
  rcases w with ⟨m, rfl⟩ | ⟨x, c, y, w, -⟩
  · exact h.stop m
  · exact h.work w

theorem Works.key {d : Block} (w : Works s p b d s') (b' : Nat) :
    (s'.buf b').key = (s.buf b').key := by
  rcases w with ⟨m, rfl⟩ | ⟨x, c, y, w, -⟩
  · rfl
  · exact w.key_eq b'

/-- Work that leaves the data leaves the logical contents of every block. -/
theorem Works.logical (h : Inv s)
    (w : Works s p b (s.logical (s.buf b).dev (s.buf b).blockno) s') (dev blockno : Nat) :
    s'.logical dev blockno = s.logical dev blockno := by
  rcases w with ⟨m, rfl⟩ | ⟨x, c, y, w, hd⟩
  · rfl
  · by_cases hkey : (dev, blockno) = x.key
    · have hold := w.key
      simp only [Buf.key, Prod.mk.injEq] at hkey hold
      rw [hkey.1, hkey.2, w.logical_self h, hd, hold.1, hold.2]
    · exact w.logical_ne h hkey

theorem Inv.iderw {k : Option (Nat × Nat)} (h : Inv s) (hpc : s.pc p = .rw b k) :
    Works s p b (s.logical (s.buf b).dev (s.buf b).blockno) (iderw s p b) := by
  have hholds : s.holds p b = true := h.inside p b (by rw [hpc, Pc.busy])
  have hb := (h.held p b hholds).1
  have hplace : ∀ b', (s.pc p).busy = some b' → b' = b := by
    intro b' hb'
    rw [hpc] at hb'
    exact (some.inj hb').symm
  unfold bio.iderw
  split
  · exact Or.inl ⟨_, rfl⟩
  rename_i hbusy
  split
  · exact Or.inl ⟨_, rfl⟩
  rename_i hwork
  split
  · exact Or.inl ⟨_, rfl⟩
  have hbusy : (s.buf b).busy = true := by simpa using hbusy
  split
  · rename_i hdirty
    have hv : (s.buf b).valid = true := by grind [h.unread]
    refine Or.inr ⟨{ s.buf b with valid := true, dirty := false }, s.changed b, .user, ?_, ?_⟩
    · exact {
        holds := hholds
        place := hplace
        links_eq := rfl
        buf_eq := rfl
        holds_eq := rfl
        changed_eq := (update_eq_self b s.changed).symm
        pc_eq := rfl
        disk_ne := by
          intro dev blockno hne
          by_cases hdev : dev = (s.buf b).dev
          · have hbno : blockno ≠ (s.buf b).blockno := fun hbno => hne (by rw [hdev, hbno, Buf.key])
            simp [Sys.move, Sys.setBuf, Sys.setDisk, hdev, hbno]
          · simp [Sys.move, Sys.setBuf, Sys.setDisk, hdev]
        key := rfl
        busy := hbusy
        valid := rfl
        clean := by
          intro _ _
          simp [Sys.move, Sys.setBuf, Sys.setDisk]
        inside := by simp [Pc.busy]
        asked := rfl }
    · exact (h.logical_held hholds hv).symm
  · rename_i hdirty
    have hdirty : (s.buf b).dirty = false := by simpa using hdirty
    have hv : (s.buf b).valid = false := by simpa [hdirty] using hwork
    refine Or.inr ⟨{ s.buf b with
      valid := true, data := s.disk (s.buf b).dev (s.buf b).blockno }, s.changed b, .user, ?_, ?_⟩
    · exact {
        holds := hholds
        place := hplace
        links_eq := rfl
        buf_eq := rfl
        holds_eq := rfl
        changed_eq := (update_eq_self b s.changed).symm
        pc_eq := rfl
        disk_ne := fun _ _ _ => rfl
        key := rfl
        busy := hbusy
        valid := rfl
        clean := fun _ _ => rfl
        inside := by simp [Pc.busy]
        asked := rfl }
    · -- nobody else has the block
      refine (logical_of_none fun c hc hkey => ?_).symm
      by_contra hvc
      have hvc : (s.buf c).valid = true := by simpa using hvc
      rw [h.only hc hb hkey (not_fresh_of_valid hvc) (h.held_used hholds), hv] at hvc
      cases hvc

/-- Work of a process that is in no function, on a buffer that it holds. -/
theorem Inv.user_work (h : Inv s) (hpc : s.pc p = .user) (hb : s.holds p b = true)
    (hlinks : s'.links = s.links) (hbuf : s'.buf = update s.buf b x)
    (hholds : s'.holds = s.holds) (hchanged : s'.changed = update s.changed b c)
    (hpcs : s'.pc = update s.pc p y) (hdisk : s'.disk = s.disk)
    (hkey : x.key = (s.buf b).key) (hbusy : x.busy = (s.buf b).busy)
    (hvalid : x.valid = (s.buf b).valid) (hdirty : x.dirty = true ∨ c = true)
    (hin : ∀ b', y.busy = some b' → b' = b) (hask : y.bread = none) : Work s p b x c y s' where
  holds := hb
  place := by simp [hpc, Pc.busy]
  links_eq := hlinks
  buf_eq := hbuf
  holds_eq := hholds
  changed_eq := hchanged
  pc_eq := hpcs
  disk_ne := fun dev blockno _ => by rw [hdisk]
  key := hkey
  busy := hbusy.trans (h.held p b hb).2
  valid := hvalid.trans (h.ready hpc hb)
  clean := by
    intro hd hc
    rcases hdirty with hdirty | hdirty
    · grind
    · grind
  inside := hin
  asked := hask

theorem stays (hpc : s.pc p = .user) : s.pc = update s.pc p .user := by
  rw [← hpc, update_eq_self]

theorem Inv.bwrite (h : Inv s) (hpc : s.pc p = .user) (hb : s.holds p b = true) :
    Works s p b (s.logical (s.buf b).dev (s.buf b).blockno) (bwrite s p b) := by
  rw [h.logical_held hb (h.ready hpc hb)]
  unfold bio.bwrite
  split
  · exact Or.inl ⟨_, rfl⟩
  · refine Or.inr ⟨{ s.buf b with dirty := true }, false, .rw b none, ?_, rfl⟩
    refine h.user_work hpc hb rfl rfl rfl rfl rfl rfl rfl rfl rfl (Or.inl rfl) ?_ rfl
    intro b' hb'
    exact (some.inj hb').symm

theorem Inv.log_write (h : Inv s) (hpc : s.pc p = .user) (hb : s.holds p b = true) :
    Works s p b (s.logical (s.buf b).dev (s.buf b).blockno) (log_write s b) := by
  rw [h.logical_held hb (h.ready hpc hb)]
  unfold bio.log_write
  split
  · exact Or.inl ⟨_, rfl⟩
  split
  · exact Or.inl ⟨_, rfl⟩
  · refine Or.inr ⟨{ s.buf b with dirty := true }, false, .user, ?_, rfl⟩
    exact h.user_work hpc hb rfl rfl rfl rfl (stays hpc) rfl rfl rfl rfl (Or.inl rfl)
      (by simp [Pc.busy]) rfl

theorem Inv.modify (h : Inv s) (hpc : s.pc p = .user) (hb : s.holds p b = true) (d : Block) :
    Work s p b { s.buf b with data := d } true .user (modify s b d) :=
  h.user_work hpc hb rfl rfl rfl rfl (stays hpc) rfl rfl rfl rfl (Or.inr rfl)
  (by simp [Pc.busy]) rfl

/-- The state after `brelse`, for a buffer that is busy. -/
def Sys.release (s : Sys) (p b : Nat) : Sys :=
  { (s.setBuf b { s.buf b with busy := false }).setHold p b false with
    links := (s.links.unlink b).linkFront NBUF b }

theorem release_buf_self : (s.release p b).buf b = { s.buf b with busy := false } :=
  update_self ..

theorem release_buf_ne {b' : Nat} (h : b' ≠ b) : (s.release p b).buf b' = s.buf b' :=
  update_of_ne h ..

/-- Only the flag B_BUSY changes. -/
theorem release_buf (b' : Nat) : ((s.release p b).buf b').key = (s.buf b').key ∧
    ((s.release p b).buf b').valid = (s.buf b').valid ∧
    ((s.release p b).buf b').dirty = (s.buf b').dirty ∧
    ((s.release p b).buf b').data = (s.buf b').data := by
  by_cases hb : b' = b
  · rw [hb, release_buf_self]
    exact ⟨rfl, rfl, rfl, rfl⟩
  · grind [release_buf_ne]

theorem Inv.release_holds (h : Inv s) (hb : s.holds p b = true) (q b' : Nat) :
    (s.release p b).holds q b' = true ↔ s.holds q b' = true ∧ b' ≠ b := by
  by_cases hq : q = p
  · by_cases hb' : b' = b
    · simp [Sys.release, Sys.setHold, hq, hb']
    · simp [Sys.release, Sys.setHold, Sys.setBuf, hq, hb']
  · have hb' : s.holds q b' = true → b' ≠ b := by grind [h.one]
    simp only [Sys.release, Sys.setHold, Sys.setBuf, update_of_ne hq]
    exact ⟨fun hq' => ⟨hq', hb' hq'⟩, fun hq' => hq'.1⟩

/-- The buffer moves to the front of the list. -/
theorem Inv.release_ring (h : Inv s) (hb : s.holds p b = true) :
    ∃ l, l.Perm (List.range NBUF) ∧ Ring (s.release p b).links NBUF l ∧
    (s.release p b).Order l := by
  obtain ⟨l, hperm, hring, horder⟩ := h.ring
  have hlt := (h.held p b hb).1
  obtain ⟨l₁, l₂, rfl⟩ := append_of_mem (hperm.mem_iff.mpr (mem_range.mpr hlt))
  have hnodup := (perm_middle.nodup_iff).mp (hperm.nodup_iff.mpr nodup_range)
  have hnot : b ∉ l₁ ++ l₂ := (nodup_cons.mp hnodup).1
  have hsmall : ∀ c ∈ l₁ ++ l₂, c < NBUF := by
    intro c hc
    apply mem_range.mp
    apply hperm.mem_iff.mp
    apply perm_middle.mem_iff.mpr
    exact mem_cons_of_mem _ hc
  refine ⟨b :: (l₁ ++ l₂), perm_middle.symm.trans hperm, ?_, ?_⟩
  · apply hring.unlink.linkFront
    intro hmem
    rcases mem_cons.mp hmem with hmem | hmem
    · omega
    · exact hnot hmem
  · apply pairwise_cons.mpr
    constructor
    · intro c hc hkey
      have hcb : c ≠ b := fun hcb => hnot (hcb ▸ hc)
      rw [(release_buf b).1, (release_buf c).1] at hkey
      rw [release_buf_ne hcb]
      rcases h.fresh hlt (hsmall c hc) hcb.symm hkey with hf | hf
      · exact absurd hf (h.held_used hb)
      · exact hf
    · have hsub : (l₁ ++ l₂).Sublist (l₁ ++ b :: l₂) :=
        List.Sublist.append_left (sublist_cons_self b l₂) l₁
      refine (horder.sublist hsub).imp_of_mem fun {u v} _ hv huv hkey => ?_
      have hvb : v ≠ b := fun hvb => hnot (hvb ▸ hv)
      rw [(release_buf u).1, (release_buf v).1] at hkey
      rw [release_buf_ne hvb]
      exact huv hkey

theorem Inv.release (h : Inv s) (hpc : s.pc p = .user) (hb : s.holds p b = true)
    (hc : s.changed b = false) : Inv (s.release p b) := by
  refine ⟨h.release_ring hb, ?held, ?one, ?holder, ?idle, ?clean, ?unread, ?inside, ?asked, ?mine⟩
  case held =>
    intro q b' hq
    obtain ⟨hq, hne⟩ := (h.release_holds hb q b').mp hq
    rw [release_buf_ne hne]
    exact h.held q b' hq
  case one =>
    intro q q' b' hq hq'
    exact h.one q q' b' ((h.release_holds hb q b').mp hq).1 ((h.release_holds hb q' b').mp hq').1
  case holder =>
    intro b' hlt hbusy
    have hne : b' ≠ b := by grind [release_buf_self]
    rw [release_buf_ne hne] at hbusy
    obtain ⟨q, hq⟩ := h.holder b' hlt hbusy
    exact ⟨q, (h.release_holds hb q b').mpr ⟨hq, hne⟩⟩
  case idle =>
    intro b' hlt hbusy
    by_cases hb' : b' = b
    · exact hb' ▸ hc
    · rw [release_buf_ne hb'] at hbusy
      exact h.idle b' hlt hbusy
  case clean =>
    intro b' hlt hv hd hcb
    obtain ⟨hkey, hvalid, hdirty, hdata⟩ := release_buf (s := s) (p := p) (b := b) b'
    simp only [Buf.key, Prod.mk.injEq] at hkey
    rw [hvalid] at hv
    rw [hdirty] at hd
    rw [hdata, hkey.1, hkey.2]
    exact h.clean b' hlt hv hd hcb
  case unread =>
    intro b' hlt hv
    obtain ⟨-, hvalid, hdirty, -⟩ := release_buf (s := s) (p := p) (b := b) b'
    rw [hvalid] at hv
    rw [hdirty]
    exact h.unread b' hlt hv
  case inside =>
    intro q b' hq
    refine (h.release_holds hb q b').mpr ⟨h.inside q b' hq, ?_⟩
    rintro rfl
    have hqp : q = p := h.one q p b' (h.inside q b' hq) hb
    rw [hqp] at hq
    have hq : (s.pc p).busy = some b' := hq
    rw [hpc] at hq
    cases hq
  case asked =>
    intro q b' dev blockno hq
    rw [(release_buf b').1]
    exact h.asked q b' dev blockno hq
  case mine =>
    intro q b' hq hin
    rw [(release_buf b').2.1]
    exact h.mine q b' ((h.release_holds hb q b').mp hq).1 hin

theorem Inv.brelse (h : Inv s) (hb : s.holds p b = true) : brelse s p b = s.release p b := by
  simp [bio.brelse, Sys.release, (h.held p b hb).2]

theorem Inv.release_logical (h : Inv s) (hpc : s.pc p = .user) (hb : s.holds p b = true)
    (hc : s.changed b = false) (dev blockno : Nat) :
    (s.release p b).logical dev blockno = s.logical dev blockno := by
  apply logical_congr h (h.release hpc hb hc) rfl
  intro b' _ d
  obtain ⟨hkey, hvalid, -, hdata⟩ := release_buf (s := s) (p := p) (b := b) b'
  rw [Sys.Has, Sys.Has, hkey, hvalid, hdata]

/-! ## The steps of a run -/

/-- What the blocks hold after a step: a change of a buffer changes its block, and
nothing else does. -/
def flat (s : Sys) (a : Act) (dev blockno : Nat) : Block :=
  match a with
  | .modify _ b d => if (s.buf b).key = (dev, blockno) then d else s.logical dev blockno
  | _ => s.logical dev blockno

/-- What a step keeps, and what it does to the buffers and to the blocks. -/
structure Step (s : Sys) (a : Act) (s' : Sys) : Prop where
  inv : Inv s'
  logical : ∀ dev blockno, s'.logical dev blockno = flat s a dev blockno
  recycled : ∀ b < NBUF, (s'.buf b).key ≠ (s.buf b).key →
    (s.buf b).busy = false ∧ (s.buf b).dirty = false

/-- A step that leaves the buffers and the disk. -/
theorem Step.quiet {a : Act} (h' : Inv s') (hbuf : s'.buf = s.buf) (hdisk : s'.disk = s.disk)
    (hflat : flat s a = s.logical) : Step s a s' where
  inv := h'
  logical dev blockno := by rw [hflat, Sys.logical, Sys.logical, hbuf, hdisk]
  recycled b _ hne := absurd (by rw [hbuf]) hne

theorem Step.works {a : Act} (h : Inv s)
    (w : Works s p b (s.logical (s.buf b).dev (s.buf b).blockno) s')
    (hflat : flat s a = s.logical) :
    Step s a s' where
  inv := w.inv h
  logical dev blockno := by
    rw [hflat]
    exact w.logical h dev blockno
  recycled b' _ hne := absurd (w.key b') hne

theorem Step.got {dev blockno : Nat} (h : Inv s) (hpc : (s.pc p).busy = none)
    (g : Got s p dev blockno s') : Step s (.go p) s' where
  inv := g.inv h hpc
  logical _ _ := g.logical h hpc
  recycled := by
    intro b' _ hne
    cases g with
    | sleep b heq | stop heq =>
      rw [heq] at hne
      exact absurd rfl hne
    | hit b hb hkey hidle hfirst heq =>
      rw [heq] at hne
      by_cases hb' : b' = b
      · rw [hb', take_buf_self] at hne
        exact absurd rfl hne
      · grind [take_buf_ne]
    | recycle b hb hnone hidle hclean heq =>
      grind [take_buf_ne]

theorem Inv.go (h : Inv s) (hs : go s p = some s') : Step s (.go p) s' := by
  unfold bio.go at hs
  split at hs
  case h_1 => cases hs
  case h_2 dev blockno hpc =>
    cases hs
    exact Step.got h (by simp [hpc, Pc.busy]) h.bget
  case h_3 b dev blockno hpc =>
    cases hs
    exact Step.quiet (h.wander (by simp [hpc, Pc.busy]) rfl rfl) rfl rfl rfl
  case h_4 b dev blockno hpc =>
    have hbusy : (s.pc p).busy = some b := by rw [hpc, Pc.busy]
    have hother : ∀ b', s.holds p b' = true → b' ≠ b → (s.buf b').valid = true := by
      grind [h.mine, some.inj]
    split at hs
    · rename_i hv
      cases hs
      refine Step.quiet (h.move (by simp [Pc.busy]) (by simp [Pc.bread])
        fun b' hb' _ => ?_) rfl rfl rfl
      by_cases hne : b' = b
      · rw [hne, hv]
      · exact hother b' hb' hne
    · cases hs
      refine Step.quiet (h.move (fun b' hb' => ?_) (fun b' dev' blockno' hb' => ?_)
        fun b' hb' hne => ?_) rfl rfl rfl
      · apply h.inside p b'
        rw [hbusy]
        exact hb'
      · apply h.asked p b' dev' blockno'
        rw [hpc]
        exact hb'
      · exact hother b' hb' fun heq => hne (heq ▸ rfl)
  case h_5 b k hpc =>
    cases hs
    exact Step.works h (h.iderw hpc) rfl

theorem Inv.step {a : Act} (h : Inv s) (ha : Careful s a) (hs : step s a = some s') :
    Step s a s' := by
  unfold bio.step at hs
  split at hs
  · cases hs
  cases a with
  | go p => exact h.go hs
  | bread p dev blockno =>
    obtain ⟨hpc, hs⟩ := ite_none_right_eq_some.mp hs
    cases hs
    exact Step.quiet (h.wander (p := p) (by rw [show s.pc p = .user from hpc]; rfl) rfl rfl)
      rfl rfl rfl
  | bwrite p b =>
    obtain ⟨hpc, hs⟩ := ite_none_right_eq_some.mp hs
    cases hs
    exact Step.works h (h.bwrite hpc ha) rfl
  | log_write p b =>
    obtain ⟨hpc, hs⟩ := ite_none_right_eq_some.mp hs
    cases hs
    exact Step.works h (h.log_write hpc ha) rfl
  | brelse p b =>
    obtain ⟨hpc, hs⟩ := ite_none_right_eq_some.mp hs
    cases hs
    rw [call, h.brelse ha.1]
    exact ⟨h.release hpc ha.1 ha.2, h.release_logical hpc ha.1 ha.2,
      fun b' _ hne => absurd (release_buf b').1 hne⟩
  | modify p b d =>
    obtain ⟨hpc, hs⟩ := ite_none_right_eq_some.mp hs
    cases hs
    have w := h.modify hpc ha d
    refine ⟨h.work w, fun dev blockno => ?_, fun b' _ hne => absurd (w.key_eq b') hne⟩
    rw [call, flat]
    split
    · rename_i hkey
      simp only [Buf.key, Prod.mk.injEq] at hkey
      rw [← hkey.1, ← hkey.2]
      exact w.logical_self h
    · rename_i hkey
      exact w.logical_ne h (Ne.symm hkey)
  | log p l =>
    obtain ⟨hpc, hs⟩ := ite_none_right_eq_some.mp hs
    cases hs
    exact Step.quiet (h.setLog l) rfl rfl rfl

/-- What `bread` returns. -/
theorem Inv.bread {dev blockno : Nat} (h : Inv s) (hask : (s.pc p).bread = some (b, dev, blockno))
    (hs : bio.go s p = some s') (hdone : s'.pc p = .user) :
    s'.holds p b = true ∧ (s'.buf b).key = (dev, blockno) ∧
    (s'.buf b).data = s.logical dev blockno := by
  have hbusy := Pc.busy_of_bread hask
  have hb := h.inside p b hbusy
  have hkey := h.asked p b dev blockno hask
  have hblock : (s.buf b).dev = dev ∧ (s.buf b).blockno = blockno := Prod.mk.inj hkey
  unfold bio.go at hs
  split at hs
  case h_1 hpc => simp [hpc, Pc.bread] at hask
  case h_2 hpc => simp [hpc, Pc.bread] at hask
  case h_3 hpc => simp [hpc, Pc.bread] at hask
  case h_4 b' dev' blockno' hpc =>
    rw [hpc] at hbusy
    cases hbusy
    split at hs
    · rename_i hv
      cases hs
      exact ⟨hb, hkey, (h.logical_of_valid (h.held p b hb).1 hkey hv).symm⟩
    · cases hs
      simp [Sys.move] at hdone
  case h_5 b' k hpc =>
    rw [hpc] at hbusy
    cases hbusy
    cases hs
    rcases h.iderw hpc with ⟨m, hm⟩ | ⟨x, c, y, w, hd⟩
    · rw [hm] at hdone
      have hdone : s.pc p = .user := hdone
      rw [hpc] at hdone
      cases hdone
    · refine ⟨by rw [w.holds_eq, hb], by rw [w.key_eq, hkey], ?_⟩
      rw [w.buf_self, hd, hblock.1, hblock.2]

/-- The buffer cache is a flat array of blocks. In every state that processes reach which use the
buffers they hold and pass on the changes they make: a block has one buffer, a busy buffer has one
holder, and the list goes around all buffers. Every step from there leaves the logical contents of
every block, but for a change of a buffer; it gives another block only to a buffer that is not busy
and not dirty; and what `bread` returns are the logical contents of the block it was asked for. -/
theorem the_buffer_cache_is_a_flat_array (havedisk1 : Bool) (disk : Nat → Nat → Block) (log : Log)
    (as : List Act) (s : Sys) (hcareful : Along step Careful (init havedisk1 disk log) as)
    (hrun : run step (init havedisk1 disk log) as = some s) :
    (∀ b < NBUF, ∀ b' < NBUF, (s.buf b).dev ≠ NODEV → (s.buf b).key = (s.buf b').key → b = b') ∧
    (∀ b < NBUF, (s.buf b).busy = true → ∃! p, s.holds p b = true) ∧
    (∀ p b, s.holds p b = true → b < NBUF ∧ (s.buf b).busy = true) ∧
    (∃ l, l.Perm (List.range NBUF) ∧ Ring s.links NBUF l) ∧
    ∀ a s', Careful s a → step s a = some s' →
      (∀ dev blockno, s'.logical dev blockno = flat s a dev blockno) ∧
      (∀ b < NBUF, (s'.buf b).key ≠ (s.buf b).key →
        (s.buf b).busy = false ∧ (s.buf b).dirty = false) ∧
      ∀ p b dev blockno, a = .go p → (s.pc p).bread = some (b, dev, blockno) → s'.pc p = .user →
        s'.holds p b = true ∧ (s'.buf b).key = (dev, blockno) ∧
          (s'.buf b).data = s.logical dev blockno := by
  have h : Inv s :=
    inv_of_along (fun _ _ _ h ha hs => (h.step ha hs).inv)
    (inv_init havedisk1 disk log) hcareful hrun
  refine ⟨?_, ?_, h.held, ?_, ?_⟩
  · intro b hb b' hb' hdev hkey
    apply h.only hb hb' hkey
    · exact fun hf => hdev hf.1
    · exact fun hf => hdev ((Prod.mk.inj hkey).1.trans hf.1)
  · intro b hb hbusy
    obtain ⟨p, hp⟩ := h.holder b hb hbusy
    exact ⟨p, hp, fun q hq => h.one q p b hq hp⟩
  · grind [h.ring]
  · intro a s' ha hs
    have hstep := h.step ha hs
    refine ⟨hstep.logical, hstep.recycled, ?_⟩
    rintro p b dev blockno rfl hask hdone
    refine h.bread hask ?_ hdone
    unfold step at hs
    split at hs
    · cases hs
    · exact hs

/-- Process 0 reads block 5, sets its first byte to 7 and logs it. Process 1 asks for the block
while process 0 has it, sleeps, and gets it when process 0 is done. -/
def passOn : List Act :=
  [.bread 0 1 5, .go 0, .go 0, .go 0, .bread 1 1 5, .go 1, .modify 0 0 (fun _ => 7), .log_write 0 0,
    .brelse 0 0, .go 1, .go 1]

theorem the_second_reader_sees_the_change :
    ∃ s s', run step (init true (fun _ _ _ => 0) ⟨31, 1, []⟩) passOn = some s ∧
      step s (.go 1) = some s' ∧ (s'.buf 0).data = s.logical 1 5 ∧ s.logical 1 5 0 = 7 ∧
      s.disk 1 5 0 = 0 := by
  have hcareful : Along step Careful (init true (fun _ _ _ => 0) ⟨31, 1, []⟩) passOn := by
    decide +kernel
  obtain ⟨s, hs, hask, hseven, hzero, s', hs', hend⟩ :
      ∃ s, run step (init true (fun _ _ _ => 0) ⟨31, 1, []⟩) passOn = some s ∧
        (s.pc 1).bread = some (0, 1, 5) ∧ s.logical 1 5 0 = 7 ∧ s.disk 1 5 0 = 0 ∧
        ∃ s', step s (.go 1) = some s' ∧ s'.pc 1 = .user := by decide +kernel
  have hlaw := the_buffer_cache_is_a_flat_array _ _ _ passOn s hcareful hs
  have hread := (hlaw.2.2.2.2 (.go 1) s' trivial hs').2.2
  exact ⟨s, s', hs, hs', (hread 1 0 1 5 rfl hask hend).2.2, hseven, hzero⟩

end xv6.bio
