-- The reference counts of the inode cache over system calls that run one after the other on any
-- disk: after each call they are the current directories and the open files that refer to an inode,
-- and nothing is locked.
import Mathlib.Algebra.BigOperators.Group.Finset.Piecewise
import Xv6.HoldsTables

open prog WP runs

namespace xv6.irefs

open dir sysfile fs ops

/-! ## The machine -/

/-- The file system, and how the functions of vm.c will end, the next one first. -/
structure World where
  fs : Fs
  mem : Nat → Nat

abbrev WorldM := EStateM Stop World

def onFs {α : Type} (x : FsM α) : WorldM α := zoom World.fs (fun t s => { s with fs := t }) x

/-- The part of `iput` before the inode is freed, or all of it. -/
def iputTest (k : Nat) : FsM Bool := do
  let ip := (← get).icache k
  if ip.ref = 1 ∧ ip.valid ∧ ip.din.nlink = 0 then
    if ip.busy then throw (.panic "iput busy")
    else
      setInode k fun ip => { ip with busy := true }
      pure true
  else
    setInode k fun ip => { ip with ref := ip.ref - 1 }
    pure false

def iputFree (k : Nat) : FsM Unit := do
  itrunc k
  setDin k ({ · with type := 0 })
  iupdate k

def iputDone (k : Nat) : FsM Unit := do
  setInode k fun ip => { ip with busy := false, valid := false }
  setInode k fun ip => { ip with ref := ip.ref - 1 }

/-- The operations, as fs.c does them. -/
def disk : (o : Op) → WorldM (Res o)
  | .iget dev inum => onFs (iget dev inum)
  | .idup k => onFs (do let _ ← idup k)
  | .ilock k => onFs (ilock k)
  | .iunlock k => onFs (iunlock k)
  | .iputTest k => onFs (iputTest k)
  | .iputFree k => onFs (iputFree k)
  | .iputDone k => onFs (iputDone k)
  | .ialloc dev type => onFs (ialloc dev type)
  | .readi k off n => onFs (do pure (some (← readi k off n)))
  | .writei k src off n => onFs (do pure (some (← writei k src off n)))
  -- `devsw` has answered already
  | .devread _ => pure none
  | .devwrite _ => pure (-1)
  | .stat k => onFs (stat k)
  | .update k f => onFs (Inodes.update k f)
  | .begin_op => onFs begin_op
  | .end_op => onFs end_op
  | .panic msg => throw (.panic msg)
  | .memory => do
    let s ← get
    set { s with mem := fun i => s.mem (i + 1) }
    pure (s.mem 0)

theorem onFs_bind {α β : Type} (x : FsM α) (f : α → FsM β) :
    onFs (x >>= f) = onFs x >>= fun a => onFs (f a) := by
  funext w
  simp only [onFs, zoom, bind, EStateM.bind]
  cases x w.fs with
  | ok a t => rfl
  | error e t => rfl

theorem iput_eq (k : Nat) : fs.iput k = iputTest k >>= fun free =>
    if free then iputFree k >>= fun _ => iputDone k else pure () := by
  funext s
  simp only [fs.iput, iputTest, ifree, iputFree, iputDone, bind_assoc, get_bind]
  by_cases h : (s.icache k).ref = 1 ∧ (s.icache k).valid = true ∧ (s.icache k).din.nlink = 0
  · by_cases hb : (s.icache k).busy = true
    · simp only [h, and_self, if_true, get_bind, hb]
      rfl
    · simp [h, hb, get_bind]
  · simp [h]

/-- The pieces of `iput` are `iput`. -/
theorem handle_iput (k : Nat) : handle disk (ops.iput k) = onFs (fs.iput k) := by
  have htree : ops.iput k = .vis (.iputTest k) fun free =>
      if free = true then .vis (.iputFree k) fun _ => .vis (.iputDone k) .pure else .pure () := rfl
  rw [iput_eq, onFs_bind, htree, handle]
  refine bind_congr fun free => ?_
  cases free with
  | false => rfl
  | true =>
    rw [if_pos rfl, if_pos rfl, onFs_bind]
    simp only [handle, bind_pure]
    rfl

/-- The loop of `fork` and of `clone` over the open files, with `n` turns to go. -/
def dupFrom (proc : Proc) : Nat → Nat → Tables → OpM Tables
  | 0, _, t => pure t
  | n + 1, fd, t =>
    match proc.ofile fd with
    | none => dupFrom proc n (fd + 1) t
    | some f =>
      let x := t.ftable f
      if x.ref < 1 then Inodes.panic "filedup"
      else dupFrom proc n (fd + 1) (t.setFile f { x with ref := x.ref + 1 })

/-- The part of `fork` and of `clone` that is about files: the child in slot `np` gets the files and
the current directory of its parent. -/
def forkFiles (t : Tables) (np : Nat) (proc : Proc) : OpM Tables := do
  let t ← dupFrom proc NOFILE 0 t
  let cwd ← Inodes.idup proc.cwd
  pure (t.setProc np (some { proc with cwd := cwd }))

inductive Step where
  /-- a system call of process `p`, in which the functions of vm.c end as `mem` says -/
  | call (p : Nat) (a : Act) (mem : Nat → Nat)
  /-- a fork or clone by process `p`, with the child in slot `np` -/
  | fork (p np : Nat)

/-- What a step runs. A fork or clone that fails does so before it comes to files. -/
def Step.program (t : Tables) : Step → Option (OpM Tables)
  | .call p a _ => (t.procs p).map fun proc => ops.program t p proc a
  | .fork p np =>
    if np < NPROC ∧ t.procs np = none then (t.procs p).map fun proc => forkFiles t np proc else none

def Step.mem : Step → Nat → Nat
  | .call _ _ mem => mem
  | .fork .. => fun _ => 0

/-- One call, in which the kernel does not stop. -/
def step (s : Sys) (a : Step) : Option Sys :=
  match a.program s.tables with
  | none => none
  | some x =>
    match handle disk x { fs := s.fs, mem := a.mem } with
    | .ok t w => some { fs := w.fs, tables := t }
    | .error .. => none

/-! ## Functions that leave the cache as it is -/

/-- The same references, locks and transactions. -/
structure Quiet (s u : Fs) : Prop where
  ref : ∀ k, (u.icache k).ref = (s.icache k).ref
  busy : ∀ k, (u.icache k).busy = (s.icache k).busy
  outstanding : u.outstanding = s.outstanding

theorem Quiet.refl (s : Fs) : Quiet s s := ⟨fun _ => rfl, fun _ => rfl, rfl⟩

theorem Quiet.trans {s t u : Fs} (h : Quiet s t) (h' : Quiet t u) : Quiet s u :=
  ⟨fun k => (h'.ref k).trans (h.ref k), fun k => (h'.busy k).trans (h.busy k),
    h'.outstanding.trans h.outstanding⟩

def Calm {α : Type} (x : FsM α) : Prop := ∀ s, spec x s (fun _ u => Quiet s u) (fun _ _ => True)

section

variable {α β : Type} {x : FsM α} {f : α → FsM β}

theorem Calm.pure (a : α) : Calm (Pure.pure a) := fun s => by
  rw [spec_pure]
  exact Quiet.refl s

theorem Calm.throw (e : Stop) : Calm (MonadExcept.throw e : FsM α) := fun s => by
  rw [spec_throw]
  trivial

theorem Calm.get : Calm (get : FsM Fs) := fun s => by
  rw [spec_get]
  exact Quiet.refl s

theorem Calm.modify {g : Fs → Fs} (h : ∀ s, Quiet s (g s)) : Calm (modify g : FsM Unit) :=
  fun s => by
  rw [spec_modify]
  exact h s

theorem Calm.bind (hx : Calm x) (hf : ∀ a, Calm (f a)) : Calm (x >>= f) := fun s => by
  rw [spec_bind]
  apply spec_mono (hx s)
  · intro a t ht
    exact spec_mono (hf a t) (fun _ _ hu => ht.trans hu) fun _ _ h => h
  · exact fun _ _ h => h

theorem Calm.ite {p : Prop} [Decidable p] {y : FsM α} (hx : Calm x) (hy : Calm y) :
    Calm (if p then x else y) := by
  split
  · exact hx
  · exact hy

theorem Calm.loop {g : Nat → FsM Unit} {n : Nat} (h : ∀ i, Calm (g i)) : Calm (WP.loop n g) :=
  fun s => by
  refine spec_mono (spec_loop (I := fun _ u => Quiet s u) (E := fun _ _ => True) ?_ (Quiet.refl s))
    (fun _ _ h => h) fun _ _ _ => trivial
  intro i t _ ht
  exact spec_mono (h i t) (fun _ _ hu => ht.trans hu) fun _ _ h => h

end

theorem calm_bread (b : Nat) : Calm (bread b) := .bind .get fun _ => .pure _

theorem calm_log_write (b : Nat) (data : Block) : Calm (log_write b data) :=
  .bind .get fun _ => .ite (.throw _) (.ite (.throw _)
    (Calm.modify fun _ => ⟨fun _ => rfl, fun _ => rfl, rfl⟩))

theorem calm_setDin (k : Nat) (f : Dinode → Dinode) : Calm (setDin k f) := by
  refine Calm.modify fun s => ⟨fun k' => ?_, fun k' => ?_, rfl⟩
  · grind
  · grind

theorem calm_ballocFrom (sb : Superblock) (n b : Nat) : Calm (ballocFrom sb n b) := by
  induction n generalizing b with
  | zero => exact .throw _
  | succ n ih =>
    refine .bind (calm_bread _) fun bp => ?_
    split
    · exact .bind (calm_log_write _ _) fun _ => .bind (calm_log_write _ _) fun _ => .pure _
    · exact ih _

theorem calm_balloc : Calm balloc := .bind .get fun _ => calm_ballocFrom _ _ _

theorem calm_bfree (b : Nat) : Calm (bfree b) :=
  .bind (.bind (calm_bread _) fun _ => Calm.modify fun _ => ⟨fun _ => rfl, fun _ => rfl, rfl⟩)
    fun _ => .bind .get fun _ => .bind (calm_bread _) fun _ =>
      .ite (calm_log_write _ _) (.throw _)

theorem calm_baddr (k i : Nat) : Calm (baddr k i) :=
  .bind .get fun _ => .ite (.bind calm_balloc fun _ => .bind (calm_setDin _ _) fun _ => .pure _)
  (.pure _)

theorem calm_bentry (ind j : Nat) : Calm (bentry ind j) :=
  .bind (calm_bread _) fun _ => .ite
    (.bind calm_balloc fun _ => .bind (calm_log_write _ _) fun _ => .pure _) (.pure _)

theorem calm_bmap (k bn : Nat) : Calm (bmap k bn) :=
  .ite (calm_baddr _ _) (.ite (.bind (calm_baddr _ _) fun _ => calm_bentry _ _) (.throw _))

theorem calm_iupdate (k : Nat) : Calm (iupdate k) :=
  .bind .get fun _ => .bind (calm_bread _) fun _ => calm_log_write _ _

theorem calm_itrunc (k : Nat) : Calm (itrunc k) := by
  refine .bind (Calm.loop fun i => ?_) fun _ => .bind ?_ fun _ =>
    .bind (calm_setDin _ _) fun _ => calm_iupdate _
  · exact .bind .get fun _ => .ite (.bind (calm_bfree _) fun _ => calm_setDin _ _) (.pure _)
  · refine .bind .get fun _ => .ite ?_ (.pure _)
    exact .bind (calm_bread _) fun _ =>
      .bind (Calm.loop fun _ => .ite (calm_bfree _) (.pure _)) fun _ =>
        .bind (calm_bfree _) fun _ => calm_setDin _ _

theorem calm_readLoop (k fuel off left : Nat) : Calm (readLoop k fuel off left) := by
  induction fuel generalizing off left with
  | zero => exact .pure _
  | succ fuel ih =>
    exact .ite (.pure _) (.bind (calm_bmap _ _) fun _ => .bind (calm_bread _) fun _ =>
      .bind (ih _ _) fun _ => .pure _)

theorem calm_readi (k off n : Nat) : Calm (readi k off n) := by
  refine .bind .get fun s => .ite (.ite (.pure _) ?_) (.ite (.pure _) ?_)
  · grind [Calm.pure]
  · exact .bind (calm_readLoop _ _ _ _) fun _ => .pure _

theorem calm_writeLoop (k : Nat) (src : Nat → UInt8) (fuel tot off left : Nat) :
    Calm (writeLoop k src fuel tot off left) := by
  induction fuel generalizing tot off left with
  | zero => exact .pure _
  | succ fuel ih =>
    exact .ite (.pure _) (.bind (calm_bmap _ _) fun _ => .bind (calm_bread _) fun _ =>
      .bind (calm_log_write _ _) fun _ => ih _ _ _)

theorem calm_writei (k : Nat) (src : Nat → UInt8) (off n : Nat) : Calm (writei k src off n) := by
  refine .bind .get fun s => .ite (.ite (.pure _) ?_) (.ite (.pure _) (.ite (.pure _) ?_))
  · grind [Calm.pure]
  · exact .bind (calm_writeLoop _ _ _ _ _ _) fun _ => .ite
      (.bind (calm_setDin _ _) fun _ => .bind (calm_iupdate _) fun _ => .pure _) (.pure _)

/-! ## The cache and what is held -/

/-- The counts and locks of the cache are those that are held. -/
structure Meets (g : Hold) (s : Fs) : Prop where
  ref : ∀ k < NINODE, (s.icache k).ref = g.refs.count k
  bound : ∀ k ∈ g.refs, k < NINODE
  busy : ∀ k < NINODE, (s.icache k).busy = true ↔ k ∈ g.locks
  nodup : g.locks.Nodup
  sub : ∀ k ∈ g.locks, k ∈ g.refs
  begun : s.outstanding = g.begun

section

variable {g g' : Hold} {s u : Fs} {k : Nat} {ip : Inode}

theorem Meets.quiet (h : Meets g s) (hq : Quiet s u) (hr : g'.refs = g.refs)
    (hl : g'.locks = g.locks) (hb : g'.begun = g.begun) : Meets g' u := by
  refine ⟨fun k hk => ?_, ?_, fun k hk => ?_, ?_, ?_, ?_⟩
  · rw [hq.ref, hr]
    exact h.ref k hk
  · rw [hr]
    exact h.bound
  · rw [hq.busy, hl]
    exact h.busy k hk
  · rw [hl]
    exact h.nodup
  · rw [hl, hr]
    exact h.sub
  · rw [hq.outstanding, hb]
    exact h.begun

/-- Another inode in entry `k`. -/
theorem Meets.slot (h : Meets g s) (hk : k < NINODE) (href : ip.ref = g'.refs.count k)
    (hrefs : ∀ j ≠ k, g'.refs.count j = g.refs.count j) (hbusy : ip.busy = true ↔ k ∈ g'.locks)
    (hlocks : ∀ j ≠ k, j ∈ g'.locks ↔ j ∈ g.locks) (hnodup : g'.locks.Nodup)
    (hsub : k ∈ g'.locks → k ∈ g'.refs) (hb : g'.begun = g.begun) : Meets g' (s.withSlot k ip) := by
  have hmem : ∀ j ≠ k, j ∈ g'.refs ↔ j ∈ g.refs := fun j hj => by
    rw [← Multiset.count_pos, ← Multiset.count_pos, hrefs j hj]
  refine ⟨fun j hj => ?_, fun j hj => ?_, fun j hj => ?_, hnodup, fun j hj => ?_, ?_⟩
  · grind [icache_withSlot, h.ref]
  · by_cases he : j = k
    · exact he ▸ hk
    · exact h.bound j ((hmem j he).mp hj)
  · grind [icache_withSlot, h.busy]
  · grind [h.sub]
  · rw [hb]
    exact h.begun

/-- One more reference to an entry, which is unlocked if it had none. -/
theorem Meets.grab (h : Meets g s) (hk : k < NINODE) (href : ip.ref = (s.icache k).ref + 1)
    (hbusy : ip.busy = true ↔ k ∈ g.locks) (hr : g'.refs = k ::ₘ g.refs) (hl : g'.locks = g.locks)
    (hb : g'.begun = g.begun) : Meets g' (s.withSlot k ip) := by
  refine h.slot hk ?_ (fun j hj => ?_) ?_ (fun j hj => ?_) ?_ ?_ hb
  · rw [href, h.ref k hk, hr, Multiset.count_cons_self]
    rfl
  · rw [hr, Multiset.count_cons_of_ne hj]
  · rw [hl]
    exact hbusy
  · rw [hl]
  · rw [hl]
    exact h.nodup
  · grind

/-- The operations keep to the rules. -/
def Keeps (o : Op) (x : FsM (Res o)) : Prop := ∀ g s, Meets g s → ops.pre o g →
  spec x s (fun r u => ops.gives o g r ∧ Meets (ops.eff o g r) u) (fun _ _ => True)

theorem iget_grabs (h : Meets g s) (dev i : Nat) (e : Nat → Hold)
    (hr : ∀ k, (e k).refs = k ::ₘ g.refs) (hl : ∀ k, (e k).locks = g.locks)
    (hb : ∀ k, (e k).begun = g.begun) :
    spec (iget dev i) s (fun k u => Meets (e k) u) (fun _ _ => True) := by
  unfold iget
  rw [spec_bind, spec_get]
  split
  · rename_i k hk
    obtain ⟨hlt, -⟩ := first_eq_some hk
    rw [spec_bind, spec_setInode, spec_pure]
    exact h.grab hlt rfl (h.busy k hlt) (hr k) (hl k) (hb k)
  · split
    · rw [spec_throw]
      trivial
    · rename_i k hk
      obtain ⟨hlt, htest⟩ := first_eq_some hk
      have h0 : (s.icache k).ref = 0 := of_decide_eq_true htest
      rw [spec_bind, spec_setInode, spec_pure]
      refine h.grab hlt (by simp [h0]) ?_ (hr k) (hl k) (hb k)
      have hnot : k ∉ g.refs := by grind [Multiset.count_eq_zero, h.ref]
      exact iff_of_false (by simp) fun hk => hnot (h.sub k hk)

theorem keeps_iget (dev i : Nat) : Keeps (.iget dev i) (iget dev i) := fun g _ h _ =>
  spec_mono (iget_grabs h dev i (ops.eff (.iget dev i) g) (fun _ => rfl) (fun _ => rfl)
    fun _ => rfl) (fun _ _ h => ⟨trivial, h⟩) fun _ _ h => h

theorem iallocFrom_grabs (h : Meets g s) (dev : Nat) (type : UInt16) (n i : Nat) (e : Nat → Hold)
    (hr : ∀ k, (e k).refs = k ::ₘ g.refs) (hl : ∀ k, (e k).locks = g.locks)
    (hb : ∀ k, (e k).begun = g.begun) :
    spec (iallocFrom dev type n i) s (fun k u => Meets (e k) u) (fun _ _ => True) := by
  induction n generalizing i with
  | zero =>
    rw [iallocFrom, spec_throw]
    trivial
  | succ n ih =>
    rw [iallocFrom, spec_bind, spec_get, spec_bind]
    unfold bread
    rw [spec_bind, spec_get, spec_pure]
    split
    · rw [spec_bind]
      refine spec_mono (calm_log_write _ _ s) (fun _ u hq => ?_) fun _ _ h => h
      exact iget_grabs (h.quiet hq rfl rfl rfl) dev i e hr hl hb
    · exact ih (i + 1)

theorem keeps_ialloc (dev : Nat) (type : UInt16) : Keeps (.ialloc dev type) (ialloc dev type) := by
  intro g s h _
  unfold ialloc
  rw [spec_bind, spec_get]
  exact spec_mono (iallocFrom_grabs h dev type _ 1 (ops.eff (.ialloc dev type) g) (fun _ => rfl)
    (fun _ => rfl) fun _ => rfl) (fun _ _ h => ⟨trivial, h⟩) fun _ _ h => h

theorem keeps_idup (k : Nat) : Keeps (.idup k) (do let _ ← idup k) := by
  intro g s h hk
  have hlt := h.bound k hk
  simp only [idup, spec_bind, spec_setInode, spec_pure]
  exact ⟨trivial, h.grab hlt rfl (h.busy k hlt) rfl rfl rfl⟩

theorem keeps_ilock (k : Nat) : Keeps (.ilock k) (ilock k) := by
  intro g s h hk
  have hlt := h.bound k hk
  have hmark : ∀ ip : Inode, (s.icache k).busy ≠ true → ip.ref = (s.icache k).ref → ip.busy = true →
      ops.gives (.ilock k) g () ∧ Meets (ops.eff (.ilock k) g ()) (s.withSlot k ip) := by
    intro ip hfree href hbusy
    have hnot : k ∉ g.locks := fun hl => hfree ((h.busy k hlt).mpr hl)
    refine ⟨hnot, h.slot hlt (href.trans (h.ref k hlt)) (fun _ _ => rfl) ?_ (fun j hj => ?_) ?_
      (fun _ => hk) rfl⟩
    · exact iff_of_true hbusy (Multiset.mem_cons_self k g.locks)
    · exact Multiset.mem_cons.trans (or_iff_right hj)
    · exact Multiset.nodup_cons.mpr ⟨hnot, h.nodup⟩
  unfold ilock
  rw [spec_bind, spec_get]
  dsimp only
  split
  · rw [spec_throw]
    trivial
  split
  · rw [spec_throw]
    trivial
  rename_i hfree
  rw [spec_bind, spec_setInode]
  split
  · unfold bread
    simp only [spec_bind, spec_get, spec_pure, spec_setInode, withSlot_withSlot]
    split
    · rw [spec_throw]
      trivial
    · grind [spec_pure, icache_withSlot]
  · rw [spec_pure]
    exact hmark _ hfree rfl rfl

theorem count_erase_ne {R : Multiset Nat} {j : Nat} (hj : j ≠ k) :
    (R.erase k).count j = R.count j :=
  Multiset.count_erase_of_ne hj R

/-- An entry is unlocked. -/
theorem Meets.unlock (h : Meets g s) (hk : k ∈ g.locks) (href : ip.ref = g'.refs.count k)
    (hrefs : ∀ j ≠ k, g'.refs.count j = g.refs.count j) (hbusy : ip.busy = false)
    (hl : g'.locks = g.locks.erase k) (hb : g'.begun = g.begun) : Meets g' (s.withSlot k ip) := by
  have hnot : k ∉ g'.locks := by
    rw [hl]
    exact fun hm => absurd rfl ((h.nodup.mem_erase_iff.mp hm).1)
  refine h.slot (h.bound k (h.sub k hk)) href hrefs (iff_of_false (by simp [hbusy]) hnot)
    (fun j hj => ?_) ?_ (fun hm => absurd hm hnot) hb
  · rw [hl]
    exact Multiset.mem_erase_of_ne hj
  · rw [hl]
    exact h.nodup.erase k

theorem keeps_iunlock (k : Nat) : Keeps (.iunlock k) (iunlock k) := by
  intro g s h hk
  unfold iunlock
  rw [spec_bind, spec_get]
  dsimp only
  split
  · rw [spec_throw]
    trivial
  · rw [spec_setInode]
    exact ⟨trivial, h.unlock hk (h.ref k (h.bound k (h.sub k hk))) (fun _ _ => rfl) rfl rfl rfl⟩

theorem keeps_iputTest (k : Nat) : Keeps (.iputTest k) (iputTest k) := by
  intro g s h hk
  have hlt := h.bound k hk.1
  have href := h.ref k hlt
  unfold iputTest
  rw [spec_bind, spec_get]
  dsimp only
  split
  · rename_i hlast
    split
    · rw [spec_throw]
      trivial
    · rename_i hfree
      have hnot : k ∉ g.locks := fun hl => hfree ((h.busy k hlt).mpr hl)
      have hone : k ∉ g.refs.erase k := by
        rw [← Multiset.count_eq_zero, Multiset.count_erase_self]
        omega
      rw [spec_bind, spec_setInode, spec_pure]
      refine ⟨fun _ => ⟨hnot, hone⟩, h.slot hlt href (fun _ _ => rfl) ?_ (fun j hj => ?_) ?_
        (fun _ => hk.1) rfl⟩
      · exact iff_of_true rfl (Multiset.mem_cons_self k g.locks)
      · exact Multiset.mem_cons.trans (or_iff_right hj)
      · exact Multiset.nodup_cons.mpr ⟨hnot, h.nodup⟩
  · rw [spec_bind, spec_setInode, spec_pure]
    refine ⟨fun hf => absurd hf (by simp), h.slot hlt ?_ (fun _ => count_erase_ne) (h.busy k hlt)
      (fun _ _ => Iff.rfl) h.nodup hk.2 rfl⟩
    have hpos := Multiset.count_pos.mpr hk.1
    change (s.icache k).ref - 1 = ((g.refs.erase k).count k : Int)
    rw [href, Multiset.count_erase_self]
    omega

theorem keeps_iputFree (k : Nat) : Keeps (.iputFree k) (iputFree k) := fun _ s h _ =>
  spec_mono (Calm.bind (calm_itrunc k) (fun _ => .bind (calm_setDin _ _) fun _ => calm_iupdate k) s)
    (fun _ _ hq => ⟨trivial, h.quiet hq rfl rfl rfl⟩) fun _ _ h => h

theorem keeps_iputDone (k : Nat) : Keeps (.iputDone k) (iputDone k) := by
  intro g s h hk
  have href := h.ref k (h.bound k hk.2.1)
  have hpos := Multiset.count_pos.mpr hk.2.1
  simp only [iputDone, spec_bind, spec_setInode, withSlot_withSlot]
  refine ⟨trivial, h.unlock hk.1 ?_ (fun _ => count_erase_ne) ?_ rfl rfl⟩
  · simp only [icache_withSlot, if_true]
    change (s.icache k).ref - 1 = ((g.refs.erase k).count k : Int)
    rw [href, Multiset.count_erase_self]
    omega
  · simp [icache_withSlot]

theorem keeps_of_calm {o : Op} {x : FsM (Res o)} (hx : Calm x) (hg : ∀ g r, ops.gives o g r)
    (hr : ∀ g r, (ops.eff o g r).refs = g.refs) (hl : ∀ g r, (ops.eff o g r).locks = g.locks)
    (hb : ∀ g r, (ops.eff o g r).begun = g.begun) : Keeps o x := fun g s h _ =>
  spec_mono (hx s) (fun r _ hq => ⟨hg g r, h.quiet hq (hr g r) (hl g r) (hb g r)⟩) fun _ _ h => h

theorem keeps_begin_op : Keeps .begin_op begin_op := by
  intro g s h _
  unfold begin_op
  rw [spec_bind, spec_get]
  split
  · rw [spec_throw]
    trivial
  · rw [spec_modify]
    exact ⟨trivial, h.ref, h.bound, h.busy, h.nodup, h.sub, by simp [ops.eff, h.begun]⟩

theorem keeps_end_op : Keeps .end_op end_op := by
  intro g s h hk
  have hpos : 0 < g.begun := hk
  have hb : s.outstanding - 1 = ((g.begun - 1 : Nat) : Int) := by
    have := h.begun
    omega
  unfold end_op
  rw [spec_modify]
  refine ⟨trivial, ?_⟩
  split
  · exact ⟨h.ref, h.bound, h.busy, h.nodup, h.sub, hb⟩
  · exact ⟨h.ref, h.bound, h.busy, h.nodup, h.sub, hb⟩

theorem spec_onFs {α : Type} {x : FsM α} {w : World} {Q : α → World → Prop}
    {E : Stop → World → Prop} :
    spec (onFs x) w Q E ↔
      spec x w.fs (fun a t => Q a { w with fs := t }) (fun e t => E e { w with fs := t }) :=
  spec_zoom

/-- Every operation keeps to the rules, on every disk. -/
theorem disk_keeps (o : Op) (g : Hold) (w : World) (h : Meets g w.fs) (hk : ops.pre o g) :
    spec (disk o) w (fun r w' => ops.gives o g r ∧ Meets (ops.eff o g r) w'.fs)
    (fun _ _ => True) := by
  cases o with
  | iget dev i => exact spec_onFs.mpr (keeps_iget dev i g w.fs h hk)
  | idup k => exact spec_onFs.mpr (keeps_idup k g w.fs h hk)
  | ilock k => exact spec_onFs.mpr (keeps_ilock k g w.fs h hk)
  | iunlock k => exact spec_onFs.mpr (keeps_iunlock k g w.fs h hk)
  | iputTest k => exact spec_onFs.mpr (keeps_iputTest k g w.fs h hk)
  | iputFree k => exact spec_onFs.mpr (keeps_iputFree k g w.fs h hk)
  | iputDone k => exact spec_onFs.mpr (keeps_iputDone k g w.fs h hk)
  | ialloc dev type => exact spec_onFs.mpr (keeps_ialloc dev type g w.fs h hk)
  | readi k off n =>
    refine spec_onFs.mpr ?_
    rw [spec_bind]
    refine spec_mono (calm_readi k off n w.fs) (fun r u hq => ?_) fun _ _ h => h
    rw [spec_pure]
    exact ⟨trivial, h.quiet hq rfl rfl rfl⟩
  | writei k src off n =>
    refine spec_onFs.mpr ?_
    rw [spec_bind]
    refine spec_mono (calm_writei k src off n w.fs) (fun r u hq => ?_) fun _ _ h => h
    rw [spec_pure]
    exact ⟨trivial, h.quiet hq rfl rfl rfl⟩
  | devread n | devwrite n =>
    rw [disk, spec_pure]
    exact ⟨trivial, h⟩
  | stat k =>
    refine spec_onFs.mpr ?_
    unfold fs.stat
    rw [spec_bind, spec_get, spec_pure]
    exact ⟨trivial, h.quiet (Quiet.refl _) rfl rfl rfl⟩
  | update k f =>
    exact spec_onFs.mpr (keeps_of_calm (o := .update k f)
      (.bind (calm_setDin _ _) fun _ => calm_iupdate k) (fun _ _ => trivial) (fun _ _ => rfl)
      (fun _ _ => rfl) (fun _ _ => rfl) g w.fs h hk)
  | begin_op => exact spec_onFs.mpr (keeps_begin_op g w.fs h hk)
  | end_op => exact spec_onFs.mpr (keeps_end_op g w.fs h hk)
  | panic msg =>
    rw [disk, spec_throw]
    trivial
  | memory =>
    rw [disk, spec_bind, spec_get, spec_bind, spec_set, spec_pure]
    exact ⟨trivial, h⟩

end

/-! ## Runs -/

section

variable {t : Tables} {n p np : Nat} {g : Hold} {proc : Proc}

theorem dupFrom_law {turns fd : Nat} (h : Held t 0 0 n g)
    (hfiles : ∀ fd f, proc.ofile fd = some f → f < NFILE) :
    wp rules (dupFrom proc turns fd t) g fun t' g' => t'.procs = t.procs ∧ Held t' 0 0 n g' := by
  induction turns generalizing fd t g with
  | zero => exact ⟨rfl, h⟩
  | succ turns ih =>
    unfold dupFrom
    split
    · exact ih h
    rename_i f hf
    dsimp only
    split
    · exact wp_panic
    rename_i href
    have hlt := hfiles fd f hf
    refine wp_mono (ih (h.congr (h.ok.setFile ?_ ?_) (refs_setFile_same hlt ?_))) fun _ _ h' => h'
    · simp only
      omega
    · intro h0
      simp only at h0
      omega
    · exact if_congr (and_congr_left' (iff_of_true (by simp only; omega) (by omega))) rfl rfl

theorem forkFiles_law (h : Held t 0 0 n g) (hp : t.procs p = some proc) (hnp : np < NPROC)
    (hfree : t.procs np = none) :
    wp rules (forkFiles t np proc) g fun t' g' => Held t' 0 0 n g' := by
  have hfiles := fun fd f => h.ok.ofile p proc fd f hp
  apply wp_seq (dupFrom_law h hfiles)
  rintro t1 g1 ⟨hprocs, h1⟩
  apply wp_seq (idup_law h1.nil (cwd_mem h1.ok (hprocs ▸ hp)))
  rintro _ g2 ⟨rfl, h2⟩
  have hrefs := refs_setProc (t := t1) hnp (some proc)
  simp only [hprocs, hfree, procRefs, add_zero] at hrefs
  refine Held.of_has (h1.ok.setProc hnp ?_) ?_
  · intro q fd f hq
    obtain rfl := Option.some.inj hq
    exact hfiles fd f
  · rw [hrefs, add_comm, Multiset.singleton_add]
    exact h2

theorem Step.program_law {a : Step} {x : OpM Tables} (h : Held t 0 0 n g)
    (ha : a.program t = some x) : wp rules x g fun t' g' => Held t' 0 0 n g' := by
  cases a with
  | call p a mem =>
    obtain ⟨proc, hp, rfl⟩ := Option.map_eq_some_iff.mp ha
    exact ops.program_law h hp
  | fork p np =>
    simp only [Step.program] at ha
    split at ha
    · rename_i hnp
      obtain ⟨proc, hp, rfl⟩ := Option.map_eq_some_iff.mp ha
      exact forkFiles_law h hp hnp.1 hnp.2
    · cases ha

end

/-- The processes whose current directory is entry `k`. -/
def cwds (t : Tables) (k : Nat) : Nat :=
  ((Finset.range NPROC).filter fun p => (t.procs p).map Proc.cwd = some k).card

/-- The open files that refer to entry `k`. -/
def opens (t : Tables) (k : Nat) : Nat :=
  ((Finset.range NFILE).filter fun f =>
    0 < (t.ftable f).ref ∧ (t.ftable f).type = .FD_INODE ∧ (t.ftable f).ip = k).card

/-- The references of the inode cache are those of processes and open files, no entry is locked, and
no transaction is open. -/
structure Exact (s : Sys) : Prop where
  ref : ∀ k < NINODE, (s.fs.icache k).ref = cwds s.tables k + opens s.tables k
  free : ∀ k < NINODE, (s.fs.icache k).busy = false
  closed : s.fs.outstanding = 0

theorem count_refs (t : Tables) (k : Nat) : t.refs.count k = cwds t k + opens t k := by
  unfold Tables.refs cwds opens
  rw [Multiset.count_add, Multiset.count_sum', Multiset.count_sum', Finset.card_filter,
    Finset.card_filter]
  refine congrArg₂ (· + ·) (Finset.sum_congr rfl fun p _ => ?_) (Finset.sum_congr rfl fun f _ => ?_)
  · cases t.procs p with
    | none => simp [procRefs]
    | some proc => simp [procRefs, Multiset.count_singleton, eq_comm]
  · unfold fileRefs
    split
    · grind [Multiset.count_singleton]
    · grind [Multiset.count_zero]

/-- What is held between calls. -/
def between (t : Tables) : Hold :=
  { refs := t.refs, locks := 0, begun := 0 }

/-- What holds between calls: the tables are in order, and every reference is counted. -/
structure Settled (s : Sys) : Prop where
  ok : s.tables.Ok
  meets : Meets (between s.tables) s.fs

theorem Settled.exact {s : Sys} (h : Settled s) : Exact s := by
  refine ⟨fun k hk => ?_, fun k hk => ?_, h.meets.begun⟩
  · rw [h.meets.ref k hk]
    exact_mod_cast count_refs s.tables k
  · have := (h.meets.busy k hk).not.mpr (Multiset.notMem_zero k)
    simpa using this

theorem Exact.settled {s : Sys} (h : Exact s) (ht : s.tables.Ok)
    (hin : ∀ k ∈ s.tables.refs, k < NINODE) : Settled s := by
  refine ⟨ht, fun k hk => ?_, hin, fun k hk => ?_, Multiset.nodup_zero,
    fun k hk => absurd hk (Multiset.notMem_zero k), h.closed⟩
  · rw [h.ref k hk]
    exact_mod_cast (count_refs s.tables k).symm
  · exact iff_of_false (by simp [h.free k hk]) (Multiset.notMem_zero k)

/-- One call. -/
theorem step_settled {s u : Sys} {a : Step} (h : Settled s) (hstep : step s a = some u) :
    Settled u := by
  unfold step at hstep
  split at hstep
  · cases hstep
  rename_i x hx
  split at hstep
  · rename_i t w hrun
    obtain rfl := Option.some.inj hstep
    have hheld : Held s.tables 0 0 0 (between s.tables) :=
      Held.of_has h.ok ⟨rfl, rfl, rfl, no_locks⟩
    have hspec := spec_handle (A := rules) (I := fun g (w : World) => Meets g w.fs)
      (fun o g w hi hpre => disk_keeps o g w hi hpre) (Step.program_law hheld hx)
      (s := { fs := s.fs, mem := a.mem }) h.meets
    have hend := of_spec hspec hrun
    obtain ⟨g', hheld', hm⟩ := hend
    have hhas := hheld'.nil
    exact ⟨hheld'.ok, hm.quiet (Quiet.refl _) hhas.refs.symm hhas.locks.symm hhas.begun.symm⟩
  · cases hstep

/-- Over any calls, with any outcomes and on any disk, the references of the inode cache are exact
when no call is in progress. -/
theorem inode_references_are_exact {s u : Sys} {acts : List Step} (hs : Exact s) (ht : s.tables.Ok)
    (hin : ∀ k ∈ s.tables.refs, k < NINODE) (hrun : run step s acts = some u) : Exact u :=
  (inv_of_run (I := Settled) (fun _ _ _ h hstep => step_settled h hstep)
  (hs.settled ht hin) hrun).exact

/-- One process, in the root directory and with the file "f" open. -/
def oneProc : Sys :=
  { fs := smallFs
    tables :=
      { ftable := fun f => if f = 0 then
          { type := .FD_INODE, ref := 1, readable := true, writable := false, pipe := 0,
            ip := 1, off := 0 }
        else
          { type := .FD_NONE, ref := 0, readable := false, writable := false, pipe := 0,
            ip := 0, off := 0 }
        procs := fun p => if p = 0 then
          some { cwd := 0, ofile := fun fd => if fd = 0 then some 0 else none } else none } }

theorem oneProc_ok : oneProc.tables.Ok := by
  have hfile : ∀ f, oneProc.tables.ftable f = oneProc.tables.ftable 0 ∨
      oneProc.tables.ftable f = oneProc.tables.ftable 1 := by
    intro f
    by_cases hf : f = 0
    · exact Or.inl (hf ▸ rfl)
    · exact Or.inr (if_neg hf)
  refine ⟨fun f => ?_, fun f => ?_, fun p proc hp => ?_, fun p proc fd f hp hf => ?_⟩
  · rcases hfile f with h | h <;> rw [h] <;> decide
  · rcases hfile f with h | h <;> rw [h] <;> decide
  · by_cases h0 : p = 0
    · exact h0 ▸ by decide
    · cases (if_neg h0).symm.trans hp
  · by_cases h0 : p = 0
    · obtain rfl := Option.some.inj ((if_pos h0).symm.trans hp)
      by_cases hfd : fd = 0
      · grind
      · cases (if_neg hfd).symm.trans hf
    · cases (if_neg h0).symm.trans hp

/-- A process makes a file and a directory, forks, and the child removes the file that its parent
has open, fails to run what is no program and ends. -/
def sixCalls : List Step :=
  [.call 0 (.call (.open [110] O_CREATE)) fun _ => 0,
    .call 0 (.call (.mkdir (some [100]))) fun _ => 0, .fork 0 1,
    .call 1 (.exec [] [100] []) fun _ => 1, .call 1 (.call (.unlink [102])) fun _ => 0,
    .call 1 (.call .exit) fun _ => 0]

theorem six_calls_are_exact : ∃ u, run step oneProc sixCalls = some u ∧ Exact u := by
  have hsome : (run step oneProc sixCalls).isSome := by decide +kernel
  obtain ⟨u, hu⟩ := Option.isSome_iff_exists.mp hsome
  have hstart : Exact oneProc := ⟨by decide +kernel, by decide +kernel, by decide⟩
  exact ⟨u, hu, inode_references_are_exact hstart oneProc_ok (by decide +kernel) hu⟩

end xv6.irefs
