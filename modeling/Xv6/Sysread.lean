-- System call arguments (syscall.c) and the way of a read call from sys_read through fileread to
-- the stores into user memory by readi, piperead and consoleread. The law of argptr: a buffer of
-- a size that is not negative is inside the caller's memory.
import Xv6.FsSmall

open List bytes WP

namespace xv6.sysread

open fs

/-! ## Arguments -/

/-- What syscall.c reads of the current process: `sz`, the saved user `%esp`, and user memory,
which `allocuvm` keeps below the kernel. -/
structure Image where
  sz : Nat
  esp : Nat
  mem : Mem
  user : sz ≤ KERNBASE

/-- Fetch the int at `addr` from the current process. -/
def fetchint (p : Image) (addr : Nat) : Option Int :=
  if addr ≥ p.sz ∨ uint (addr + 4) > p.sz then none
  else some (toInt (le (fun a => p.mem (uint a)) addr 4))

/-- Fetch the `n`-th 32-bit system call argument. -/
def argint (p : Image) (n : Int) : Option Int := fetchint p (ofInt (p.esp + 4 + 4 * n))

/-- Fetch the `n`-th word-sized system call argument as a pointer to a block of `size` bytes. -/
def argptr (p : Image) (n size : Int) : Option Nat :=
  match argint p n with
  | none => none
  | some i =>
    if ofInt i ≥ p.sz ∨ ofInt (ofInt i + size) > p.sz then none else some (ofInt i)

/-! ## The kernel -/

inductive FileType where
  | FD_NONE
  | FD_PIPE
  | FD_INODE
  deriving DecidableEq

/-- `struct file`. -/
structure OpenFile where
  type : FileType
  ref : Int
  readable : Bool
  writable : Bool
  pipe : Nat
  /-- the entry of the inode cache -/
  ip : Nat
  off : Nat

abbrev PIPESIZE : Nat := 512

/-- `struct pipe`. -/
structure Pipe where
  data : Nat → UInt8
  nread : Nat
  nwrite : Nat
  writeopen : Bool

structure Kernel where
  fs : Fs
  ftable : Nat → OpenFile
  /-- `proc->ofile`, where `none` is a null pointer -/
  ofile : Nat → Option Nat
  /-- `proc->killed` -/
  killed : Bool
  pipes : Nat → Pipe
  /-- the characters that the console has for the process -/
  input : List UInt8
  /-- the stores to user memory, oldest first -/
  stored : List (Nat × UInt8)

abbrev KernelM := EStateM Stop Kernel

/-- Run a function of fs.c. -/
def onFs {α : Type} (x : FsM α) : KernelM α := zoom Kernel.fs (fun t s => { s with fs := t }) x

/-- The stores of bytes from address `dst` on. -/
def puts (dst : Nat) (bs : List UInt8) : List (Nat × UInt8) :=
  bs.mapIdx fun i b => (uint (dst + i), b)

def memmove (dst : Nat) (bs : List UInt8) : KernelM Unit :=
  modify fun s => { s with stored := s.stored ++ puts dst bs }

/-! ## Reading -/

/-- The loop of `readi`, with `left` bytes to go, as in `fs.readLoop`. -/
def copyLoop (k : Nat) : Nat → Nat → Nat → Nat → KernelM Unit
  | 0, _, _, _ => pure ()
  | fuel + 1, dst, off, left =>
    if left = 0 then pure ()
    else do
      let addr ← onFs (bmap k (off / BSIZE))
      let bp ← onFs (bread addr)
      let m := min left (BSIZE - off % BSIZE)
      memmove dst (slice bp (off % BSIZE) m)
      copyLoop k fuel (dst + m) (off + m) (left - m)

/-- The loop of `consoleread`, with `n` characters to go: how many are left to go at its end, or
`none` if the process was killed. -/
def consoleLoop (target : Nat) : Nat → Nat → KernelM (Option Nat)
  | _, 0 => pure (some 0)
  | dst, n + 1 => do
    let s ← get
    match s.input with
    | [] => if s.killed then pure none else throw .sleeps
    | c :: rest =>
      if c = 4 then
        -- C('D') is EOF: it is saved for the next time if there are characters already
        if n + 1 = target then set { s with input := rest }
        pure (some (n + 1))
      else
        set { s with input := rest }
        memmove dst [c]
        -- '\n'
        if c = 10 then pure (some n) else consoleLoop target (dst + 1) n

def consoleread (k dst : Nat) (n : Int) : KernelM Int := do
  onFs (iunlock k)
  let left ← consoleLoop n.toNat dst n.toNat
  onFs (ilock k)
  match left with
  | none => pure (-1)
  | some left => pure (n.toNat - left)

/-- Read data from inode. The one device with a read function is the console. -/
def readi (k dst off n : Nat) : KernelM Int := do
  let s ← get
  let ip := (s.fs.icache k).din
  if ip.type = T_DEV then
    if short ip.major < 0 ∨ short ip.major ≥ NDEV ∨ (s.fs.devsw ip.major.toNat).read.isNone then
      pure (-1)
    else consoleread k dst (toInt n)
  else if off > ip.size.toNat ∨ uint (off + n) < off then pure (-1)
  else
    let n := if uint (off + n) > ip.size.toNat then ip.size.toNat - off else n
    copyLoop k n dst off n
    pure (toInt n)

/-- The loop of `piperead`, with `left` turns to go. -/
def pipeLoop (q addr : Nat) : Nat → Nat → KernelM Nat
  | 0, i => pure i
  | left + 1, i => do
    let p := (← get).pipes q
    if p.nread = p.nwrite then pure i
    else
      memmove (addr + i) [p.data (p.nread % PIPESIZE)]
      modify fun s =>
        { s with pipes := Function.update s.pipes q { p with nread := uint (p.nread + 1) } }
      pipeLoop q addr left (i + 1)

def piperead (q addr : Nat) (n : Int) : KernelM Int := do
  let s ← get
  let p := s.pipes q
  if p.nread = p.nwrite ∧ p.writeopen then
    if s.killed then pure (-1) else throw .sleeps
  else
    let i ← pipeLoop q addr n.toNat 0
    pure i

/-- Read from file `f`. -/
def fileread (f addr : Nat) (n : Int) : KernelM Int := do
  let file := (← get).ftable f
  if ¬ file.readable then pure (-1)
  else
    match file.type with
    | .FD_PIPE => piperead file.pipe addr n
    | .FD_INODE =>
      onFs (ilock file.ip)
      let r ← readi file.ip addr file.off (ofInt n)
      if r > 0 then
        modify fun s => { s with
          ftable := Function.update s.ftable f { file with off := ofInt (file.off + r) } }
      onFs (iunlock file.ip)
      pure r
    | .FD_NONE => throw (.panic "fileread")

/-- Fetch the `n`-th system call argument as a file descriptor, and return its `struct file`. -/
def argfd (p : Image) (s : Kernel) (n : Int) : Option Nat :=
  match argint p n with
  | none => none
  | some fd => if fd < 0 ∨ fd ≥ NOFILE then none else s.ofile fd.toNat

def sys_read (p : Image) : KernelM Int := do
  let s ← get
  match argfd p s 0, argint p 2 with
  | some f, some n =>
    match argptr p 1 n with
    | some addr => fileread f addr n
    | none => pure (-1)
  | _, _ => pure (-1)

/-! ## Stores -/

/-- The run stored `c` bytes at `dst` and the addresses after it. -/
def Put (s : Kernel) (dst c : Nat) (u : Kernel) : Prop :=
  ∃ bs : List UInt8, bs.length = c ∧ u.stored = s.stored ++ puts dst bs

section Stores

variable {s t u : Kernel} {dst c d sz : Nat}

theorem mem_puts {bs : List UInt8} {x : Nat × UInt8} :
    x ∈ puts dst bs ↔ ∃ (i : Nat) (h : i < bs.length), (uint (dst + i), bs[i]) = x := by
  unfold puts
  exact mem_mapIdx

theorem puts_append (dst : Nat) (xs ys : List UInt8) :
    puts dst (xs ++ ys) = puts dst xs ++ puts (dst + xs.length) ys := by
  unfold puts
  rw [mapIdx_append]
  congr 2
  funext i b
  rw [show dst + xs.length + i = dst + (i + xs.length) by omega]

theorem Put.none (h : u.stored = s.stored) : Put s dst 0 u := ⟨[], rfl, by simp [h, puts]⟩

theorem Put.trans (h1 : Put s dst c t) (h2 : Put t (dst + c) d u) : Put s dst (c + d) u := by
  obtain ⟨xs, rfl, hx⟩ := h1
  obtain ⟨ys, rfl, hy⟩ := h2
  exact ⟨xs ++ ys, length_append, by rw [hy, hx, puts_append, append_assoc]⟩

theorem Put.keep (h : Put s dst c t) (hu : u.stored = t.stored) : Put s dst c u := by
  obtain ⟨bs, hlen, ht⟩ := h
  exact ⟨bs, hlen, hu.trans ht⟩

/-- The stores stay below `sz` exactly if their last address does. -/
theorem Put.below_iff (h : Put s dst c u) (h0 : s.stored = []) (hdst : dst < sz)
    (hsz : sz < 2 ^ 32) : (∀ x ∈ u.stored, x.1 < sz) ↔ dst + c ≤ sz := by
  obtain ⟨bs, rfl, hu⟩ := h
  rw [hu, h0, nil_append]
  constructor
  · intro hall
    by_contra hc
    have hmem := hall _ (mem_puts.mpr ⟨sz - dst, by omega, rfl⟩)
    simp only [uint] at hmem
    omega
  · rintro hle x hx
    obtain ⟨i, hi, rfl⟩ := mem_puts.mp hx
    simp only [uint]
    omega

theorem onFs_stored {α : Type} (x : FsM α) :
    spec (onFs x) s (fun _ u => u.stored = s.stored) (fun _ u => u.stored = s.stored) := by
  unfold onFs
  rw [spec_zoom]
  exact spec_of_forall (fun _ _ => rfl) (fun _ _ => rfl)

theorem memmove_spec {bs : List UInt8} {Q : Unit → Kernel → Prop} {E : Stop → Kernel → Prop} :
    spec (memmove dst bs) s Q E ↔ Q () { s with stored := s.stored ++ puts dst bs } := by
  unfold memmove
  exact spec_modify _

/-- At most `n` bytes are stored at `dst`. -/
def AtMost (s : Kernel) (dst n : Nat) (u : Kernel) : Prop := ∃ c ≤ n, Put s dst c u

theorem AtMost.none (n : Nat) (h : u.stored = s.stored) : AtMost s dst n u :=
  ⟨0, Nat.zero_le n, Put.none h⟩

/-- One byte is stored, and then at most `n`. -/
theorem AtMost.cons {n : Nat} {b : UInt8} (h1 : t.stored = s.stored ++ puts dst [b])
    (h2 : AtMost t (dst + 1) n u) : AtMost s dst (n + 1) u := by
  obtain ⟨c, hc, hp⟩ := h2
  exact ⟨1 + c, by omega, Put.trans ⟨[b], rfl, h1⟩ hp⟩

/-! ## piperead and consoleread -/

theorem consoleLoop_spec (target n : Nat) : ∀ (dst : Nat) (s : Kernel),
    spec (consoleLoop target dst n) s (fun _ u => AtMost s dst n u)
    (fun _ u => AtMost s dst n u) := by
  induction n with
  | zero =>
    intro dst s
    rw [consoleLoop, spec_pure]
    exact AtMost.none 0 rfl
  | succ n ih =>
    intro dst s
    rw [consoleLoop]
    simp only [spec_bind, spec_get]
    cases hin : s.input with
    | nil =>
      simp only [spec_ite, spec_pure, spec_throw]
      exact ⟨fun _ => AtMost.none _ rfl, fun _ => AtMost.none _ rfl⟩
    | cons c rest =>
      simp only [spec_ite, spec_bind, spec_set, spec_pure, memmove_spec]
      refine ⟨fun _ => ⟨fun _ => AtMost.none _ rfl, fun _ => AtMost.none _ rfl⟩,
        fun _ => ⟨fun _ => AtMost.cons (b := c) rfl (AtMost.none n rfl), fun _ => ?_⟩⟩
      exact spec_mono (ih (dst + 1) _) (fun _ _ hu => AtMost.cons (b := c) rfl hu)
        (fun _ _ hu => AtMost.cons (b := c) rfl hu)

theorem AtMost.keep {n : Nat} (h : AtMost s dst n t) (hu : u.stored = t.stored) :
    AtMost s dst n u := by
  obtain ⟨c, hc, hp⟩ := h
  exact ⟨c, hc, hp.keep hu⟩

theorem consoleread_spec (k dst : Nat) (n : Int) :
    spec (consoleread k dst n) s (fun _ u => AtMost s dst n.toNat u)
    (fun _ u => AtMost s dst n.toNat u) := by
  unfold consoleread
  simp only [spec_bind]
  apply spec_mono (onFs_stored _) _ (fun _ _ h => AtMost.none _ h)
  intro _ t ht
  have hstart : ∀ u, AtMost t dst n.toNat u → AtMost s dst n.toNat u := by
    rintro u ⟨c, hc, bs, hlen, hu⟩
    exact ⟨c, hc, bs, hlen, ht ▸ hu⟩
  apply spec_mono (consoleLoop_spec _ _ dst t) _ (fun _ u hu => hstart u hu)
  intro left u hu
  apply spec_mono (onFs_stored _) _ (fun _ _ h => (hstart u hu).keep h)
  intro _ v hv
  cases left with
  | none | some left => exact (spec_pure _).mpr ((hstart u hu).keep hv)

theorem pipeLoop_spec (q addr left : Nat) : ∀ (i : Nat) (s : Kernel),
    spec (pipeLoop q addr left i) s (fun _ u => AtMost s (addr + i) left u)
      (fun _ u => AtMost s (addr + i) left u) := by
  induction left with
  | zero =>
    intro i s
    rw [pipeLoop, spec_pure]
    exact AtMost.none 0 rfl
  | succ left ih =>
    intro i s
    rw [pipeLoop]
    simp only [spec_bind, spec_get, spec_ite, spec_pure, spec_modify, memmove_spec]
    refine ⟨fun _ => AtMost.none _ rfl, fun _ => ?_⟩
    exact spec_mono (ih (i + 1) _) (fun _ _ hu => AtMost.cons rfl hu)
      (fun _ _ hu => AtMost.cons rfl hu)

theorem piperead_spec (q addr : Nat) (n : Int) :
    spec (piperead q addr n) s (fun _ u => AtMost s addr n.toNat u)
    (fun _ u => AtMost s addr n.toNat u) := by
  unfold piperead
  simp only [spec_bind, spec_get, spec_ite, spec_pure, spec_throw]
  exact ⟨fun _ => ⟨fun _ => AtMost.none _ rfl, fun _ => AtMost.none _ rfl⟩,
    fun _ => pipeLoop_spec q addr n.toNat 0 s⟩

end Stores

/-! ## fileread -/

section Fileread

variable {R : Nat → Prop} {s : Kernel} {k f dst off n c : Nat} {e : Entry} {g : File}

/-- The stores of the loop of `readi` are the bytes that `fs.readLoop` returns. -/
theorem copyLoop_spec (k fuel : Nat) : ∀ (dst off left : Nat) (s : Kernel)
    (Q : List UInt8 → Fs → Prop), spec (readLoop k fuel off left) s.fs Q (fun _ _ => False) →
    spec (copyLoop k fuel dst off left) s
      (fun _ u => ∃ bs, Q bs u.fs ∧ u.stored = s.stored ++ puts dst bs) (fun _ _ => False) := by
  induction fuel with
  | zero =>
    intro dst off left s Q h
    rw [readLoop, spec_pure] at h
    rw [copyLoop, spec_pure]
    exact ⟨[], h, by simp [puts]⟩
  | succ fuel ih =>
    intro dst off left s Q h
    rw [readLoop, spec_ite] at h
    rw [copyLoop, spec_ite]
    refine ⟨fun h0 => ?_, fun h0 => ?_⟩
    · exact (spec_pure _).mpr ⟨[], (spec_pure _).mp (h.1 h0), by simp [puts]⟩
    · have hrun := h.2 h0
      simp only [spec_bind, spec_pure] at hrun
      simp only [spec_bind, onFs, spec_zoom, memmove_spec]
      apply spec_mono hrun _ (fun _ _ hx => hx)
      intro addr t ht
      apply spec_mono ht _ (fun _ _ hx => hx)
      intro bp t' ht'
      apply spec_mono (ih _ _ _ { s with fs := t', stored := _ } _ ht') _ (fun _ _ hx => hx)
      rintro _ u ⟨rest, hQ, hu⟩
      refine ⟨_, hQ, ?_⟩
      rw [hu, puts_append, length_slice, append_assoc]

/-- How many bytes `readi` stores of a file of `size` bytes. -/
def readCount (size off n : Nat) : Nat :=
  if off ≤ size ∧ off + n < 2 ^ 32 then min (off + n) size - off else 0

theorem size_le (h : Good R s.fs) (he : s.fs.entry k = some e) (hv : e.valid = true)
    (hf : s.fs.file e.inum = some g) (hty : g.type ≠ T_DEV) : g.size ≤ MAXFILE * BSIZE := by
  have hk := Good.inUse he hv
  obtain ⟨_, _, rfl⟩ := entry_eq_some.mp he
  have hw := h.whole hk hf hty
  rw [h.file_eq hk] at hf
  obtain rfl := Option.some.inj hf
  exact le_of_full hw.full

theorem readi_file_spec (dst off n : Nat) (h : Good R s.fs) (he : s.fs.entry k = some e)
    (hv : e.valid = true) (hf : s.fs.file e.inum = some g) (hty : g.type ≠ T_DEV)
    (hoff : off < 2 ^ 32) (hn : n < 2 ^ 32) :
    spec (readi k dst off n) s (fun _ u => Put s dst (readCount g.size off n) u)
      (fun _ _ => False) := by
  have hk := Good.inUse he hv
  have hle := size_le h he hv hf hty
  obtain ⟨_, _, rfl⟩ := entry_eq_some.mp he
  have hw := h.whole hk hf hty
  rw [h.file_eq hk] at hf
  obtain rfl := Option.some.inj hf
  have hsize : (Dinode.file (s.fs.icache k).din (s.fs.byte k (s.fs.icache k).inum)).size =
      (s.fs.icache k).din.size.toNat := rfl
  rw [hsize] at hle ⊢
  unfold readi
  simp only [spec_bind, spec_get]
  rw [if_neg hw.type]
  by_cases hc : off ≤ (s.fs.icache k).din.size.toNat ∧ off + n < 2 ^ 32
  · have huint : uint (off + n) = off + n := Nat.mod_eq_of_lt hc.2
    have hcount : (if off + n > (s.fs.icache k).din.size.toNat then
        (s.fs.icache k).din.size.toNat - off else n) =
        readCount (s.fs.icache k).din.size.toNat off n := by
      unfold readCount
      rw [if_pos hc]
      split <;> omega
    rw [if_neg (by omega), huint, hcount]
    have hmin : readCount (s.fs.icache k).din.size.toNat off n =
        min (off + n) (s.fs.icache k).din.size.toNat - off := if_pos hc
    simp only [spec_bind, spec_pure]
    have hread := readLoop_spec (E := fun _ _ => False) hw.opened _ off
      (readCount (s.fs.icache k).din.size.toNat off n)
      (fun bs _ => bs.length = readCount (s.fs.icache k).din.size.toNat off n) (Nat.le_refl _)
      (by omega) (fun x _ hx => hw.full x (by omega)) (length_slice ..)
    exact copyLoop_spec _ _ dst _ _ s _ hread
  · rw [if_pos (by simp only [uint]; omega)]
    refine (spec_pure _).mpr ?_
    unfold readCount
    rw [if_neg hc]
    exact Put.none rfl

theorem readi_device_spec (dst off n : Nat) (h : Good R s.fs) (he : s.fs.entry k = some e)
    (hv : e.valid = true) (hf : s.fs.file e.inum = some g) (hty : g.type = T_DEV) :
    spec (readi k dst off n) s (fun _ u => AtMost s dst (toInt n).toNat u)
      (fun _ u => AtMost s dst (toInt n).toNat u) := by
  have hk := Good.inUse he hv
  obtain ⟨_, _, rfl⟩ := entry_eq_some.mp he
  rw [h.file_eq hk] at hf
  obtain rfl := Option.some.inj hf
  unfold readi
  simp only [spec_bind, spec_get]
  have hdev : (s.fs.icache k).din.type = T_DEV := hty
  rw [if_pos hdev, spec_ite, spec_pure]
  exact ⟨fun _ => AtMost.none _ rfl, fun _ => consoleread_spec ..⟩

/-- A read call with a negative count of a file that is not a device: `readi` takes the count as
unsigned, and cuts it to the `c` bytes that the file has after the offset. -/
structure Clipped (s : Kernel) (f : Nat) (n : Int) (c : Nat) : Prop where
  readable : (s.ftable f).readable = true
  type : (s.ftable f).type = .FD_INODE
  neg : n < 0
  /-- the sum of the offset and the unsigned count does not wrap -/
  off : (s.ftable f).off + n < 0
  file : ∃ e g, s.fs.entry (s.ftable f).ip = some e ∧ e.busy = false ∧
    s.fs.file e.inum = some g ∧ g.type ≠ T_DEV ∧ c = g.size - (s.ftable f).off

/-- An open file, as `sys_open` leaves it: it is for an inode in the cache. -/
structure Opening (s : Kernel) (f : Nat) : Prop where
  off : (s.ftable f).off < 2 ^ 32
  entry : (s.ftable f).type = .FD_INODE → ∃ e, s.fs.entry (s.ftable f).ip = some e ∧
    0 < e.inum ∧ e.inum < s.fs.sb.ninodes

/-- `fileread` of an inode: what the part after `ilock` stores is what it stores. -/
theorem fileread_inode_spec {n : Int} (h : Good R s.fs) (ho : Opening s f)
    (hr : (s.ftable f).readable = true) (ht : (s.ftable f).type = .FD_INODE) {I : Kernel → Prop}
    (hstop : ∀ e t, s.fs.entry (s.ftable f).ip = some e →
      e.busy = true ∨ s.fs.file e.inum = none → I { s with fs := t })
    (hkeep : ∀ t u : Kernel, I t → u.stored = t.stored → I u)
    (hread : ∀ e g t, s.fs.entry (s.ftable f).ip = some e → e.busy = false →
      s.fs.file e.inum = some g → Good R t → t.file = s.fs.file →
      t.entry (s.ftable f).ip = some { e with busy := true, valid := true } →
      spec (readi (s.ftable f).ip dst (s.ftable f).off (ofInt n)) { s with fs := t }
        (fun _ => I) (fun _ => I)) :
    spec (fileread f dst n) s (fun _ => I) (fun _ => I) := by
  obtain ⟨e, he, hi, hlt⟩ := ho.entry ht
  unfold fileread
  simp only [spec_bind, spec_get]
  rw [if_neg (by simp [hr]), ht]
  simp only [spec_bind]
  rw [onFs, spec_zoom]
  apply spec_mono (ilock_spec (h.sound 0) he hi hlt)
  · rintro _ t ⟨hb, ⟨g, hg⟩, hsh⟩
    apply spec_mono (hread e g t he hb hg hsh.good.toGood hsh.file
      (by rw [hsh.entry, Function.update_self])) _ (fun _ _ hx => hx)
    intro r u hu
    simp only [spec_ite, spec_bind, spec_modify, spec_pure]
    refine ⟨fun _ => ?_, fun _ => ?_⟩
    · exact spec_mono (onFs_stored _) (fun _ v hv => hkeep u v hu hv) fun _ v hv => hkeep u v hu hv
    · exact spec_mono (onFs_stored _) (fun _ v hv => hkeep u v hu hv) fun _ v hv => hkeep u v hu hv
  · grind

/-- A clipped read stores all the bytes of the file after the offset. -/
theorem fileread_clipped {n : Int} (h : Good R s.fs) (ho : Opening s f) (hc : Clipped s f n c)
    (hn : -2 ^ 31 ≤ n) :
    spec (fileread f dst n) s (fun _ u => Put s dst c u) (fun _ u => Put s dst c u) := by
  obtain ⟨e, g, he, hb, hg, hty, rfl⟩ := hc.file
  refine fileread_inode_spec h ho hc.readable hc.type (fun e' t he' hx => ?_)
    (fun t u ht hu => ht.keep hu) (fun e' g' t he' _ hg' hgood hfile hent => ?_)
  · grind
  · obtain rfl := Option.some.inj (he.symm.trans he')
    have hf : t.file e.inum = some g := by rw [hfile, hg]
    have hread := readi_file_spec (s := { s with fs := t }) dst _ (ofInt n) hgood hent rfl hf hty
      ho.off (ofInt_lt n)
    have hle := size_le (s := { s with fs := t }) hgood hent rfl hf hty
    have hsum := hc.off
    have hcount : readCount g.size (s.ftable f).off (ofInt n) = g.size - (s.ftable f).off := by
      simp only [MAXFILE, NDIRECT, NINDIRECT, BSIZE] at hle
      unfold readCount ofInt
      split <;> omega
    rw [hcount] at hread
    exact spec_mono hread (fun _ _ hu => hu) (fun _ _ hx => hx.elim)

/-- Every other read stores no more bytes than it is asked to. -/
theorem fileread_bounded {n : Int} (h : Good R s.fs) (ho : Opening s f)
    (hc : ∀ c, ¬ Clipped s f n c) (hn : -2 ^ 31 ≤ n) (hlt : n < 2 ^ 31) :
    spec (fileread f dst n) s (fun _ u => AtMost s dst n.toNat u)
    (fun _ u => AtMost s dst n.toNat u) := by
  by_cases hr : (s.ftable f).readable = true
  · cases ht : (s.ftable f).type with
    | FD_NONE =>
      unfold fileread
      simp only [spec_bind, spec_get]
      rw [if_neg (by simp [hr]), ht]
      exact (spec_throw _).mpr (AtMost.none _ rfl)
    | FD_PIPE =>
      unfold fileread
      simp only [spec_bind, spec_get]
      rw [if_neg (by simp [hr]), ht]
      exact piperead_spec ..
    | FD_INODE =>
      refine fileread_inode_spec h ho hr ht (fun _ _ _ _ => AtMost.none _ rfl)
        (fun t u ht hu => ht.keep hu) (fun e g t he hb hg hgood hfile hent => ?_)
      have hf : t.file e.inum = some g := by rw [hfile, hg]
      by_cases hty : g.type = T_DEV
      · have hread := readi_device_spec (s := { s with fs := t }) dst (s.ftable f).off
          (ofInt n) hgood hent rfl hf hty
        rw [toInt_ofInt hn hlt] at hread
        exact hread
      · apply spec_mono (readi_file_spec (s := { s with fs := t }) dst _ _ hgood hent rfl hf hty
          ho.off (ofInt_lt n)) _ (fun _ _ hx => hx.elim)
        intro _ u hu
        refine ⟨_, ?_, hu⟩
        have hclip : n < 0 → ¬ ((s.ftable f).off + n < 0) := fun h1 h2 =>
          hc _ ⟨hr, ht, h1, h2, e, g, he, hb, hg, hty, rfl⟩
        unfold readCount ofInt
        split <;> omega
  · unfold fileread
    simp only [spec_bind, spec_get]
    rw [if_pos (by simpa using hr)]
    exact (spec_pure _).mpr (AtMost.none _ rfl)

end Fileread

/-! ## The law of argptr -/

/-- A negative size that passes the check of `argptr`: the sum with the pointer is modulo 2^32. -/
def Negative (p : Image) (n size : Int) : Prop :=
  size < 0 ∧ ∃ i, argint p n = some i ∧ ofInt i < p.sz ∧ ofInt (ofInt i + size) ≤ p.sz

/-- A read call with a negative count that passes the check, of a file that has more bytes after
its offset than the caller's memory after the pointer. -/
def Overrun (p : Image) (s : Kernel) : Prop :=
  ∃ f n i c, argfd p s 0 = some f ∧ argint p 2 = some n ∧ argint p 1 = some i ∧
    ofInt i < p.sz ∧ ofInt (ofInt i + n) ≤ p.sz ∧ Clipped s f n c ∧ p.sz < ofInt i + c

section Argptr

variable {p : Image} {s : Kernel} {n size : Int} {a f : Nat}

theorem argptr_eq_some : argptr p n size = some a ↔
    ∃ i, argint p n = some i ∧ a = ofInt i ∧ a < p.sz ∧ ofInt (a + size) ≤ p.sz := by
  unfold argptr
  cases hi : argint p n with
  | none => simp
  | some i =>
    simp only [Option.some.injEq, exists_eq_left']
    split
    · grind
    · grind

/-- A buffer that passed the check ends inside the memory, if its size is not negative. -/
theorem argptr_inside (h : argptr p n size = some a) (h0 : 0 ≤ size) (hlt : size < 2 ^ 31) :
    a + size ≤ p.sz := by
  obtain ⟨i, _, _, ha, hs⟩ := argptr_eq_some.mp h
  have huser := p.user
  unfold ofInt at hs
  simp only [KERNBASE] at huser
  omega

theorem argint_range {i : Int} (h : argint p n = some i) : -2 ^ 31 ≤ i ∧ i < 2 ^ 31 := by
  unfold argint fetchint at h
  split at h
  · cases h
  · obtain rfl := Option.some.inj h
    have hlt := le_lt (fun a => p.mem (uint a)) (ofInt (p.esp + 4 + 4 * n)) 4
    unfold toInt
    split <;> omega

theorem Clipped.unique {c d : Nat} (h : Clipped s f n c) (h' : Clipped s f n d) : c = d := by
  obtain ⟨e, g, he, _, hg, _, rfl⟩ := h.file
  obtain ⟨e', g', he', _, hg', _, rfl⟩ := h'.file
  obtain rfl := Option.some.inj (he.symm.trans he')
  obtain rfl := Option.some.inj (hg.symm.trans hg')
  rfl

/-- A read call is rejected, or it is a `fileread`. -/
theorem sys_read_cases (p : Image) (s : Kernel) : sys_read p s = .ok (-1) s ∧ ¬ Overrun p s ∨
      ∃ f n a, argfd p s 0 = some f ∧ argint p 2 = some n ∧ argptr p 1 n = some a ∧
        sys_read p s = fileread f a n s := by
  have hrejected : (∀ f n a, argfd p s 0 = some f → argint p 2 = some n → argptr p 1 n ≠ some a) →
      ¬ Overrun p s := by
    rintro hne ⟨f, n, i, c, hf, hn, hi, h1, h2, _, _⟩
    exact hne f n _ hf hn (argptr_eq_some.mpr ⟨i, hi, rfl, h1, h2⟩)
  cases hf : argfd p s 0 with
  | none =>
    refine Or.inl ⟨?_, hrejected (by simp [hf])⟩
    simp only [sys_read, get_bind, hf]
    rfl
  | some f =>
    cases hn : argint p 2 with
    | none =>
      refine Or.inl ⟨?_, hrejected (by simp [hn])⟩
      simp only [sys_read, get_bind, hf, hn]
      rfl
    | some n =>
      cases ha : argptr p 1 n with
      | none =>
        refine Or.inl ⟨?_, hrejected ?_⟩
        · simp only [sys_read, get_bind, hf, hn, ha]
          rfl
        · grind
      | some a =>
        refine Or.inr ⟨f, n, a, rfl, rfl, ha, ?_⟩
        simp only [sys_read, get_bind, hf, hn, ha]

theorem argfd_eq_some (h : argfd p s n = some f) : ∃ fd < NOFILE, s.ofile fd = some f := by
  unfold argfd at h
  cases hi : argint p n with
  | none =>
    rw [hi] at h
    cases h
  | some fd =>
    grind

/-- The stores of a read call are below `sz` exactly if it is no overrun. -/
theorem sys_read_below_iff {R : Nat → Prop} (h : Good R s.fs) (h0 : s.stored = [])
    (ho : ∀ fd < NOFILE, ∀ f, s.ofile fd = some f → Opening s f) :
    (∀ x ∈ (final (sys_read p s)).stored, x.1 < p.sz) ↔ ¬ Overrun p s := by
  rcases sys_read_cases p s with ⟨hrun, hno⟩ | ⟨f, n, a, hf, hn, ha, hrun⟩
  · rw [hrun, final, h0]
    exact iff_of_true (by simp) hno
  · have hsz : p.sz < 2 ^ 32 := Nat.lt_of_le_of_lt p.user (by decide)
    obtain ⟨fd, hfd, hof⟩ := argfd_eq_some hf
    obtain ⟨hlo, hhi⟩ := argint_range hn
    obtain ⟨i, hi, rfl, hlt, hsum⟩ := argptr_eq_some.mp ha
    rw [hrun]
    by_cases hc : ∃ c, Clipped s f n c
    · obtain ⟨c, hc⟩ := hc
      rw [(spec_final.mp (fileread_clipped h (ho fd hfd f hof) hc hlo)).below_iff h0 hlt hsz]
      constructor
      · rintro hle ⟨f', n', i', c', hf', hn', hi', _, _, hc', hover⟩
        obtain rfl := Option.some.inj (hf.symm.trans hf')
        obtain rfl := Option.some.inj (hn.symm.trans hn')
        obtain rfl := Option.some.inj (hi.symm.trans hi')
        obtain rfl := hc.unique hc'
        omega
      · intro hno
        by_contra hle
        exact hno ⟨f, n, i, c, hf, hn, hi, hlt, hsum, hc, by omega⟩
    · obtain ⟨c, hle, hput⟩ := spec_final.mp
        (fileread_bounded h (ho fd hfd f hof) (fun c hcl => hc ⟨c, hcl⟩) hlo hhi)
      rw [hput.below_iff h0 hlt hsz]
      refine iff_of_true ?_ ?_
      · by_cases hneg : 0 ≤ n
        · have := argptr_inside ha hneg hhi
          omega
        · omega
      · rintro ⟨f', n', i', c', hf', hn', _, _, _, hc', _⟩
        obtain rfl := Option.some.inj (hf.symm.trans hf')
        obtain rfl := Option.some.inj (hn.symm.trans hn')
        exact hc ⟨c', hc'⟩

/-- `argptr` gives a buffer inside the caller's memory exactly if no negative size passes its
check, and a read call stores inside of it exactly if it is no overrun. -/
theorem buffers_are_inside_iff {R : Nat → Prop} (p : Image) (s : Kernel) (h : Good R s.fs)
    (h0 : s.stored = []) (ho : ∀ fd < NOFILE, ∀ f, s.ofile fd = some f → Opening s f) :
    (∀ n size : Int, -2 ^ 31 ≤ size → size < 2 ^ 31 →
      ((∀ a, argptr p n size = some a → 0 ≤ size ∧ a + size < 2 ^ 32 ∧ a + size ≤ p.sz) ↔
        ¬ Negative p n size)) ∧
    ((∀ x ∈ (final (sys_read p s)).stored, x.1 < p.sz) ↔ ¬ Overrun p s) := by
  refine ⟨fun n size _ hlt => ⟨?_, fun hneg a ha => ?_⟩, sys_read_below_iff h h0 ho⟩
  · rintro hall ⟨hneg, i, hi, h1, h2⟩
    have := (hall (ofInt i) (argptr_eq_some.mpr ⟨i, hi, rfl, h1, h2⟩)).1
    omega
  · have h0 : 0 ≤ size := by
      by_contra hs
      obtain ⟨i, hi, rfl, h1, h2⟩ := argptr_eq_some.mp ha
      exact hneg ⟨by omega, i, hi, h1, h2⟩
    have hin := argptr_inside ha h0 hlt
    have huser := p.user
    simp only [KERNBASE] at huser
    exact ⟨h0, by omega, hin⟩

end Argptr

/-! ## Two read calls -/

/-- A process of one page, whose stack has the arguments descriptor 3, address 4094 and the count
with the bytes `n`. -/
def onePage (n : Nat → UInt8) : Image where
  sz := 4096
  esp := 100
  mem := fun a =>
    if a = 104 then 3
    else if a = 108 then 0xfe
    else if a = 109 then 0x0f
    else if 112 ≤ a ∧ a < 116 then n (a - 112)
    else 0
  user := by decide

/-- Descriptor 3 is the file of ten bytes. -/
def tenOpen : Kernel :=
  { fs := smallFs
    ftable := fun _ =>
      { type := .FD_INODE, ref := 1, readable := true, writable := false, pipe := 0,
        ip := 1, off := 0 }
    ofile := fun fd => if fd = 3 then some 0 else none
    killed := false
    pipes := fun _ => { data := fun _ => 0, nread := 0, nwrite := 0, writeopen := false }
    input := []
    stored := [] }

theorem tenOpen_opening (f : Nat) : Opening tenOpen f := by
  have hent : smallFs.entry 1 = some ⟨2, 1, false, true⟩ := by decide +kernel
  have hoff : 0 < 2 ^ 32 := by decide
  exact ⟨hoff, fun _ => ⟨_, hent, by decide, by decide⟩⟩

/-- A read of two bytes at the end of the memory stays inside of it. -/
theorem two_bytes_fit : argint (onePage fun i => if i = 0 then 2 else 0) 2 = some 2 ∧
      ∀ x ∈ (final (sys_read (onePage fun i => if i = 0 then 2 else 0) tenOpen)).stored,
        x.1 < 4096 := by
  have hn : argint (onePage fun i => if i = 0 then 2 else 0) 2 = some 2 := by decide +kernel
  refine ⟨hn, (buffers_are_inside_iff _ tenOpen smallFs_good rfl
    fun _ _ f _ => tenOpen_opening f).2.mpr ?_⟩
  rintro ⟨f, n, i, c, _, hn', _, _, _, hc, _⟩
  obtain rfl := Option.some.inj (hn.symm.trans hn')
  exact absurd hc.neg (by decide)

/-- A read with the count -1 at address 4094 passes the check of `argptr`, and stores the ten bytes
of the file there, eight of them above the memory of the process. -/
theorem a_negative_count_overruns :
    Good (· < 8) tenOpen.fs ∧ argint (onePage fun _ => 255) 2 = some (-1) ∧
      argptr (onePage fun _ => 255) 1 (-1) = some 4094 ∧
      ((final (sys_read (onePage fun _ => 255) tenOpen)).stored.filter
        fun x => 4096 ≤ x.1).length = 8 :=
  ⟨smallFs_good, by decide +kernel, by decide +kernel, by decide +kernel⟩

end xv6.sysread
