-- The disk driver of ide.c, with the disk it drives: processes that call `iderw`, each on a buffer
-- of its own, and interrupts, in any interleaving. A step is a critical section of `idelock` or the
-- end of a command of the disk. The driver of memide.c, which does all at once, is what it is
-- compared with.
import Mathlib.Data.List.Perm.Subperm
import Xv6.Bio
import Xv6.Chain
import Xv6.Places
import Xv6.Runs

open Option List Function chain places runs

namespace xv6

open bio (Buf)

/-! ## memide.c -/

namespace memide

structure Mem where
  /-- in blocks -/
  disksize : Nat
  memdisk : Nat → Block
  buf : Nat → Buf

def iderw (m : Mem) (b : Nat) : Except String Mem :=
  let x := m.buf b
  if !x.busy then .error "iderw: buf not busy"
  else if x.valid && !x.dirty then .error "iderw: nothing to do"
  else if x.dev ≠ 1 then .error "iderw: request not for disk 1"
  else if x.blockno ≥ m.disksize then .error "iderw: block out of range"
  else if x.dirty then
    .ok { m with
      memdisk := Function.update m.memdisk x.blockno x.data
      buf := Function.update m.buf b { x with valid := true, dirty := false } }
  else
    .ok { m with
      buf := Function.update m.buf b { x with valid := true, data := m.memdisk x.blockno } }

/-- `iderw` on one buffer after the other. -/
def runAll (m : Mem) (bs : List Nat) : Except String Mem := bs.foldlM iderw m

end memide

/-! ## The disk -/

namespace ide

/-- The ports 0x1f2 to 0x1f6. -/
structure Regs where
  count : UInt8
  lba0 : UInt8
  lba1 : UInt8
  lba2 : UInt8
  drive : UInt8

/-- A command that the disk works on, with the data of a write. -/
structure Cmd where
  write : Bool
  unit : Nat
  sector : Nat
  count : Nat
  data : Block

structure Disk where
  regs : Regs
  /-- the contents, by unit and sector -/
  sectors : Nat → Nat → Block
  /-- the command that is not finished -/
  cmd : Option Cmd
  /-- an interrupt that is not taken, with the data of a read -/
  irq : Option Block

/-- Port 0x1f7: the command that the ports stand for. -/
def Disk.command (d : Disk) (write : Bool) (data : Block) : Disk :=
  let r := d.regs
  let cmd : Cmd :=
    { write := write
      unit := r.drive.toNat / 2 ^ 4 % 2
      sector := r.lba0.toNat + r.lba1.toNat * 2 ^ 8 + r.lba2.toNat * 2 ^ 16 +
        r.drive.toNat % 2 ^ 4 * 2 ^ 24
      count := r.count.toNat
      data := data }
  { d with cmd := some cmd }

/-- The disk finishes a command for one sector, without an error, and interrupts. -/
def Disk.finish (d : Disk) : Option Disk :=
  match d.cmd with
  | none => none
  | some c =>
    if c.count ≠ 1 then none
    else some { d with
      sectors := if c.write then
        Function.update d.sectors c.unit (Function.update (d.sectors c.unit) c.sector c.data)
          else d.sectors
      cmd := none
      irq := some (d.sectors c.unit c.sector) }

/-! ## The driver -/

/-- Where the process is that calls `iderw` on a buffer. -/
inductive Place where
  | start
  /-- before it acquires `idelock` -/
  | checked
  /-- in `sleep` on the buffer -/
  | asleep
  /-- woken up, before it acquires `idelock` again -/
  | awake
  | back
  deriving DecidableEq

structure State where
  havedisk1 : Bool
  idequeue : Option Nat
  buf : Nat → Buf
  qnext : Nat → Option Nat
  disk : Disk
  place : Nat → Place
  panic : Option String
  /-- the buffers in the order in which they were queued -/
  queued : List Nat
  /-- those for which a command was given to the disk -/
  started : List Nat
  /-- those that `ideintr` has taken from the queue -/
  completed : List Nat

def State.stop (s : State) (msg : String) : State := { s with panic := some msg }

def State.move (s : State) (b : Nat) (x : Place) : State :=
  { s with place := Function.update s.place b x }

abbrev SECTOR_SIZE : Nat := 512

def sector_per_block : Nat := BSIZE / SECTOR_SIZE

/-- What `idestart` puts in the ports. The bits that make up `drive` do not overlap. -/
def Regs.start (sector dev : Nat) : Regs :=
  { count := UInt8.ofNat sector_per_block
    lba0 := UInt8.ofNat (sector % 2 ^ 8)
    lba1 := UInt8.ofNat (sector / 2 ^ 8 % 2 ^ 8)
    lba2 := UInt8.ofNat (sector / 2 ^ 16 % 2 ^ 8)
    drive := UInt8.ofNat (0xe0 + dev % 2 * 2 ^ 4 + sector / 2 ^ 24 % 2 ^ 4) }

/-- `idestart`, where `none` is that `idewait` spins. -/
def idestart (s : State) (b : Nat) : Option State :=
  let x := s.buf b
  if x.blockno ≥ FSSIZE then some (s.stop "incorrect blockno")
  else if sector_per_block > 7 then some (s.stop "idestart")
  else if s.disk.cmd.isSome then none
  else
    let regs := Regs.start (x.blockno * sector_per_block) x.dev
    some { s with
      disk := ({ s.disk with regs := regs }).command x.dirty x.data
      started := s.started ++ [b] }

/-- The while loop of `iderw`: go on or sleep. -/
def wait (s : State) (b : Nat) : State :=
  s.move b (if (s.buf b).valid && !(s.buf b).dirty then .back else .asleep)

/-- `iderw`, up to `acquire`. -/
def iderwChecks (s : State) (b : Nat) : State :=
  let x := s.buf b
  if !x.busy then s.stop "iderw: buf not busy"
  else if x.valid && !x.dirty then s.stop "iderw: nothing to do"
  else if x.dev ≠ 0 && !s.havedisk1 then s.stop "iderw: ide disk 1 not present"
  else s.move b .checked

/-- Append `b` to `idequeue`. There are `n` buffers, so the loop has at most `n` turns. -/
def append (n : Nat) (s : State) (b : Nat) : Option State :=
  let qnext := Function.update s.qnext b none
  match s.idequeue with
  | none => some { s with qnext := qnext, idequeue := some b, queued := s.queued ++ [b] }
  | some h =>
    (last qnext n h).map fun c =>
      { s with qnext := Function.update qnext c (some b), queued := s.queued ++ [b] }

/-- `iderw`, from `acquire` until it sleeps. -/
def iderwQueue (n : Nat) (s : State) (b : Nat) : Option State := do
  let s ← append n s b
  let s ← if s.idequeue = some b then idestart s b else some s
  pure (wait s b)

/-- What `ideintr` makes of the first buffer of the queue. -/
def complete (s : State) (b : Nat) (data : Block) : State :=
  let x := s.buf b
  { s with
    idequeue := s.qnext b
    buf := Function.update s.buf b { x with
      data := if x.dirty then x.data else data, valid := true, dirty := false }
    place := if s.place b = .asleep then Function.update s.place b .awake else s.place
    completed := s.completed ++ [b] }

/-- `ideintr`, for an interrupt of the disk. -/
def ideintr (s : State) (data : Block) : Option State :=
  let s := { s with disk := { s.disk with irq := none } }
  match s.idequeue with
  | none => some s
  | some b =>
    let s := complete s b data
    match s.idequeue with
    | none => some s
    | some c => idestart s c

inductive Act where
  /-- the process for buffer `b` calls `iderw` -/
  | call (b : Nat)
  | queue (b : Nat)
  /-- the process for buffer `b` goes on after `sleep` -/
  | resume (b : Nat)
  /-- the disk finishes a command -/
  | finish
  | intr
  deriving DecidableEq

/-- What happens next among `n` processes, process `b` on buffer `b`. -/
def step (n : Nat) (s : State) (a : Act) : Option State :=
  if s.panic.isSome then none
  else
    match a with
    | .call b => if b < n ∧ s.place b = .start then some (iderwChecks s b) else none
    | .queue b => if b < n ∧ s.place b = .checked then iderwQueue n s b else none
    | .resume b => if b < n ∧ s.place b = .awake then some (wait s b) else none
    | .finish => s.disk.finish.map fun d => { s with disk := d }
    | .intr => s.disk.irq.bind (ideintr s)

/-- A buffer that is ready for both drivers: it is busy and needs work, and its block is there. -/
structure Work (disksize : Nat) (x : Buf) : Prop where
  busy : x.busy = true
  work : x.valid = false ∨ x.dirty = true
  dev : x.dev = 1
  fits : x.blockno < FSSIZE
  within : x.blockno < disksize

/-- Nobody has called `iderw` yet, and the disk is idle. -/
structure Start (n disksize : Nat) (s : State) : Prop where
  havedisk1 : s.havedisk1 = true
  idequeue : s.idequeue = none
  work : ∀ b < n, Work disksize (s.buf b)
  cmd : s.disk.cmd = none
  irq : s.disk.irq = none
  place : ∀ b, s.place b = .start
  panic : s.panic = none
  queued : s.queued = []
  started : s.started = []
  completed : s.completed = []

/-- The buffers and disk 1, as memide.c has them. -/
def State.mem (s : State) (disksize : Nat) : memide.Mem :=
  { disksize := disksize, memdisk := s.disk.sectors 1, buf := s.buf }

/-! ## What each part does -/

section

variable {n disksize b : Nat} {m0 m : memide.Mem} {q : List Nat} {s s' : State} {x : Buf}

/-- The command for a buffer on disk 1. -/
def cmdOf (x : Buf) : Cmd :=
  { write := x.dirty, unit := 1, sector := x.blockno, count := 1, data := x.data }

theorem Work.not_done (h : Work disksize x) : (x.valid && !x.dirty) = false := by
  rcases h.work with h | h <;> simp [h]

/-- The ports carry the sector and the unit. -/
theorem command_start {d : Disk} (h : Work disksize x) :
    (({ d with
      regs := Regs.start (x.blockno * sector_per_block) x.dev }).command x.dirty x.data).cmd =
      some (cmdOf x) := by
  have hfits : x.blockno < 1000 := h.fits
  have hone : sector_per_block = 1 := by decide
  simp only [Disk.command, Regs.start, hone, cmdOf, h.dev, UInt8.toNat_ofNat', some.injEq,
    Cmd.mk.injEq, true_and, and_true]
  omega

theorem idestart_eq (h : Work disksize (s.buf b)) (hcmd : s.disk.cmd = none) :
    ∃ d, idestart s b = some { s with disk := d, started := s.started ++ [b] } ∧
      d.cmd = some (cmdOf (s.buf b)) ∧ d.sectors = s.disk.sectors ∧ d.irq = s.disk.irq := by
  refine ⟨_, ?_, command_start h, rfl, rfl⟩
  unfold idestart
  rw [if_neg (Nat.not_le.mpr h.fits), if_neg (by decide), hcmd]
  rfl

/-- What memide.c makes of a buffer that is ready. -/
def after (m : memide.Mem) (b : Nat) : memide.Mem :=
  let x := m.buf b
  { m with
    memdisk := if x.dirty then Function.update m.memdisk x.blockno x.data else m.memdisk
    buf := Function.update m.buf b { x with
      data := if x.dirty then x.data else m.memdisk x.blockno, valid := true, dirty := false } }

theorem memide_iderw (h : Work m.disksize (m.buf b)) : memide.iderw m b = .ok (after m b) := by
  unfold memide.iderw
  rw [if_neg (by simp [h.busy]), if_neg (by simp [h.not_done]), if_neg (not_not.mpr h.dev),
    if_neg (Nat.not_le.mpr h.within)]
  by_cases hd : (m.buf b).dirty
  · simp [after, hd]
  · simp [after, hd]

/-- What the disk is at, for the first buffer of the queue. -/
def DiskFits (m : memide.Mem) (d : Disk) : List Nat → Prop
  | [] => d.cmd = none ∧ d.irq = none ∧ d.sectors 1 = m.memdisk
  | b :: _ =>
    d.cmd = some (cmdOf (m.buf b)) ∧ d.irq = none ∧ d.sectors 1 = m.memdisk ∨
    d.cmd = none ∧ d.irq = some (m.memdisk (m.buf b).blockno) ∧ d.sectors 1 = (after m b).memdisk

/-! ## The invariant -/

/-- The buffers are as memide.c leaves them after those that are completed, and `q` are those that
are still in the queue. -/
structure Inv (n disksize : Nat) (m0 m : memide.Mem) (q : List Nat) (s : State) : Prop where
  panic : s.panic = none
  havedisk1 : s.havedisk1 = true
  queued : s.queued = s.completed ++ q
  nodup : s.queued.Nodup
  bound : ∀ b ∈ s.queued, b < n
  chain : Chain s.qnext s.idequeue q
  mem : memide.runAll m0 s.completed = .ok m
  size : m.disksize = disksize
  buf : s.buf = m.buf
  work : ∀ b < n, b ∉ s.completed → Work disksize (s.buf b)
  done : ∀ b ∈ s.completed, (s.buf b).valid = true ∧ (s.buf b).dirty = false
  early : ∀ b, s.place b = .start ∨ s.place b = .checked → b ∉ s.queued
  asleep : ∀ b, s.place b = .asleep → b ∈ q
  late : ∀ b, s.place b = .awake ∨ s.place b = .back → b ∈ s.completed
  disk : DiskFits m s.disk q
  started : s.started = s.completed ++ q.take 1

theorem Start.inv (h : Start n disksize s) :
    Inv n disksize (s.mem disksize) (s.mem disksize) [] s := by
  have hplace : ∀ {b x}, x ≠ .start → s.place b ≠ x := by
    rintro b x hx rfl
    exact hx (h.place b)
  refine ⟨h.panic, h.havedisk1, ?_, ?_, ?_, h.idequeue, ?_, rfl, rfl,
    fun b hb _ => h.work b hb, ?_, ?_, ?_, ?_, ⟨h.cmd, h.irq, rfl⟩, ?_⟩
  · rw [h.queued, h.completed]
    rfl
  · rw [h.queued]
    exact nodup_nil
  · rw [h.queued]
    exact fun _ hb => absurd hb not_mem_nil
  · rw [h.completed]
    rfl
  · rw [h.completed]
    exact fun _ hb => absurd hb not_mem_nil
  · rw [h.queued]
    exact fun _ _ => not_mem_nil
  · grind
  · grind
  · rw [h.started, h.completed]
    rfl

/-- A buffer in the queue has a process that sleeps. -/
theorem Inv.asleep_of_mem (h : Inv n disksize m0 m q s) (hb : b ∈ q) : s.place b = .asleep := by
  have hq : b ∈ s.queued := by
    rw [h.queued]
    exact mem_append_right _ hb
  have hnot : b ∉ s.completed := fun hc => by
    grind [h.nodup, h.queued, disjoint_of_nodup_append]
  cases hp : s.place b with
  | start => exact absurd hq (h.early b (Or.inl hp))
  | checked => exact absurd hq (h.early b (Or.inr hp))
  | asleep => rfl
  | awake => exact absurd (h.late b (Or.inl hp)) hnot
  | back => exact absurd (h.late b (Or.inr hp)) hnot

theorem Inv.not_completed (h : Inv n disksize m0 m q s) (hb : b ∈ q) : b ∉ s.completed := by
  intro hc
  have hnd := h.nodup
  rw [h.queued] at hnd
  exact (disjoint_of_nodup_append hnd) hc hb

theorem Inv.lt (h : Inv n disksize m0 m q s) (hb : b ∈ q) : b < n :=
  h.bound b (by rw [h.queued]; exact mem_append_right _ hb)

/-! ## Each step keeps the invariant -/

/-- A process moves on that is neither in the queue before nor after. -/
theorem Inv.call (h : Inv n disksize m0 m q s) (hb : b < n) (hp : s.place b = .start) :
    iderwChecks s b = s.move b .checked ∧ Inv n disksize m0 m q (s.move b .checked) := by
  have hnot := h.early b (Or.inl hp)
  have hw := h.work b hb fun hc => hnot (by rw [h.queued]; exact mem_append_left q hc)
  refine ⟨?_, { h with early := fun c hc => ?_, asleep := fun c hc => ?_, late := fun c hc => ?_ }⟩
  · unfold iderwChecks
    simp [hw.busy, hw.not_done, h.havedisk1]
  · by_cases hcb : c = b
    · exact hcb ▸ hnot
    · exact h.early c (by simpa [State.move, hcb] using hc)
  · by_cases hcb : c = b
    · subst hcb
      simp [State.move] at hc
    · exact h.asleep c (by simpa [State.move, hcb] using hc)
  · by_cases hcb : c = b
    · subst hcb
      simp [State.move] at hc
    · exact h.late c (by simpa [State.move, hcb] using hc)

theorem Inv.resume (h : Inv n disksize m0 m q s) (hp : s.place b = .awake) :
    wait s b = s.move b .back ∧ Inv n disksize m0 m q (s.move b .back) := by
  have hdone := h.late b (Or.inl hp)
  have hflags := h.done b hdone
  refine ⟨?_, { h with early := fun c hc => ?_, asleep := fun c hc => ?_, late := fun c hc => ?_ }⟩
  · unfold wait
    simp [hflags]
  · by_cases hcb : c = b
    · subst hcb
      simp [State.move] at hc
    · exact h.early c (by simpa [State.move, hcb] using hc)
  · by_cases hcb : c = b
    · subst hcb
      simp [State.move] at hc
    · exact h.asleep c (by simpa [State.move, hcb] using hc)
  · by_cases hcb : c = b
    · exact hcb ▸ hdone
    · exact h.late c (by simpa [State.move, hcb] using hc)

/-- The disk does what memide.c does to it. -/
theorem Inv.finish {d : Disk} (h : Inv n disksize m0 m q s) (hd : s.disk.finish = some d) :
    s.disk.irq = none ∧ d.irq.isSome ∧ Inv n disksize m0 m q { s with disk := d } := by
  have hdisk := h.disk
  cases q with
  | nil =>
    unfold Disk.finish at hd
    rw [hdisk.1] at hd
    cases hd
  | cons b q =>
    rcases hdisk with ⟨hcmd, hirq, hsec⟩ | ⟨hcmd, -⟩
    · unfold Disk.finish at hd
      rw [hcmd] at hd
      obtain rfl := some.inj hd
      refine ⟨hirq, rfl, { h with disk := Or.inr ⟨rfl, ?_, ?_⟩ }⟩
      · simp [cmdOf, hsec]
      · by_cases hdirty : (m.buf b).dirty
        · simp [cmdOf, after, hdirty, hsec]
        · simp [cmdOf, after, hdirty, hsec]
    · grind [Disk.finish]

/-- The queue is no longer than there are buffers. -/
theorem Inv.length_le (h : Inv n disksize m0 m q s) : q.length ≤ n := by
  have hnd := h.nodup
  rw [h.queued] at hnd
  have hsub : q ⊆ List.range n := fun b hb => mem_range.mpr (h.lt hb)
  have := (List.Nodup.subperm (nodup_append.mp hnd).2.1 hsub).length_le
  rwa [length_range] at this

theorem append_eq (h : Inv n disksize m0 m q s) (hb : b ∉ s.queued) : ∃ qnext, append n s b =
        some { s with qnext := qnext, idequeue := (q ++ [b]).head?, queued := s.queued ++ [b] } ∧
      Chain qnext (q ++ [b]).head? (q ++ [b]) := by
  have hbq : b ∉ q := fun hc => hb (by rw [h.queued]; exact mem_append_right _ hc)
  have hnd : q.Nodup := by grind [h.nodup, h.queued]
  have hlen := h.length_le
  have hchain := h.chain
  unfold append
  rcases eq_nil_or_concat q with rfl | ⟨l, c, rfl⟩
  · rw [hchain.head_eq]
    refine ⟨_, rfl, rfl, ?_⟩
    rw [update_self]
    rfl
  · rw [concat_eq_append] at *
    obtain ⟨d, hd⟩ : ∃ d, (l ++ [c]).head? = some d := by simp
    have hhead := hchain.head_eq
    -- the new buffer's own pointer is not one of the queue's
    have hcut : Chain (update s.qnext b none) (some d) (l ++ [c]) := by
      rw [← hd, ← hhead]
      refine hchain.congr fun a ha => update_of_ne ?_ _ _
      rintro rfl
      exact hbq ha
    have hsnoc := hchain.snoc hnd hbq
    have hlast : last (update s.qnext b none) n d = some c := hcut.last_eq (by
      rw [length_append, length_singleton] at hlen
      omega)
    rw [hhead, hd]
    have hhead' : (l ++ [c] ++ [b]).head? = some d := by
      rw [List.head?_append, hd]
      rfl
    refine ⟨update (update s.qnext b none) c (some b), ?_, ?_⟩
    · grind
    · grind

theorem wait_work (h : Work disksize (s.buf b)) : wait s b = s.move b .asleep := by
  unfold wait
  rw [h.not_done]
  rfl

theorem Inv.queue (h : Inv n disksize m0 m q s) (hb : b < n) (hp : s.place b = .checked) :
    ∃ s', iderwQueue n s b = some s' ∧ s'.place = update s.place b .asleep ∧
      s'.disk.irq = s.disk.irq ∧ Inv n disksize m0 m (q ++ [b]) s' := by
  have hnot := h.early b (Or.inr hp)
  have hnc : b ∉ s.completed := fun hc => hnot (by rw [h.queued]; exact mem_append_left q hc)
  have hw := h.work b hb hnc
  obtain ⟨qnext, happ, hchain⟩ := append_eq h hnot
  -- whatever the disk is told, the buffer's place and the queue are these
  have hinv : ∀ d started, DiskFits m d (q ++ [b]) → started = s.completed ++ (q ++ [b]).take 1 →
      Inv n disksize m0 m (q ++ [b])
        { s with qnext := qnext, idequeue := (q ++ [b]).head?, queued := s.queued ++ [b], disk := d
                 started := started, place := update s.place b .asleep } := by
    intro d started hd hst
    refine { h with
      queued := by simp only [h.queued, append_assoc]
      nodup := ?_, bound := fun c hc => ?_, chain := hchain, early := fun c hc => ?_
      asleep := fun c hc => ?_, late := fun c hc => ?_, disk := hd, started := hst }
    · grind [h.nodup, nodup_singleton]
    · rcases mem_append.mp hc with hc | hc
      · exact h.bound c hc
      · grind
    · grind [h.early]
    · grind [mem_append_right, mem_cons_self, mem_append_left, h.asleep]
    · grind [h.late]
  unfold iderwQueue
  rw [happ]
  have hdisk := h.disk
  cases q with
  | nil =>
    -- the queue was empty, so the disk is told to start
    obtain ⟨d, hstart, hcmd, hsec, hirq⟩ := idestart_eq
      (s := { s with qnext := qnext, idequeue := some b, queued := s.queued ++ [b] }) hw hdisk.1
    refine ⟨{ s with qnext := qnext, idequeue := some b, queued := s.queued ++ [b], disk := d
                     started := s.started ++ [b], place := update s.place b .asleep },
      ?_, rfl, hirq, hinv d _ (Or.inl ⟨?_, hirq.trans hdisk.2.1, ?_⟩) ?_⟩
    · simp only [nil_append, List.head?_cons, bind_eq_bind, bind_some, if_true, hstart]
      exact congrArg some (wait_work hw)
    · rw [hcmd, ← h.buf]
    · rw [hsec]
      exact hdisk.2.2
    · rw [h.started]
      simp
  | cons c q =>
    have hbc : ¬ some c = some b := by grind [h.queued, mem_append_right, mem_cons_self]
    refine ⟨{ s with qnext := qnext, idequeue := some c, queued := s.queued ++ [b]
                     place := update s.place b .asleep }, ?_, rfl, rfl,
      hinv s.disk s.started hdisk h.started⟩
    simp only [cons_append, List.head?_cons, bind_eq_bind, bind_some, if_neg hbc]
    exact congrArg some (wait_work hw)

/-- `ideintr` takes the first buffer from the queue. -/
theorem Inv.intr {d : Block} (h : Inv n disksize m0 m q s) (hd : s.disk.irq = some d) :
    ∃ b q' s', q = b :: q' ∧ ideintr s d = some s' ∧ s'.place = update s.place b .awake ∧
      s'.disk.irq = none ∧ Inv n disksize m0 (after m b) q' s' := by
  have hdisk := h.disk
  cases q with
  | nil =>
    rw [hdisk.2.1] at hd
    cases hd
  | cons b q =>
    obtain ⟨hcmd, hirq, hsec⟩ : s.disk.cmd = none ∧
        s.disk.irq = some (m.memdisk (m.buf b).blockno) ∧
        s.disk.sectors 1 = (after m b).memdisk := by
      rcases hdisk with ⟨-, hirq, -⟩ | hdisk
      · rw [hirq] at hd
        cases hd
      · exact hdisk
    obtain rfl := some.inj (hd.symm.trans hirq)
    have hmem : b ∈ b :: q := mem_cons_self
    have hasleep := h.asleep_of_mem hmem
    have hw := h.work b (h.lt hmem) (h.not_completed hmem)
    have hnd := h.nodup
    rw [h.queued] at hnd
    have hbq : b ∉ q := (nodup_cons.mp (nodup_append.mp hnd).2.1).1
    have hbuf : update s.buf b { s.buf b with
        data := if (s.buf b).dirty then (s.buf b).data else m.memdisk (m.buf b).blockno
        valid := true, dirty := false } = (after m b).buf := by
      rw [h.buf]
      rfl
    have hother : ∀ c, c ≠ b → (after m b).buf c = s.buf c := by
      intro c hc
      rw [h.buf]
      exact update_of_ne hc _ _
    have hrun : memide.runAll m0 (s.completed ++ [b]) = .ok (after m b) := by
      unfold memide.runAll
      rw [foldlM_append]
      have hmem := h.mem
      unfold memide.runAll at hmem
      have hok := memide_iderw (m := m) (b := b) (by rw [h.size, ← h.buf]; exact hw)
      rw [hmem]
      exact congrArg (· >>= pure) hok
    -- whatever the disk is told next
    have hinv : ∀ disk started, DiskFits (after m b) disk q →
        started = s.completed ++ [b] ++ q.take 1 → Inv n disksize m0 (after m b) q
          { s with idequeue := s.qnext b, buf := (after m b).buf, completed := s.completed ++ [b]
                   place := update s.place b .awake, disk := disk, started := started } := by
      intro disk started hdisk hstarted
      refine { h with
        queued := by simp only [h.queued, append_assoc, singleton_append]
        chain := h.chain.2, mem := hrun, size := h.size, buf := rfl, work := fun c hc hnc => ?_
        done := fun c hc => ?_, early := fun c hc => ?_, asleep := fun c hc => ?_
        late := fun c hc => ?_, disk := hdisk, started := hstarted }
      · grind [mem_append_right, mem_cons_self, h.work, mem_append_left]
      · by_cases hcb : c = b
        · subst hcb
          simp [after]
        · grind [h.done]
      · grind [h.early]
      · grind [h.asleep]
      · grind [mem_append_right, mem_cons_self, mem_append_left, h.late]
    have hidequeue := h.chain.1
    have hnext := h.chain.2.head_eq
    have hcomplete : complete { s with idequeue := some b, disk := { s.disk with irq := none } } b
        (m.memdisk (m.buf b).blockno) =
        { s with idequeue := s.qnext b, buf := (after m b).buf, completed := s.completed ++ [b]
                 place := update s.place b .awake, disk := { s.disk with irq := none } } := by
      unfold complete
      simp only [hasleep, if_true, hbuf]
    unfold ideintr
    simp only [hidequeue, hcomplete]
    cases q with
    | nil =>
      have hnone : s.qnext b = none := hnext
      rw [hnone] at hinv ⊢
      exact ⟨b, [], _, rfl, rfl, rfl, rfl,
        hinv { s.disk with irq := none } s.started ⟨hcmd, rfl, hsec⟩ (by rw [h.started]; simp)⟩
    | cons c q =>
      have hsome : s.qnext b = some c := hnext
      rw [hsome] at hinv ⊢
      have hwc := h.work c (h.lt (mem_cons_of_mem b mem_cons_self))
        (h.not_completed (mem_cons_of_mem b mem_cons_self))
      have hcb : c ≠ b := fun e => hbq (e ▸ mem_cons_self)
      rw [← hother c hcb] at hwc
      obtain ⟨d, hstart, hcmd', hsec', hirq'⟩ := idestart_eq
        (s := { s with idequeue := some c, buf := (after m b).buf, completed := s.completed ++ [b]
                       place := update s.place b .awake, disk := { s.disk with irq := none } })
        hwc hcmd
      refine ⟨b, c :: q, _, rfl, hstart, rfl, hirq', ?_⟩
      exact hinv d _ (Or.inl ⟨hcmd', hirq', by rw [hsec']; exact hsec⟩) (by rw [h.started]; simp)

/-! ## Runs -/

/-- The steps for a buffer that are still to come at most. -/
def Place.toGo : Place → Nat
  | .start => 5
  | .checked => 4
  | .asleep => 3
  | .awake => 1
  | .back => 0

def toGo (n : Nat) (s : State) : Nat :=
  ∑ b ∈ Finset.range n, (s.place b).toGo + if s.disk.irq.isSome then 0 else 1

theorem toGo_move {x : Place} (hb : b < n) (hplace : s'.place = update s.place b x)
    (hirq : s'.disk.irq = s.disk.irq) (hx : x.toGo < (s.place b).toGo) : toGo n s' < toGo n s := by
  have hsum := sum_update Place.toGo s.place hb x
  unfold toGo
  rw [hplace, hirq]
  omega

def Good (n disksize : Nat) (m0 : memide.Mem) (s : State) : Prop := ∃ m q, Inv n disksize m0 m q s

theorem step_good {a : Act} (h : Good n disksize m0 s) (hs : step n s a = some s') :
    Good n disksize m0 s' ∧ toGo n s' < toGo n s := by
  obtain ⟨m, q, h⟩ := h
  have hpanic : ¬ s.panic.isSome = true := by rw [h.panic]; exact Bool.false_ne_true
  unfold step at hs
  rw [if_neg hpanic] at hs
  cases a with
  | call b =>
    obtain ⟨hb, hs⟩ := ite_none_right_eq_some.mp hs
    obtain ⟨heq, hinv⟩ := h.call hb.1 hb.2
    rw [heq] at hs
    obtain rfl := some.inj hs
    exact ⟨⟨m, q, hinv⟩, toGo_move hb.1 rfl rfl (by rw [hb.2]; decide)⟩
  | queue b =>
    obtain ⟨hb, hs⟩ := ite_none_right_eq_some.mp hs
    obtain ⟨t, heq, hplace, hirq, hinv⟩ := h.queue hb.1 hb.2
    rw [heq] at hs
    obtain rfl := some.inj hs
    exact ⟨⟨m, _, hinv⟩, toGo_move hb.1 hplace hirq (by rw [hb.2]; decide)⟩
  | resume b =>
    obtain ⟨hb, hs⟩ := ite_none_right_eq_some.mp hs
    obtain ⟨heq, hinv⟩ := h.resume hb.2
    rw [heq] at hs
    obtain rfl := some.inj hs
    exact ⟨⟨m, q, hinv⟩, toGo_move hb.1 rfl rfl (by rw [hb.2]; decide)⟩
  | finish =>
    obtain ⟨d, hd, rfl⟩ := map_eq_some_iff.mp hs
    obtain ⟨hnone, hsome, hinv⟩ := h.finish hd
    refine ⟨⟨m, q, hinv⟩, ?_⟩
    simp [toGo, hnone, hsome]
  | intr =>
    obtain ⟨d, hd, hs⟩ := bind_eq_some_iff.mp hs
    obtain ⟨b, q', t, rfl, heq, hplace, hirq, hinv⟩ := h.intr hd
    rw [heq] at hs
    obtain rfl := some.inj hs
    refine ⟨⟨_, q', hinv⟩, ?_⟩
    have hasleep := h.asleep_of_mem (b := b) mem_cons_self
    have hsum := sum_update Place.toGo s.place (h.lt (b := b) mem_cons_self) .awake
    rw [hasleep] at hsum
    have h3 : Place.asleep.toGo = 3 := rfl
    have h1 : Place.awake.toGo = 1 := rfl
    unfold toGo
    rw [hplace, hirq, hd, if_pos (isSome_some), if_neg (by decide)]
    omega

/-- As long as a process is not back, something can happen. -/
theorem exists_step (h : Good n disksize m0 s) (hb : b < n) (hp : s.place b ≠ .back) :
    ∃ a s', step n s a = some s' := by
  obtain ⟨m, q, h⟩ := h
  have hpanic : ¬ s.panic.isSome = true := by rw [h.panic]; exact Bool.false_ne_true
  cases hplace : s.place b with
  | start => exact ⟨.call b, _, by rw [step, if_neg hpanic, if_pos ⟨hb, hplace⟩]⟩
  | checked =>
    obtain ⟨t, heq, -⟩ := h.queue hb hplace
    exact ⟨.queue b, t, by rw [step, if_neg hpanic, if_pos ⟨hb, hplace⟩, heq]⟩
  | awake => exact ⟨.resume b, _, by rw [step, if_neg hpanic, if_pos ⟨hb, hplace⟩]⟩
  | back => exact absurd hplace hp
  | asleep =>
    have hmem := h.asleep b hplace
    have hdisk := h.disk
    cases q with
    | nil => exact absurd hmem not_mem_nil
    | cons c q =>
      rcases hdisk with ⟨hcmd, -⟩ | ⟨-, hirq, -⟩
      · have hfinish : ∃ d, s.disk.finish = some d := by
          unfold Disk.finish
          rw [hcmd]
          exact ⟨_, rfl⟩
        obtain ⟨d, hd⟩ := hfinish
        exact ⟨.finish, { s with disk := d }, by rw [step, if_neg hpanic, hd]; rfl⟩
      · obtain ⟨_, _, t, -, heq, -⟩ := h.intr hirq
        refine ⟨.intr, t, ?_⟩
        rw [step, if_neg hpanic]
        simp only [hirq, bind_some, heq]

/-- The interrupt-driven driver and the one in memory agree. No run fails or is longer than 5
steps for each process and one more; requests are started one at a time in the order of the
queue and completed once; a process is back only with its buffer up to date; and a run that
cannot go on has all processes back, with the buffers and the disk that memide.c gives on the
buffers in queue order. -/
theorem ide_agrees_with_memide {s0 : State} {acts : List Act} (hstart : Start n disksize s0)
    (hrun : run (step n) s0 acts = some s) : s.panic = none ∧ acts.length ≤ 5 * n + 1 ∧
    s.completed <+: s.started ∧ s.started <+: s.queued ∧
    s.started.length ≤ s.completed.length + 1 ∧ s.queued.Nodup ∧
    (∀ b < n, s.place b = .back →
      b ∈ s.completed ∧ (s.buf b).valid = true ∧ (s.buf b).dirty = false) ∧
    ((∀ a, step n s a = none) →
      (∀ b < n, s.place b = .back) ∧ s.completed = s.queued ∧ (∀ b, b ∈ s.queued ↔ b < n) ∧
      memide.runAll (s0.mem disksize) s.queued = .ok (s.mem disksize)) := by
  have hgood0 : Good n disksize (s0.mem disksize) s0 := ⟨_, _, hstart.inv⟩
  have hlen := length_le_of_run (I := Good n disksize (s0.mem disksize))
    (fun s a s' => step_good) hgood0 hrun
  have hgood := inv_of_run (I := Good n disksize (s0.mem disksize))
    (fun s a s' h hs => (step_good h hs).1) hgood0 hrun
  obtain ⟨m, q, h⟩ := id hgood
  have hstarted : s.started = s.completed ++ q.take 1 := h.started
  refine ⟨h.panic, ?_, ?_, ?_, ?_, h.nodup, fun b _ hb => ?_, fun hstuck => ?_⟩
  · have h0 : toGo n s0 = 5 * n + 1 := by
      simp [toGo, hstart.place, hstart.irq, Place.toGo, Nat.mul_comm]
    omega
  · grind
  · grind [h.queued, List.prefix_append_right_inj, List.take_prefix]
  · grind
  · grind [h.late, h.done]
  · have hback : ∀ b < n, s.place b = .back := by
      intro b hb
      by_contra hp
      obtain ⟨a, s', hs⟩ := exists_step hgood hb hp
      rw [hstuck a] at hs
      cases hs
    -- nobody sleeps, so the queue is empty
    obtain rfl : q = [] := by
      refine List.eq_nil_iff_forall_not_mem.mpr fun b hb => ?_
      have := h.asleep_of_mem hb
      rw [hback b (h.lt hb)] at this
      cases this
    have hqueued : s.queued = s.completed := by rw [h.queued, List.append_nil]
    refine ⟨hback, hqueued.symm, fun b => ⟨h.bound b, fun hb => ?_⟩, ?_⟩
    · grind [h.late]
    · rw [hqueued, h.mem]
      obtain ⟨-, -, hsec⟩ := h.disk
      have hsize := h.size
      have hbuf := h.buf
      simp only [State.mem, hsec, hbuf, ← hsize]

end

/-- Buffer 0 is to be written to block 7, and buffer 1 is to be read from there. -/
def twoBufs : State :=
  { havedisk1 := true
    idequeue := none
    buf := fun b => ⟨true, false, b = 0, 1, 7, fun _ => 42⟩
    qnext := fun _ => none
    disk := { regs := ⟨0, 0, 0, 0, 0⟩, sectors := fun _ _ _ => 0, cmd := none, irq := none }
    place := fun _ => .start
    panic := none
    queued := []
    started := []
    completed := [] }

theorem twoBufs_start : Start 2 10 twoBufs := by
  refine ⟨rfl, rfl, fun b _ => ⟨rfl, Or.inl rfl, rfl, ?_, ?_⟩, rfl, rfl, fun _ => rfl, rfl,
    rfl, rfl, rfl⟩
  · exact (by decide : 7 < FSSIZE)
  · exact (by decide : 7 < 10)

/-- The second request is queued while the first is in progress. -/
theorem two_bufs_agree : ∃ s,
    run (step 2) twoBufs [.call 0, .call 1, .queue 0, .queue 1, .finish, .intr, .resume 0,
      .finish, .intr, .resume 1] = some s ∧
    s.queued = [0, 1] ∧ memide.runAll (twoBufs.mem 10) s.queued = .ok (s.mem 10) := by
  have hstuck : ∀ s, run (step 2) twoBufs [.call 0, .call 1, .queue 0, .queue 1, .finish,
      .intr, .resume 0, .finish, .intr, .resume 1] = some s → ∀ a, step 2 s a = none := by
    intro s hs a
    cases hs
    match a with
    | .call 0 | .call 1 | .queue 0 | .queue 1 | .resume 0 | .resume 1 => rfl
    | .call (b + 2) | .queue (b + 2) | .resume (b + 2) => rfl
    | .finish | .intr => rfl
  obtain ⟨s, hs⟩ : ∃ s, run (step 2) twoBufs [.call 0, .call 1, .queue 0, .queue 1, .finish,
      .intr, .resume 0, .finish, .intr, .resume 1] = some s := ⟨_, rfl⟩
  refine ⟨s, hs, ?_, ?_⟩
  · cases hs
    rfl
  · obtain ⟨-, -, -, -, -, -, -, hend⟩ := ide_agrees_with_memide twoBufs_start hs
    exact (hend (hstuck s hs)).2.2.2

end ide

end xv6
