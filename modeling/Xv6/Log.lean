-- The redo log of log.c on a disk whose block writes are synchronous, ordered and
-- atomic. A power cut can fall before any block write and keeps only the disk.
import Xv6.Params
import Xv6.Writes
import Xv6.Wp

open WP

namespace xv6.log

/-! ## The header in memory -/

/-- The loop of `log_write` over `log.lh.block`: a block that is in the log already is
absorbed, and any other goes to the end. -/
def absorb : List Nat → Nat → List Nat
  | [], bno => [bno]
  | b :: bs, bno => if b = bno then bno :: bs else b :: absorb bs bno

/-- The first test of `log_write`. -/
def tooBig (lh : List Nat) (size : Nat) : Prop := lh.length ≥ LOGSIZE ∨ lh.length ≥ size - 1

instance (lh : List Nat) (size : Nat) : Decidable (tooBig lh size) :=
  inferInstanceAs (Decidable (_ ∨ _))

/-! ## The header on the disk -/

/-- The `struct logheader` in a block: its first `n` block numbers. A negative `n` has none. -/
def head (b : Block) : List Nat :=
  (List.range (toInt (word b 0)).toNat).map (fun i => word b (i + 1))

def setWords (b : Block) : Nat → List Nat → Block
  | _, [] => b
  | i, w :: ws => setWords (setWord b i w) (i + 1) ws

/-- The block with `n` and the first `n` block numbers of its `struct logheader` set. The
rest of the block stays. -/
def setHead (b : Block) (lh : List Nat) : Block := setWords (setWord b 0 lh.length) 1 lh

/-! ## The machine -/

/-- The log and the disk under it. A buffer is either dirty, and then the cache holds what
`log_write` pinned, or a clean copy of its disk block. -/
structure Machine where
  /-- `log.start` -/
  start : Nat
  /-- `log.size` -/
  size : Nat
  /-- `log.outstanding` -/
  outstanding : Int
  /-- `log.lh`: the first `log.lh.n` entries of `log.lh.block` -/
  lh : List Nat
  disk : Disk
  /-- the data of the buffers with `B_DIRTY` set -/
  dirty : Nat → Option Block
  /-- the block writes left until the power fails, when it does -/
  left : Option Nat
  /-- every block write so far, oldest first -/
  writes : List (Nat × Block)

inductive Stop where
  | powerCut
  | panic (msg : String)
  deriving DecidableEq

abbrev LogM := EStateM Stop Machine

/-- The machine at power-on: nothing but the disk is left. -/
def boot (start size : Nat) (d : Disk) (left : Option Nat) : Machine :=
  { start, size, outstanding := 0, lh := [], disk := d, dirty := fun _ => none, left, writes := [] }

/-- The number of buffers with `B_DIRTY` set. They are those of blocks in the header. -/
def Machine.pinned (s : Machine) : Nat := s.lh.countP fun b => (s.dirty b).isSome

/-- `bread` of a process that has `busy` buffers already, for the data of the buffer. A block that
is not pinned needs a buffer that is neither busy nor dirty. -/
def bread (busy bno : Nat) : LogM Block := do
  let s ← get
  if (s.dirty bno).isNone ∧ NBUF ≤ s.pinned + busy then throw (.panic "bget: no buffers")
  else pure ((s.dirty bno).getD (s.disk bno))

/-- `bwrite` of a buffer for block `bno` that holds `data`. -/
def bwrite (bno : Nat) (data : Block) : LogM Unit := do
  let s ← get
  if s.left = some 0 then throw .powerCut
  else modify fun s =>
    { s with
      disk := Function.update s.disk bno data
      dirty := Function.update s.dirty bno none
      left := s.left.map (· - 1)
      writes := s.writes ++ [(bno, data)] }

/-! ## log.c -/

/-- Copy committed blocks from the log to their home locations. -/
def install_trans : LogM Unit := do
  let s ← get
  loop s.lh.length fun tail => do
    let lbuf ← bread 0 (s.start + tail + 1)
    let _ ← bread 1 (s.lh.getD tail 0)
    -- the `memmove` replaces every byte of the destination buffer
    bwrite (s.lh.getD tail 0) lbuf

/-- Read the log header from disk into the in-memory log header. -/
def read_head : LogM Unit := do
  let s ← get
  let buf ← bread 0 s.start
  modify fun s => { s with lh := head buf }

/-- Write the in-memory log header to disk. -/
def write_head : LogM Unit := do
  let s ← get
  let buf ← bread 0 s.start
  bwrite s.start (setHead buf s.lh)

def recover_from_log : LogM Unit := do
  read_head
  install_trans
  modify fun s => { s with lh := [] }
  write_head

/-- Copy modified blocks from the cache to the log. -/
def write_log : LogM Unit := do
  let s ← get
  loop s.lh.length fun tail => do
    let _ ← bread 0 (s.start + tail + 1)
    let from' ← bread 1 (s.lh.getD tail 0)
    bwrite (s.start + tail + 1) from'

def commit : LogM Unit := do
  let s ← get
  if s.lh.length > 0 then
    write_log
    write_head
    install_trans
    modify fun s => { s with lh := [] }
    write_head

/-- `log_write` of a buffer for block `bno` that the caller filled with `data`. -/
def log_write (bno : Nat) (data : Block) : LogM Unit := do
  let s ← get
  if tooBig s.lh s.size then throw (.panic "too big a transaction")
  else if s.outstanding < 1 then throw (.panic "log_write outside of trans")
  else modify fun s =>
    { s with lh := absorb s.lh bno, dirty := Function.update s.dirty bno (some data) }

/-- The operations of one group commit: their `log_write` calls, and the `commit` of the
last `end_op`. -/
def transact (tx : List (Nat × Block)) : LogM Unit := do
  modify fun s => { s with outstanding := 1 }
  tx.forM fun w => log_write w.1 w.2
  modify fun s => { s with outstanding := 0 }
  commit

/-! ## The header round trip -/

theorem word_setWords_lt {b : Block} {ws : List Nat} {i j : Nat} (h : j < i) :
    word (setWords b i ws) j = word b j := by
  induction ws generalizing b i with
  | nil => rfl
  | cons w ws ih =>
    rw [setWords, ih (by omega), word_setWord_ne (by omega)]

theorem word_setWords {b : Block} {ws : List Nat} {i j : Nat} (hj : j < ws.length)
    (hw : ∀ w ∈ ws, w < 2 ^ 32) : word (setWords b i ws) (i + j) = ws.getD j 0 := by
  induction ws generalizing b i j with
  | nil => simp at hj
  | cons w ws ih =>
    rw [setWords]
    cases j with
    | zero =>
      rw [word_setWords_lt (by omega)]
      exact word_setWord_self (hw w List.mem_cons_self)
    | succ j =>
      grind

theorem head_of_zero {b : Block} (h : word b 0 = 0) : head b = [] := by
  simp [head, h, toInt]

theorem word_setHead_zero {b : Block} {lh : List Nat} (hn : lh.length ≤ LOGSIZE) :
    word (setHead b lh) 0 = lh.length := by
  rw [LOGSIZE_eq] at hn
  rw [setHead, word_setWords_lt (by omega), word_setWord_self (by omega)]

/-- A header that was written reads back. -/
theorem head_setHead {b : Block} {lh : List Nat} (hn : lh.length ≤ LOGSIZE)
    (hw : ∀ w ∈ lh, w < 2 ^ 32) : head (setHead b lh) = lh := by
  have hlen : (toInt (word (setHead b lh) 0)).toNat = lh.length := by
    rw [word_setHead_zero hn]
    rw [LOGSIZE_eq] at hn
    rw [toInt, if_pos (by omega)]
    simp
  apply List.ext_getElem
  · simp [head, hlen]
  · intro i h1 h2
    have : word (setHead b lh) (i + 1) = lh.getD i 0 := by
      rw [setHead, Nat.add_comm i 1, word_setWords h2 hw]
    simp [head, this, h2]

/-! ## Absorption -/

theorem absorb_of_mem {lh : List Nat} {b : Nat} (h : b ∈ lh) : absorb lh b = lh := by
  induction lh with
  | nil => simp at h
  | cons c cs ih =>
    rw [absorb]
    split
    · rename_i hc
      rw [hc]
    · grind

theorem absorb_of_notMem {lh : List Nat} {b : Nat} (h : b ∉ lh) : absorb lh b = lh ++ [b] := by
  induction lh with
  | nil => rfl
  | cons c cs ih =>
    simp only [List.mem_cons, not_or] at h
    rw [absorb, if_neg (fun e => h.1 e.symm), ih h.2]
    rfl

theorem mem_absorb (lh : List Nat) (b c : Nat) : c ∈ absorb lh b ↔ c ∈ lh ∨ c = b := by
  by_cases h : b ∈ lh
  · grind [absorb_of_mem]
  · simp [absorb_of_notMem h]

theorem nodup_absorb {lh : List Nat} (b : Nat) (h : lh.Nodup) : (absorb lh b).Nodup := by
  by_cases hb : b ∈ lh
  · rw [absorb_of_mem hb]
    exact h
  · rw [absorb_of_notMem hb]
    exact List.Nodup.append h (List.nodup_singleton b) (by simpa using hb)

end xv6.log
