-- File systems at a limit: one with an inode of the largest size that an inode can have,
-- whose bytes are left open, one whose inode cache has no entry left, and one whose root
-- directory has a hole.
import Xv6.FsSmall

open bytes WP

namespace xv6.fs

/-- There are eleven free blocks. -/
def fullSb : Superblock := { smallSb with size := 160, nblocks := 152 }

def fullDinode (type : UInt16) : Dinode :=
  { Dinode.zero with
    type := type, nlink := 1, size := UInt32.ofNat (MAXFILE * BSIZE)
    addrs := fun i => UInt32.ofNat (8 + i) }

/-- The indirect block is block 20, and the blocks from 21 on are in it. -/
def fullIndirect : Block := fun a => if a % 4 = 0 then UInt8.ofNat (21 + a / 4) else 0

/-- Blocks 0 to 148 are in use. -/
def fullBitmap : Block := fun a => if a < 18 then 255 else if a = 18 then 31 else 0

def fullDisk (type : UInt16) (data : Nat → UInt8) : Disk := fun b =>
  if b = 1 then log.setWords (fun _ => 0) 0 [160, 152, 8, 3, 2, 5, 7]
  else if b = 5 then setDinode (fun _ => 0) 1 (fullDinode type)
  else if b = 7 then fullBitmap
  else if b < 20 then fun a => data ((b - 8) * BSIZE + a)
  else if b = 20 then fullIndirect
  else fun a => data ((b - 9) * BSIZE + a)

/-- Inode 1 is in entry 0 of the cache. -/
def fullFs (type : UInt16) (data : Nat → UInt8) : Fs :=
  { sb := fullSb
    blocks := fullDisk type data
    logsize := LOGSIZE
    outstanding := 0
    lh := []
    icache := fun k =>
      if k = 0 then
        { dev := ROOTDEV, inum := 1, ref := 1, busy := false, valid := true,
          din := fullDinode type }
      else { dev := 0, inum := 0, ref := 0, busy := false, valid := false, din := Dinode.zero }
    devsw := fun _ => { read := none, write := none } }

variable {type : UInt16} {data : Nat → UInt8}

/-- What is in the blocks before the data. -/
theorem fullDisk_facts :
    (∀ i < 8, (dinodeAt (fun _ => 0) i).type = 0) ∧
    (∀ j < NINDIRECT, word fullIndirect j = 21 + j) ∧
    (∀ b < 160, BBLOCK b fullSb = 7 ∧ bitSet fullBitmap (b % BPB) = decide (b < 149)) ∧
    superblockAt (log.setWords (fun _ => 0) 0 [160, 152, 8, 3, 2, 5, 7]) = fullSb := by
  decide +kernel

theorem fullFs_dinode : (fullFs type data).dinode 1 = fullDinode type := by
  have hib : IBLOCK 1 fullSb = 5 := by decide
  show dinodeAt (fullDisk type data (IBLOCK 1 fullSb)) (1 % IPB) = _
  rw [hib]
  exact dinodeAt_setDinode ..

theorem fullFs_type {i : Nat} (h8 : i < 8) (h1 : i ≠ 1) :
    ((fullFs type data).dinode i).type = 0 := by
  have hib : ∀ i < 8, IBLOCK i fullSb = 5 ∧ i % IPB = i := by decide
  show (dinodeAt (fullDisk type data (IBLOCK i fullSb)) (i % IPB)).type = _
  rw [(hib i h8).1, (hib i h8).2]
  show (dinodeAt (setDinode (fun _ => 0) 1 (fullDinode type)) i).type = 0
  rw [dinodeAt_setDinode_ne _ h1]
  exact fullDisk_facts.1 i h8

theorem fullFs_live (ht : type ≠ 0) {i : Nat} :
    Live fullSb (fullFs type data).dinode i ↔ i = 1 := by
  constructor
  · intro h
    by_contra h1
    exact h.2.2 (fullFs_type h.2.1 h1)
  · rintro rfl
    exact ⟨by decide, by decide, by rw [fullFs_dinode]; exact ht⟩

theorem fullFs_held (ht : type ≠ 0) {q : Nat × Place} {b : Nat} :
    held fullSb (fullDisk type data) (fullFs type data).dinode q = some b ↔
      8 ≤ b ∧ b < 149 ∧ q = (1, if b ≤ 20 then .addr (b - 8) else .entry (b - 21)) := by
  have haddr : ∀ j ≤ NDIRECT, (fullDinode type).addr j = 8 + j := by
    have hzero : ∀ j ≤ NDIRECT, (fullDinode 0).addr j = 8 + j := by decide
    exact hzero
  have hind : fullDisk type data 20 = fullIndirect := rfl
  obtain ⟨_, hword, _⟩ := fullDisk_facts
  obtain ⟨i, p⟩ := q
  rw [held_eq_some, fullFs_live ht]
  simp only [Prod.mk.injEq]
  by_cases hi : i = 1
  · subst hi
    rw [fullFs_dinode]
    cases p with
    | addr j =>
      simp only [Dinode.holds, true_and]
      by_cases hj : j ≤ NDIRECT
      · rw [if_pos hj, nonzero_eq_some, haddr j hj]
        grind
      · rw [if_neg hj]
        grind
    | entry j =>
      simp only [Dinode.holds, true_and]
      rw [haddr NDIRECT (Nat.le_refl _), show 8 + NDIRECT = 20 from rfl, hind]
      by_cases hj : NINDIRECT ≤ j
      · rw [if_pos (Or.inr hj)]
        grind
      · rw [if_neg (by simp [hj]), hword j (Nat.lt_of_not_le hj), nonzero_eq_some]
        grind
  · grind

theorem fullFs_blocks (ht : type ≠ 0) :
    Blocks (· < 8) (fullFs type data) (fullFs type data).dinode := by
  obtain ⟨_, _, hbm, hsuper⟩ := fullDisk_facts
  have hbit : ∀ b < 160, (fullFs type data).bit b = decide (b < 149) := by
    intro b hb
    show bitSet (fullDisk type data (BBLOCK b fullSb)) (b % BPB) = _
    rw [(hbm b hb).1]
    exact (hbm b hb).2
  have hgeo : Geometry fullSb := ⟨by decide, by decide, by decide, by decide⟩
  have hmeta : fullSb.nmeta = 8 := by decide
  refine ⟨hgeo, hsuper, fun b hb => hmeta ▸ hb, fun b => ?_, fun q b hq => ?_,
    fun q q' b hq hq' => ?_⟩
  · have hheld : (∃ q, held fullSb (fullDisk type data) (fullFs type data).dinode q = some b) ↔
        8 ≤ b ∧ b < 149 := by
      simp [fullFs_held ht]
    show (b < 160 ∧ _) ↔
      _ ∨ ∃ q, held fullSb (fullDisk type data) (fullFs type data).dinode q = some b
    rw [hheld]
    constructor
    · rintro ⟨hb, hset⟩
      rw [hbit b hb, decide_eq_true_eq] at hset
      omega
    · intro hb
      have hb160 : b < 160 := by omega
      exact ⟨hb160, by rw [hbit b hb160]; exact decide_eq_true (by omega)⟩
  · have := ((fullFs_held ht).mp hq).1
    omega
  · rw [((fullFs_held ht).mp hq).2.2, ((fullFs_held ht).mp hq').2.2]

theorem fullFs_cached (ht : type ≠ 0) : Cached (fullFs type data) := by
  have hent : ∀ k, 0 < ((fullFs type data).icache k).ref → k = 0 := by
    intro k hr
    by_contra hk
    simp [fullFs, hk] at hr
  refine ⟨fun k _ hr _ => ?_, fun k _ k' _ hr hr' _ => ?_, fun k _ hr => ?_, fun k _ => ?_⟩
  · obtain rfl := hent k hr
    exact ⟨(fullFs_live ht).mpr rfl, fullFs_dinode.symm⟩
  · rw [hent k hr, hent k' hr']
  · obtain rfl := hent k hr
    rfl
  · by_cases hk : k = 0
    · simp [fullFs, hk]
    · simp [fullFs, hk]

/-- Block `bn` of the inode. -/
theorem fullFs_place (data : Nat → UInt8) (ht : type ≠ 0) {bn : Nat} (h : bn < MAXFILE) :
    held fullSb (fullDisk type data) (fullFs type data).dinode (1, place bn) =
      some (if bn < 12 then bn + 8 else bn + 9) := by
  rw [fullFs_held ht]
  unfold place
  grind

theorem fullFs_good (ht : type ≠ 0) : Good (· < 8) (fullFs type data) := by
  refine ⟨fullFs_cached ht, fullFs_blocks ht, fun i hl _ x hx => ?_⟩
  obtain rfl := (fullFs_live ht).mp hl
  rw [fullFs_dinode] at hx
  have hx : x < MAXFILE * BSIZE := hx
  have hbn : x / BSIZE < MAXFILE := Nat.div_lt_of_lt_mul (by rwa [Nat.mul_comm])
  intro hnone
  cases (fullFs_place data ht hbn).symm.trans hnone

/-- The inode has the bytes of `data`. -/
theorem fullFs_file (data : Nat → UInt8) (ht : type ≠ 0) :
    ∃ f, (fullFs type data).file 1 = some f ∧ f.type = type ∧
    f.nlink = 1 ∧ f.size = MAXFILE * BSIZE ∧ ∀ x < MAXFILE * BSIZE, f.data x = data x := by
  refine ⟨_, if_pos ((fullFs_live ht).mpr rfl), ?_⟩
  rw [fullFs_dinode]
  refine ⟨rfl, rfl, rfl, fun x hx => ?_⟩
  have hbn : x / BSIZE < MAXFILE := Nat.div_lt_of_lt_mul (by rwa [Nat.mul_comm])
  show content fullSb (fullDisk type data) (fullFs type data).dinode 1 x = data x
  unfold content
  rw [if_pos hbn, fullFs_place data ht hbn]
  have hdm := Nat.div_add_mod x BSIZE
  simp only [fullDisk, MAXFILE, NDIRECT, NINDIRECT, BSIZE] at *
  grind

/-! ## A full cache -/

/-- ".", ".." and thirty names for inode 2: the block is full. -/
def holeBlock : Block := fun a =>
  if a < 32 then rootBlock a else direntBytes 2 [UInt8.ofNat (64 + a / 16)] (a % 16)

/-- The root as mkfs leaves it when its entries fill a block: the size is rounded up by another
block, which is not there. -/
def holeDinode : Dinode := { rootDinode with size := 1024 }

def holeDisk : Disk := fun b =>
  if b = 8 then holeBlock
  else if b = 5 then setDinode (setDinode (fun _ => 0) 1 holeDinode) 2
    { tenDinode with nlink := 30 }
  else rootDisk b

/-- The inode cache is empty. -/
def holeFs : Fs :=
  { smallFs with
    blocks := holeDisk
    icache := fun _ =>
      { dev := 0, inum := 0, ref := 0, busy := false, valid := false, din := Dinode.zero } }

theorem holeFs_two : TwoInodes holeFs :=
  ⟨rfl, by decide +kernel, by decide +kernel, by decide +kernel, by decide +kernel⟩

theorem holeFs_cached : Cached holeFs := by
  have href : ¬ 0 < (0 : Int) := by decide
  exact ⟨fun _ _ h => absurd h href, fun _ _ _ _ h => absurd h href, fun _ _ h => absurd h href,
    fun _ _ => Int.le_refl _⟩

end xv6.fs
