-- What mkfs leaves on the image, in the terms of the kernel's file system. The laws of ialloc and
-- iappend: the kernel that mounts the image finds good blocks, the files that were appended and
-- nothing else, and the blocks are taken in order.
import Xv6.FsCache
import Xv6.Mkfs

open Function bytes WP

namespace xv6.mkfs

open fs

/-! ## The layout -/

theorem sb_nmeta : sb.nmeta = nmeta := by decide

theorem geometry : Geometry sb := ⟨by decide, by decide, by decide, by decide⟩

theorem superblockAt_superBlock : superblockAt superBlock = sb := by
  have hw : ∀ w ∈ [sb.size, sb.nblocks, sb.ninodes, sb.nlog, sb.logstart, sb.inodestart,
      sb.bmapstart], w < 2 ^ 32 := by decide
  have hword : ∀ j < 7, word superBlock j = [sb.size, sb.nblocks, sb.ninodes, sb.nlog, sb.logstart,
      sb.inodestart, sb.bmapstart].getD j 0 := fun j hj => by
    have := log.word_setWords (b := fun _ => 0) (i := 0) (j := j) (by simpa using hj) hw
    rwa [Nat.zero_add] at this
  unfold superblockAt
  simp only [hword _ (by decide : 0 < 7), hword _ (by decide : 1 < 7), hword _ (by decide : 2 < 7),
    hword _ (by decide : 3 < 7), hword _ (by decide : 4 < 7), hword _ (by decide : 5 < 7),
    hword _ (by decide : 6 < 7)]
  rfl

theorem sector_of_lt {sec : Nat} (h : sec < 2 ^ 23) : sector sec = sec := by
  unfold sector uint
  simp only [BSIZE]
  omega

theorem bitmap_succ (n : Nat) : bitmap (n + 1) = setBit (bitmap n) n := by
  unfold bitmap
  rw [List.range_succ, List.foldl_append]
  rfl

theorem bitSet_bitmap (n b : Nat) : bitSet (bitmap n) b = decide (b < n) := by
  induction n with
  | zero => simp [bitmap, bitSet]
  | succ n ih =>
    rw [bitmap_succ, bitSet_setBit, ih]
    by_cases hb : b = n
    · simp [hb]
    · grind

/-! ## The kernel mounts the image -/

/-- The kernel state `s` has the image as its disk, as if the bitmap of the blocks taken so far were
written. -/
structure Mounted (M : Image) (s : Fs) : Prop where
  sb : s.sb = mkfs.sb
  blocks : s.blocks = Function.update M.img mkfs.sb.bmapstart (bitmap M.freeblock)

/-- The counters of mkfs. What it has not taken is zero. -/
structure Ready (M : Image) : Prop where
  len : M.len = FSSIZE
  lo : nmeta ≤ M.freeblock
  hi : M.freeblock ≤ FSSIZE
  zero : ∀ b, M.freeblock ≤ b → M.img b = fun _ => 0

/-- The image with other contents of sector `x`. -/
def Image.put (M : Image) (x : Nat) (data : Block) : Image :=
  { M with img := Function.update M.img x data }

section Mounted

variable {M : Image} {s t : Fs} {k b x : Nat} {data : Block}

theorem Mounted.block (h : Mounted M s) (hx : x ≠ mkfs.sb.bmapstart) : s.blocks x = M.img x := by
  rw [h.blocks, update_of_ne hx]

theorem Mounted.bit (h : Mounted M s) (hb : b < BPB) : s.bit b = decide (b < M.freeblock) := by
  have hblk : BBLOCK b s.sb = mkfs.sb.bmapstart := by
    rw [h.sb, BBLOCK, Nat.div_eq_of_lt hb, Nat.zero_add]
  unfold Fs.bit
  rw [hblk, h.blocks, update_self, Nat.mod_eq_of_lt hb, bitSet_bitmap]

/-- Two kernels that mount the image have one disk. -/
theorem Mounted.same (h : Mounted M s) (ht : Mounted M t) : t.sb = s.sb ∧ t.blocks = s.blocks :=
  ⟨ht.sb.trans h.sb.symm, ht.blocks.trans h.blocks.symm⟩

theorem Mounted.put (h : Mounted M s) (hx : x ≠ mkfs.sb.bmapstart) (data : Block) :
    Mounted (M.put x data) (s.logged x data) := by
  refine ⟨h.sb, ?_⟩
  show update s.blocks x data = _
  rw [h.blocks, update_comm hx.symm]
  rfl

theorem Mounted.withDin (h : Mounted M s) (k : Nat) (d : Dinode) : Mounted M (s.withDin k d) :=
  ⟨h.sb, h.blocks⟩

theorem Ready.put (h : Ready M) (hx : x < M.freeblock) : Ready (M.put x data) := by
  refine ⟨h.len, h.lo, h.hi, fun b hb => ?_⟩
  show update M.img x data b = _
  have : M.freeblock ≤ b := hb
  rw [update_of_ne (by omega)]
  exact h.zero b hb

/-- The next block is free for the kernel too. -/
theorem Mounted.took (h : Mounted M s) (hr : Ready M) (hlt : M.freeblock < FSSIZE) :
    ∃ t, Took s M.freeblock t ∧ Mounted { M with freeblock := M.freeblock + 1 } t := by
  have hsize : s.sb.size = FSSIZE := by rw [h.sb]; rfl
  have hlo := hr.lo
  have hmap : M.freeblock < BPB := Nat.lt_trans hlt (by decide)
  have hmeta : ∀ x < s.sb.nmeta, s.bit x = true := fun x hx => by
    grind [h.sb, sb_nmeta, h.bit]
  have hfree : s.bit M.freeblock = false := by
    rw [h.bit hmap, decide_eq_false_iff_not]
    exact Nat.lt_irrefl _
  have hg : Geometry s.sb := h.sb ▸ geometry
  refine ⟨_, took_of_free hg hmeta (by rwa [hsize]) hfree, ⟨h.sb, ?_⟩⟩
  have hblk : BBLOCK M.freeblock s.sb = mkfs.sb.bmapstart := by
    rw [h.sb, BBLOCK, Nat.div_eq_of_lt hmap, Nat.zero_add]
  have hne : M.freeblock ≠ mkfs.sb.bmapstart := by
    have : mkfs.sb.bmapstart < nmeta := by decide
    omega
  show update (update s.blocks _ _) _ _ = _
  rw [hblk, h.blocks, update_self, update_idem, Nat.mod_eq_of_lt hmap, ← bitmap_succ,
    update_comm hne.symm, ← hr.zero _ (Nat.le_refl _), update_eq_self]

/-- A block that the inode in entry `k` holds is a data block below `freeblock`. -/
theorem Mounted.range (h : Mounted M s) (ho : Opened (· < nmeta) s k) {q : Nat × Place}
    (hq : s.places k q = some b) : nmeta ≤ b ∧ b < FSSIZE ∧ b < M.freeblock := by
  obtain ⟨h1, h2, h3⟩ := ho.blocks.range hq
  rw [h.sb, sb_nmeta] at h1
  have hlt : b < FSSIZE := by rwa [h.sb] at h2
  rw [h.bit (Nat.lt_trans hlt (by decide)), decide_eq_true_eq] at h3
  exact ⟨h1, hlt, h3⟩

theorem ne_bmapstart (hb : nmeta ≤ b) : b ≠ mkfs.sb.bmapstart := by
  have : mkfs.sb.bmapstart < nmeta := by decide
  omega

end Mounted

/-! ## Sectors -/

section Sectors

variable {M : Image} {x : Nat} {data : Block} {E : Exit → Image → Prop}

theorem spec_rsect (hx : x < 2 ^ 23) {Q : Block → Image → Prop} :
    spec (rsect x) M Q E ↔ (x < M.len → Q (M.img x) M) ∧ (¬ x < M.len → E (.exit 1) M) := by
  unfold rsect
  simp only [sector_of_lt hx, spec_bind, spec_get, spec_ite, spec_pure, spec_throw]

/-- A sector of the image is read. -/
theorem spec_rsect_of_lt (hr : Ready M) (hx : x < FSSIZE) {Q : Block → Image → Prop} :
    spec (rsect x) M Q E ↔ Q (M.img x) M := by
  rw [spec_rsect (Nat.lt_trans hx (by decide)), hr.len]
  exact ⟨fun h => h.1 hx, fun h => ⟨fun _ => h, fun hn => absurd hx hn⟩⟩

theorem spec_wsect (hr : Ready M) (hx : x < FSSIZE) {Q : Unit → Image → Prop} :
    spec (wsect x data) M Q E ↔ Q () (M.put x data) := by
  have hlen : max M.len (x + 1) = M.len := by
    rw [hr.len]
    exact Nat.max_eq_left hx
  unfold wsect
  rw [spec_modify, sector_of_lt (Nat.lt_trans hx (by decide)), hlen]
  rfl

end Sectors

/-! ## Blocks of a file -/

/-- Blocks were added to the inode in entry `k` at places of `T`, `n` of them. -/
structure Added (M : Image) (s : Fs) (k n : Nat) (T : Place → Prop) (M' : Image) (t : Fs) :
    Prop where
  mounted : Mounted M' t
  ready : Ready M'
  opened : Opened (· < nmeta) t k
  grew : Grew s k T t
  freeblock : M'.freeblock = M.freeblock + n
  freeinode : M'.freeinode = M.freeinode

section Added

variable {M M' M'' : Image} {s t u : Fs} {k i j m n : Nat} {T : Place → Prop}
  {E : Exit → Image → Prop}

theorem Added.trans (h1 : Added M s k m T M' t) (h2 : Added M' t k n T M'' u) :
    Added M s k (m + n) T M'' u :=
  ⟨h2.mounted, h2.ready, h2.opened, h1.grew.trans h2.grew,
    by rw [h2.freeblock, h1.freeblock, Nat.add_assoc], h2.freeinode.trans h1.freeinode⟩

theorem Added.mono {T' : Place → Prop} (h : Added M s k n T M' t) (hT : ∀ p, T p → T' p) :
    Added M s k n T' M' t :=
  ⟨h.mounted, h.ready, h.opened, h.grew.mono hT, h.freeblock, h.freeinode⟩

theorem Ready.took (hr : Ready M) (hlt : M.freeblock < FSSIZE) :
    Ready { M with freeblock := M.freeblock + 1 } :=
  ⟨hr.len, Nat.le_succ_of_le hr.lo, hlt, fun b hb => hr.zero b (Nat.le_of_succ_le hb)⟩

/-- How many blocks `findBlock` takes for block `bn` of the file in entry `k`. -/
def need (s : Fs) (k bn : Nat) : Nat :=
  (if s.places k ((s.icache k).inum, place bn) = none then 1 else 0) +
    if NDIRECT ≤ bn ∧ (s.icache k).din.addr NDIRECT = 0 then 1 else 0

theorem spec_takeBlock {Q : Nat → Image → Prop} :
    spec takeBlock M Q E ↔ Q M.freeblock { M with freeblock := M.freeblock + 1 } := by
  unfold takeBlock
  simp only [spec_bind, spec_get, spec_modify, spec_pure]

/-- Blocks at other places leave this one. -/
theorem Added.places_eq_none (h : Added M s k n T M' t) {p : Place} (hp : ¬ T p) :
    t.places k ((s.icache k).inum, p) = none ↔ s.places k ((s.icache k).inum, p) = none := by
  constructor
  · intro ht
    cases hs : s.places k ((s.icache k).inum, p) with
    | none => rfl
    | some b =>
      rw [h.grew.keep _ b hs] at ht
      cases ht
  · intro hs
    cases ht : t.places k ((s.icache k).inum, p) with
    | none => rfl
    | some b => exact absurd (h.grew.fresh _ b hs ht).2.1 hp

theorem nonzero_eq_none {a : Nat} : nonzero a = none ↔ a = 0 := by
  unfold nonzero
  split <;> simp_all

/-- The block is in its place, or there is no room for it. -/
def Found (M : Image) (s : Fs) (k bn : Nat) : Nat × Dinode → Image → Prop := fun r M' =>
  if M.freeblock + need s k bn ≤ FSSIZE then
    ∃ t, Added M s k (need s k bn) (mapPlaces bn) M' t ∧ (t.icache k).din = r.2 ∧
      t.places k ((s.icache k).inum, place bn) = some r.1
  else r.1 = FSSIZE ∧ M'.len = FSSIZE

variable (hm : Mounted M s) (hr : Ready M) (ho : Opened (· < nmeta) s k)

include hm hr ho

theorem Added.refl : Added M s k 0 T M s :=
  ⟨hm, hr, ho, Grew.refl s k T, rfl, rfl⟩

/-- The next block goes to an empty entry of `addrs`. -/
theorem added_addr (hi : i ≤ NDIRECT) (h0 : (s.icache k).din.addr i = 0)
    (hlt : M.freeblock < FSSIZE) :
    ∃ t, Added M s k 1 (· = .addr i) { M with freeblock := M.freeblock + 1 } t ∧
      (t.icache k).din = (s.icache k).din.setAddr i M.freeblock := by
  obtain ⟨t, ht, hmt⟩ := hm.took hr hlt
  obtain ⟨ho', hgrew⟩ := ho.setAddr hi h0 ht
  refine ⟨_, ⟨hmt.withDin k _, hr.took hlt, ho', hgrew, rfl, rfl⟩, ?_⟩
  simp only [Fs.withDin, update_self]

/-- The next block goes to an empty entry of the indirect block. -/
theorem added_entry (hj : j < NINDIRECT) (hind : (s.icache k).din.addr NDIRECT ≠ 0)
    (h0 : word (M.img ((s.icache k).din.addr NDIRECT)) j = 0) (hlt : M.freeblock < FSSIZE) :
    ∃ t, Added M s k 1 (· = .entry j) (Image.put { M with freeblock := M.freeblock + 1 }
        ((s.icache k).din.addr NDIRECT)
        (setWord (M.img ((s.icache k).din.addr NDIRECT)) j M.freeblock)) t ∧
      (t.icache k).din = (s.icache k).din ∧
      t.places k ((s.icache k).inum, .entry j) = some M.freeblock := by
  obtain ⟨hlo, _, hfb⟩ := hm.range ho (ho.places_indirect hind)
  have hne := ne_bmapstart hlo
  rw [← hm.block hne] at h0 ⊢
  obtain ⟨t, ht, hmt⟩ := hm.took hr hlt
  obtain ⟨ho', hgrew⟩ := ho.setEntry hj hind h0 ht
  refine ⟨_, ⟨hmt.put hne _, (hr.took hlt).put (Nat.lt_succ_of_lt hfb), ho', hgrew, rfl, rfl⟩,
    ?_, ?_⟩
  · show (t.icache k).din = _
    rw [ht.frame.icache]
  · grind [places_setWord]

theorem fillAddr_spec (hi : i ≤ NDIRECT) {z : Nat}
    (hz : (if (s.icache k).din.addr i = 0 then 1 else 0) = z) :
    spec (fillAddr (s.icache k).din i) M (fun d M' => if M.freeblock + z ≤ FSSIZE then
          ∃ t, Added M s k z (· = .addr i) M' t ∧ (t.icache k).din = d ∧ d.addr i ≠ 0
        else d.addr i = FSSIZE ∧ M'.len = FSSIZE)
      (fun _ _ => False) := by
  have hlo := hr.lo
  have hhi := hr.hi
  have haddr : ((s.icache k).din.setAddr i M.freeblock).addr i = M.freeblock :=
    Dinode.addr_setAddr_self (Nat.lt_of_le_of_lt hhi (by decide))
  unfold fillAddr
  simp only [spec_bind, spec_ite, spec_takeBlock, spec_pure]
  refine ⟨fun h0 => ?_, fun h0 => ?_⟩
  · grind [added_addr, Nat.ne_of_gt, Nat.lt_of_lt_of_le, hr.len]
  · obtain rfl : 0 = z := by rw [← hz, if_neg h0]
    rw [Nat.add_zero, if_pos hhi]
    exact ⟨s, Added.refl hm hr ho, rfl, h0⟩

theorem findBlock_direct {bn : Nat} (hbn : bn < NDIRECT) :
    spec (findBlock (s.icache k).din bn) M (Found M s k bn)
      (fun e _ => e = .exit 1 ∧ FSSIZE < M.freeblock + need s k bn) := by
  have hplace : place bn = .addr bn := if_pos hbn
  have hle : bn ≤ NDIRECT := Nat.le_of_lt hbn
  have hneed : (if (s.icache k).din.addr bn = 0 then 1 else 0) = need s k bn := by
    have hno : ¬ (NDIRECT ≤ bn ∧ (s.icache k).din.addr NDIRECT = 0) :=
      fun h => absurd hbn (Nat.not_lt.mpr h.1)
    unfold need
    rw [if_neg hno, hplace, ho.places_self, Nat.add_zero]
    simp only [Dinode.holds, if_pos hle, nonzero_eq_none]
  unfold findBlock Found
  rw [if_pos hbn]
  simp only [spec_bind, spec_pure]
  apply spec_mono (fillAddr_spec hm hr ho hle hneed) _ (fun _ _ he => he.elim)
  intro d M' hd
  split
  · rename_i hfits
    rw [if_pos hfits] at hd
    obtain ⟨t, ht, rfl, h0⟩ := hd
    refine ⟨t, ht.mono fun p hp => Or.inl (hplace ▸ hp), rfl, ?_⟩
    rw [hplace, ← ht.grew.slot.inum, ht.opened.places_self]
    simp only [Dinode.holds, if_pos hle]
    exact nonzero_eq_some.mpr ⟨rfl, h0⟩
  · grind

theorem findBlock_indirect {bn : Nat} (hbn : NDIRECT ≤ bn) (hlt : bn < MAXFILE) :
    spec (findBlock (s.icache k).din bn) M (Found M s k bn)
      (fun e _ => e = .exit 1 ∧ FSSIZE < M.freeblock + need s k bn) := by
  have hplace : place bn = .entry (bn - NDIRECT) := if_neg (Nat.not_lt.mpr hbn)
  have hj : bn - NDIRECT < NINDIRECT := by grind
  have hneed : need s k bn = (if s.places k ((s.icache k).inum, .entry (bn - NDIRECT)) = none
      then 1 else 0) + if (s.icache k).din.addr NDIRECT = 0 then 1 else 0 := by
    unfold need
    simp only [hplace, hbn, true_and]
  unfold findBlock Found
  rw [if_neg (Nat.not_lt.mpr hbn), hneed]
  simp only [spec_bind]
  apply spec_mono (fillAddr_spec hm hr ho (Nat.le_refl _) rfl) _ (fun _ _ he => he.elim)
  generalize (if (s.icache k).din.addr NDIRECT = 0 then 1 else 0) = z
  intro d M1 hd
  split at hd
  · -- the indirect block is there
    obtain ⟨t1, h1, rfl, h0⟩ := hd
    have hin := h1.grew.slot.inum
    obtain ⟨hlo, hsec, _⟩ := h1.mounted.range h1.opened (h1.opened.places_indirect h0)
    have hsame : s.places k ((s.icache k).inum, .entry (bn - NDIRECT)) = none ↔
        word (M1.img ((t1.icache k).din.addr NDIRECT)) (bn - NDIRECT) = 0 := by
      rw [← h1.places_eq_none (p := .entry (bn - NDIRECT)) (by simp), ← hin,
        h1.opened.places_entry hj h0, nonzero_eq_none, h1.mounted.block (ne_bmapstart hlo)]
    have hT1 : ∀ p, p = .addr NDIRECT → mapPlaces bn p := fun p hp => Or.inr ⟨hbn, hp⟩
    rw [spec_rsect_of_lt h1.ready hsec, spec_ite]
    refine ⟨fun hw => ?_, fun hw => ?_⟩
    · rw [if_pos (hsame.mpr hw)]
      have hfb := h1.freeblock
      have hhi := h1.ready.hi
      have hval : word (setWord (M1.img ((t1.icache k).din.addr NDIRECT)) (bn - NDIRECT)
          M1.freeblock) (bn - NDIRECT) = M1.freeblock :=
        word_setWord_self (Nat.lt_of_le_of_lt hhi (by decide))
      simp only [spec_bind, spec_takeBlock, hval, spec_pure]
      by_cases hfull : M1.freeblock < FSSIZE
      · rw [spec_wsect (h1.ready.took hfull) hsec, if_pos (by omega)]
        obtain ⟨t2, h2, hdin, hp⟩ := added_entry h1.mounted h1.ready h1.opened hj h0 hw hfull
        refine ⟨t2, ?_, hdin, ?_⟩
        · rw [Nat.add_comm 1 z]
          exact (h1.mono hT1).trans (h2.mono fun p hp => Or.inl (hplace ▸ hp))
        · grind
      · have hlen : max M1.len ((t1.icache k).din.addr NDIRECT + 1) = FSSIZE := by
          rw [h1.ready.len]
          exact Nat.max_eq_left hsec
        unfold wsect
        rw [spec_modify, sector_of_lt (Nat.lt_trans hsec (by decide)), if_neg (by omega)]
        exact ⟨by omega, hlen⟩
    · rw [if_neg fun h => hw (hsame.mp h), Nat.zero_add, spec_pure, if_pos (by assumption)]
      refine ⟨t1, h1.mono hT1, rfl, ?_⟩
      rw [hplace, ← hin, h1.opened.places_entry hj h0, h1.mounted.block (ne_bmapstart hlo)]
      exact nonzero_eq_some.mpr ⟨rfl, hw⟩
  · -- there was no block for it
    obtain ⟨hx, hlen⟩ := hd
    rw [hx, spec_rsect (by decide), hlen]
    refine ⟨fun h => absurd h (Nat.lt_irrefl _), fun _ => ⟨rfl, ?_⟩⟩
    omega

theorem findBlock_spec {bn : Nat} (hlt : bn < MAXFILE) :
    spec (findBlock (s.icache k).din bn) M (Found M s k bn)
      (fun e _ => e = .exit 1 ∧ FSSIZE < M.freeblock + need s k bn) := by
  by_cases hbn : bn < NDIRECT
  · exact findBlock_direct hm hr ho hbn
  · exact findBlock_indirect hm hr ho (Nat.not_lt.mp hbn) hlt

end Added

/-! ## The loop of iappend -/

/-- How many blocks a file of `n` bytes takes. -/
def blocksOf (n : Nat) : Nat := (n + BSIZE - 1) / BSIZE + if NDIRECT * BSIZE < n then 1 else 0

theorem blocksOf_mono {m n : Nat} (h : m ≤ n) : blocksOf m ≤ blocksOf n := by
  unfold blocksOf
  simp only [NDIRECT, BSIZE]
  split <;> split <;> omega

/-- The places `H` of a file hold the blocks of its first `o` bytes and no others. -/
structure Packed (H : Place → Option Nat) (o : Nat) : Prop where
  full : ∀ x < o, H (place (x / BSIZE)) ≠ none
  rest : ∀ bn, o ≤ bn * BSIZE → H (place bn) = none
  indirect : o ≤ NDIRECT * BSIZE → H (.addr NDIRECT) = none

/-- What the inode in entry `k` holds. -/
def holding (s : Fs) (k : Nat) (q : Place) : Option Nat := s.places k ((s.icache k).inum, q)

section Append

variable {M0 M M' : Image} {s0 s t : Fs} {k o n off done : Nat} {p : Nat → UInt8}

/-- An entry of the indirect block is held in an indirect block. -/
theorem indirect_of_entry {d : Dinode} {B : Disk} {bn : Nat} (hbn : NDIRECT ≤ bn)
    (h : d.holds B (place bn) ≠ none) : d.addr NDIRECT ≠ 0 := by
  rw [show place bn = .entry (bn - NDIRECT) from if_neg (Nat.not_lt.mpr hbn)] at h
  intro h0
  simp only [Dinode.holds, h0, true_or, if_true] at h
  exact h rfl

/-- The blocks that a turn takes are those that the longer file takes. -/
theorem Packed.need_eq (h : Packed (holding s k) o) (ho : Opened (· < nmeta) s k) (hn : 0 < n)
    (hle : n ≤ BSIZE - o % BSIZE) : need s k (o / BSIZE) + blocksOf o = blocksOf (o + n) := by
  have hnone : s.places k ((s.icache k).inum, place (o / BSIZE)) = none ↔ o % BSIZE = 0 := by
    constructor
    · intro hp
      by_contra hmod
      apply h.full (o - 1) (by simp only [BSIZE] at hmod; omega)
      rwa [show (o - 1) / BSIZE = o / BSIZE by simp only [BSIZE] at *; omega]
    · intro hmod
      apply h.rest
      simp only [BSIZE] at *
      omega
  have hind : NDIRECT ≤ o / BSIZE → ((s.icache k).din.addr NDIRECT = 0 ↔ o ≤ NDIRECT * BSIZE) := by
    refine fun hbn => ⟨fun h0 => ?_, fun hle => ?_⟩
    · by_contra hlt
      have hp := h.full (o - 1) (by omega)
      rw [holding, ho.places_self] at hp
      exact indirect_of_entry (by simp only [NDIRECT, BSIZE] at *; omega) hp h0
    · have hp := h.indirect hle
      rw [holding, ho.places_self] at hp
      simpa only [Dinode.holds, Nat.le_refl, if_true, nonzero_eq_none] using hp
  have h1 : (if o % BSIZE = 0 then 1 else 0) + (o + BSIZE - 1) / BSIZE =
      (o + n + BSIZE - 1) / BSIZE := by
    grind
  have h2 : (if NDIRECT ≤ o / BSIZE ∧ (s.icache k).din.addr NDIRECT = 0 then 1 else 0) +
      (if NDIRECT * BSIZE < o then 1 else 0) = if NDIRECT * BSIZE < o + n then 1 else 0 := by
    rw [if_congr (and_congr_right hind) rfl rfl]
    simp only [NDIRECT, BSIZE] at *
    split <;> split <;> split <;> omega
  unfold need blocksOf
  rw [if_congr hnone rfl rfl]
  omega

theorem mapPlaces_place {bn bn' : Nat} (h : mapPlaces bn (place bn')) : bn' = bn := by
  rcases h with h | ⟨_, h⟩
  · exact place_inj h
  · exact absurd h (place_ne_indirect bn')

theorem Packed.added {M' : Image} {m : Nat} (h : Packed (holding s k) o)
    (ha : Added M s k m (mapPlaces (o / BSIZE)) M' t) {x : Nat}
    (hx : t.places k ((s.icache k).inum, place (o / BSIZE)) = some x) (hn : 0 < n)
    (hle : n ≤ BSIZE - o % BSIZE) : Packed (holding t k) (o + n) := by
  have hin := ha.grew.slot.inum
  unfold holding
  rw [hin]
  refine ⟨fun y hy => ?_, fun bn hbn => ?_, fun hsmall => ?_⟩
  · by_cases hold : y < o
    · obtain ⟨b, hb⟩ := Option.ne_none_iff_exists'.mp (h.full y hold)
      rw [ha.grew.keep _ b hb]
      simp
    · grind
  · rw [ha.places_eq_none]
    · exact h.rest bn (by omega)
    · grind [mapPlaces_place]
  · rw [ha.places_eq_none]
    · exact h.indirect (by omega)
    · rintro (hT | ⟨hbn, _⟩)
      · exact place_ne_indirect _ hT.symm
      · grind

/-- After `done` bytes of an append at `off`. -/
structure Progress (M0 : Image) (s0 : Fs) (k : Nat) (p : Nat → UInt8) (off done : Nat) (M : Image)
    (s : Fs) : Prop where
  mounted : Mounted M s
  ready : Ready M
  written : Written (· < nmeta) s0 k p off done s
  packed : Packed (holding s k) (off + done)
  freeblock : M.freeblock + blocksOf off = M0.freeblock + blocksOf (off + done)
  freeinode : M.freeinode = M0.freeinode

/-- Why an append fails: the disk is full, or the file is too large. -/
def Exit.explained (e : Exit) (M : Image) (off n : Nat) : Prop :=
  e = .exit 1 ∧ FSSIZE + blocksOf off < M.freeblock + blocksOf (off + n) ∨
    e = .abort "fbn < MAXFILE" ∧ MAXFILE * BSIZE < off + n

/-- `bmap` gives what `findBlock` gives. -/
theorem Added.mapped {m bn x : Nat} (h : Added M s k m (mapPlaces bn) M' t)
    (hx : t.places k ((s.icache k).inum, place bn) = some x) :
    Mapped (· < nmeta) False s k bn ∅ 0 x t :=
  ⟨h.opened, h.grew, hx, {x}, Finset.empty_subset _, Finset.mem_singleton_self x,
    Or.inl ⟨⟨False.elim, False.elim, False.elim⟩, False.elim⟩⟩

theorem Progress.turn {m x : Nat} (h : Progress M0 s0 k p off done M s)
    (ha : Added M s k m (mapPlaces ((off + done) / BSIZE)) M' t)
    (hm : m = need s k ((off + done) / BSIZE))
    (hx : t.places k ((s.icache k).inum, place ((off + done) / BSIZE)) = some x) (hn : 0 < n)
    (hle : n ≤ BSIZE - (off + done) % BSIZE) (hmax : (off + done) / BSIZE < MAXFILE) :
    Progress M0 s0 k p off (done + n) (M'.put x
        (blit (M'.img x) ((off + done) % BSIZE) n fun i => p (done + i)))
      (t.logged x (blit (M'.img x) ((off + done) % BSIZE) n fun i => p (done + i))) := by
  have hin := ha.grew.slot.inum
  have hx' : t.places k ((t.icache k).inum, place ((off + done) / BSIZE)) = some x := by rwa [hin]
  obtain ⟨hlo, _, hfb⟩ := ha.mounted.range ha.opened hx
  have hne := ne_bmapstart hlo
  have hturn := h.written.turn (ha.mapped hx) hn hle hmax
  rw [ha.mounted.block hne] at hturn
  have hpacked := h.packed.added ha hx hn hle
  refine ⟨ha.mounted.put hne _, ha.ready.put hfb, hturn, ?_, ?_, ha.freeinode.trans h.freeinode⟩
  · rw [← Nat.add_assoc off done n, show holding (t.logged x _) k = holding t k from
      funext fun q => places_overwrite ha.opened hx' _]
    exact hpacked
  · have h1 := h.packed.need_eq h.written.opened hn hle
    have h2 := h.freeblock
    have h3 := ha.freeblock
    show M'.freeblock + _ = _
    rw [← Nat.add_assoc off done n]
    omega

theorem appendLoop_spec (fuel : Nat) : ∀ (done n : Nat) (M : Image) (s : Fs), n ≤ fuel →
    Progress M0 s0 k p off done M s →
    spec (appendLoop p fuel done (off + done) n (s.icache k).din) M
        (fun r M' => r.1 = off + (done + n) ∧
        ∃ t, Progress M0 s0 k p off (done + n) M' t ∧ (t.icache k).din = r.2)
      (fun e _ => e.explained M0 off (done + n)) := by
  induction fuel with
  | zero =>
    intro done n M s hn h
    obtain rfl : n = 0 := by omega
    rw [appendLoop, spec_pure]
    exact ⟨rfl, s, h, rfl⟩
  | succ fuel ih =>
    intro done n M s hfuel h
    rw [appendLoop, spec_ite]
    refine ⟨fun h0 => ?_, fun h0 => ?_⟩
    · grind [spec_pure]
    · simp only [spec_ite, spec_throw, spec_bind]
      refine ⟨fun hmax => Or.inr ⟨rfl, ?_⟩, fun hmax => ?_⟩
      · grind
      · rw [not_not] at hmax
        have hn1 : min n (((off + done) / BSIZE + 1) * BSIZE - (off + done)) =
            min n (BSIZE - (off + done) % BSIZE) := by
          simp only [BSIZE]
          omega
        have hstart : off + done - (off + done) / BSIZE * BSIZE = (off + done) % BSIZE := by
          simp only [BSIZE]
          omega
        rw [hn1, hstart]
        have hpos : 0 < min n (BSIZE - (off + done) % BSIZE) := by
          simp only [BSIZE]
          omega
        have hmin := Nat.min_le_left n (BSIZE - (off + done) % BSIZE)
        have hle := Nat.min_le_right n (BSIZE - (off + done) % BSIZE)
        generalize min n (BSIZE - (off + done) % BSIZE) = n1 at *
        have hneed := h.packed.need_eq h.written.opened hpos hle
        have hfb := h.freeblock
        have hfull : FSSIZE < M.freeblock + need s k ((off + done) / BSIZE) →
            Exit.explained (.exit 1) M0 off (done + n) := fun hlt => by
          have := blocksOf_mono (show off + done + n1 ≤ off + (done + n) by omega)
          exact Or.inl ⟨rfl, by omega⟩
        apply spec_mono (findBlock_spec h.mounted h.ready h.written.opened hmax)
        · rintro ⟨x, d⟩ M' hr
          dsimp only at hr ⊢
          unfold Found at hr
          split at hr
          · obtain ⟨t, ha, rfl, hx⟩ := hr
            obtain ⟨_, hlt, hfree⟩ := ha.mounted.range ha.opened hx
            have hturn := h.turn ha rfl hx hpos hle hmax
            rw [spec_rsect_of_lt ha.ready hlt, spec_wsect ha.ready hlt]
            have hnext := ih (done + n1) (n - n1) _ _ (by omega) hturn
            rw [← Nat.add_assoc off done n1, Nat.add_assoc done n1,
              Nat.add_sub_cancel' hmin] at hnext
            exact hnext
          · obtain ⟨rfl, hlen⟩ := hr
            rw [spec_rsect (by decide), hlen]
            exact ⟨fun hlt => absurd hlt (Nat.lt_irrefl _), fun _ => hfull (by omega)⟩
        · rintro e M' ⟨rfl, hlt⟩
          exact hfull hlt

end Append

end xv6.mkfs
