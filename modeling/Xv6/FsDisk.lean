-- What the blocks of the disk hold: the bit of every block, the inode of every number. The laws
-- of the functions that change them: log_write, balloc, bfree and iupdate change what they name
-- and nothing else.
import Xv6.Fs
import Mathlib.Data.Finset.Card

open Finset bytes WP

namespace xv6.fs

/-! ## Bits -/

/-- The mask of bit `i` of a byte. -/
def mask (i : Nat) : UInt8 := (1 : UInt8) <<< UInt8.ofNat i

theorem getLsbD_mask : ∀ i j : Fin 8, (mask i).toBitVec.getLsbD j = decide (j = i) := by
  decide

theorem and_mask : ∀ (x : Fin 256) (i : Fin 8),
    (UInt8.ofNat x &&& mask i != 0) = (UInt8.ofNat x).toBitVec.getLsbD i := by
  decide +kernel

theorem bitSet_eq (data : Block) (i : Nat) :
    bitSet data i = (data (i / 8)).toBitVec.getLsbD (i % 8) := by
  have h := and_mask ⟨(data (i / 8)).toNat, (data (i / 8)).toNat_lt⟩
    ⟨i % 8, Nat.mod_lt _ (by decide)⟩
  simp only [UInt8.ofNat_toNat] at h
  exact h

theorem bit_index_eq {i j : Nat} (h : j / 8 = i / 8) : j % 8 = i % 8 ↔ j = i := by
  omega

theorem getLsbD_mask_mod {i j : Nat} (h : j / 8 = i / 8) :
    (mask (i % 8)).toBitVec.getLsbD (j % 8) = decide (j = i) := by
  have hm := getLsbD_mask ⟨i % 8, Nat.mod_lt _ (by decide)⟩ ⟨j % 8, Nat.mod_lt _ (by decide)⟩
  simpa only [Fin.mk.injEq, bit_index_eq h] using hm

theorem bitSet_setBit (data : Block) (i j : Nat) :
    bitSet (setBit data i) j = (decide (j = i) || bitSet data j) := by
  rw [bitSet_eq, bitSet_eq]
  unfold setBit
  by_cases h : j / 8 = i / 8
  · rw [h, Function.update_self, UInt8.toBitVec_or, BitVec.getLsbD_or, ← getLsbD_mask_mod h,
      Bool.or_comm]
    rfl
  · grind

theorem bitSet_clearBit (data : Block) (i j : Nat) :
    bitSet (clearBit data i) j = (!decide (j = i) && bitSet data j) := by
  rw [bitSet_eq, bitSet_eq]
  unfold clearBit
  by_cases h : j / 8 = i / 8
  · rw [h, Function.update_self, UInt8.toBitVec_and, UInt8.toBitVec_not, BitVec.getLsbD_and,
      BitVec.getLsbD_not, ← getLsbD_mask_mod h, Bool.and_comm]
    have hlt : j % 8 < 8 := Nat.mod_lt _ (by decide)
    simp only [hlt, decide_true, Bool.true_and]
    rfl
  · grind

/-! ## Inodes in their blocks -/

theorem dinodeAt_congr {b b' : Block} {j : Nat}
    (h : ∀ a, 64 * j ≤ a → a < 64 * j + 64 → b a = b' a) :
    dinodeAt b j = dinodeAt b' j := by
  have hle : ∀ o k, o + k ≤ 64 → le b (64 * j + o) k = le b' (64 * j + o) k :=
    fun o k ho => le_congr fun a h1 h2 => h a (by omega) (by omega)
  have h0 := hle 0 2 (by decide)
  rw [Nat.add_zero] at h0
  unfold dinodeAt
  rw [h0, hle 2 2 (by decide), hle 4 2 (by decide), hle 6 2 (by decide), hle 8 4 (by decide)]
  congr 1
  funext i
  have hi : (i : Nat) < 13 := i.isLt
  rw [Nat.add_assoc, hle (12 + 4 * i) 4 (by omega)]

theorem dinodeAt_setDinode_ne {b : Block} {i j : Nat} (d : Dinode) (h : i ≠ j) :
    dinodeAt (setDinode b j d) i = dinodeAt b i :=
  dinodeAt_congr fun _ h1 h2 => blit_out (by omega)

/-- A field of an inode that was stored. -/
theorem le_setDinode {b : Block} {j o k v : Nat} {d : Dinode} (ho : o + k ≤ 64)
    (hb : ∀ i < k, d.byte (o + i) = UInt8.ofNat (v / 256 ^ i)) :
    le (setDinode b j d) (64 * j + o) k = v % 256 ^ k := by
  refine le_of_bytes fun i hi => ?_
  unfold setDinode
  rw [blit_in ⟨by omega, by omega⟩, ← hb i hi]
  congr 1
  omega

/-- The bytes of a field that is `k` bytes at `o`. -/
theorem Dinode.byte_addr (d : Dinode) (n i : Nat) (hi : i < 4) :
    d.byte (12 + 4 * n + i) = UInt8.ofNat (d.addr n / 256 ^ i) := by
  have h1 : (12 + 4 * n + i - 12) / 4 = n := by omega
  have h2 : (12 + 4 * n + i - 12) % 4 = i := by omega
  unfold Dinode.byte
  rw [if_neg (by omega), if_neg (by omega), if_neg (by omega), if_neg (by omega),
    if_neg (by omega), h1, h2]

theorem le_setDinode_short {b : Block} {j o : Nat} {d : Dinode} {x : UInt16} (ho : o + 2 ≤ 64)
    (hb : ∀ i < 2, d.byte (o + i) = UInt8.ofNat (x.toNat / 256 ^ i)) :
    UInt16.ofNat (le (setDinode b j d) (64 * j + o) 2) = x := by
  rw [le_setDinode ho hb, Nat.mod_eq_of_lt (by simpa using x.toNat_lt), UInt16.ofNat_toNat]

theorem le_setDinode_uint {b : Block} {j o : Nat} {d : Dinode} {x : UInt32} (ho : o + 4 ≤ 64)
    (hb : ∀ i < 4, d.byte (o + i) = UInt8.ofNat (x.toNat / 256 ^ i)) :
    UInt32.ofNat (le (setDinode b j d) (64 * j + o) 4) = x := by
  rw [le_setDinode ho hb, Nat.mod_eq_of_lt (by simpa using x.toNat_lt), UInt32.ofNat_toNat]

theorem dinodeAt_setDinode (b : Block) (j : Nat) (d : Dinode) :
    dinodeAt (setDinode b j d) j = d := by
  unfold dinodeAt
  ext1
  · refine le_setDinode_short (o := 0) (by decide) fun i hi => ?_
    unfold Dinode.byte
    rw [if_pos (by omega), Nat.zero_add]
  · refine le_setDinode_short (by decide) fun i hi => ?_
    unfold Dinode.byte
    rw [if_neg (by omega), if_pos (by omega), Nat.add_sub_cancel_left]
  · refine le_setDinode_short (by decide) fun i hi => ?_
    unfold Dinode.byte
    rw [if_neg (by omega), if_neg (by omega), if_pos (by omega), Nat.add_sub_cancel_left]
  · refine le_setDinode_short (by decide) fun i hi => ?_
    unfold Dinode.byte
    rw [if_neg (by omega), if_neg (by omega), if_neg (by omega), if_pos (by omega),
      Nat.add_sub_cancel_left]
  · refine le_setDinode_uint (by decide) fun i hi => ?_
    unfold Dinode.byte
    rw [if_neg (by omega), if_neg (by omega), if_neg (by omega), if_neg (by omega),
      if_pos (by omega), Nat.add_sub_cancel_left]
  · funext n
    have hn : (n : Nat) < 13 := n.isLt
    simp only [Nat.add_assoc]
    refine le_setDinode_uint (by omega) fun i hi => ?_
    rw [Dinode.byte_addr d n i hi]
    simp [Dinode.addr]

theorem Dinode.addr_setAddr_self {d : Dinode} {i a : Nat} (ha : a < 2 ^ 32) :
    (d.setAddr i a).addr i = a := by
  simp only [Dinode.addr, Dinode.setAddr, Function.update_self, UInt32.toNat_ofNat']
  omega

theorem Dinode.addr_setAddr_ne {d : Dinode} {i j a : Nat} (hi : i ≤ NDIRECT) (hj : j ≤ NDIRECT)
    (h : j ≠ i) : (d.setAddr i a).addr j = d.addr j := by
  have hne : Fin.ofNat (NDIRECT + 1) j ≠ Fin.ofNat (NDIRECT + 1) i := by
    intro e
    have := congrArg Fin.val e
    simp only [Fin.ofNat, NDIRECT] at this hi hj
    omega
  simp only [Dinode.addr, Dinode.setAddr, Function.update_of_ne hne]

/-! ## The views -/

/-- The bit of block `b` in the bitmap. -/
def Fs.bit (s : Fs) (b : Nat) : Bool := bitSet (s.blocks (BBLOCK b s.sb)) (b % BPB)

/-- Inode `i` on the disk. -/
def Fs.dinode (s : Fs) (i : Nat) : Dinode := dinodeAt (s.blocks (IBLOCK i s.sb)) (i % IPB)

/-- The blocks before the first data block: boot block, superblock, log, inodes and bitmap. -/
def Superblock.nmeta (sb : Superblock) : Nat := sb.bmapstart + sb.size / BPB + 1

/-- The parts of the disk stand one after the other. -/
structure Geometry (sb : Superblock) : Prop where
  super : 1 < sb.inodestart
  inodes : sb.inodestart + sb.ninodes / IPB < sb.bmapstart
  data : sb.nmeta ≤ sb.size
  small : sb.size < 2 ^ 31

theorem Geometry.IBLOCK_lt {sb : Superblock} (h : Geometry sb) {i : Nat} (hi : i < sb.ninodes) :
    1 < IBLOCK i sb ∧ IBLOCK i sb < sb.bmapstart := by
  have h1 := h.super
  have h2 := h.inodes
  have h3 : i / IPB ≤ sb.ninodes / IPB := Nat.div_le_div_right (Nat.le_of_lt hi)
  simp only [IBLOCK, IPB, BSIZE] at *
  omega

theorem Geometry.BBLOCK_lt {sb : Superblock} (h : Geometry sb) {b : Nat} (hb : b < sb.size) :
    1 < BBLOCK b sb ∧ sb.bmapstart ≤ BBLOCK b sb ∧ BBLOCK b sb < sb.nmeta := by
  have h1 := h.super
  have h2 := h.inodes
  have h3 : b / BPB ≤ sb.size / BPB := Nat.div_le_div_right (Nat.le_of_lt hb)
  simp only [BBLOCK, Superblock.nmeta, BPB, IPB, BSIZE] at *
  omega

theorem Geometry.bmapstart_lt {sb : Superblock} (_ : Geometry sb) : sb.bmapstart < sb.nmeta := by
  simp only [Superblock.nmeta, BPB, BSIZE]
  omega

theorem Geometry.one_lt_nmeta {sb : Superblock} (h : Geometry sb) : 1 < sb.nmeta := by
  have h2 := h.inodes
  simp only [Superblock.nmeta, IPB, BPB, BSIZE] at *
  omega

/-- The state after `log_write`. -/
def Fs.logged (s : Fs) (b : Nat) (data : Block) : Fs :=
  { s with lh := log.absorb s.lh b, blocks := Function.update s.blocks b data }

@[simp] theorem sb_logged (s : Fs) (b : Nat) (data : Block) : (s.logged b data).sb = s.sb := rfl

theorem blocks_logged_self (s : Fs) (b : Nat) (data : Block) : (s.logged b data).blocks b = data :=
  Function.update_self ..

theorem blocks_logged_ne {s : Fs} {b x : Nat} {data : Block} (h : x ≠ b) :
    (s.logged b data).blocks x = s.blocks x :=
  Function.update_of_ne h ..

theorem bit_logged_ne {s : Fs} {b x : Nat} {data : Block} (h : BBLOCK x s.sb ≠ b) :
    (s.logged b data).bit x = s.bit x := by
  unfold Fs.bit
  rw [sb_logged, blocks_logged_ne h]

theorem dinode_logged_ne {s : Fs} {b i : Nat} {data : Block} (h : IBLOCK i s.sb ≠ b) :
    (s.logged b data).dinode i = s.dinode i := by
  unfold Fs.dinode
  rw [sb_logged, blocks_logged_ne h]

/-- Block numbers with one bitmap block and one bit in it are one. -/
theorem bit_eq_iff {b x : Nat} (h : x / BPB = b / BPB) : x % BPB = b % BPB ↔ x = b := by
  simp only [BPB, BSIZE] at *
  omega

theorem BBLOCK_eq_iff {b x : Nat} {sb : Superblock} :
    BBLOCK x sb = BBLOCK b sb ↔ x / BPB = b / BPB := by
  unfold BBLOCK
  omega

/-- The bits after one of them is set in its block. -/
theorem bit_logged_setBit (s : Fs) (b x : Nat) :
    (s.logged (BBLOCK b s.sb) (setBit (s.blocks (BBLOCK b s.sb)) (b % BPB))).bit x =
      (decide (x = b) || s.bit x) := by
  by_cases h : BBLOCK x s.sb = BBLOCK b s.sb
  · unfold Fs.bit
    rw [sb_logged, h, blocks_logged_self, bitSet_setBit]
    simp only [bit_eq_iff (BBLOCK_eq_iff.mp h)]
  · grind [bit_logged_ne]

theorem bit_logged_clearBit (s : Fs) (b x : Nat) :
    (s.logged (BBLOCK b s.sb) (clearBit (s.blocks (BBLOCK b s.sb)) (b % BPB))).bit x =
      (!decide (x = b) && s.bit x) := by
  by_cases h : BBLOCK x s.sb = BBLOCK b s.sb
  · unfold Fs.bit
    rw [sb_logged, h, blocks_logged_self, bitSet_clearBit]
    simp only [bit_eq_iff (BBLOCK_eq_iff.mp h)]
  · grind [bit_logged_ne]

/-- The inodes after one of them is stored in its block. -/
theorem dinode_logged_setDinode (s : Fs) (i j : Nat) (d : Dinode) :
    (s.logged (IBLOCK i s.sb) (setDinode (s.blocks (IBLOCK i s.sb)) (i % IPB) d)).dinode j =
      if j = i then d else s.dinode j := by
  by_cases h : IBLOCK j s.sb = IBLOCK i s.sb
  · unfold Fs.dinode
    rw [sb_logged, h, blocks_logged_self]
    have hdiv : j / IPB = i / IPB := by
      unfold IBLOCK at h
      omega
    split
    · rename_i hj
      rw [hj, dinodeAt_setDinode]
    · grind [dinodeAt_setDinode_ne]
  · grind [dinode_logged_ne]

/-! ## Room in the log, and free blocks -/

/-- The panics for want of room: in the log, outside of a transaction, or on the disk. -/
def Stop.full (e : Stop) : Prop :=
  e = .panic "too big a transaction" ∨ e = .panic "log_write outside of trans" ∨
    e = .panic "balloc: out of blocks"

/-- The length of the header at which `log_write` panics. -/
def Fs.cap (s : Fs) : Nat := min LOGSIZE (s.logsize - 1)

/-- The number of free blocks. -/
def Fs.nfree (s : Fs) : Nat := ((Finset.range s.sb.size).filter fun b => s.bit b = false).card

/-- If `P` holds, then the log has room for the blocks of `U`, with those of the bitmap among them,
and for `m` more. -/
structure Room (P : Prop) (s : Fs) (U : Finset Nat) (m : Nat) : Prop where
  trans : P → 0 < s.outstanding
  room : P → s.lh.length + (U \ s.lh.toFinset).card + m < s.cap
  bitmap : P → ∀ b < s.sb.size, BBLOCK b s.sb ∈ U

/-- If `P` holds, then the log has room for `m` more blocks, and `m` blocks are free. -/
structure Enough (P : Prop) (s : Fs) (U : Finset Nat) (m : Nat) : Prop extends Room P s U m where
  free : P → m ≤ s.nfree

section Room

variable {P : Prop} {s s' : Fs} {U : Finset Nat} {m b : Nat} {data : Block}

theorem log_write_spec (h : Room P s U m) (b : Nat) (data : Block) :
    spec (log_write b data) s (fun _ s' => s' = s.logged b data) (fun e _ => e.full ∧ ¬ P) := by
  have hroom : P → ¬ log.tooBig s.lh s.logsize := by
    intro hp
    have := h.room hp
    unfold log.tooBig
    unfold Fs.cap at this
    omega
  unfold log_write
  simp only [spec_bind, spec_get, spec_ite, spec_throw, spec_modify]
  refine ⟨fun hb => ⟨Or.inl rfl, fun hp => hroom hp hb⟩, fun _ => ⟨fun ho => ⟨Or.inr (Or.inl rfl),
    fun hp => ?_⟩, fun _ => rfl⟩⟩
  have := h.trans hp
  omega

theorem nfree_congr (hsb : s'.sb = s.sb) (h : ∀ x < s.sb.size, s'.bit x = s.bit x) :
    s'.nfree = s.nfree := by
  unfold Fs.nfree
  rw [hsb]
  exact congrArg Finset.card (filter_congr fun x hx => by rw [h x (mem_range.mp hx)])

/-- One more block in the log, among those that are paid for. -/
theorem Room.log (h : Room P s U m) (hb : P → b ∈ U) : Room P (s.logged b data) U m := by
  refine ⟨h.trans, fun hp => ?_, h.bitmap⟩
  have hroom := h.room hp
  change (log.absorb s.lh b).length + (U \ (log.absorb s.lh b).toFinset).card + m < s.cap
  by_cases hin : b ∈ s.lh
  · rw [log.absorb_of_mem hin]
    exact hroom
  · have hrest : (U \ (s.lh ++ [b]).toFinset) = (U \ s.lh.toFinset).erase b := by
      ext x
      simp only [List.toFinset_append, mem_sdiff, mem_union, mem_erase, List.mem_toFinset,
        List.mem_singleton]
      tauto
    have hmem : b ∈ U \ s.lh.toFinset := by simp [hb hp, hin]
    have hpos := card_pos.mpr ⟨b, hmem⟩
    rw [log.absorb_of_notMem hin, hrest, card_erase_of_mem hmem, List.length_append,
      List.length_singleton]
    omega

/-- Pay for one more block. -/
theorem Room.pay (h : Room P s U (m + 1)) (b : Nat) : Room P s (insert b U) m := by
  refine ⟨h.trans, fun hp => ?_, fun hp x hx => mem_insert_of_mem (h.bitmap hp x hx)⟩
  have hroom := h.room hp
  have hle : (insert b U \ s.lh.toFinset).card ≤ (U \ s.lh.toFinset).card + 1 := by
    apply Nat.le_trans (card_le_card _) (card_insert_le b _)
    intro x
    simp only [mem_sdiff, mem_insert]
    tauto
  omega

end Room

/-- Only the contents of blocks and the log's header differ. -/
def Frame (s s' : Fs) : Prop := ∃ B l, s' = { s with blocks := B, lh := l }

theorem Frame.trans {s t u : Fs} (h1 : Frame s t) (h2 : Frame t u) : Frame s u := by
  obtain ⟨B, l, rfl⟩ := h1
  obtain ⟨B', l', rfl⟩ := h2
  exact ⟨B', l', rfl⟩

theorem Frame.sb {s s' : Fs} (h : Frame s s') : s'.sb = s.sb := by
  obtain ⟨B, l, rfl⟩ := h
  rfl

theorem Frame.icache {s s' : Fs} (h : Frame s s') : s'.icache = s.icache := by
  obtain ⟨B, l, rfl⟩ := h
  rfl

theorem frame_logged (s : Fs) (b : Nat) (data : Block) : Frame s (s.logged b data) := ⟨_, _, rfl⟩

/-! ## balloc -/

theorem freeBit_eq_some {data : Block} {size b k bi r : Nat}
    (h : freeBit data size b k bi = some r) :
    bi ≤ r ∧ r < bi + k ∧ b + r < size ∧ bitSet data r = false := by
  induction k generalizing bi with
  | zero => cases h
  | succ k ih =>
    rw [freeBit] at h
    split at h
    · grind
    · cases h

theorem freeBit_eq_none {data : Block} {size b k bi : Nat} (h : freeBit data size b k bi = none) :
    ∀ r, bi ≤ r → r < bi + k → b + r < size → bitSet data r = true := by
  induction k generalizing bi with
  | zero => omega
  | succ k ih =>
    intro r h1 h2 h3
    rw [freeBit] at h
    split at h
    · grind
    · omega

/-- What `balloc` does: a block that was free is marked and zeroed. -/
structure Took (s : Fs) (b : Nat) (s' : Fs) : Prop where
  data : s.sb.nmeta ≤ b
  lt : b < s.sb.size
  was_free : s.bit b = false
  bit : ∀ x < s.sb.size, s'.bit x = (decide (x = b) || s.bit x)
  dinode : ∀ i < s.sb.ninodes, s'.dinode i = s.dinode i
  blocks : ∀ x, x ≠ b → s.sb.nmeta ≤ x ∨ x = 1 → s'.blocks x = s.blocks x
  zero : s'.blocks b = fun _ => 0
  frame : Frame s s'

/-- A block that is set and then zeroed. -/
theorem took_of_free {s : Fs} {b : Nat} (hg : Geometry s.sb)
    (hmeta : ∀ x < s.sb.nmeta, s.bit x = true) (hlt : b < s.sb.size) (hfree : s.bit b = false) :
    Took s b ((s.logged (BBLOCK b s.sb) (setBit (s.blocks (BBLOCK b s.sb)) (b % BPB))).logged b
      fun _ => 0) := by
  have hdata : s.sb.nmeta ≤ b := by grind
  have hbb := hg.BBLOCK_lt hlt
  refine ⟨hdata, hlt, hfree, fun x hx => ?_, fun i hi => ?_, fun x hx hd => ?_,
    blocks_logged_self .., (frame_logged s _ _).trans (frame_logged _ _ _)⟩
  · have := hg.BBLOCK_lt hx
    rw [bit_logged_ne (by rw [sb_logged]; omega), bit_logged_setBit]
  · have := hg.IBLOCK_lt hi
    have := hg.bmapstart_lt
    rw [dinode_logged_ne (by rw [sb_logged]; omega), dinode_logged_ne (by omega)]
  · rw [blocks_logged_ne hx, blocks_logged_ne (by omega)]

theorem Took.nfree {s s' : Fs} {b : Nat} (h : Took s b s') : s.nfree = s'.nfree + 1 := by
  have hsb := h.frame.sb
  have hset : (Finset.range s.sb.size).filter (fun x => s'.bit x = false) =
      ((Finset.range s.sb.size).filter fun x => s.bit x = false).erase b := by
    ext x
    simp only [mem_filter, mem_range, mem_erase]
    constructor
    · grind [h.bit, Bool.or_eq_false_iff]
    · grind [h.bit]
  have hmem : b ∈ (Finset.range s.sb.size).filter fun x => s.bit x = false := by
    simp [h.lt, h.was_free]
  unfold Fs.nfree
  rw [hsb, hset, card_erase_of_mem hmem]
  have := card_pos.mpr ⟨b, hmem⟩
  omega

section Balloc

variable {P : Prop} {s : Fs} {U : Finset Nat} {m : Nat}

/-- The bit of a block, in the terms of the loops of `balloc`. -/
theorem bit_of_index {q bi : Nat} (h : bi < BPB) :
    BBLOCK (q * BPB + bi) s.sb = BBLOCK (q * BPB) s.sb ∧ (q * BPB + bi) % BPB = bi := by
  simp only [BBLOCK, BPB, BSIZE] at *
  omega

theorem ballocFrom_spec (hg : Geometry s.sb) (hmeta : ∀ x < s.sb.nmeta, s.bit x = true)
    (h : Enough P s U (m + 1)) (k q : Nat) (hk : k + q = (s.sb.size + BPB - 1) / BPB)
    (hfull : ∀ x < q * BPB, x < s.sb.size → s.bit x = true) : spec (ballocFrom s.sb k (q * BPB)) s
      (fun b s' => Took s b s' ∧ Enough P s' (insert b U) m) (fun e _ => e.full ∧ ¬ P) := by
  induction k generalizing q with
  | zero =>
    rw [ballocFrom, spec_throw]
    refine ⟨Or.inr (Or.inr rfl), fun hp => ?_⟩
    have hnone : s.nfree = 0 := by grind [Fs.nfree, card_eq_zero, filter_eq_empty_iff]
    have := h.free hp
    omega
  | succ k ih =>
    rw [ballocFrom, spec_bind]
    simp only [bread, spec_bind, spec_get, spec_pure]
    cases hf : freeBit (s.blocks (BBLOCK (q * BPB) s.sb)) s.sb.size (q * BPB) BPB 0 with
    | some bi =>
      obtain ⟨_, h2, hlt, hset⟩ := freeBit_eq_some hf
      rw [Nat.zero_add] at h2
      obtain ⟨hblk, hmod⟩ := bit_of_index (s := s) (q := q) h2
      have hfree : s.bit (q * BPB + bi) = false := by grind [Fs.bit]
      have htook := took_of_free hg hmeta hlt hfree
      rw [hblk, hmod] at htook
      simp only [spec_bind, bzero]
      refine spec_mono (log_write_spec h.toRoom _ _) ?_ (fun _ _ he => he)
      rintro _ t rfl
      have h1 : Room P (s.logged (BBLOCK (q * BPB) s.sb)
          (setBit (s.blocks (BBLOCK (q * BPB) s.sb)) bi)) (insert (q * BPB + bi) U) m :=
        (h.toRoom.pay _).log fun hp => mem_insert_of_mem (hblk ▸ h.bitmap hp _ hlt)
      refine spec_mono (log_write_spec h1 _ _) ?_ (fun _ _ he => he)
      rintro _ t rfl
      rw [spec_pure]
      refine ⟨htook, h1.log fun _ => mem_insert_self _ _, fun hp => ?_⟩
      have := h.free hp
      have := htook.nfree
      omega
    | none =>
      have hnone := freeBit_eq_none hf
      have hnext := ih (q + 1) (by omega) ?_
      · rw [Nat.succ_mul] at hnext
        exact hnext
      · intro x hx hlt
        by_cases hq : x < q * BPB
        · exact hfull x hq hlt
        · grind [Nat.exists_eq_add_of_le, Nat.succ_mul, bit_of_index, Fs.bit]

theorem balloc_spec (hg : Geometry s.sb) (hmeta : ∀ x < s.sb.nmeta, s.bit x = true)
    (h : Enough P s U (m + 1)) :
    spec balloc s (fun b s' => Took s b s' ∧ Enough P s' (insert b U) m)
    (fun e _ => e.full ∧ ¬ P) := by
  unfold balloc
  rw [spec_bind, spec_get]
  have hfrom := ballocFrom_spec hg hmeta h ((s.sb.size + BPB - 1) / BPB) 0 (Nat.add_zero _)
    (fun x hx => absurd hx (by simp))
  rwa [Nat.zero_mul] at hfrom

end Balloc

/-! ## bfree and iupdate -/

/-- What `bfree` does. -/
structure Gave (s : Fs) (b : Nat) (s' : Fs) : Prop where
  bit : ∀ x < s.sb.size, s'.bit x = (!decide (x = b) && s.bit x)
  dinode : ∀ i < s.sb.ninodes, s'.dinode i = s.dinode i
  blocks : ∀ x, s.sb.nmeta ≤ x ∨ x = 1 → s'.blocks x = s.blocks x
  frame : Frame s s'

section Bfree

variable {P : Prop} {s : Fs} {U : Finset Nat} {m b : Nat}

theorem bfree_spec (hg : Geometry s.sb) (hsb : superblockAt (s.blocks 1) = s.sb)
    (hlt : b < s.sb.size) (hset : s.bit b = true) (h : Enough P s U m) :
    spec (bfree b) s (fun _ s' => Gave s b s' ∧ Enough P s' U m) (fun e _ => e.full ∧ ¬ P) := by
  unfold bfree readsb
  simp only [bread, spec_bind, spec_get, spec_pure, spec_modify, hsb]
  unfold Fs.bit at hset
  rw [if_pos hset]
  refine spec_mono (log_write_spec h.toRoom _ _) ?_ (fun _ _ he => he)
  rintro _ t rfl
  have hblk := hg.BBLOCK_lt hlt
  have hbit := bit_logged_clearBit s b
  refine ⟨⟨fun x _ => hbit x, fun i hi => ?_, fun x hx => ?_, frame_logged ..⟩,
    h.toRoom.log fun hp => h.bitmap hp b hlt, fun hp => ?_⟩
  · have := hg.IBLOCK_lt hi
    exact dinode_logged_ne (by omega)
  · exact blocks_logged_ne (by omega)
  · refine Nat.le_trans (h.free hp) ?_
    unfold Fs.nfree
    refine card_le_card fun x hx => ?_
    simp only [mem_filter, hbit] at hx ⊢
    exact ⟨hx.1, by simp [hx.2]⟩

/-- What `iupdate` does. -/
structure Stored (s : Fs) (i : Nat) (d : Dinode) (s' : Fs) : Prop where
  bit : ∀ x < s.sb.size, s'.bit x = s.bit x
  dinode : ∀ j < s.sb.ninodes, s'.dinode j = if j = i then d else s.dinode j
  blocks : ∀ x, s.sb.nmeta ≤ x ∨ x = 1 → s'.blocks x = s.blocks x
  frame : Frame s s'

theorem stored_logged {i : Nat} (hg : Geometry s.sb) (hi : i < s.sb.ninodes) (d : Dinode) :
    Stored s i d (s.logged (IBLOCK i s.sb) (setDinode (s.blocks (IBLOCK i s.sb)) (i % IPB) d)) := by
  have hblk := hg.IBLOCK_lt hi
  have hmeta := hg.bmapstart_lt
  refine ⟨fun x hx => ?_, fun j _ => dinode_logged_setDinode s i j d, fun x hx => ?_,
    frame_logged ..⟩
  · have := hg.BBLOCK_lt hx
    exact bit_logged_ne (by omega)
  · exact blocks_logged_ne (by omega)

theorem iupdate_spec {k : Nat} (hg : Geometry s.sb) (hi : (s.icache k).inum < s.sb.ninodes)
    (hU : P → IBLOCK (s.icache k).inum s.sb ∈ U) (h : Enough P s U m) : spec (iupdate k) s
      (fun _ s' => Stored s (s.icache k).inum (s.icache k).din s' ∧ Enough P s' U m)
      (fun e _ => e.full ∧ ¬ P) := by
  unfold iupdate
  simp only [bread, spec_bind, spec_get, spec_pure]
  refine spec_mono (log_write_spec h.toRoom _ _) ?_ (fun _ _ he => he)
  rintro _ t rfl
  have hst := stored_logged hg hi (s.icache k).din
  refine ⟨hst, h.toRoom.log hU, fun hp => ?_⟩
  rw [nfree_congr hst.frame.sb hst.bit]
  exact h.free hp

end Bfree

end xv6.fs
