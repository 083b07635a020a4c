-- Files as arrays of bytes. The laws of readi and writei: they return and replace the bytes that
-- they are asked to, or answer -1 and change nothing, and no other file changes.
import Xv6.FsFiles

open Finset bytes WP

namespace xv6.fs

/-! ## The size of a file -/

section Stored

variable {R : Nat → Prop} {P : Prop} {s t u : Fs} {k : Nat} {U : Finset Nat} {m : Nat}

/-- A changed copy is stored. -/
theorem store_spec (h : Opened R t k) (d : Dinode)
    (hU : P → IBLOCK (t.icache k).inum t.sb ∈ U) (he : Enough P t U m) :
    spec (iupdate k) (t.withDin k d)
      (fun _ u => Stored (t.withDin k d) (t.icache k).inum d u ∧ Enough P u U m)
      (fun e _ => e.full ∧ ¬ P) := by
  have hinum : ((t.withDin k d).icache k).inum = (t.icache k).inum := by simp [Fs.withDin]
  have hdin : ((t.withDin k d).icache k).din = d := by simp [Fs.withDin]
  have hspec : spec (iupdate k) (t.withDin k d) _ _ :=
    iupdate_spec h.blocks.geometry (by rw [hinum]; exact h.live.2.1)
      (by rw [hinum]; exact hU) (he.withDin k d)
  rwa [hinum, hdin] at hspec

/-- The copy and the disk inode are one then. -/
theorem view_stored (h : Opened R t k) {d : Dinode}
    (hst : Stored (t.withDin k d) (t.icache k).inum d u) :
    u.icache k = { t.icache k with din := d } ∧ u.view k = u.dinode := by
  have hic : u.icache k = { t.icache k with din := d } := by
    rw [hst.frame.icache]
    exact Function.update_self ..
  refine ⟨hic, ?_⟩
  have hdin : u.dinode (t.icache k).inum = d := by
    rw [hst.dinode _ h.live.2.1, if_pos rfl]
  unfold Fs.view
  rw [hic]
  conv => lhs; rw [← hdin]
  exact Function.update_eq_self ..

theorem slot_stored {i : Nat} {d : Dinode} (h : FrameAt s k t)
    (hst : Stored (t.withDin k d) i d u) :
    ∃ B l, u = { s.withDin k d with blocks := B, lh := l } := by
  obtain ⟨B', l', hu⟩ := hst.frame
  obtain ⟨as, B, l, rfl⟩ := h
  exact ⟨B', l', by simp [hu, Fs.withDin]⟩

variable (h : Opened R t k) {d : Dinode} (hd : d.addrs = (t.icache k).din.addrs) (hty : d.type ≠ 0)
  (hst : Stored (t.withDin k d) (t.icache k).inum d u)

include h hd hty hst

/-- What is held once a copy with other fields than addresses is stored. -/
theorem held_stored (q : Nat × Place) : held t.sb u.blocks u.dinode q = t.places k q := by
  have hholds : ∀ p, d.holds u.blocks p = (t.icache k).din.holds t.blocks p := by
    intro p
    have haddr : ∀ i, d.addr i = (t.icache k).din.addr i := fun i => by
      unfold Dinode.addr
      rw [hd]
    cases p with
    | addr i =>
      simp only [Dinode.holds, haddr]
    | entry j =>
      simp only [Dinode.holds, haddr]
      split
      · rfl
      · rename_i hz
        rw [hst.blocks _ (Or.inl (h.blocks.range (h.places_indirect fun e => hz (Or.inl e))).1)]
        rfl
  obtain ⟨i, p⟩ := q
  by_cases hi : i = (t.icache k).inum
  · subst hi
    have hdin : u.dinode (t.icache k).inum = d := by
      rw [hst.dinode _ h.live.2.1, if_pos rfl]
    have hlive : Live t.sb u.dinode (t.icache k).inum :=
      ⟨h.live.1, h.live.2.1, by rw [hdin]; exact hty⟩
    rw [held_of_live hlive, hdin, h.places_self, hholds]
  · refine held_congr (fun hlt => ?_) (fun hl hz => ?_)
    · rw [hst.dinode i hlt, if_neg hi, view_ne hi]
      rfl
    · exact hst.blocks _ (Or.inl (h.blocks.range (held_indirect hl hz)).1)

theorem Blocks.stored : Blocks R u u.dinode := by
  have hsb : u.sb = t.sb := hst.frame.sb
  refine ⟨hsb ▸ h.blocks.geometry, ?_, hsb ▸ h.blocks.reserved, ?_⟩
  · rw [hst.blocks 1 (Or.inr rfl), hsb]
    exact h.blocks.super
  · rw [hsb]
    refine h.blocks.exact.congr (fun x => and_congr_right fun hx => ?_) (held_stored h hd hty hst)
    rw [hst.bit x hx]
    rfl

/-- The contents, once a copy with other fields than addresses is stored. -/
theorem content_stored (i x : Nat) : content t.sb u.blocks u.dinode i x = t.byte k i x := by
  unfold Fs.byte content
  have hplaces := held_stored h hd hty hst
  unfold Fs.places at hplaces
  split
  · rw [hplaces]
    cases hp : held t.sb t.blocks (t.view k) (i, place (x / BSIZE)) with
    | none => rfl
    | some b =>
      have hb := (h.blocks.range hp).1
      exact congrFun (hst.blocks b (Or.inl hb)) _
  · rfl

theorem places_stored (q : Nat × Place) : u.places k q = t.places k q := by
  unfold Fs.places
  rw [(view_stored h hst).2, show u.sb = t.sb from hst.frame.sb]
  exact held_stored h hd hty hst q

theorem Opened.stored : Opened R u k := by
  obtain ⟨hic, hview⟩ := view_stored h hst
  refine ⟨by rw [hview]; exact Blocks.stored h hd hty hst, ?_⟩
  have hsb : u.sb = t.sb := hst.frame.sb
  refine ⟨?_, ?_, ?_⟩
  · rw [hic]
    exact h.live.1
  · rw [hic, hsb]
    exact h.live.2.1
  · rw [view_self, hic]
    exact hty

end Stored

/-! ## writei -/

section Writei

variable {R : Nat → Prop} {P : Prop} {s t u : Fs} {k off n m : Nat} {U : Finset Nat}
  {src : Nat → UInt8}

/-- The copy with a new size. -/
def Dinode.sized (d : Dinode) (size : Nat) : Dinode := { d with size := UInt32.ofNat size }

/-- What `writei` does: the bytes are written, and the size is stored if the file grew. -/
def Wrote (R : Nat → Prop) (s : Fs) (k : Nat) (src : Nat → UInt8) (off n : Nat) (u : Fs) : Prop :=
  off + n ≤ (s.icache k).din.size.toNat ∧ Written R s k src off n u ∨
  (s.icache k).din.size.toNat < off + n ∧ ∃ t, Written R s k src off n t ∧
    Stored (t.withDin k ((t.icache k).din.sized (off + n))) (t.icache k).inum
      ((t.icache k).din.sized (off + n)) u

/-- `writei` where it does not return -1. -/
theorem writei_spec (h : Opened R s k) (hty : (s.icache k).din.type ≠ T_DEV)
    (hoff : off ≤ (s.icache k).din.size.toNat) (hmax : off + n ≤ MAXFILE * BSIZE)
    (hb : Budget P s k U (spanned off n + m)) (hU : P → IBLOCK (s.icache k).inum s.sb ∈ U) :
    spec (writei k src off n) s (fun r u => r = n ∧ Wrote R s k src off n u ∧ ∃ U', U ⊆ U' ∧
      Enough P u U' m) (fun e _ => e.full ∧ ¬ P) := by
  have hlt : off + n < 2 ^ 32 := by grind
  have huint : uint (off + n) = off + n := Nat.mod_eq_of_lt hlt
  unfold writei
  simp only [spec_bind, spec_get]
  rw [if_neg hty, if_neg (by omega), huint, if_neg (Nat.not_lt.mpr hmax)]
  simp only [spec_bind]
  apply spec_mono (writeLoop_spec n 0 n s U (Nat.le_refl _) hmax
    (Written.start h src off) hb) _ (fun _ _ he => he)
  rintro _ t ⟨hw, U', hUU, hbud⟩
  rw [Nat.zero_add] at hw
  simp only [spec_ite, spec_bind, spec_pure, spec_setDin]
  refine ⟨fun hgrow => ?_, fun hsame => ⟨trivial, Or.inl ⟨by omega, hw⟩, U', hUU, hbud.enough⟩⟩
  apply spec_mono (store_spec hw.opened _ (fun hp => ?_) hbud.enough) _ (fun _ _ he => he)
  · rintro _ u ⟨hst, heu⟩
    exact ⟨trivial, Or.inr ⟨hgrow.2, t, hw, hst⟩, U', hUU, heu⟩
  · rw [hw.slot.inum, hw.slot.sb]
    exact hUU (hU hp)

end Writei

/-! ## readi -/

section Readi

variable {R : Nat → Prop} {s : Fs} {k off n m : Nat}

/-- A block index with a block is one of a file. -/
theorem lt_of_held {sb : Superblock} {B : Disk} {v : Nat → Dinode} {i bn : Nat}
    (h : held sb B v (i, place bn) ≠ none) : bn < MAXFILE := by
  obtain ⟨b, hb⟩ := Option.ne_none_iff_exists'.mp h
  obtain ⟨_, hh⟩ := held_eq_some.mp hb
  unfold place at hh
  split at hh
  · simp only [MAXFILE]
    omega
  · grind [Dinode.holds]

/-- One turn of the loop of `readi` gives bytes of the file. -/
theorem slice_block {a : Nat} (hbn : off / BSIZE < MAXFILE)
    (ha : s.places k ((s.icache k).inum, place (off / BSIZE)) = some a)
    (hm : m ≤ BSIZE - off % BSIZE) :
    slice (s.blocks a) (off % BSIZE) m = slice (s.byte k (s.icache k).inum) off m := by
  unfold bytes.slice
  apply List.map_congr_left
  intro i hi
  have hlt := List.mem_range.mp hi
  obtain ⟨hblk, hge, _⟩ := (same_block (x := off + i) hm).1.mpr ⟨by omega, by omega⟩
  have hsub := (same_block (x := off + i) hm).2 hblk (by omega)
  rw [Fs.byte_of_some (hblk ▸ hbn) (hblk ▸ ha)]
  congr 1
  omega

/-- The loop of `readi` reads, and changes nothing, where the blocks are there. -/
theorem readLoop_spec (ho : Opened R s k) {E : Stop → Fs → Prop} (fuel : Nat) :
    ∀ (off left : Nat) (Q : List UInt8 → Fs → Prop), left ≤ fuel → off + left ≤ MAXFILE * BSIZE →
    (∀ x, off ≤ x → x < off + left → s.places k ((s.icache k).inum, place (x / BSIZE)) ≠ none) →
    Q (slice (s.byte k (s.icache k).inum) off left) s → spec (readLoop k fuel off left) s Q E := by
  induction fuel with
  | zero =>
    intro off left Q hfuel _ _ hQ
    obtain rfl : left = 0 := by omega
    rw [readLoop, spec_pure]
    exact hQ
  | succ fuel ih =>
    intro off left Q hfuel hmax hthere hQ
    rw [readLoop, spec_ite]
    refine ⟨fun h0 => ?_, fun h0 => ?_⟩
    · subst h0
      rw [spec_pure]
      exact hQ
    · have hbn : off / BSIZE < MAXFILE := by grind
      have hm0 : 0 < min left (BSIZE - off % BSIZE) := by
        simp only [BSIZE]
        omega
      obtain ⟨a, ha⟩ := Option.ne_none_iff_exists'.mp (hthere off (Nat.le_refl _) (by omega))
      simp only [bread, spec_bind, spec_get, spec_pure]
      rw [bmap_mapped ho hbn ha]
      apply ih _ _ _ (by omega) (by omega)
      · grind
      · rw [slice_block hbn ha (Nat.min_le_right ..), ← slice_append,
          Nat.add_sub_cancel' (Nat.min_le_left ..)]
        exact hQ

/-- A file without holes has no more bytes than the blocks of an inode. -/
theorem le_of_full {sb : Superblock} {B : Disk} {v : Nat → Dinode} {i : Nat}
    (h : ∀ x < n, held sb B v (i, place (x / BSIZE)) ≠ none) : n ≤ MAXFILE * BSIZE := by
  by_contra hn
  have hlt := lt_of_held (h (MAXFILE * BSIZE) (by omega))
  rw [Nat.mul_div_cancel _ (by decide)] at hlt
  exact Nat.lt_irrefl _ hlt

end Readi

/-! ## A file is its bytes -/

/-- A file without holes, open in entry `k`, that shares no block. -/
structure Whole (R : Nat → Prop) (s : Fs) (k : Nat) : Prop where
  opened : Opened R s k
  type : (s.icache k).din.type ≠ T_DEV
  full : ∀ x < (s.icache k).din.size.toNat,
    s.places k ((s.icache k).inum, place (x / BSIZE)) ≠ none

/-- The file in entry `k` after a write: its size, its bytes and those of the other inodes. -/
structure Replaced (s : Fs) (k : Nat) (src : Nat → UInt8) (off n : Nat) (u : Fs) : Prop where
  size : (u.icache k).din.size.toNat = max (s.icache k).din.size.toNat (off + n)
  byte : ∀ i x, u.byte k i x =
    if i = (s.icache k).inum ∧ off ≤ x ∧ x < off + n then src (x - off) else s.byte k i x
  /-- the other fields of the inode, apart from the addresses -/
  fields : ∃ as sz, (u.icache k).din = { (s.icache k).din with addrs := as, size := sz }
  /-- the other inodes, on the disk and in the cache -/
  dinode : ∀ i < s.sb.ninodes, i ≠ (s.icache k).inum → u.dinode i = s.dinode i
  slot : ∃ d B l, u = { s.withDin k d with blocks := B, lh := l }

section Whole

variable {R : Nat → Prop} {s t u : Fs} {k off n : Nat} {src : Nat → UInt8}

/-- `readi` where it does not return -1. -/
theorem readi_spec (h : Whole R s k) (hoff : off ≤ (s.icache k).din.size.toNat)
    (hmax : off + n < 2 ^ 32) {Q : Option (List UInt8) → Fs → Prop} {E : Stop → Fs → Prop}
    (hQ : Q (some (slice (s.byte k (s.icache k).inum) off
      (min (off + n) (s.icache k).din.size.toNat - off))) s) : spec (readi k off n) s Q E := by
  have huint : uint (off + n) = off + n := Nat.mod_eq_of_lt hmax
  have hlen : (if off + n > (s.icache k).din.size.toNat then (s.icache k).din.size.toNat - off
      else n) = min (off + n) (s.icache k).din.size.toNat - off := by
    split <;> omega
  unfold readi
  simp only [spec_bind, spec_get]
  rw [if_neg h.type, if_neg (by omega), huint, hlen]
  simp only [spec_bind, spec_pure]
  apply readLoop_spec h.opened _ _ _ _ (Nat.le_refl _) _ _ hQ
  · have := le_of_full h.full
    omega
  · intro x _ hx
    exact h.full x (by omega)

/-- `readi` of a file without holes changes nothing. -/
theorem Whole.readi_eq (h : Whole R s k) (hoff : off < 2 ^ 32) (hn : n < 2 ^ 32) :
    readi k off n s = .ok (if off ≤ (s.icache k).din.size.toNat ∧ off + n < 2 ^ 32 then
      some (slice (s.byte k (s.icache k).inum) off
        (min (off + n) (s.icache k).din.size.toNat - off)) else none) s := by
  have hspec : spec (readi k off n) s (fun r u => r = (if off ≤ (s.icache k).din.size.toNat ∧
      off + n < 2 ^ 32 then some (slice (s.byte k (s.icache k).inum) off
      (min (off + n) (s.icache k).din.size.toNat - off)) else none) ∧ u = s)
      fun _ _ => False := by
    by_cases hc : off ≤ (s.icache k).din.size.toNat ∧ off + n < 2 ^ 32
    · rw [if_pos hc]
      exact readi_spec h hc.1 hc.2 ⟨rfl, rfl⟩
    · rw [if_neg hc]
      unfold readi
      simp only [spec_bind, spec_get]
      rw [if_neg h.type, if_pos (by unfold uint; omega)]
      exact (spec_pure _).mpr ⟨rfl, rfl⟩
  obtain ⟨r, u, hu, rfl, rfl⟩ := exists_of_spec hspec
  exact hu

/-- The places up to the new size are filled. -/
theorem Written.full (h : Whole R s k) (hw : Written R s k src off n t)
    (hoff : off ≤ (s.icache k).din.size.toNat) {x : Nat}
    (hx : x < max (s.icache k).din.size.toNat (off + n)) :
    t.places k ((s.icache k).inum, place (x / BSIZE)) ≠ none := by
  by_cases hold : x < (s.icache k).din.size.toNat
  · obtain ⟨b, hb⟩ := Option.ne_none_iff_exists'.mp (h.full x hold)
    rw [hw.keep _ b hb]
    simp
  · have hlo : off ≤ x := Nat.le_trans hoff (Nat.not_lt.mp hold)
    exact hw.filled x hlo (by omega)

theorem Wrote.keep (hw : Wrote R s k src off n u) {q : Nat × Place} {b : Nat}
    (hq : s.places k q = some b) : u.places k q = some b := by
  rcases hw with ⟨_, hw⟩ | ⟨_, t, hw, hst⟩
  · exact hw.keep q b hq
  · have haddrs : ((t.icache k).din.sized (off + n)).addrs = (t.icache k).din.addrs := rfl
    rw [places_stored hw.opened haddrs hw.opened.type_ne hst]
    exact hw.keep q b hq

theorem Wrote.whole (h : Whole R s k) (hoff : off ≤ (s.icache k).din.size.toNat)
    (hlt : off + n < 2 ^ 32) (hw : Wrote R s k src off n u) :
    Whole R u k ∧ Replaced s k src off n u := by
  rcases hw with ⟨hle, hw⟩ | ⟨hgrow, t, hw, hst⟩
  · obtain ⟨as, has⟩ := hw.slot.din
    have hsize : (u.icache k).din.size.toNat = max (s.icache k).din.size.toNat (off + n) := by
      rw [has, Nat.max_eq_left hle]
    refine ⟨⟨hw.opened, by rw [has]; exact h.type, fun x hx => ?_⟩,
      ⟨hsize, hw.byte, ⟨as, _, has⟩, fun i hi _ => hw.dinode i hi, ?_⟩⟩
    · grind [hw.slot.inum, hw.full]
    · obtain ⟨as, B, l, hu⟩ := hw.slot
      exact ⟨_, B, l, hu⟩
  · obtain ⟨as, has⟩ := hw.slot.din
    obtain ⟨hic, hview⟩ := view_stored hw.opened hst
    have haddrs : ((t.icache k).din.sized (off + n)).addrs = (t.icache k).din.addrs := rfl
    have hty : ((t.icache k).din.sized (off + n)).type ≠ 0 := hw.opened.type_ne
    have hin : (u.icache k).inum = (s.icache k).inum := by
      rw [hic]
      exact hw.slot.inum
    have hsb : u.sb = t.sb := hst.frame.sb
    have hsize : (u.icache k).din.size.toNat = max (s.icache k).din.size.toNat (off + n) := by
      rw [hic, Nat.max_eq_right (Nat.le_of_lt hgrow)]
      exact UInt32.toNat_ofNat_of_lt' hlt
    have hplaces := places_stored hw.opened haddrs hty hst
    have hbyte : ∀ i x, u.byte k i x = t.byte k i x := fun i x => by
      unfold Fs.byte
      rw [hview, hsb]
      exact content_stored hw.opened haddrs hty hst i x
    refine ⟨⟨hw.opened.stored haddrs hty hst, ?_, fun x hx => ?_⟩,
      ⟨hsize, fun i x => by rw [hbyte, hw.byte], ⟨as, UInt32.ofNat (off + n), ?_⟩,
      fun i hi hne => ?_, ?_⟩⟩
    · rw [hic]
      show (t.icache k).din.type ≠ T_DEV
      rw [has]
      exact h.type
    · grind [hw.full]
    · rw [hic]
      unfold Dinode.sized
      rw [has]
    · rw [hst.dinode i (by rw [← hw.slot.sb] at hi; exact hi),
        if_neg (by rw [hw.slot.inum]; exact hne)]
      exact hw.dinode i hi
    · grind [slot_stored, hw.slot]

/-- Inside a transaction, the log has room for `m` more data blocks, next to the blocks of the
bitmap, the inode's block and an indirect block. -/
structure RoomFor (s : Fs) (m : Nat) : Prop where
  trans : 0 < s.outstanding
  room : s.lh.length + (s.sb.size / BPB + 1) + m + 2 < s.cap
  free : m + 1 ≤ s.nfree

/-- The blocks of the bitmap. -/
def bitmapBlocks (sb : Superblock) : Finset Nat :=
  (Finset.range (sb.size / BPB + 1)).image (· + sb.bmapstart)

theorem budget_of_room (s : Fs) (k i m : Nat) :
    Budget (RoomFor s m) s k (insert i (bitmapBlocks s.sb)) m := by
  refine Or.inl ⟨⟨RoomFor.trans, fun h => ?_, fun _ b hb => ?_⟩, RoomFor.free⟩
  · have hcard : (insert i (bitmapBlocks s.sb) \ s.lh.toFinset).card ≤ s.sb.size / BPB + 1 + 1 := by
      apply Nat.le_trans (card_le_card sdiff_subset)
      apply Nat.le_trans (card_insert_le ..)
      apply Nat.succ_le_succ
      apply Nat.le_trans card_image_le
      rw [card_range]
    have := h.room
    omega
  · apply mem_insert_of_mem
    apply mem_image_of_mem
    rw [mem_range]
    exact Nat.lt_succ_of_le (Nat.div_le_div_right (Nat.le_of_lt hb))

end Whole

/-! ## A small file system -/

/-- A disk of 64 blocks with one inode block and one block of the bitmap. -/
def smallSb : Superblock :=
  { size := 64, nblocks := 56, ninodes := 8, nlog := 3, logstart := 2, inodestart := 5,
    bmapstart := 7 }

def smallSuper : Block :=
  log.setWords (fun _ => 0) 0 [64, 56, 8, 3, 2, 5, 7]

/-- The disk with the inodes of block `ib` and the bitmap `bm`. -/
def smallDisk (ib bm : Block) : Disk := fun b =>
  if b = 1 then smallSuper else if b = 5 then ib else if b = 7 then bm else fun _ => 0

end xv6.fs
