-- The contents of files as bytes. The laws of the loop of writei: it puts the bytes where it is
-- asked to, across direct and indirect blocks, and changes no other byte of any file.
import Xv6.FsBlocks

open bytes WP

namespace xv6.fs

/-! ## Contents -/

theorem place_inj {i j : Nat} (h : place i = place j) : i = j := by
  unfold place at h
  split at h <;> split at h <;> simp only [Place.addr.injEq, Place.entry.injEq, reduceCtorEq] at h
  · exact h
  · omega

theorem place_ne_indirect (bn : Nat) : place bn ≠ .addr NDIRECT := by
  unfold place
  split
  · grind
  · simp

/-- Byte `x` of inode `i`. Where there is no block it is 0. -/
def content (sb : Superblock) (blocks : Disk) (v : Nat → Dinode) (i x : Nat) : UInt8 :=
  if x / BSIZE < MAXFILE then
    match held sb blocks v (i, place (x / BSIZE)) with
    | some b => blocks b (x % BSIZE)
    | none => 0
  else 0

/-- Byte `x` of inode `i`, with the copy in entry `k` of the cache. -/
def Fs.byte (s : Fs) (k i x : Nat) : UInt8 := content s.sb s.blocks (s.view k) i x

theorem Fs.byte_of_some {s : Fs} {k i x b : Nat} (hx : x / BSIZE < MAXFILE)
    (h : s.places k (i, place (x / BSIZE)) = some b) : s.byte k i x = s.blocks b (x % BSIZE) := by
  unfold Fs.places at h
  unfold Fs.byte content
  rw [if_pos hx, h]

theorem Fs.byte_of_none {s : Fs} {k i x : Nat} (h : s.places k (i, place (x / BSIZE)) = none) :
    s.byte k i x = 0 := by
  unfold Fs.places at h
  unfold Fs.byte content
  rw [h]
  simp

theorem Fs.byte_of_large {s : Fs} {k i x : Nat} (hx : ¬ x / BSIZE < MAXFILE) : s.byte k i x = 0 :=
  if_neg hx

/-- New blocks are zero where there was none, so no file changes. -/
theorem Grew.byte {s s' : Fs} {k : Nat} {T : Place → Prop} (h : Grew s k T s') (i x : Nat) :
    s'.byte k i x = s.byte k i x := by
  by_cases hx : x / BSIZE < MAXFILE
  · have hne : place (x / BSIZE) ≠ .addr NDIRECT := place_ne_indirect _
    cases hp : s.places k (i, place (x / BSIZE)) with
    | some b =>
      rw [Fs.byte_of_some hx hp, Fs.byte_of_some hx (h.keep _ _ hp), h.data _ b hp hne]
    | none =>
      rw [Fs.byte_of_none hp]
      cases hp' : s'.places k (i, place (x / BSIZE)) with
      | some b => rw [Fs.byte_of_some hx hp', (h.fresh _ b hp hp').2.2 hne]
      | none => rw [Fs.byte_of_none hp']
  · rw [Fs.byte_of_large hx, Fs.byte_of_large hx]

section Overwrite

variable {R : Nat → Prop} {P : Prop} {s : Fs} {k a bn : Nat} {data : Block}

/-- Another content for a data block leaves what is held. -/
theorem places_overwrite (h : Opened R s k)
    (ha : s.places k ((s.icache k).inum, place bn) = some a) (q : Nat × Place) :
    (s.logged a data).places k q = s.places k q := by
  have hg := h.blocks.geometry
  obtain ⟨hdata, _, _⟩ := h.blocks.range ha
  refine held_congr (fun hlt => ?_) (fun hl hz => ?_)
  · have h1 := hg.IBLOCK_lt hlt
    have h2 := hg.bmapstart_lt
    unfold Fs.view
    rw [show (s.logged a data).icache = s.icache from rfl]
    by_cases hi : q.1 = (s.icache k).inum
    · grind
    · grind [dinode_logged_ne]
  · -- an indirect block is held at another place than a data block
    refine blocks_logged_ne ?_
    intro e
    have hind := held_indirect hl hz
    rw [e] at hind
    have := h.blocks.exact.once _ _ _ hind ha
    exact place_ne_indirect bn (congrArg Prod.snd this).symm

theorem bit_overwrite (h : Opened R s k)
    (ha : s.places k ((s.icache k).inum, place bn) = some a) {x : Nat} (hx : x < s.sb.size) :
    (s.logged a data).bit x = s.bit x := by
  have h1 := h.blocks.geometry.BBLOCK_lt hx
  have h2 := (h.blocks.range ha).1
  exact bit_logged_ne (by omega)

theorem Opened.overwrite (h : Opened R s k)
    (ha : s.places k ((s.icache k).inum, place bn) = some a) : Opened R (s.logged a data) k := by
  have hg := h.blocks.geometry
  have h2 := (h.blocks.range ha).1
  have hone := hg.one_lt_nmeta
  refine ⟨⟨hg, ?_, h.blocks.reserved, ?_⟩, ?_⟩
  · rw [blocks_logged_ne (by omega)]
    exact h.blocks.super
  · refine h.blocks.exact.congr (fun x => and_congr_right fun hx => ?_) (places_overwrite h ha)
    rw [bit_overwrite h ha hx]
  · have hl := h.live
    unfold Live at hl ⊢
    rw [view_self] at hl ⊢
    exact hl

/-- Only the bytes of that block change. -/
theorem byte_overwrite (h : Opened R s k) (hbn : bn < MAXFILE)
    (ha : s.places k ((s.icache k).inum, place bn) = some a) (i x : Nat) :
    (s.logged a data).byte k i x =
      if i = (s.icache k).inum ∧ x / BSIZE = bn then data (x % BSIZE) else s.byte k i x := by
  have hpl : ∀ q, (s.logged a data).places k q = s.places k q := places_overwrite h ha
  by_cases hx : x / BSIZE < MAXFILE
  · split
    · rename_i hc
      obtain ⟨rfl, rfl⟩ := hc
      rw [Fs.byte_of_some hx ((hpl _).trans ha), blocks_logged_self]
    · rename_i hc
      cases hp : s.places k (i, place (x / BSIZE)) with
      | some b =>
        have hne : b ≠ a := by
          rintro rfl
          have := h.blocks.exact.once _ _ _ hp ha
          simp only [Prod.mk.injEq] at this
          exact hc ⟨this.1, place_inj this.2⟩
        rw [Fs.byte_of_some hx ((hpl _).trans hp), Fs.byte_of_some hx hp, blocks_logged_ne hne]
      | none => rw [Fs.byte_of_none ((hpl _).trans hp), Fs.byte_of_none hp]
  · grind [Fs.byte_of_large]

end Overwrite

/-! ## The loop of writei -/

/-- The number of blocks that the `n` bytes at `off` are in. -/
def spanned (off n : Nat) : Nat := if n = 0 then 0 else (off + n - 1) / BSIZE - off / BSIZE + 1

theorem spanned_next {off n : Nat} (hn : n ≠ 0) :
    spanned off n = spanned (off + min n (BSIZE - off % BSIZE))
    (n - min n (BSIZE - off % BSIZE)) + 1 := by
  unfold spanned
  simp only [BSIZE] at *
  split <;> split <;> omega

theorem spanned_zero (off m : Nat) : spanned off 0 + m = m := by
  simp [spanned]

/-- The bytes of one block that a turn of the loop writes, as bytes of the file. -/
theorem same_block {off x m : Nat} (hm : m ≤ BSIZE - off % BSIZE) :
    (x / BSIZE = off / BSIZE ∧ off % BSIZE ≤ x % BSIZE ∧ x % BSIZE < off % BSIZE + m ↔
      off ≤ x ∧ x < off + m) ∧
    (x / BSIZE = off / BSIZE → off ≤ x → x % BSIZE - off % BSIZE = x - off) := by
  simp only [BSIZE] at *
  omega

/-- What the loop of `writei` has done: `done` bytes of `src` are at `off` in the file, and the
blocks that hold them are there. -/
structure Written (R : Nat → Prop) (s0 : Fs) (k : Nat) (src : Nat → UInt8) (off done : Nat)
    (s : Fs) : Prop where
  opened : Opened R s k
  keep : ∀ q b, s0.places k q = some b → s.places k q = some b
  fresh : ∀ q b, s0.places k q = none → s.places k q = some b → q.1 = (s0.icache k).inum ∧
    ∃ x, off ≤ x ∧ x < off + done ∧ mapPlaces (x / BSIZE) q.2
  filled : ∀ x, off ≤ x → x < off + done →
    s.places k ((s0.icache k).inum, place (x / BSIZE)) ≠ none
  byte : ∀ i x, s.byte k i x =
    if i = (s0.icache k).inum ∧ off ≤ x ∧ x < off + done then src (x - off) else s0.byte k i x
  dinode : ∀ i < s0.sb.ninodes, s.dinode i = s0.dinode i
  slot : FrameAt s0 k s

section WriteLoop

variable {R : Nat → Prop} {P : Prop} {s0 s : Fs} {k off done m : Nat} {src : Nat → UInt8}
  {U : Finset Nat}

theorem Written.start (h : Opened R s k) (src : Nat → UInt8) (off : Nat) :
    Written R s k src off 0 s := by
  refine ⟨h, fun _ _ hq => hq, fun q b hn hb => ?_, fun x h1 h2 => ?_, fun i x => ?_,
    fun _ _ => rfl, FrameAt.refl s k⟩
  · rw [hn] at hb
    cases hb
  · omega
  · rw [if_neg]
    omega

/-- One turn: `bmap` gives block `a`, and `m` bytes of it are replaced. -/
theorem Written.turn {t : Fs} {a left : Nat} (h : Written R s0 k src off done s)
    (ht : Mapped R P s k ((off + done) / BSIZE) U left a t) (hm0 : 0 < m)
    (hm : m ≤ BSIZE - (off + done) % BSIZE) (hmax : (off + done) / BSIZE < MAXFILE) :
    Written R s0 k src off (done + m) (t.logged a
      (blit (t.blocks a) ((off + done) % BSIZE) m fun i => src (done + i))) := by
  have hti : (t.icache k).inum = (s.icache k).inum := ht.grew.slot.inum
  have hplace : t.places k ((t.icache k).inum, place ((off + done) / BSIZE)) = some a := by
    rw [hti]
    exact ht.place
  have hg := ht.opened.blocks.geometry
  have hdata := (ht.opened.blocks.range hplace).1
  refine ⟨ht.opened.overwrite hplace, fun q b hq => ?_, fun q b hn hb => ?_, fun x h1 h2 => ?_,
    fun i x => ?_, fun i hi => ?_,
    (h.slot.trans ht.grew.slot).trans ((frame_logged ..).at k)⟩
  · rw [places_overwrite ht.opened hplace]
    exact ht.grew.keep q b (h.keep q b hq)
  · rw [places_overwrite ht.opened hplace] at hb
    cases hs : s.places k q with
    | some c =>
      grind [h.fresh]
    | none =>
      obtain ⟨h1, h2, _⟩ := ht.grew.fresh q b hs hb
      exact ⟨h1.trans h.slot.inum, off + done, by omega, by omega, h2⟩
  · rw [places_overwrite ht.opened hplace]
    by_cases hx : x < off + done
    · obtain ⟨c, hc⟩ := Option.ne_none_iff_exists'.mp (h.filled x h1 hx)
      rw [ht.grew.keep _ c hc]
      simp
    · grind [same_block, h.slot.inum]
  · rw [byte_overwrite ht.opened hmax hplace, ht.grew.byte, h.byte, hti, h.slot.inum]
    obtain ⟨hsame, hsub⟩ := same_block (x := x) hm
    by_cases hi : i = (s0.icache k).inum
    · by_cases hin : off + done ≤ x ∧ x < off + done + m
      · obtain ⟨hb1, hb2, hb3⟩ := hsame.mpr hin
        rw [if_pos ⟨hi, hb1⟩, if_pos ⟨hi, by omega, by omega⟩, blit_in ⟨hb2, hb3⟩, hsub hb1 hin.1]
        congr 1
        omega
      · have hold : (if i = (s0.icache k).inum ∧ off ≤ x ∧ x < off + done then src (x - off)
            else s0.byte k i x) = if i = (s0.icache k).inum ∧ off ≤ x ∧ x < off + (done + m) then
            src (x - off) else s0.byte k i x := by
          refine if_congr (and_congr_right fun _ => ?_) rfl rfl
          omega
        rw [← hold]
        split
        · rename_i hc
          have hout : ¬ ((off + done) % BSIZE ≤ x % BSIZE ∧ x % BSIZE < (off + done) % BSIZE + m) :=
            fun hb => hin (hsame.mp ⟨hc.2, hb⟩)
          have hxlt : x / BSIZE < MAXFILE := hc.2 ▸ hmax
          rw [blit_out (by omega), ← h.byte i x, ← ht.grew.byte i x,
            Fs.byte_of_some hxlt (by rw [hc.1, ← h.slot.inum, ← hti, hc.2]; exact hplace)]
        · rfl
    · grind
  · have h1 := hg.IBLOCK_lt (i := i) (by rwa [ht.grew.slot.sb, h.slot.sb])
    have h2 := hg.bmapstart_lt
    rw [dinode_logged_ne (by omega), ht.grew.dinode i (by rwa [h.slot.sb]), h.dinode i hi]

/-- A data block that is paid for can be logged again. -/
theorem Budget.overwrite {bn a : Nat} {data : Block} (h : Budget P s k U m) (ho : Opened R s k)
    (ha : s.places k ((s.icache k).inum, place bn) = some a) (haU : a ∈ U) :
    Budget P (s.logged a data) k U m := by
  have hlog : ∀ j, Enough P s U j → Enough P (s.logged a data) U j := by
    intro j he
    refine ⟨he.toRoom.log fun _ => haU, fun hp => ?_⟩
    rw [nfree_congr (sb_logged ..) fun x hx => bit_overwrite ho ha hx]
    exact he.free hp
  rcases h with he | ⟨h0, hU, he⟩
  · exact Or.inl (hlog _ he)
  · exact Or.inr ⟨h0, hU, hlog _ he⟩

theorem Enough.le {j : Nat} (h : Enough P s U j) (hm : m ≤ j) : Enough P s U m :=
  ⟨⟨h.trans, fun hp => by have := h.room hp; omega, h.bitmap⟩,
  fun hp => Nat.le_trans hm (h.free hp)⟩

theorem Budget.enough (h : Budget P s k U m) : Enough P s U m := by
  rcases h with he | ⟨_, _, he⟩
  · exact he.le (Nat.le_succ m)
  · exact he

theorem writeLoop_spec (fuel : Nat) : ∀ (done left : Nat) (s : Fs) (U : Finset Nat),
    left ≤ fuel → off + done + left ≤ MAXFILE * BSIZE → Written R s0 k src off done s →
    Budget P s k U (spanned (off + done) left + m) →
    spec (writeLoop k src fuel done (off + done) left) s
      (fun _ s' => Written R s0 k src off (done + left) s' ∧ ∃ U', U ⊆ U' ∧ Budget P s' k U' m)
      (fun e _ => e.full ∧ ¬ P) := by
  induction fuel with
  | zero =>
    intro done left s U hfuel _ hw hb
    obtain rfl : left = 0 := by omega
    rw [writeLoop, spec_pure]
    rw [spanned_zero] at hb
    exact ⟨hw, U, Finset.Subset.refl _, hb⟩
  | succ fuel ih =>
    intro done left s U hfuel hmax hw hb
    rw [writeLoop, spec_ite]
    refine ⟨fun h0 => ?_, fun h0 => ?_⟩
    · subst h0
      rw [spec_pure]
      rw [spanned_zero] at hb
      exact ⟨hw, U, Finset.Subset.refl _, hb⟩
    · have hbn : (off + done) / BSIZE < MAXFILE := by grind
      have hm0 : 0 < min left (BSIZE - (off + done) % BSIZE) := by
        simp only [BSIZE]
        omega
      rw [spanned_next h0, Nat.add_right_comm] at hb
      simp only [bread, spec_bind, spec_get, spec_pure]
      refine spec_mono (bmap_spec hw.opened hbn hb) ?_ (fun _ _ he => he)
      intro a t ht
      obtain ⟨U', hU, haU, hbud⟩ := ht.budget
      have hplace : t.places k ((t.icache k).inum, place ((off + done) / BSIZE)) = some a := by
        rw [ht.grew.slot.inum]
        exact ht.place
      refine spec_mono (log_write_spec hbud.enough.toRoom _ _) ?_ (fun _ _ he => he)
      rintro _ u rfl
      have hnext := hw.turn ht hm0 (Nat.min_le_right ..) hbn
      have hb' : Budget P (t.logged a (blit (t.blocks a) ((off + done) % BSIZE)
          (min left (BSIZE - (off + done) % BSIZE)) fun i => src (done + i))) k U' _ :=
        hbud.overwrite ht.opened hplace haU
      rw [Nat.add_assoc] at hb' ⊢
      refine spec_mono (ih _ (left - min left (BSIZE - (off + done) % BSIZE)) _ U' (by omega)
        (by omega) hnext (by simpa only [Nat.add_assoc] using hb')) ?_ (fun _ _ he => he)
      rintro _ s' ⟨hw', U'', hU', hb''⟩
      rw [Nat.add_assoc, Nat.add_sub_cancel' (Nat.min_le_left ..)] at hw'
      exact ⟨hw', U'', hU.trans hU', hb''⟩

end WriteLoop

end xv6.fs
