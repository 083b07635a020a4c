-- The file system as its callers see it: files, and entries of the inode cache that refer to them.
-- The laws of readi and writei: they move the bytes that they are asked to, and no other file
-- changes.
import Xv6.FsBytes

open Option bytes WP

namespace xv6.fs

/-! ## Files -/

/-- What an inode is, apart from where its blocks are. -/
@[ext]
structure File where
  type : UInt16
  major : UInt16
  minor : UInt16
  nlink : UInt16
  size : Nat
  /-- the bytes, of which the first `size` count -/
  data : Nat → UInt8

/-- The file with `n` bytes of `src` at `off`. -/
def File.write (f : File) (off n : Nat) (src : Nat → UInt8) : File :=
  { f with
    size := max f.size (off + n)
    data := fun x => if off ≤ x ∧ x < off + n then src (x - off) else f.data x }

def Dinode.file (d : Dinode) (data : Nat → UInt8) : File :=
  { type := d.type, major := d.major, minor := d.minor, nlink := d.nlink, size := d.size.toNat,
    data := data }

/-- Inode `i`, if it is allocated. -/
def Fs.file (s : Fs) (i : Nat) : Option File :=
  if Live s.sb s.dinode i then
    some ((s.dinode i).file (content s.sb s.blocks s.dinode i))
  else none

/-- The inode cache has every inode once, and a valid copy is as on the disk. -/
structure Cached (s : Fs) : Prop where
  valid : ∀ k < NINODE, 0 < (s.icache k).ref → (s.icache k).valid = true →
    Live s.sb s.dinode (s.icache k).inum ∧ (s.icache k).din = s.dinode (s.icache k).inum
  unique : ∀ k < NINODE, ∀ k' < NINODE, 0 < (s.icache k).ref → 0 < (s.icache k').ref →
    (s.icache k).inum = (s.icache k').inum → k = k'
  dev : ∀ k < NINODE, 0 < (s.icache k).ref → (s.icache k).dev = ROOTDEV
  nonneg : ∀ k < NINODE, 0 ≤ (s.icache k).ref

/-- The blocks are exact, files have no holes, and the inode cache is as it should be. -/
structure Good (R : Nat → Prop) (s : Fs) : Prop extends Cached s where
  blocks : Blocks R s s.dinode
  full : ∀ i, Live s.sb s.dinode i → (s.dinode i).type ≠ T_DEV → ∀ x < (s.dinode i).size.toNat,
    held s.sb s.blocks s.dinode (i, place (x / BSIZE)) ≠ none

/-- Entry `k` of the cache is referenced, and its copy of the disk inode is valid. -/
structure InUse (s : Fs) (k : Nat) : Prop where
  lt : k < NINODE
  ref : 0 < (s.icache k).ref
  valid : (s.icache k).valid = true

section Good

variable {R : Nat → Prop} {P : Prop} {s t u : Fs} {k : Nat} {U : Finset Nat} {m : Nat}

theorem Good.view_eq (h : Good R s) (hk : InUse s k) : s.view k = s.dinode := by
  unfold Fs.view
  rw [(h.valid k hk.lt hk.ref hk.valid).2, Function.update_eq_self]

theorem Good.opened (h : Good R s) (hk : InUse s k) : Opened R s k := by
  have hv := h.view_eq hk
  refine ⟨by rw [hv]; exact h.blocks, ?_⟩
  rw [hv]
  exact (h.valid k hk.lt hk.ref hk.valid).1

/-- An edit of the inode in entry `k`: it is `d` now, in the cache and on the disk, and the other
inodes are as before. -/
structure Edit (s : Fs) (k : Nat) (d : Dinode) (u : Fs) : Prop where
  slot : ∃ B l, u = { s.withDin k d with blocks := B, lh := l }
  type : d.type ≠ 0
  dinode : ∀ i < s.sb.ninodes, u.dinode i = if i = (s.icache k).inum then d else s.dinode i
  keep : ∀ q b, held s.sb s.blocks s.dinode q = some b → held s.sb u.blocks u.dinode q = some b

section Edit

variable {d : Dinode}

theorem Edit.sb (h : Edit s k d u) : u.sb = s.sb := by
  obtain ⟨B, l, rfl⟩ := h.slot
  rfl

theorem Edit.icache (h : Edit s k d u) (k' : Nat) :
    u.icache k' = if k' = k then { s.icache k with din := d } else s.icache k' := by
  obtain ⟨B, l, rfl⟩ := h.slot
  exact Function.update_apply ..

theorem Edit.fields (h : Edit s k d u) (k' : Nat) :
    (u.icache k').ref = (s.icache k').ref ∧ (u.icache k').inum = (s.icache k').inum ∧
      (u.icache k').dev = (s.icache k').dev ∧ (u.icache k').valid = (s.icache k').valid := by
  rw [h.icache]
  split
  · grind
  · exact ⟨rfl, rfl, rfl, rfl⟩

theorem Edit.live (h : Edit s k d u) (hl : Live s.sb s.dinode (s.icache k).inum) (i : Nat) :
    Live s.sb u.dinode i ↔ Live s.sb s.dinode i := by
  unfold Live
  refine and_congr_right fun _ => and_congr_right fun hi => ?_
  rw [h.dinode i hi]
  split
  · rename_i hin
    subst hin
    exact iff_of_true h.type hl.2.2
  · exact Iff.rfl

theorem Good.edit (h : Good R s) (hk : InUse s k) (he : Edit s k d u)
    (hblocks : Blocks R u u.dinode) (hfull : d.type ≠ T_DEV → ∀ x < d.size.toNat,
      held s.sb u.blocks u.dinode ((s.icache k).inum, place (x / BSIZE)) ≠ none) : Good R u := by
  obtain ⟨hl, _⟩ := h.valid k hk.lt hk.ref hk.valid
  refine ⟨⟨fun k' hk' hr hv => ?_, fun k1 hk1 k2 hk2 hr1 hr2 hin => ?_, fun k' hk' hr => ?_,
    fun k' hk' => ?_⟩, hblocks, fun i hi hty x hx => ?_⟩
  · obtain ⟨h1, h2, _, h4⟩ := he.fields k'
    rw [h1] at hr
    rw [h4] at hv
    obtain ⟨hl', hd'⟩ := h.valid k' hk' hr hv
    rw [h2, he.sb, he.live hl, he.dinode _ hl'.2.1, he.icache]
    refine ⟨hl', ?_⟩
    by_cases hkk : k' = k
    · grind
    · grind [h.unique, hk.lt, hk.ref]
  · grind [he.fields, h.unique]
  · grind [he.fields, h.dev]
  · rw [(he.fields k').1]
    exact h.nonneg k' hk'
  · rw [he.sb] at hi ⊢
    rw [he.live hl] at hi
    rw [he.dinode i hi.2.1] at hty hx
    by_cases hin : i = (s.icache k).inum
    · grind
    · rw [if_neg hin] at hty hx
      obtain ⟨b, hb⟩ := ne_none_iff_exists'.mp (h.full i hi hty x hx)
      rw [he.keep _ b hb]
      simp

theorem Edit.file (he : Edit s k d u) (hl : Live s.sb s.dinode (s.icache k).inum)
    (data : Nat → UInt8) (hdata : ∀ i x, content s.sb u.blocks u.dinode i x =
      if i = (s.icache k).inum then data x else content s.sb s.blocks s.dinode i x) (i : Nat) :
    u.file i = if i = (s.icache k).inum then some (d.file data) else s.file i := by
  unfold Fs.file
  rw [he.sb]
  simp only [he.live hl]
  by_cases hi : Live s.sb s.dinode i
  · rw [if_pos hi, if_pos hi, he.dinode i hi.2.1]
    split
    · rename_i hin
      congr 2
      funext x
      rw [hdata, if_pos hin]
    · rename_i hin
      congr 2
      funext x
      rw [hdata, if_neg hin]
  · grind

end Edit

/-- The inode in entry `k` is file `f` now, and no other file changed. -/
structure Changed (R : Nat → Prop) (s : Fs) (k : Nat) (f : File) (u : Fs) : Prop where
  good : Good R u
  file : ∀ i, u.file i = if i = (s.icache k).inum then some f else s.file i
  slot : ∃ d B l, u = { s.withDin k d with blocks := B, lh := l }

/-! ## The disk alone -/

theorem Fs.dinode_of_disk (hsb : t.sb = s.sb) (hb : t.blocks = s.blocks) : t.dinode = s.dinode := by
  unfold Fs.dinode
  rw [hsb, hb]

theorem Blocks.of_disk (h : Blocks R s s.dinode) (hsb : t.sb = s.sb) (hb : t.blocks = s.blocks) :
    Blocks R t t.dinode := by
  have hdin := Fs.dinode_of_disk hsb hb
  have hbit : t.bit = s.bit := by
    unfold Fs.bit
    rw [hsb, hb]
  obtain ⟨hg, hsup, hres, hex⟩ := h
  refine ⟨hsb ▸ hg, by rw [hb, hsb, hsup], hsb ▸ hres, ?_⟩
  rw [hsb, hbit, hb, hdin]
  exact hex

/-- Good blocks do not depend on the inode cache. -/
theorem Good.of_disk (h : Good R s) (hsb : t.sb = s.sb) (hb : t.blocks = s.blocks)
    (hc : Cached t) : Good R t := by
  refine ⟨hc, h.blocks.of_disk hsb hb, ?_⟩
  rw [hsb, hb, Fs.dinode_of_disk hsb hb]
  exact h.full

theorem Fs.file_of_disk (hsb : t.sb = s.sb) (hb : t.blocks = s.blocks) : t.file = s.file := by
  have hdin := Fs.dinode_of_disk hsb hb
  unfold Fs.file
  rw [hsb, hb, hdin]

theorem live_of_file {f : File} {i : Nat} (h : s.file i = some f) : Live s.sb s.dinode i := by
  unfold Fs.file at h
  split at h
  · assumption
  · cases h

/-! ## Reading and writing -/

section Writei

variable {f : File} {src : Nat → UInt8} {off n : Nat}

theorem Good.byte_eq (h : Good R s) (hk : InUse s k) (i x : Nat) :
    s.byte k i x = content s.sb s.blocks s.dinode i x := by
  unfold Fs.byte
  rw [h.view_eq hk]

theorem Good.places_eq (h : Good R s) (hk : InUse s k) (q : Nat × Place) :
    s.places k q = held s.sb s.blocks s.dinode q := by
  unfold Fs.places
  rw [h.view_eq hk]

/-- The file in an entry. -/
theorem Good.file_eq (h : Good R s) (hk : InUse s k) : s.file (s.icache k).inum =
    some ((s.icache k).din.file (s.byte k (s.icache k).inum)) := by
  obtain ⟨hl, hd⟩ := h.valid k hk.lt hk.ref hk.valid
  unfold Fs.file
  rw [if_pos hl, hd, funext (h.byte_eq hk _)]

theorem Good.whole (h : Good R s) (hk : InUse s k) (hf : s.file (s.icache k).inum = some f)
    (hty : f.type ≠ T_DEV) : Whole R s k := by
  obtain ⟨hl, hdin⟩ := h.valid k hk.lt hk.ref hk.valid
  rw [h.file_eq hk] at hf
  obtain rfl := some.inj hf
  refine ⟨h.opened hk, hty, fun x hx => ?_⟩
  rw [h.places_eq hk]
  apply h.full _ hl
  · rw [← hdin]
    exact hty
  · rwa [← hdin]

/-- If every block was there, then the loop of `writei` leaves what is held. -/
theorem Written.same_places (hw : Written R s k src off n t) (ho : Opened R s k)
    (hthere : ∀ x, off ≤ x → x < off + n →
      s.places k ((s.icache k).inum, place (x / BSIZE)) ≠ none) (q : Nat × Place) :
    t.places k q = s.places k q := by
  cases hp : s.places k q with
  | some b => exact hw.keep q b hp
  | none =>
    cases hp' : t.places k q with
    | none => rfl
    | some b =>
      exfalso
      obtain ⟨i, p⟩ := q
      obtain ⟨rfl, x, hx1, hx2, hx3⟩ := hw.fresh _ b hp hp'
      rcases hx3 with rfl | ⟨hind, rfl⟩
      · exact hthere x hx1 hx2 hp
      · -- an entry of the indirect block was there, so that block was
        have hx := hthere x hx1 hx2
        rw [ho.places_self, show place (x / BSIZE) = .entry (x / BSIZE - NDIRECT) from
          if_neg (Nat.not_lt.mpr hind)] at hx
        have hz : (s.icache k).din.addr NDIRECT ≠ 0 := by
          intro h0
          simp [Dinode.holds, h0] at hx
        rw [ho.places_indirect hz] at hp
        cases hp

theorem nonzero_inj {a b : Nat} (h : nonzero a = nonzero b) : a = b := by
  unfold nonzero at h
  split at h <;> split at h <;> simp_all

/-- ... and with it the addresses. -/
theorem Written.same_din (hw : Written R s k src off n t) (ho : Opened R s k)
    (hsame : ∀ q, t.places k q = s.places k q) : t.icache = s.icache := by
  have hplace : ∀ i ≤ NDIRECT, (t.icache k).din.addr i = (s.icache k).din.addr i := by
    intro i hi
    have hq := hsame ((s.icache k).inum, .addr i)
    rw [ho.places_self, ← hw.slot.inum, hw.opened.places_self] at hq
    simp only [Dinode.holds, if_pos hi] at hq
    exact nonzero_inj hq
  obtain ⟨as, B, l, rfl⟩ := hw.slot
  have has : as = (s.icache k).din.addrs := by
    funext i
    apply UInt32.toNat_inj.mp
    have := hplace i (Nat.le_of_lt_succ i.isLt)
    simpa [Dinode.addr, Fs.withDin] using this
  subst has
  exact Function.update_eq_self ..

/-- The copy and the disk inode are one after `writei`, if they were one before. -/
theorem Wrote.view (h : Good R s) (hk : InUse s k) (hwhole : Whole R s k)
    (hw : Wrote R s k src off n u) : u.view k = u.dinode := by
  rcases hw with ⟨hle, hw⟩ | ⟨_, t, hw, hst⟩
  · obtain ⟨hl, hdin⟩ := h.valid k hk.lt hk.ref hk.valid
    have hplaces := hw.same_places hwhole.opened fun x _ hx => hwhole.full x (by omega)
    unfold Fs.view
    rw [hw.same_din hwhole.opened hplaces, hdin, ← hw.dinode _ hl.2.1, Function.update_eq_self]
  · exact (view_stored hw.opened hst).2

theorem Wrote.changed (h : Good R s) (hk : InUse s k) (hf : s.file (s.icache k).inum = some f)
    (hty : f.type ≠ T_DEV) (hoff : off ≤ f.size) (hlt : off + n < 2 ^ 32)
    (hw : Wrote R s k src off n u) : Changed R s k (f.write off n src) u := by
  obtain ⟨hl, hdin⟩ := h.valid k hk.lt hk.ref hk.valid
  have hwhole := h.whole hk hf hty
  have hview := hw.view h hk hwhole
  rw [h.file_eq hk] at hf
  obtain rfl := some.inj hf
  obtain ⟨hwhole', hr⟩ := hw.whole hwhole hoff hlt
  obtain ⟨as, sz, hfields⟩ := hr.fields
  obtain ⟨d, B, l, hslot⟩ := hr.slot
  have hself : u.icache k = { s.icache k with din := d } := by
    rw [hslot]
    exact Function.update_self ..
  have hd : (u.icache k).din = d := by rw [hself]
  have hin : (u.icache k).inum = (s.icache k).inum := by rw [hself]
  have hsb : u.sb = s.sb := by rw [hslot]; rfl
  have hheld : ∀ q, held s.sb u.blocks u.dinode q = u.places k q := fun q => by
    unfold Fs.places
    rw [hview, hsb]
  have he : Edit s k d u := by
    refine ⟨⟨B, l, hslot⟩, ?_, fun i hi => ?_, fun q b hq => ?_⟩
    · rw [← hd, hfields]
      exact hwhole.opened.type_ne
    · split
      · rename_i hi'
        rw [hi', ← hin, ← hview, view_self, hd]
      · rename_i hi'
        exact hr.dinode i hi hi'
    · grind [h.places_eq, hw.keep]
  refine ⟨h.edit hk he (by rw [← hview]; exact hwhole'.opened.blocks) (fun _ x hx => ?_),
    fun i => ?_, ⟨d, B, l, hslot⟩⟩
  · rw [hheld, ← hin]
    exact hwhole'.full x (by rwa [hd])
  · rw [he.file hl (((s.icache k).din.file (s.byte k (s.icache k).inum)).write off n src).data
      fun i x => ?_]
    · refine if_congr Iff.rfl (congrArg some ?_) rfl
      have hsize := hr.size
      rw [hd] at hsize hfields
      unfold Dinode.file File.write
      rw [hsize, hfields]
    · have hbyte := hr.byte i x
      unfold Fs.byte at hbyte
      rw [hview, hsb] at hbyte
      rw [hbyte]
      by_cases hi : i = (s.icache k).inum
      · subst hi
        simp only [true_and, if_true]
        rfl
      · grind [h.view_eq]

theorem Good.writei (h : Good R s) (hk : InUse s k) (hf : s.file (s.icache k).inum = some f)
    (hty : f.type ≠ T_DEV) (hoff : off ≤ f.size) (hmax : off + n ≤ MAXFILE * BSIZE)
    (hb : Budget P s k U (spanned off n + m)) (hU : P → IBLOCK (s.icache k).inum s.sb ∈ U) :
    spec (writei k src off n) s
      (fun r s' => r = n ∧ Changed R s k (f.write off n src) s' ∧ ∃ U', U ⊆ U' ∧ Enough P s' U' m)
      (fun e _ => e.full ∧ ¬ P) := by
  have hwhole := h.whole hk hf hty
  have hsize : f.size = (s.icache k).din.size.toNat := by
    rw [h.file_eq hk] at hf
    exact (congrArg File.size (some.inj hf)).symm
  apply spec_mono (writei_spec hwhole.opened hwhole.type (hsize ▸ hoff) hmax hb hU) _
    (fun _ _ he => he)
  rintro r u ⟨rfl, hw, henough⟩
  refine ⟨rfl, hw.changed h hk hf hty hoff ?_, henough⟩
  simp only [MAXFILE, NDIRECT, NINDIRECT, BSIZE] at hmax
  omega

/-- The bytes of the file from `off` on, `n` of them if there are so many. -/
def File.read (f : File) (off n : Nat) : List UInt8 := slice f.data off (min (off + n) f.size - off)

theorem slice_write_self (f : File) (off len : Nat) (src : Nat → UInt8) :
    slice (f.write off len src).data off len = (List.range len).map src := by
  refine List.map_congr_left fun x hx => ?_
  have := List.mem_range.mp hx
  simp only [File.write]
  rw [if_pos ⟨by omega, by omega⟩, Nat.add_sub_cancel_left]

theorem slice_write_other {f : File} {off len off' len' : Nat} {src : Nat → UInt8}
    (h : off' + len' ≤ off ∨ off + len ≤ off') :
    slice (f.write off len src).data off' len' = slice f.data off' len' := by
  refine List.map_congr_left fun x hx => ?_
  have := List.mem_range.mp hx
  simp only [File.write]
  exact if_neg fun hc => by omega

theorem Good.readi (h : Good R s) (hk : InUse s k) (hf : s.file (s.icache k).inum = some f)
    (hty : f.type ≠ T_DEV) (hoff : off ≤ f.size) (hmax : off + n < 2 ^ 32)
    {Q : Option (List UInt8) → Fs → Prop} {E : Stop → Fs → Prop} (hQ : Q (some (f.read off n)) s) :
    spec (readi k off n) s Q E := by
  have hwhole := h.whole hk hf hty
  rw [h.file_eq hk] at hf
  obtain rfl := some.inj hf
  exact readi_spec hwhole hoff hmax hQ

end Writei

end Good

end xv6.fs
