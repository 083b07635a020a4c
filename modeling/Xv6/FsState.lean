-- The file system as a pair: the files, and the entries of the inode cache. There is one law for
-- each function of fs.c that works on inodes. It says what the function does to the pair, and that
-- no inode gets a block that its size does not ask for.
import Xv6.Dir
import Xv6.FsCache
import Xv6.FsLogged

open Option Function bytes WP

namespace xv6.fs

/-! ## Blocks that a size asks for -/

/-- Where the bytes of a block begin in the file. The indirect block comes
before those behind it. -/
def Place.start : Place → Nat
  | .addr j => j * BSIZE
  | .entry j => (NDIRECT + j) * BSIZE

/-- No inode holds a block that its size does not ask for. -/
def Tight (s : Fs) : Prop :=
  ∀ i, Live s.sb s.dinode i → (s.dinode i).type ≠ T_DEV →
    ∀ p b, held s.sb s.blocks s.dinode (i, p) = some b → p.start < (s.dinode i).size.toNat

theorem start_place (bn : Nat) : (place bn).start = bn * BSIZE := by
  unfold place
  split
  · rfl
  · rw [Place.start, Nat.add_sub_of_le (by omega)]

theorem start_le {x : Nat} {p : Place} (h : mapPlaces (x / BSIZE) p) : p.start ≤ x := by
  have hx := Nat.div_mul_le_self x BSIZE
  rcases h with rfl | ⟨hind, rfl⟩
  · rwa [start_place]
  · exact (Nat.mul_le_mul_right BSIZE hind).trans hx

section Tight

variable {R : Nat → Prop} {s t u : Fs} {k i off n : Nat} {e : Entry} {f : File}

theorem Tight.of_sameDisk (h : Tight s) (hs : SameDisk s u) : Tight u := by
  obtain ⟨c, rfl⟩ := hs
  exact h

/-- What is held was held, or it is asked for. -/
theorem Tight.mono (h : Tight s) (hsb : u.sb = s.sb)
    (hheld : ∀ i p b, held s.sb u.blocks u.dinode (i, p) = some b →
      p.start < (u.dinode i).size.toNat ∨ held s.sb s.blocks s.dinode (i, p) = some b ∧
        (u.dinode i).type = (s.dinode i).type ∧
        (s.dinode i).size ≤ (u.dinode i).size) : Tight u := by
  intro i hl hty p b hb
  rw [hsb] at hl hb
  rcases hheld i p b hb with h1 | ⟨hold, hsame, hle⟩
  · exact h1
  · rw [hsame] at hty
    exact (h i (held_eq_some.mp hold).1 hty p b hold).trans_le (UInt32.le_iff_toNat_le.mp hle)

/-- One inode holds nothing, and the others are as before. -/
theorem Tight.apart (h : Tight s) (hb : Blocks R s s.dinode) (ha : Apart s i u)
    (hi : ∀ p, held s.sb u.blocks u.dinode (i, p) = none) : Tight u := by
  refine h.mono ha.sb fun j p b hjb => ?_
  by_cases hj : j = i
  · rw [hj, hi] at hjb
    cases hjb
  · have hlt := (held_eq_some.mp hjb).1.2.1
    rw [ha.held hb hj] at hjb
    rw [ha.dinode j hlt hj]
    exact Or.inr ⟨hjb, rfl, UInt32.le_refl _⟩

theorem Wrote.tight {src : Nat → UInt8} (hg : Good R s) (hk : InUse s k) (ht : Tight s)
    (hwhole : Whole R s k) (hoff : off ≤ (s.icache k).din.size.toNat) (hlt : off + n < 2 ^ 32)
    (hw : Wrote R s k src off n u) : Tight u := by
  have hview := hw.view hg hk hwhole
  have hsize := (hw.whole hwhole hoff hlt).2
  obtain ⟨t, hwt, hplaces, _, hin, hsb⟩ := hw.places
  have hself : u.dinode (s.icache k).inum = (u.icache k).din := by
    rw [← hview, ← hin, view_self]
  have hsizes : (s.dinode (s.icache k).inum).size.toNat ≤ (u.icache k).din.size.toNat ∧
      off + n ≤ (u.icache k).din.size.toNat := by
    rw [hsize.size, ← (hg.valid k hk.lt hk.ref hk.valid).2]
    omega
  refine ht.mono hsb fun j p b hb => ?_
  have hu : u.places k (j, p) = some b := by
    unfold Fs.places
    rw [hview, hsb]
    exact hb
  rw [hplaces] at hu
  cases hs : s.places k (j, p) with
  | none =>
    obtain ⟨rfl, x, _, hx, hmap⟩ := hwt.fresh _ b hs hu
    left
    rw [hself]
    have hstart : p.start ≤ x := start_le hmap
    omega
  | some c =>
    obtain rfl := some.inj ((hwt.keep _ c hs).symm.trans hu)
    rw [hg.places_eq hk] at hs
    refine Or.inr ⟨hs, ?_⟩
    by_cases hj : j = (s.icache k).inum
    · obtain ⟨as, sz, hfields⟩ := hsize.fields
      rw [hj, hself, UInt32.le_iff_toNat_le]
      exact ⟨by rw [hfields, (hg.valid k hk.lt hk.ref hk.valid).2], hsizes.1⟩
    · rw [hsize.dinode j (held_eq_some.mp hb).1.2.1 hj]
      exact ⟨rfl, UInt32.le_refl _⟩

theorem writei_tight {src : Nat → UInt8} (hg : Good R s) (ht : Tight s) (he : s.entry k = some e)
    (hv : e.valid = true) (hf : s.file e.inum = some f) (hty : f.type ≠ T_DEV) (hoff : off ≤ f.size)
    (hmax : off + n ≤ MAXFILE * BSIZE) :
    spec (writei k src off n) s (fun _ u => Tight u) (fun _ _ => True) := by
  have hk := Good.inUse he hv
  obtain ⟨_, _, rfl⟩ := entry_eq_some.mp he
  have hwhole := hg.whole hk hf hty
  have hsize : f.size = (s.icache k).din.size.toNat := by
    rw [hg.file_eq hk] at hf
    exact (congrArg File.size (some.inj hf)).symm
  apply spec_mono (writei_spec (P := False) (U := ∅) (m := 0) hwhole.opened hwhole.type
    (hsize ▸ hoff) hmax (Or.inl (noRoom ..)) False.elim) _ (fun _ _ _ => trivial)
  rintro _ u ⟨_, hw, _⟩
  refine hw.tight hg hk ht hwhole (hsize ▸ hoff) ?_
  simp only [MAXFILE, NDIRECT, NINDIRECT, BSIZE] at hmax
  omega

theorem update_tight (hg : Good R s) (ht : Tight s) (he : s.entry k = some e) (hv : e.valid = true)
    (g : Dinode → Dinode) (h3 : ∀ d, (g d).type = d.type ∧ (g d).size = d.size ∧
      (g d).addrs = d.addrs) :
    spec (do setDin k g; iupdate k) s (fun _ u => Tight u) (fun _ _ => True) := by
  have hk := Good.inUse he hv
  obtain ⟨hl, hdin⟩ := hg.valid k hk.lt hk.ref hk.valid
  obtain ⟨h1, h2, h3⟩ := h3 (s.icache k).din
  have ho := hg.opened hk
  rw [spec_bind, spec_setDin]
  apply spec_mono (store_spec (P := False) (U := ∅) (m := 0) ho _ False.elim (noRoom ..)) _
    (fun _ _ _ => trivial)
  rintro _ u ⟨hst, _⟩
  have hne : (g (s.icache k).din).type ≠ 0 := h1 ▸ ho.type_ne
  refine ht.mono hst.frame.sb fun j p b hb => Or.inr ?_
  have hlt := (held_eq_some.mp hb).1.2.1
  rw [held_stored ho h3 hne hst, hg.places_eq hk] at hb
  rw [hst.dinode j hlt]
  split
  · rename_i hj
    rw [hj] at hb ⊢
    rw [h1, h2, hdin]
    exact ⟨hb, rfl, UInt32.le_refl _⟩
  · exact ⟨hb, rfl, UInt32.le_refl _⟩

theorem iallocFrom_tight (hg : Good R s) (ht : Tight s) (type : UInt16) (m : Nat) : ∀ i, 0 < i →
    i + m ≤ s.sb.ninodes → spec (iallocFrom ROOTDEV type m i) s (fun _ u => Tight u)
    (fun _ _ => True) := by
  induction m with
  | zero => exact fun _ _ _ => (spec_throw _).mpr trivial
  | succ m ih =>
    intro i hpos hle
    rw [iallocFrom]
    simp only [bread, spec_bind, spec_get, spec_pure, spec_ite]
    refine ⟨fun h0 => ?_, fun _ => ih (i + 1) (by omega) (by omega)⟩
    apply spec_mono (log_write_logs _ _) _ (fun _ _ _ => trivial)
    rintro _ t rfl
    have hst := stored_logged hg.blocks.geometry (show i < s.sb.ninodes by omega)
      { Dinode.zero with type := type }
    refine spec_mono (quiet_iget ROOTDEV i _) (fun _ u hs => ?_) (fun _ _ _ => trivial)
    refine (ht.apart hg.blocks hst.apart fun p => ?_).of_sameDisk hs
    unfold held
    rw [hst.dinode i (by omega), if_pos rfl]
    split
    · exact holds_none (fun _ _ => rfl) p
    · rfl

theorem ialloc_tight (hg : Good R s) (ht : Tight s) (type : UInt16) :
    spec (ialloc ROOTDEV type) s (fun _ u => Tight u) (fun _ _ => True) := by
  unfold ialloc
  simp only [spec_bind, spec_get]
  by_cases hn : s.sb.ninodes = 0
  · rw [hn]
    exact (spec_throw _).mpr trivial
  · exact iallocFrom_tight hg ht type _ 1 Nat.one_pos (by omega)

theorem ifree_tight (hg : Good R s) (ht : Tight s) (he : s.entry k = some e) (hv : e.valid = true) :
    spec (ifree k) s (fun _ u => Tight u) (fun _ _ => True) := by
  have hk := Good.inUse he hv
  obtain ⟨hlt, hr, rfl⟩ := entry_eq_some.mp he
  unfold ifree
  simp only [spec_bind, spec_get, spec_ite, spec_throw, spec_setInode, implies_true, true_and]
  intro _
  have h1 := (hg.sound 0).mark hlt hr (s.icache k).ref true (s.icache k).valid _ (hg.valid k hlt hr)
    (if_pos hr) (Int.le_of_lt hr)
  obtain ⟨hself, hvalid⟩ : (s.withSlot k { s.icache k with busy := true }).icache k =
      { s.icache k with busy := true } ∧ (s.icache k).valid = true := ⟨update_self .., hv⟩
  have hk1 : InUse (s.withSlot k { s.icache k with busy := true }) k :=
    ⟨hlt, by rw [hself]; exact hr, by rw [hself]; exact hvalid⟩
  apply spec_mono (itrunc_spec (h1.good.opened hk1) h1.good.tiny fun t ho hz ha hslot het => ?_)
    (fun _ _ hq => hq) (fun _ _ _ => trivial)
  simp only [spec_setDin]
  apply spec_mono (store_spec (P := False) (U := ∅) (m := 0) ho _ False.elim (noRoom ..)) _
    (fun _ _ _ => trivial)
  rintro _ u ⟨hst, _⟩
  have hem := ho.emptied hz ha hslot (d := { (t.icache k).din with type := 0 }) rfl rfl hst
  refine Tight.of_sameDisk (s := u) ?_ ⟨_, rfl⟩
  refine Tight.apart (s := s.withSlot k { s.icache k with busy := true }) ht
    h1.good.blocks hem.apart (held_free hem.type)

theorem iput_tight (hg : Good R s) (ht : Tight s) (he : s.entry k = some e) :
    spec (iput k) s (fun _ u => Tight u) (fun _ _ => True) := by
  unfold iput
  simp only [spec_bind, spec_get, spec_ite, spec_setInode]
  refine ⟨fun hlast => ?_, fun _ => ht.of_sameDisk ⟨_, rfl⟩⟩
  have hv : e.valid = true := by
    obtain ⟨_, _, rfl⟩ := entry_eq_some.mp he
    exact hlast.2.1
  refine spec_mono (ifree_tight hg ht he hv) (fun _ u hu => ?_) (fun _ _ h => h)
  exact hu.of_sameDisk ⟨_, rfl⟩

end Tight

/-! ## Files and entries -/

/-- The state stands for the files `F` and the entries `C`, on a disk with `n` inodes. If `T` holds,
then no inode has a block too many. -/
structure Stands (R : Nat → Prop) (T : Prop) (n : Nat) (F : Nat → Option File)
    (C : Nat → Option Entry) (s : Fs) : Prop where
  good : Good R s
  tight : T → Tight s
  ninodes : s.sb.ninodes = n
  file : s.file = F
  entry : s.entry = C

/-- The file with other fields. -/
def File.set (g : dir.Fields → dir.Fields) (f : File) : File :=
  let x := g { major := f.major, minor := f.minor, nlink := f.nlink }
  { f with major := x.major, minor := x.minor, nlink := x.nlink }

section Stands

variable {α : Type} {R : Nat → Prop} {T : Prop} {n : Nat} {F F' : Nat → Option File}
  {C C' : Nat → Option Entry} {s u : Fs} {k i off len : Nat} {e : Entry} {f : File}
  {E : Stop → Fs → Prop}

theorem Good.stands (h : Good R s) (ht : T → Tight s) : Stands R T s.sb.ninodes s.file s.entry s :=
  ⟨h, ht, rfl, rfl, rfl⟩

theorem Stands.shift (h : Stands R T n F C s) (hsh : Shift R False 0 s F' C' u) (ht : T → Tight u) :
    Stands R T n F' C' u :=
  ⟨hsh.good.toGood, ht, hsh.kept.sb ▸ h.ninodes, hsh.file, hsh.entry⟩

/-- A law of the pair, and one of the blocks that sizes ask for. -/
theorem Stands.law {x : FsM α} {P Q : α → Fs → Prop} {D : Stop → Fs → Prop} (h : Stands R T n F C s)
    (hx : spec x s P D) (ht : Tight s → spec x s (fun _ u => Tight u) fun _ _ => True)
    (hQ : ∀ a u, P a u → (T → Tight u) → Q a u) (hE : ∀ e u, D e u → E e u) : spec x s Q E := by
  by_cases hT : T
  · exact spec_mono (spec_and hx (ht (h.tight hT))) (fun a u hu => hQ a u hu.1 fun _ => hu.2)
      fun e u hu => hE e u hu.1
  · exact spec_mono hx (fun a u hu => hQ a u hu fun hT' => absurd hT' hT) hE

theorem Quiet.tight {x : FsM α} (h : Quiet x) (ht : Tight s) :
    spec x s (fun _ u => Tight u) fun _ _ => True :=
  spec_mono (h s) (fun _ _ hu => ht.of_sameDisk hu) fun _ _ _ => trivial

variable {Q : Unit → Fs → Prop}

theorem Stands.begin_op (h : Stands R T n F C s) (hQ : ∀ u, Stands R T n F C u → Q () u)
    (hE : E .sleeps s) : spec begin_op s Q E := by
  unfold fs.begin_op
  simp only [spec_bind, spec_get, spec_ite, spec_throw, spec_modify]
  refine ⟨fun _ => hE, fun _ => hQ _ ⟨h.good.of_disk rfl rfl ?_, h.tight, h.ninodes,
    h.file, h.entry⟩⟩
  exact ⟨h.good.valid, h.good.unique, h.good.dev, h.good.nonneg⟩

theorem Stands.end_op (h : Stands R T n F C s) (hQ : ∀ u, Stands R T n F C u → Q () u) :
    spec end_op s Q E := by
  unfold fs.end_op
  rw [spec_modify]
  have hcache : Cached s := h.good.toCached
  apply hQ
  split
  · exact ⟨h.good.of_disk rfl rfl ⟨hcache.valid, hcache.unique, hcache.dev, hcache.nonneg⟩, h.tight,
      h.ninodes, h.file, h.entry⟩
  · exact ⟨h.good.of_disk rfl rfl ⟨hcache.valid, hcache.unique, hcache.dev, hcache.nonneg⟩, h.tight,
      h.ninodes, h.file, h.entry⟩

theorem Stands.iget (h : Stands R T n F C s) (i : Nat) {Q : Nat → Fs → Prop}
    (hQ : ∀ k u, Spot C i k → Stands R T n F (update C k (some (grab i (C k)))) u → Q k u)
    (hE : spot C i = none → E (.panic "iget: no inodes") s) : spec (iget ROOTDEV i) s Q E := by
  refine h.law (iget_spec (h.good.sound 0) i) (quiet_iget ROOTDEV i).tight (fun k u hu ht => ?_)
    fun x u hx => ?_
  · rw [h.entry, h.file] at hu
    exact hQ k u (spot_spec hu.1) (h.shift hu.2 ht)
  · obtain ⟨rfl, hno, rfl⟩ := hx
    exact hE (h.entry ▸ hno)

theorem Stands.idup (h : Stands R T n F C s) (he : C k = some e) {Q : Nat → Fs → Prop}
    (hQ : ∀ u, Stands R T n F (update C k (some { e with ref := e.ref + 1 })) u → Q k u) :
    spec (idup k) s Q E := by
  refine h.law (idup_spec (E := fun _ _ => False) (h.good.sound 0) (h.entry ▸ he))
    (quiet_idup k).tight (fun k' u hu ht => ?_) fun _ _ hx => hx.elim
  obtain ⟨rfl, hu⟩ := hu
  rw [h.entry, h.file] at hu
  exact hQ u (h.shift hu ht)

theorem Stands.ilock (h : Stands R T n F C s) (he : C k = some e) (hi : 0 < e.inum ∧ e.inum < n)
    (hQ : ∀ u f, e.busy = false → F e.inum = some f →
      Stands R T n F (update C k (some { e with busy := true, valid := true })) u → Q () u)
    (hE : ∀ x u,
      x = .sleeps ∧ e.busy = true ∨ x = .panic "ilock: no type" ∧ F e.inum = none → E x u) :
    spec (ilock k) s Q E := by
  refine h.law (ilock_spec (h.good.sound 0) (h.entry ▸ he) hi.1 (h.ninodes ▸ hi.2))
    (quiet_ilock k).tight (fun _ u hu ht => ?_) fun x u hx => ?_
  · obtain ⟨hb, ⟨f, hf⟩, hu⟩ := hu
    rw [h.file] at hf
    rw [h.entry, h.file] at hu
    exact hQ u f hb hf (h.shift hu ht)
  · rw [h.file] at hx
    exact hE x u (hx.imp_right fun hx => ⟨hx.1, hx.2.2⟩)

theorem Stands.iunlock (h : Stands R T n F C s) (he : C k = some e) (hb : e.busy = true)
    (hQ : ∀ u, Stands R T n F (update C k (some { e with busy := false })) u → Q () u) :
    spec (iunlock k) s Q E := by
  refine h.law (iunlock_spec (E := fun _ _ => False) (h.good.sound 0) (h.entry ▸ he) hb)
    (quiet_iunlock k).tight (fun _ u hu ht => ?_) fun _ _ hx => hx.elim
  rw [h.entry, h.file] at hu
  exact hQ u (h.shift hu ht)

theorem Stands.iput (h : Stands R T n F C s) (he : C k = some e)
    (hQ : ∀ u, Stands R T n (if dead F e then update F e.inum none else F) (update C k (drop e)) u →
      Q () u) (hE : ∀ x u, x.full ∨ x = .panic "iput busy" → E x u) : spec (iput k) s Q E := by
  refine h.law (iput_spec (h.good.sound 0) (h.entry ▸ he)) (iput_tight h.good · (h.entry ▸ he))
    (fun _ u hu ht => ?_) fun x u hx => hE x u (hx.imp And.left And.left)
  rw [h.entry, h.file] at hu
  exact hQ u (h.shift hu.2 ht)

/-- `iput` of an inode that stays does nothing but count. -/
theorem Stands.iput_live (h : Stands R T n F C s) (he : C k = some e) (hd : dead F e = false)
    (hQ : ∀ u, Stands R T n F (update C k (drop e)) u → Q () u) :
    spec (fs.iput k) s Q E := by
  have hlive : spec (fs.iput k) s (fun _ _ => True) (fun _ _ => False) := by
    have hiff := h.good.dead_iff (h.entry ▸ he : s.entry k = some e)
    rw [h.file, hd] at hiff
    unfold fs.iput
    simp only [spec_bind, spec_get, spec_ite, spec_setInode, implies_true, and_true]
    exact fun hlast => absurd (hiff.mpr hlast) (by simp)
  have hput := h.iput he (Q := fun _ u => Stands R T n F (update C k (drop e)) u)
    (E := fun _ _ => True) (fun u hu => by rwa [if_neg (by simp [hd])] at hu) fun _ _ _ => trivial
  exact spec_mono (spec_and hput hlive) (fun _ u hu => hQ u hu.1) fun _ _ hx => hx.2.elim

theorem Stands.ialloc (h : Stands R T n F C s) {type : UInt16} (hty : type ≠ 0)
    {Q : Nat → Fs → Prop} (hQ : ∀ k i u, freeInode F 1 (n - 1) = some i → Spot C i k →
      Stands R T n (update F i (some (File.new type))) (update C k (some (grab i (C k)))) u →
      Q k u)
    (hE : ∀ x u, x.full ∨ x = .panic "ialloc: no inodes" ∨ x = .panic "iget: no inodes" → E x u) :
    spec (ialloc ROOTDEV type) s Q E := by
  refine h.law (ialloc_spec (h.good.sound 0) hty) (ialloc_tight h.good · type) (fun k u hu ht => ?_)
    fun x u hx => hE x u (hx.imp And.left (Or.imp And.left And.left))
  obtain ⟨i, hfree, hspot, hu⟩ := hu
  rw [h.file, h.ninodes] at hfree
  rw [h.entry] at hspot
  rw [h.entry, h.file] at hu
  exact hQ k i u hfree (spot_spec hspot) (h.shift hu ht)

theorem Stands.readi (h : Stands R T n F C s) (he : C k = some e) (hv : e.valid = true)
    (hf : F e.inum = some f) (hty : f.type ≠ T_DEV) (hoff : off ≤ f.size)
    (hmax : off + len < 2 ^ 32) {Q : Option (List UInt8) → Fs → Prop}
    (hQ : Q (some (f.read off len)) s) :
    spec (readi k off len) s Q E :=
  readi_shift (h.good.sound 0) (h.entry ▸ he) hv (h.file ▸ hf) hty hoff hmax hQ

theorem Stands.size_le (h : Stands R T n F C s) (he : C k = some e) (hv : e.valid = true)
    (hf : F e.inum = some f) (hty : f.type ≠ T_DEV) : f.size ≤ MAXFILE * BSIZE := by
  have he' : s.entry k = some e := h.entry ▸ he
  have hk := Good.inUse he' hv
  obtain ⟨_, _, rfl⟩ := entry_eq_some.mp he'
  rw [← h.file] at hf
  have hw := h.good.whole hk hf hty
  rw [h.good.file_eq hk] at hf
  rw [← some.inj hf]
  exact le_of_full hw.full

/-- The bytes are written, or there is no room for them in a file and nothing changes. Inside a
transaction with room the kernel does not stop. -/
theorem Stands.writei {src : Nat → UInt8} (h : Stands R T n F C s) (he : C k = some e)
    (hv : e.valid = true) (hf : F e.inum = some f) (hty : f.type ≠ T_DEV) (hlen : len < 2 ^ 32)
    {Q : Int → Fs → Prop} (hQ : ∀ u, off ≤ f.size → off + len ≤ MAXFILE * BSIZE →
      Stands R T n (update F e.inum (some (f.write off len src))) C u → Q len u)
    (hno : ¬ (off ≤ f.size ∧ off + len ≤ MAXFILE * BSIZE) → Q (-1) s)
    (hE : ∀ x u, x.full → ¬ RoomFor s (spanned off len) → E x u) :
      spec (writei k src off len) s Q E := by
  have he' : s.entry k = some e := h.entry ▸ he
  have hf' : s.file e.inum = some f := h.file ▸ hf
  by_cases hc : off ≤ f.size ∧ off + len ≤ MAXFILE * BSIZE
  · have hk := Good.inUse he' hv
    have hroom : spec (fs.writei k src off len) s (fun _ _ => True)
        fun x _ => x.full ∧ ¬ RoomFor s (spanned off len) := by
      have hinum : e.inum = (s.icache k).inum := by
        obtain ⟨_, _, rfl⟩ := entry_eq_some.mp he'
        rfl
      exact spec_mono (h.good.writei (m := 0) hk (hinum ▸ hf') hty hc.1 hc.2
        (budget_of_room s k _ _)
        fun _ => Finset.mem_insert_self ..) (fun _ _ _ => trivial) fun _ _ hx => hx
    refine h.law (spec_and (writei_shift (m := 0) (h.good.sound _) he' hv hf' hty hc.1 hc.2) hroom)
      (writei_tight h.good · he' hv hf' hty hc.1 hc.2) (fun r u hu ht => ?_)
      fun x u hx => hE x u hx.2.1 hx.2.2
    obtain ⟨⟨rfl, hu⟩, -⟩ := hu
    rw [h.entry, h.file] at hu
    exact hQ u hc.1 hc.2 (h.shift hu ht)
  · have hsize := h.size_le he hv hf hty
    have hk := Good.inUse he' hv
    obtain ⟨_, _, rfl⟩ := entry_eq_some.mp he'
    rw [h.good.file_eq hk] at hf'
    obtain rfl := some.inj hf'
    have hdin : ((s.icache k).din.file (s.byte k (s.icache k).inum)).size =
        (s.icache k).din.size.toNat := rfl
    rw [hdin] at hc hsize
    unfold fs.writei
    simp only [spec_bind, spec_get]
    rw [if_neg (show (s.icache k).din.type ≠ T_DEV from hty)]
    simp only [spec_ite, spec_pure]
    refine ⟨fun _ => hno hc, fun h1 => ⟨fun _ => hno hc, fun h2 => ?_⟩⟩
    simp only [uint, MAXFILE, NDIRECT, NINDIRECT, BSIZE] at hc h1 h2 hsize
    omega

theorem Stands.stat (h : Stands R T n F C s) (he : C k = some e) {Q : dir.Stat → Fs → Prop}
    (hQ : ∀ st : dir.Stat, st.dev = ROOTDEV → st.inum = e.inum →
      (∀ f, e.valid = true → F e.inum = some f → st.type = f.type ∧ st.nlink = f.nlink ∧
        st.size = f.size) → Q st s) : spec (stat k) s Q E := by
  have he' : s.entry k = some e := h.entry ▸ he
  unfold fs.stat
  simp only [spec_bind, spec_get, spec_pure]
  have hin := Good.inUse he'
  obtain ⟨hk, hr, rfl⟩ := entry_eq_some.mp he'
  refine hQ _ (h.good.dev k hk hr) rfl fun f hv hf => ?_
  rw [← h.file, h.good.file_eq (hin hv)] at hf
  obtain rfl := some.inj hf
  exact ⟨rfl, rfl, rfl⟩

theorem Stands.update (h : Stands R T n F C s) (he : C k = some e) (hv : e.valid = true)
    (hf : F e.inum = some f) (g : dir.Fields → dir.Fields)
    (hQ : ∀ u, Stands R T n (update F e.inum (some (f.set g))) C u → Q () u)
    (hE : ∀ x u, x.full → E x u) : spec (dir.Inodes.update k g : FsM Unit) s Q E := by
  have he' : s.entry k = some e := h.entry ▸ he
  have hset : ∀ d : Dinode, d.file f.data = f → (Dinode.set g d).file f.data = f.set g :=
    fun d hd => by rw [← hd]; rfl
  refine h.law (update_spec (h.good.sound 0) he' hv (h.file ▸ hf) (Dinode.set g)
    (fun _ => ⟨rfl, rfl, rfl⟩) hset)
    (update_tight h.good · he' hv (Dinode.set g) fun _ => ⟨rfl, rfl, rfl⟩)
    (fun _ u hu ht => ?_) fun x u hx => hE x u hx.1
  rw [h.entry, h.file] at hu
  exact hQ u (h.shift hu ht)

end Stands

end xv6.fs
