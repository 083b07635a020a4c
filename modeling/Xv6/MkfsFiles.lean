-- The files that mkfs writes. The laws of its functions: after each of them the image is a good
-- file system with a list of files.
import Mathlib.Data.List.GetD
import Xv6.MkfsImage

open Function bytes WP

namespace xv6.mkfs

open fs

/-! ## The files of an image -/

/-- A file of the image: what it is and what it has in it. -/
structure Item where
  type : UInt16
  bytes : List UInt8

/-- The file as the kernel sees it. -/
def Item.file (x : Item) : File :=
  { type := x.type, major := 0, minor := 0, nlink := 1, size := x.bytes.length
    data := fun a => x.bytes.getD a 0 }

/-- The files of inodes 1, 2, 3 and so on. -/
def fileAt (files : List Item) (i : Nat) : Option File :=
  if i = 0 then none else (files[i - 1]?).map Item.file

/-- The image has these files and is a good file system. -/
structure Valid (M : Image) (files : List Item) : Prop where
  ready : Ready M
  inodes : M.freeinode = files.length + 1
  count : files.length < NINODES
  good : ∀ s, Mounted M s → Cached s → Good (· < nmeta) s
  file : ∀ s, Mounted M s → ∀ i, s.file i = fileAt files i
  packed : ∀ s, Mounted M s → ∀ j x, files[j]? = some x →
    Packed (fun p => held s.sb s.blocks s.dinode (j + 1, p)) x.bytes.length
  freeblock : M.freeblock = nmeta + (files.map fun x => blocksOf x.bytes.length).sum

/-- A kernel with the image as its disk. -/
def Image.kernel (M : Image) (icache : Nat → Inode) : Fs :=
  { sb := sb, blocks := Function.update M.img sb.bmapstart (bitmap M.freeblock), logsize := nlog
    outstanding := 0, lh := [], icache := icache, devsw := fun _ => ⟨none, none⟩ }

def noInode : Inode := ⟨0, 0, 0, false, false, Dinode.zero⟩

/-- An inode cache with inode `i` in entry 0. -/
def oneInode (i : Nat) (d : Dinode) : Nat → Inode :=
  Function.update (fun _ => noInode) 0 ⟨ROOTDEV, i, 1, true, true, d⟩

section Valid

variable {M M' : Image} {files : List Item} {s t u : Fs} {j n : Nat} {x : Item} {p : Nat → UInt8}

theorem mounted_kernel (M : Image) (icache : Nat → Inode) : Mounted M (M.kernel icache) :=
  ⟨rfl, rfl⟩

theorem cached_none (M : Image) : Cached (M.kernel fun _ => noInode) := by
  have hno : ∀ {α : Prop}, 0 < noInode.ref → α := fun h => absurd h (by decide)
  exact ⟨fun _ _ h => hno h, fun _ _ _ _ h => hno h, fun _ _ h => hno h, fun _ _ => Int.le_refl 0⟩

/-- Only entry 0 has references. -/
theorem oneInode_ref {i k : Nat} {d : Dinode} (h : 0 < (oneInode i d k).ref) : k = 0 := by
  by_contra hk
  rw [oneInode, update_of_ne hk] at h
  exact absurd h (by decide)

theorem cached_one {i : Nat} (hic : s.icache = oneInode i (s.dinode i))
    (hl : Live s.sb s.dinode i) :
    Cached s := by
  refine ⟨fun k _ hr _ => ?_, fun k _ k' _ hr hr' _ => ?_, fun k _ hr => ?_, fun k _ => ?_⟩
  · rw [hic] at hr ⊢
    obtain rfl := oneInode_ref hr
    exact ⟨hl, rfl⟩
  · rw [hic] at hr hr'
    rw [oneInode_ref hr, oneInode_ref hr']
  · rw [hic] at hr ⊢
    obtain rfl := oneInode_ref hr
    rfl
  · rw [hic]
    by_cases hk : k = 0
    · subst hk
      exact Int.one_nonneg
    · rw [oneInode, update_of_ne hk]
      decide

/-- One kernel that finds the files is enough. -/
theorem Valid.of_mounted (hr : Ready M) (hin : M.freeinode = files.length + 1)
    (hcount : files.length < NINODES) (hm : Mounted M u) (hgood : Good (· < nmeta) u)
    (hfile : ∀ i, u.file i = fileAt files i) (hpacked : ∀ j x, files[j]? = some x →
      Packed (fun p => held u.sb u.blocks u.dinode (j + 1, p)) x.bytes.length)
    (hfb : M.freeblock = nmeta + (files.map fun x => blocksOf x.bytes.length).sum) :
    Valid M files := by
  refine ⟨hr, hin, hcount, fun v hv hc => ?_, fun v hv i => ?_, fun v hv j x hx => ?_, hfb⟩
  · exact hgood.of_disk (hm.same hv).1 (hm.same hv).2 hc
  · rw [Fs.file_of_disk (hm.same hv).1 (hm.same hv).2, hfile]
  · grind [hm.same, Fs.dinode_of_disk]

theorem fileAt_succ (files : List Item) (j : Nat) :
    fileAt files (j + 1) = (files[j]?).map Item.file := by
  simp [fileAt]

end Valid

/-! ## Inodes of the image -/

/-- The image with inode `i` set. -/
def Image.setInode (M : Image) (i : Nat) (d : Dinode) : Image :=
  M.put (IBLOCK i sb) (setDinode (M.img (IBLOCK i sb)) (i % IPB) d)

section Inodes

variable {M : Image} {s : Fs} {i : Nat} {d : Dinode} {E : Exit → Image → Prop}

theorem IBLOCK_lt (hi : i < NINODES) : IBLOCK i sb < nmeta ∧ IBLOCK i sb ≠ sb.bmapstart := by
  have h := geometry.IBLOCK_lt (show i < sb.ninodes from hi)
  have hm := geometry.bmapstart_lt
  rw [sb_nmeta] at hm
  omega

theorem Ready.IBLOCK_lt (hr : Ready M) (hi : i < NINODES) :
    IBLOCK i sb < M.freeblock ∧ IBLOCK i sb < FSSIZE := by
  have h := (mkfs.IBLOCK_lt hi).1
  have hlo := hr.lo
  have hhi := hr.hi
  omega

theorem spec_rinode (hr : Ready M) (hm : Mounted M s) (hi : i < NINODES)
    {Q : Dinode → Image → Prop} :
    spec (rinode i) M Q E ↔ Q (s.dinode i) M := by
  unfold rinode
  rw [spec_bind, spec_rsect_of_lt hr (hr.IBLOCK_lt hi).2, spec_pure]
  unfold Fs.dinode
  rw [hm.sb, hm.block (IBLOCK_lt hi).2]

theorem spec_winode (hr : Ready M) (hi : i < NINODES) {Q : Unit → Image → Prop} :
    spec (winode i d) M Q E ↔ Q () (M.setInode i d) := by
  unfold winode
  rw [spec_bind, spec_rsect_of_lt hr (hr.IBLOCK_lt hi).2, spec_wsect hr (hr.IBLOCK_lt hi).2]
  rfl

theorem Ready.setInode (hr : Ready M) (hi : i < NINODES) : Ready (M.setInode i d) :=
  hr.put (hr.IBLOCK_lt hi).1

/-- The kernel sees the inode stored. -/
theorem Mounted.setInode (hm : Mounted M s) (hi : i < NINODES) (d : Dinode) :
    ∃ u, Mounted (M.setInode i d) u ∧ Stored s i d u := by
  have hmu := hm.put (IBLOCK_lt hi).2 (setDinode (M.img (IBLOCK i mkfs.sb)) (i % IPB) d)
  have hst := stored_logged (s := s) (i := i) (by rw [hm.sb]; exact geometry)
    (by rw [hm.sb]; exact hi) d
  rw [hm.sb, hm.block (IBLOCK_lt hi).2] at hst
  exact ⟨_, hmu, hst⟩

end Inodes

/-! ## iappend -/

section Append

variable {M M' : Image} {files : List Item} {s t u : Fs} {j n : Nat} {x : Item} {p : Nat → UInt8}

/-- The file with `n` bytes of `p` after its end. -/
def Item.append (x : Item) (p : Nat → UInt8) (n : Nat) : Item :=
  { x with bytes := x.bytes ++ (List.range n).map p }

theorem Item.length_append (x : Item) (p : Nat → UInt8) (n : Nat) :
    (x.append p n).bytes.length = x.bytes.length + n := by
  simp [Item.append]

theorem Item.file_append (x : Item) (p : Nat → UInt8) (n : Nat) :
    x.file.write x.bytes.length n p = (x.append p n).file := by
  have hdata : ∀ a, (if x.bytes.length ≤ a ∧ a < x.bytes.length + n then p (a - x.bytes.length)
      else x.bytes.getD a 0) = (x.bytes ++ (List.range n).map p).getD a 0 := by
    intro a
    by_cases ha : a < x.bytes.length
    · grind
    · grind
  unfold File.write Item.file
  simp only [Item.length_append, File.mk.injEq]
  refine ⟨rfl, trivial, trivial, trivial, by omega, ?_⟩
  funext a
  exact hdata a

/-- The kernel with inode `j + 1` in entry 0. -/
def opened (M : Image) (j : Nat) : Fs :=
  M.kernel (oneInode (j + 1) ((M.kernel fun _ => noInode).dinode (j + 1)))

/-- What holds of it. -/
structure Opens (M : Image) (j : Nat) (x : Item) : Prop where
  mounted : Mounted M (opened M j)
  good : Good (· < nmeta) (opened M j)
  inUse : InUse (opened M j) 0
  file : (opened M j).file (j + 1) = some x.file
  lt : j + 1 < NINODES
  size : ((opened M j).dinode (j + 1)).size.toNat = x.bytes.length
  packed : Packed (holding (opened M j) 0) x.bytes.length

theorem Valid.opens (hv : Valid M files) (hx : files[j]? = some x) : Opens M j x := by
  have hm := mounted_kernel M (oneInode (j + 1) ((M.kernel fun _ => noInode).dinode (j + 1)))
  have hfile : (opened M j).file (j + 1) = some x.file := by
    rw [opened, hv.file _ hm, fileAt_succ, hx]
    rfl
  have hlive := live_of_file hfile
  have hgood := hv.good _ hm (cached_one rfl hlive)
  have hin : InUse (opened M j) 0 := ⟨by decide, by exact Int.one_pos, rfl⟩
  refine ⟨hm, hgood, hin, hfile, hlive.2.1, ?_, ?_⟩
  · have h := hfile
    unfold Fs.file at h
    rw [if_pos hlive] at h
    exact congrArg File.size (Option.some.inj h)
  · have hsame : holding (opened M j) 0 = fun p =>
        held (opened M j).sb (opened M j).blocks (opened M j).dinode (j + 1, p) :=
      funext fun q => hgood.places_eq hin (j + 1, q)
    rw [hsame]
    exact hv.packed _ hm j x hx

/-- Files other than that of the inode in entry `k` hold what they held. -/
theorem Written.other {R : Nat → Prop} {k off : Nat} (h : Written R s k p off n t) {q : Nat × Place}
    (hq : q.1 ≠ (s.icache k).inum) : t.places k q = s.places k q := by
  cases hs : s.places k q with
  | some b => exact h.keep q b hs
  | none =>
    cases ht : t.places k q with
    | none => rfl
    | some b => exact absurd (h.fresh q b hs ht).1 hq

theorem getElem?_set_cases {α : Type*} {l : List α} {j i : Nat} {a b : α}
    (h : (l.set j a)[i]? = some b) : i = j ∧ b = a ∨ i ≠ j ∧ l[i]? = some b := by
  by_cases hi : i = j
  · grind
  · grind

theorem fileAt_set {y : Item} (hj : j < files.length) (i : Nat) :
    fileAt (files.set j y) i = if i = j + 1 then some y.file else fileAt files i := by
  cases i with
  | zero => simp [fileAt]
  | succ i =>
    rw [fileAt_succ, fileAt_succ]
    by_cases hi : i = j
    · subst hi
      rw [List.getElem?_set_self hj, if_pos rfl]
      rfl
    · rw [List.getElem?_set_ne (Ne.symm hi), if_neg (by omega)]

/-- The sum of a list with one element changed. -/
theorem sum_map_set {α : Type*} (f : α → Nat) {l : List α} {j : Nat} {a b : α}
    (h : l[j]? = some a) : ((l.set j b).map f).sum + f a = (l.map f).sum + f b := by
  induction l generalizing j with
  | nil => simp at h
  | cons c l ih =>
    cases j with
    | zero =>
      grind
    | succ j =>
      grind

/-- The last step of `iappend`: the inode with its new size is written. -/
theorem Valid.appended (hv : Valid M files) (hx : files[j]? = some x) (hty : x.type ≠ T_DEV)
    (hn : 0 < n) (hlt : x.bytes.length + n < 2 ^ 32)
    (hp : Progress M (opened M j) 0 p x.bytes.length n M' t) :
    Valid (M'.setInode (j + 1) ((t.icache 0).din.sized (x.bytes.length + n)))
      (files.set j (x.append p n)) := by
  have ho := hv.opens hx
  have hjl : j < files.length := (List.getElem?_eq_some_iff.mp hx).1
  have hin : (t.icache 0).inum = j + 1 := hp.written.slot.inum
  obtain ⟨u, hmu, hst⟩ :=
    (hp.mounted.withDin 0 ((t.icache 0).din.sized (x.bytes.length + n))).setInode
    ho.lt ((t.icache 0).din.sized (x.bytes.length + n))
  rw [← hin] at hst
  have hwrote : Wrote (· < nmeta) (opened M j) 0 p x.bytes.length n u := by
    refine Or.inr ⟨?_, t, hp.written, hst⟩
    show ((opened M j).dinode (j + 1)).size.toNat < _
    rw [ho.size]
    omega
  have hch := hwrote.changed ho.good ho.inUse ho.file hty (Nat.le_refl _) hlt
  rw [show x.file.write x.file.size n p = (x.append p n).file from Item.file_append x p n] at hch
  have hty' : ((t.icache 0).din.sized (x.bytes.length + n)).type ≠ 0 := hp.written.opened.type_ne
  have haddrs : ((t.icache 0).din.sized (x.bytes.length + n)).addrs = (t.icache 0).din.addrs := rfl
  have hplaces := places_stored hp.written.opened haddrs hty' hst
  have hview := (view_stored hp.written.opened hst).2
  have hheld : ∀ q, held u.sb u.blocks u.dinode q = t.places 0 q := fun q => by
    rw [← hview]
    exact hplaces q
  refine Valid.of_mounted (hp.ready.setInode ho.lt) ?_ (by rw [List.length_set]; exact hv.count) hmu
    hch.good (fun i => ?_) (fun i y hy => ?_) ?_
  · rw [List.length_set, ← hv.inodes]
    exact hp.freeinode
  · rw [hch.file, fileAt_set hjl]
    exact if_congr Iff.rfl rfl (hv.file _ ho.mounted i)
  · simp only [hheld]
    rcases getElem?_set_cases hy with ⟨rfl, rfl⟩ | ⟨hne, hy⟩
    · have hpk := hp.packed
      unfold holding at hpk
      rwa [hin, ← Item.length_append x p n] at hpk
    · have hsame : (fun q => t.places 0 (i + 1, q)) = fun q =>
          held (opened M j).sb (opened M j).blocks (opened M j).dinode (i + 1, q) := by
        funext q
        have hother : (i + 1, q).1 ≠ ((opened M j).icache 0).inum := fun e =>
          hne (Nat.succ.inj e)
        rw [Written.other hp.written hother, ho.good.places_eq ho.inUse]
      rw [hsame]
      exact hv.packed _ ho.mounted i y hy
  · have hsum := sum_map_set (fun y : Item => blocksOf y.bytes.length) (b := x.append p n) hx
    have hfb := hp.freeblock
    have hbase := hv.freeblock
    rw [Item.length_append] at hsum
    show M'.freeblock = _
    omega

theorem iappend_spec (hv : Valid M files) (hx : files[j]? = some x) (hty : x.type ≠ T_DEV)
    (hn : 0 < n) : spec (iappend (j + 1) p n) M (fun _ M' => Valid M' (files.set j (x.append p n)))
      (fun e _ => e.explained M x.bytes.length n) := by
  have ho := hv.opens hx
  have hopened := ho.good.opened ho.inUse
  have hstart : Progress M (opened M j) 0 p x.bytes.length 0 M (opened M j) :=
    ⟨ho.mounted, hv.ready, Written.start hopened p _, ho.packed, rfl, rfl⟩
  unfold iappend
  rw [spec_bind, spec_rinode hv.ready ho.mounted ho.lt, spec_bind, ho.size]
  have hloop := appendLoop_spec n 0 n M (opened M j) (Nat.le_refl n) hstart
  rw [Nat.add_zero, Nat.zero_add] at hloop
  apply spec_mono hloop _ (fun _ _ he => he)
  rintro ⟨off, d⟩ M' ⟨hoff, t, hp, hd⟩
  dsimp only at hoff hd ⊢
  subst hoff hd
  rw [spec_winode hp.ready ho.lt]
  apply hv.appended hx hty hn _ hp
  have hfull : x.bytes.length + n ≤ MAXFILE * BSIZE := by
    apply le_of_full
    exact hp.packed.full
  simp only [MAXFILE, NDIRECT, NINDIRECT, BSIZE] at hfull
  omega

end Append

/-! ## ialloc -/

section Ialloc

variable {M : Image} {files : List Item}

theorem fileAt_append (files : List Item) (y : Item) (i : Nat) :
    fileAt (files ++ [y]) i = if i = files.length + 1 then some y.file else fileAt files i := by
  cases i with
  | zero => simp [fileAt]
  | succ i =>
    rw [fileAt_succ, fileAt_succ]
    by_cases hi : i = files.length
    · simp [hi]
    · rw [if_neg (by omega)]
      by_cases hlt : i < files.length
      · rw [List.getElem?_append_left hlt]
      · rw [List.getElem?_eq_none (by simp; omega), List.getElem?_eq_none (by omega)]

/-- A file without blocks. -/
theorem packed_empty {H : Place → Option Nat} (h : ∀ q, H q = none) : Packed H 0 :=
  ⟨fun _ hx => absurd hx (Nat.not_lt_zero _), fun _ _ => h _, fun _ => h _⟩

theorem ialloc_spec (hv : Valid M files) (hroom : files.length + 1 < NINODES) {type : UInt16}
    (hty : type ≠ 0) {E : Exit → Image → Prop} : spec (ialloc type) M
      (fun inum M' => inum = files.length + 1 ∧ Valid M' (files ++ [⟨type, []⟩])) E := by
  have hm := mounted_kernel M fun _ => noInode
  have hgood := hv.good _ hm (cached_none M)
  have hnone : (M.kernel fun _ => noInode).file (files.length + 1) = none := by
    rw [hv.file _ hm, fileAt_succ, List.getElem?_eq_none (Nat.le_refl _)]
    rfl
  have hfree : ((M.kernel fun _ => noInode).dinode (files.length + 1)).type = 0 := by
    by_contra hne
    have hl : Live (M.kernel fun _ => noInode).sb (M.kernel fun _ => noInode).dinode
      (files.length + 1) := ⟨Nat.succ_pos _, hroom, hne⟩
    unfold Fs.file at hnone
    rw [if_pos hl] at hnone
    cases hnone
  have hr : Ready { M with freeinode := files.length + 1 + 1 } :=
    ⟨hv.ready.len, hv.ready.lo, hv.ready.hi, hv.ready.zero⟩
  have hm' : Mounted { M with freeinode := files.length + 1 + 1 } (M.kernel fun _ => noInode) :=
    ⟨hm.sb, hm.blocks⟩
  unfold ialloc
  simp only [spec_bind, spec_get, spec_modify, spec_pure, hv.inodes, spec_winode hr hroom, true_and]
  obtain ⟨u, hmu, hst⟩ := hm'.setInode hroom { Dinode.zero with type := type, nlink := 1 }
  have hz : ∀ j ≤ NDIRECT, Dinode.addr { Dinode.zero with type := type, nlink := 1 } j = 0 :=
    fun _ _ => rfl
  have hsh := (hgood.sound 0).allocated (Nat.succ_pos _) hroom hfree hty rfl hz hst
    ⟨⟨False.elim, False.elim, False.elim⟩, False.elim⟩
  have hdin : u.dinode (files.length + 1) = { Dinode.zero with type := type, nlink := 1 } := by
    rw [hst.dinode _ hroom, if_pos rfl]
  refine Valid.of_mounted (hr.setInode hroom) ?_ (by simpa using hroom) hmu hsh.good.toGood
    (fun i => ?_) (fun j y hy => ?_) ?_
  · simp [Image.setInode, Image.put]
  · rw [hsh.file, fileAt_append]
    by_cases hi : i = files.length + 1
    · rw [hi, update_self, if_pos rfl]
      rfl
    · grind [hv.file]
  · by_cases hj : j = files.length
    · subst hj
      obtain rfl : ⟨type, []⟩ = y := by simpa using hy
      refine packed_empty fun q => ?_
      unfold held
      rw [hdin]
      split
      · exact holds_none hz q
      · rfl
    · have hlt : j < files.length := by grind
      rw [List.getElem?_append_left hlt] at hy
      have hsame : (fun q => held u.sb u.blocks u.dinode (j + 1, q)) = fun q =>
          held (M.kernel fun _ => noInode).sb (M.kernel fun _ => noInode).blocks
            (M.kernel fun _ => noInode).dinode (j + 1, q) := funext fun q => by
        have hne : (j + 1, q).1 ≠ files.length + 1 := fun e => hj (Nat.succ.inj e)
        rw [hst.apart.sb]
        exact hst.apart.held hgood.blocks hne
      rw [hsame]
      exact hv.packed _ hm j y hy
  · have : blocksOf 0 = 0 := by decide
    show M.freeblock = _
    rw [hv.freeblock]
    simp [this]

end Ialloc

/-! ## format -/

/-- The image with its first `n` sectors zeroed. -/
def zeroed (n : Nat) : Image :=
  { img := fun _ _ => 0, len := n, freeinode := 1, freeblock := nmeta }

/-- The image after `format`. -/
def blank : Image :=
  { img := Function.update (fun _ _ => 0) 1 superBlock, len := FSSIZE, freeinode := 1
    freeblock := nmeta }

theorem format_spec {E : Exit → Image → Prop} :
    spec format Image.start (fun _ M => M = blank) E := by
  unfold format
  rw [spec_bind, spec_modify, spec_bind]
  have hloop : spec (loop FSSIZE fun i => wsect i fun _ => 0) (zeroed 0)
      (fun _ M => M = zeroed FSSIZE) E := by
    apply spec_loop (I := fun i M => M = zeroed i) _ rfl
    intro i M hi hM
    subst hM
    unfold wsect
    rw [spec_modify, sector_of_lt (Nat.lt_trans hi (by decide))]
    have hmax : max i (i + 1) = i + 1 := Nat.max_eq_right (Nat.le_succ i)
    simp only [zeroed, hmax, update_eq_self]
  apply spec_mono hloop _ (fun _ _ he => he)
  intro _ M hM
  subst hM
  unfold wsect
  rw [spec_modify, sector_of_lt (by decide)]
  rfl

theorem blank_img : blank.img = update (fun _ _ => 0) 1 superBlock := rfl

theorem blank_valid : Valid blank [] := by
  have hm := mounted_kernel blank fun _ => noInode
  have hone : (blank.kernel fun _ => noInode).blocks 1 = superBlock := by
    rw [hm.block (by decide), blank_img, update_self]
  have hfree : ∀ i < NINODES, ((blank.kernel fun _ => noInode).dinode i).type = 0 := fun i hi => by
    have hblk : (blank.kernel fun _ => noInode).blocks (IBLOCK i sb) = fun _ => 0 := by
      have hne : IBLOCK i sb ≠ 1 := by
        have : 1 < IBLOCK i sb := Nat.lt_of_lt_of_le (by decide) (Nat.le_add_left ..)
        omega
      rw [hm.block (IBLOCK_lt hi).2, blank_img, update_of_ne hne]
    unfold Fs.dinode
    rw [hm.sb, hblk]
    simp [dinodeAt, le]
  have hdead : ∀ i, ¬ Live (blank.kernel fun _ => noInode).sb
      (blank.kernel fun _ => noInode).dinode i := fun i hl => hl.2.2 (hfree i hl.2.1)
  have hheld : ∀ q, held (blank.kernel fun _ => noInode).sb (blank.kernel fun _ => noInode).blocks
      (blank.kernel fun _ => noInode).dinode q = none := fun q => if_neg (hdead q.1)
  have hready : Ready blank := by
    refine ⟨rfl, Nat.le_refl _, by decide, fun b hb => ?_⟩
    have hne : b ≠ 1 := Nat.ne_of_gt (Nat.lt_of_lt_of_le (by decide) hb)
    rw [blank_img, update_of_ne hne]
  refine Valid.of_mounted hready rfl (by decide) hm ⟨cached_none blank, ⟨geometry, ?_, ?_, ?_⟩,
    fun i hl => absurd hl (hdead i)⟩ (fun i => ?_) (fun j x hx => by simp at hx) rfl
  · rw [hone]
    exact superblockAt_superBlock
  · intro b hb
    rwa [hm.sb, sb_nmeta] at hb
  · have hno : ∀ {q b} {α : Prop}, held (blank.kernel fun _ => noInode).sb
        (blank.kernel fun _ => noInode).blocks (blank.kernel fun _ => noInode).dinode q = some b →
        α := fun hq => by
      rw [hheld] at hq
      cases hq
    refine ⟨fun b => ?_, fun q b hq => hno hq, fun q q' b hq => hno hq⟩
    constructor
    · rintro ⟨hlt, hbit⟩
      rw [hm.bit (Nat.lt_trans (show b < FSSIZE from hlt) (by decide)), decide_eq_true_eq] at hbit
      exact Or.inl hbit
    · rintro (hb | ⟨q, hq⟩)
      · have hlt : b < FSSIZE := Nat.lt_trans hb (by decide)
        refine ⟨hlt, ?_⟩
        rw [hm.bit (Nat.lt_trans hlt (by decide)), decide_eq_true_eq]
        exact hb
      · exact hno hq
  · rw [fileAt]
    exact (if_neg (hdead i)).trans (by simp)

end xv6.mkfs
