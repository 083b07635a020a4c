-- The image that mkfs leaves, as the kernel mounts it. The laws: the bitmap marks what is used, and
-- when an image has a hole or an inode that the kernel does not count.
import Xv6.MkfsMain

open List bytes WP

namespace xv6.mkfs

open fs
open dir (Name Dirent strncpy strncmp namecmp dirlookup lookupFrom readDirent dirent)

/-! ## The finished image -/

/-- The kernel has the image as its disk. -/
structure Boots (M : Image) (s : Fs) : Prop where
  sb : s.sb = superblockAt (M.img 1)
  blocks : s.blocks = M.img

/-- The size of a file on the finished image: that of the root directory is rounded up. -/
def sizeOf (j : Nat) (x : Item) : Nat :=
  if j = 0 then (x.bytes.length / BSIZE + 1) * BSIZE else x.bytes.length

/-- Inode `j + 1` of the kernel's disk is the file `x`. -/
structure Shows (s : Fs) (j : Nat) (x : Item) : Prop where
  live : Live s.sb s.dinode (j + 1)
  type : (s.dinode (j + 1)).type = x.type
  size : (s.dinode (j + 1)).size.toNat = sizeOf j x
  packed : Packed (fun p => held s.sb s.blocks s.dinode (j + 1, p)) x.bytes.length
  byte : ∀ a, content s.sb s.blocks s.dinode (j + 1) a = x.bytes.getD a 0

/-- The kernel's disk has these files. -/
structure Holds (s : Fs) (files : List Item) : Prop where
  sb : s.sb = sb
  blocks : Blocks (· < nmeta) s s.dinode
  bit : ∀ b < BPB, s.bit b = true → b < FSSIZE
  shows : ∀ j x, files[j]? = some x → Shows s j x

section Finished

variable {M : Image} {files : List Item} {s : Fs}

theorem finished_img (M : Image) {u : Fs} (hm : Mounted (M.setInode ROOTINO
    (Dinode.rounded ((M.kernel fun _ => noInode).dinode ROOTINO))) u) : M.finished.img =
    u.blocks := by
  rw [hm.blocks]
  rfl

theorem rounded_size {d : Dinode} (h : d.size.toNat ≤ MAXFILE * BSIZE) :
    (Dinode.rounded d).size.toNat = (d.size.toNat / BSIZE + 1) * BSIZE := by
  apply UInt32.toNat_ofNat_of_lt'
  simp only [MAXFILE, NDIRECT, NINDIRECT, BSIZE, UInt32.size] at *
  omega

/-- What the kernel finds after `fixRoot` and `balloc`. -/
theorem Valid.holds (hv : Valid M files) {root : Item} (hroot : files[0]? = some root)
    (hs : Boots M.finished s) : Holds s files := by
  have ho := hv.opens hroot
  have hopened := ho.good.opened ho.inUse
  obtain ⟨u, hmu, hst⟩ :=
    (ho.mounted.withDin 0 (Dinode.rounded ((opened M 0).dinode 1))).setInode ho.lt
    (Dinode.rounded ((opened M 0).dinode 1))
  have haddrs : (Dinode.rounded ((opened M 0).dinode 1)).addrs =
      ((opened M 0).icache 0).din.addrs := rfl
  have hty0 : (Dinode.rounded ((opened M 0).dinode 1)).type ≠ 0 := hopened.type_ne
  have hblocks : s.blocks = u.blocks := hs.blocks.trans (finished_img M hmu)
  have hbl : Blocks (· < nmeta) u u.dinode := Blocks.stored hopened haddrs hty0 hst
  have hsb : s.sb = u.sb := by
    rw [hs.sb, ← hs.blocks, hblocks, hbl.super]
  have hsb' : u.sb = sb := hmu.sb
  have hdin := Fs.dinode_of_disk hsb hblocks
  have hheld : ∀ q, held u.sb u.blocks u.dinode q =
      held (opened M 0).sb (opened M 0).blocks (opened M 0).dinode q := fun q => by
    rw [← ho.good.places_eq ho.inUse, show u.sb = (opened M 0).sb from hst.frame.sb]
    exact held_stored hopened haddrs hty0 hst q
  refine ⟨hsb.trans hsb', hbl.of_disk hsb hblocks, fun b hb hbit => ?_, fun j x hx => ?_⟩
  · have : s.bit b = u.bit b := by
      unfold Fs.bit
      rw [hsb, hblocks]
    rw [this, hmu.bit hb, decide_eq_true_eq] at hbit
    exact Nat.lt_of_lt_of_le hbit hv.ready.hi
  · have hlt : j + 1 < NINODES := (hv.opens hx).lt
    have hfile : (opened M 0).file (j + 1) = some x.file := by
      rw [hv.file _ ho.mounted, fileAt_succ, hx]
      rfl
    have hlive := live_of_file hfile
    unfold Fs.file at hfile
    rw [if_pos hlive] at hfile
    have hfile := Option.some.inj hfile
    have htype : ((opened M 0).dinode (j + 1)).type = x.type := congrArg File.type hfile
    have hsize : ((opened M 0).dinode (j + 1)).size.toNat = x.bytes.length :=
      congrArg File.size hfile
    have hd : u.dinode (j + 1) = if j = 0 then Dinode.rounded ((opened M 0).dinode 1)
        else (opened M 0).dinode (j + 1) := by
      rw [hst.dinode _ hlt]
      exact if_congr (by simp) rfl rfl
    have hty : (u.dinode (j + 1)).type = x.type := by
      rw [hd]
      split
      · rename_i hj
        subst hj
        exact htype
      · exact htype
    refine ⟨?_, ?_, ?_, ?_, fun a => ?_⟩
    · rw [hsb, hdin, hsb']
      exact ⟨hlive.1, hlt, by rw [hty, ← htype]; exact hlive.2.2⟩
    · rw [hdin]
      exact hty
    · rw [hdin, hd, sizeOf]
      split
      · rename_i hj
        subst hj
        have hmax : x.bytes.length ≤ MAXFILE * BSIZE := by
          apply le_of_full
          exact (hv.opens hx).packed.full
        rw [rounded_size (by rwa [hsize]), hsize]
      · exact hsize
    · rw [hsb, hblocks, hdin]
      simp only [hheld]
      exact hv.packed _ ho.mounted j x hx
    · rw [hsb, hblocks, hdin]
      have hbyte := content_stored hopened haddrs hty0 hst (j + 1) a
      rw [ho.good.byte_eq ho.inUse] at hbyte
      rw [show u.sb = (opened M 0).sb from hst.frame.sb, hbyte]
      exact congrFun (congrArg File.data hfile) a

end Finished

/-! ## The inodes that mkfs counts -/

/-- A program that does not take an inode. -/
def Keeps {α : Type} (x : MkfsM α) : Prop :=
  ∀ M, spec x M (fun _ M' => M'.freeinode = M.freeinode) fun _ _ => True

section Keeps

variable {α β : Type}

theorem Keeps.pure (a : α) : Keeps (Pure.pure a : MkfsM α) := fun _ => (spec_pure a).mpr rfl

theorem Keeps.throw (e : Exit) : Keeps (MonadExcept.throw e : MkfsM α) :=
  fun _ => (spec_throw e).mpr trivial

theorem Keeps.bind {x : MkfsM α} {f : α → MkfsM β} (hx : Keeps x) (hf : ∀ a, Keeps (f a)) :
    Keeps (x >>= f) := by
  intro M
  rw [spec_bind]
  apply spec_mono (hx M) _ (fun _ _ _ => trivial)
  intro a M' hM'
  rw [← hM']
  exact hf a M'

theorem Keeps.ite {p : Prop} [Decidable p] {x y : MkfsM α} (hx : Keeps x) (hy : Keeps y) :
    Keeps (if p then x else y) := by
  split
  · exact hx
  · exact hy

theorem rsect_keeps (x : Nat) : Keeps (rsect x) := by
  intro M
  unfold rsect
  simp only [spec_bind, spec_get, spec_ite, spec_pure, spec_throw, implies_true, and_self]

theorem wsect_keeps (x : Nat) (b : Block) : Keeps (wsect x b) := fun _ => (spec_modify _).mpr rfl

theorem takeBlock_keeps : Keeps takeBlock := fun M => by
  rw [spec_takeBlock]

theorem fillAddr_keeps (d : Dinode) (i : Nat) : Keeps (fillAddr d i) :=
  .ite (takeBlock_keeps.bind fun _ => .pure _) (.pure _)

theorem findBlock_keeps (d : Dinode) (fbn : Nat) : Keeps (findBlock d fbn) := by
  refine .ite ((fillAddr_keeps d fbn).bind fun _ => .pure _) ?_
  refine (fillAddr_keeps d NDIRECT).bind fun d => (rsect_keeps _).bind fun b => ?_
  exact .ite (takeBlock_keeps.bind fun _ => (wsect_keeps _ _).bind fun _ => .pure _) (.pure _)

theorem appendLoop_keeps (p : Nat → UInt8) (fuel : Nat) : ∀ (tot off n : Nat) (d : Dinode),
    Keeps (appendLoop p fuel tot off n d) := by
  induction fuel with
  | zero => exact fun _ _ _ _ => .pure _
  | succ fuel ih =>
    intro tot off n d
    refine .ite (.pure _) (.ite (.throw _) ?_)
    refine (findBlock_keeps d _).bind fun r => (rsect_keeps _).bind fun b => ?_
    exact (wsect_keeps _ _).bind fun _ => ih _ _ _ _

theorem winode_keeps (inum : Nat) (d : Dinode) : Keeps (winode inum d) :=
  (rsect_keeps _).bind fun _ => wsect_keeps _ _

theorem rinode_keeps (inum : Nat) : Keeps (rinode inum) := (rsect_keeps _).bind fun _ => .pure _

theorem iappend_keeps (inum : Nat) (p : Nat → UInt8) (n : Nat) : Keeps (iappend inum p n) :=
  (rinode_keeps inum).bind fun _ => (appendLoop_keeps p n _ _ _ _).bind fun _ => winode_keeps _ _

theorem copyReads_keeps (inum : Nat) (rs : List (List UInt8)) : Keeps (copyReads inum rs) := by
  induction rs with
  | nil => exact .pure _
  | cons buf rs ih => exact (iappend_keeps _ _ _).bind fun _ => ih

/-- `ialloc` takes one. -/
theorem ialloc_freeinode (type : UInt16) (M : Image) :
    spec (ialloc type) M (fun _ M' => M'.freeinode = M.freeinode + 1) fun _ _ => True := by
  unfold ialloc
  simp only [spec_bind, spec_get, spec_modify]
  apply spec_mono (winode_keeps _ _ _) _ (fun _ _ h => h)
  exact fun _ _ h => (spec_pure _).mpr h

theorem addFile_freeinode (rootino : Nat) (a : Arg) (M : Image) :
    spec (addFile rootino a) M (fun _ M' => M'.freeinode = M.freeinode + 1) fun _ _ => True := by
  unfold addFile
  rw [spec_ite]
  refine ⟨fun _ => (spec_throw _).mpr trivial, fun _ => ?_⟩
  cases a.reads with
  | none => exact (spec_throw _).mpr trivial
  | some rs =>
    rw [spec_bind]
    apply spec_mono (ialloc_freeinode T_FILE M) _ (fun _ _ h => h)
    intro inum M' hM'
    rw [← hM']
    exact (iappend_keeps _ _ _).bind (fun _ => copyReads_keeps _ _) M'

theorem addFiles_freeinode (rootino : Nat) (args : List Arg) (M : Image) :
    spec (addFiles rootino args) M (fun _ M' => M'.freeinode = M.freeinode + args.length)
      fun _ _ => True := by
  induction args generalizing M with
  | nil => exact (spec_pure _).mpr rfl
  | cons a args ih =>
    rw [addFiles, spec_bind]
    apply spec_mono (addFile_freeinode rootino a M) _ (fun _ _ h => h)
    intro _ M' hM'
    rw [length_cons, Nat.add_comm args.length, ← Nat.add_assoc, ← hM']
    exact ih M'

/-- mkfs takes an inode for the root directory and for every file. -/
theorem main_freeinode (args : List Arg) :
    spec (main args) Image.start (fun _ M => M.freeinode = args.length + 2) fun _ _ => True := by
  unfold main
  rw [spec_bind]
  apply spec_mono format_spec _ (fun _ _ h => h)
  rintro _ _ rfl
  rw [spec_bind]
  apply spec_mono (ialloc_freeinode T_DIR blank) _ (fun _ _ h => h)
  intro rootino M1 h1
  rw [spec_ite]
  refine ⟨fun _ => (spec_throw _).mpr trivial, fun _ => ?_⟩
  rw [spec_bind]
  apply spec_mono (iappend_keeps _ _ _ _) _ (fun _ _ h => h)
  intro _ M2 h2
  rw [spec_bind]
  apply spec_mono (iappend_keeps _ _ _ _) _ (fun _ _ h => h)
  intro _ M3 h3
  rw [spec_bind]
  apply spec_mono (addFiles_freeinode rootino args M3) _ (fun _ _ h => h)
  intro _ M4 h4
  have hrest : Keeps (do
      fixRoot rootino
      let s ← get
      balloc s.freeblock) := by
    refine ((rinode_keeps _).bind fun _ => winode_keeps _ _).bind fun _ => ?_
    exact Keeps.bind (fun M => (spec_get).mpr rfl) fun _ => .ite (wsect_keeps _ _) (.throw _)
  apply spec_mono (hrest M4) _ (fun _ _ h => h)
  intro _ M5 h5
  have h0 : blank.freeinode = 1 := rfl
  omega

end Keeps

/-! ## Holes -/

section Holes

variable {s : Fs} {files : List Item} {j k i off n : Nat} {x : Item}

/-- The inode of a file has a block for every byte, unless it is the root directory and its entries
fill whole blocks. -/
theorem Shows.full_iff (h : Shows s j x) : (∀ bn, bn * BSIZE < (s.dinode (j + 1)).size.toNat →
      held s.sb s.blocks s.dinode (j + 1, place bn) ≠ none) ↔
      ¬ (j = 0 ∧ x.bytes.length % BSIZE = 0) := by
  rw [h.size]
  unfold sizeOf
  constructor
  · rintro hfull ⟨rfl, hmod⟩
    apply hfull (x.bytes.length / BSIZE) _ (h.packed.rest _ _)
    · simp
    · simp only [BSIZE] at *
      omega
  · intro hno bn hbn
    have hlt : bn * BSIZE < x.bytes.length := by grind
    have := h.packed.full (bn * BSIZE) hlt
    rwa [Nat.mul_div_cancel _ (by decide)] at this

/-- Entry `k` of the cache has a valid copy of inode `i`. -/
structure Copies (s : Fs) (k i : Nat) : Prop where
  inum : (s.icache k).inum = i
  din : (s.icache k).din = s.dinode i

theorem Copies.view (hc : Copies s k i) : s.view k = s.dinode := by
  unfold Fs.view
  rw [hc.inum, hc.din, Function.update_eq_self]

theorem Copies.opened (hc : Copies s k (j + 1)) (h : Holds s files) (hs : Shows s j x) :
    Opened (· < nmeta) s k := by
  refine ⟨?_, ?_⟩
  · rw [hc.view]
    exact h.blocks
  · rw [hc.view, hc.inum]
    exact hs.live

/-- A file without a hole can be read anywhere. -/
theorem Copies.whole (hc : Copies s k (j + 1)) (h : Holds s files) (hs : Shows s j x)
    (hty : x.type ≠ T_DEV) (hfull : ∀ bn, bn * BSIZE < (s.dinode (j + 1)).size.toNat →
      held s.sb s.blocks s.dinode (j + 1, place bn) ≠ none) : Whole (· < nmeta) s k := by
  refine ⟨hc.opened h hs, ?_, fun a ha => ?_⟩
  · rw [hc.din, hs.type]
    exact hty
  · grind [hc.din, hc.inum, Fs.places, hc.view]

end Holes

/-- What the kernel relies on: every inode that mkfs took is one that the kernel counts, has a block
for every byte, and has data blocks only, so that `readi` of it never changes anything. -/
structure Usable (M : Image) : Prop where
  ninodes : ∀ i, 0 < i → i < M.freeinode → i < sb.ninodes
  full : ∀ s, Boots M s → ∀ i, 0 < i → i < M.freeinode → ∀ bn,
    bn * BSIZE < (s.dinode i).size.toNat → (s.dinode i).holds s.blocks (place bn) ≠ none
  range : ∀ s, Boots M s → ∀ i, 0 < i → i < M.freeinode → ∀ p b,
    (s.dinode i).holds s.blocks p = some b → nmeta ≤ b ∧ b < sb.size
  reads : ∀ s, Boots M s → ∀ i, 0 < i → i < M.freeinode → ∀ k, Copies s k i → ∀ off < 2 ^ 32,
    ∀ n < 2 ^ 32, ∃ r, readi k off n s = .ok r s

/-- Some kernel has the image as its disk. -/
theorem exists_boots (M : Image) : ∃ s, Boots M s :=
  ⟨{ sb := superblockAt (M.img 1), blocks := M.img, logsize := nlog, outstanding := 0, lh := []
     icache := fun _ => noInode, devsw := fun _ => ⟨none, none⟩ }, rfl, rfl⟩

section Usable

variable {M : Image} {args : List Arg} {s : Fs}

theorem length_filesOf (args : List Arg) : (filesOf args).length = args.length + 1 := by
  simp [filesOf]

theorem type_filesOf {x : Item} (hx : x ∈ filesOf args) : x.type ≠ T_DEV := by
  have hdir : T_DIR ≠ T_DEV := by decide
  have hfile : T_FILE ≠ T_DEV := by decide
  simp only [filesOf, mem_cons, mem_map] at hx
  rcases hx with rfl | ⟨a, _, rfl⟩
  · exact hdir
  · exact hfile

/-- The inodes that mkfs took are those of the files. -/
theorem Valid.item (hv : Valid M (filesOf args)) {i : Nat} (h0 : 0 < i)
    (hi : i < M.finished.freeinode) :
    ∃ j x, i = j + 1 ∧ (filesOf args)[j]? = some x := by
  have hcount : M.finished.freeinode = args.length + 2 := by
    show M.freeinode = _
    rw [hv.inodes, length_filesOf]
  obtain ⟨j, rfl⟩ := Nat.exists_eq_succ_of_ne_zero (Nat.ne_of_gt h0)
  have hj : j < (filesOf args).length := by
    rw [length_filesOf]
    omega
  exact ⟨j, _, rfl, List.getElem?_eq_getElem hj⟩

theorem Valid.boots_holds (hv : Valid M (filesOf args)) (hs : Boots M.finished s) :
    Holds s (filesOf args) := hv.holds rfl hs

/-- An image for a number of files that the kernel counts is usable if the root directory has no
hole. -/
theorem Valid.usable (hv : Valid M (filesOf args)) (hmod : 16 * (args.length + 2) % BSIZE ≠ 0) :
    Usable M.finished := by
  have hfull : ∀ s, Boots M.finished s → ∀ j x, (filesOf args)[j]? = some x → ∀ bn,
      bn * BSIZE < (s.dinode (j + 1)).size.toNat →
      held s.sb s.blocks s.dinode (j + 1, place bn) ≠ none := by
    intro s hs j x hx
    apply ((hv.boots_holds hs).shows j x hx).full_iff.mpr
    rintro ⟨rfl, h0⟩
    obtain rfl : (⟨T_DIR, rootBytes args⟩ : Item) = x := Option.some.inj hx
    rw [length_rootBytes] at h0
    exact hmod h0
  refine ⟨fun i h0 hi => ?_, fun s hs i h0 hi bn hbn => ?_, fun s hs i h0 hi p b hp => ?_,
    fun s hs i h0 hi k hc off hoff n hn => ?_⟩ <;>
    obtain ⟨j, x, rfl, hx⟩ := hv.item h0 hi
  · obtain ⟨s, hs⟩ := exists_boots M.finished
    have hl := ((hv.boots_holds hs).shows j x hx).live.2.1
    rwa [(hv.boots_holds hs).sb] at hl
  · have := hfull s hs j x hx bn hbn
    rwa [held_of_live ((hv.boots_holds hs).shows j x hx).live] at this
  · have hh := hv.boots_holds hs
    rw [← held_of_live (hh.shows j x hx).live] at hp
    obtain ⟨h1, h2, _⟩ := hh.blocks.range hp
    rw [hh.sb] at h1 h2
    rw [sb_nmeta] at h1
    exact ⟨h1, h2⟩
  · have hh := hv.boots_holds hs
    have hw := hc.whole hh (hh.shows j x hx) (type_filesOf (mem_of_getElem? hx)) (hfull s hs j x hx)
    exact ⟨_, hw.readi_eq hoff hn⟩

/-- ... and not usable if it has one. -/
theorem Valid.hole (hv : Valid M (filesOf args)) (hmod : 16 * (args.length + 2) % BSIZE = 0) :
    ¬ Usable M.finished := by
  intro hu
  obtain ⟨s, hs⟩ := exists_boots M.finished
  have hroot : (filesOf args)[0]? = some ⟨T_DIR, rootBytes args⟩ := rfl
  have hshows := (hv.boots_holds hs).shows 0 _ hroot
  have hlt : 1 < M.finished.freeinode := by
    show 1 < M.freeinode
    rw [hv.inodes, length_filesOf]
    omega
  refine hshows.full_iff.mp (fun bn hbn => ?_) ⟨rfl, by rw [length_rootBytes]; exact hmod⟩
  rw [held_of_live hshows.live]
  exact hu.full s hs 1 Nat.one_pos hlt bn hbn

/-- mkfs ends well on files that fit. -/
theorem main_ok (args : List Arg) (hn : args.length + 1 < NINODES) (hf : Fits (filesOf args))
    (hr : Readable args) :
    ∃ M, main args Image.start = .ok () M.finished ∧ Valid M (filesOf args) := by
  have hspec := spec_mono (main_spec hn) (fun _ _ h => h) (fun _ _ he => (he ⟨hf, hr⟩ : False))
  obtain ⟨_, M', hrun, M, hv, rfl⟩ := exists_of_spec hspec
  exact ⟨M, hrun, hv⟩

/-- When mkfs ends well, the image is usable unless there are more files than inodes that the kernel
counts, or the entries of the root directory fill whole blocks. -/
theorem an_image_is_usable_iff (hrun : main args Image.start = .ok () M) :
    Usable M ↔ args.length ≤ NINODES - 2 ∧ 16 * (args.length + 2) % BSIZE ≠ 0 := by
  have hcount := of_spec (main_freeinode args) hrun
  constructor
  · intro hu
    have hle : args.length + 1 < NINODES := by
      by_contra hn
      have hlast : NINODES < M.freeinode := by omega
      exact absurd (hu.ninodes NINODES (by decide) hlast) (Nat.lt_irrefl _)
    obtain ⟨M0, hv, rfl⟩ := of_spec (main_spec hle) hrun
    exact ⟨Nat.le_sub_of_add_le hle, fun hmod => hv.hole hmod hu⟩
  · rintro ⟨hle, hmod⟩
    obtain ⟨M0, hv, rfl⟩ := of_spec (main_spec (Nat.add_le_of_le_sub (by decide) hle)) hrun
    exact hv.usable hmod

end Usable

/-- An empty file with the name "a". -/
def emptyArg : Arg := { name := [97], reads := some [], name_ok := by decide, reads_ok := by simp }

theorem filesOf_replicate (n : Nat) : Fits (filesOf (List.replicate n emptyArg)) ↔
    16 * (n + 2) ≤ MAXFILE * BSIZE ∧ nmeta + blocksOf (16 * (n + 2)) ≤ FSSIZE := by
  have hroot : (rootBytes (List.replicate n emptyArg)).length = 16 * (n + 2) := by
    rw [length_rootBytes, length_replicate]
  have hsum : ((filesOf (List.replicate n emptyArg)).map fun x => blocksOf x.bytes.length).sum =
      blocksOf (16 * (n + 2)) := by
    have h0 : blocksOf 0 = 0 := by decide
    have hdata : emptyArg.data = [] := rfl
    simp [filesOf, hroot, hdata, h0]
  constructor
  · intro h
    have h1 := h.size _ (mem_cons_self ..)
    have h2 := h.room
    rw [hsum] at h2
    rw [hroot] at h1
    exact ⟨h1, h2⟩
  · rintro ⟨h1, h2⟩
    refine ⟨fun x hx => ?_, by rwa [hsum]⟩
    simp only [filesOf, mem_cons, map_replicate, mem_replicate] at hx
    rcases hx with rfl | ⟨_, rfl⟩
    · rwa [← hroot] at h1
    · exact Nat.zero_le _

theorem readable_replicate (n : Nat) : Readable (List.replicate n emptyArg) := by
  intro a ha
  obtain rfl := eq_of_mem_replicate ha
  exact ⟨by decide, by simp [emptyArg]⟩

/-- With one file the law says that the image is usable. -/
theorem an_image_of_one_file_is_usable :
    ∃ M, main [emptyArg] Image.start = .ok () M ∧ Usable M := by
  obtain ⟨M, hrun, _⟩ := main_ok [emptyArg] (by decide)
    ((filesOf_replicate 1).mpr (by decide)) (readable_replicate 1)
  exact ⟨_, hrun, (an_image_is_usable_iff hrun).mpr (by decide)⟩

/-- With thirty files the root directory has 32 entries: its size is two blocks and it has one. -/
theorem thirty_files_leave_a_hole :
    ∃ M, main (List.replicate 30 emptyArg) Image.start = .ok () M ∧ ¬ Usable M := by
  obtain ⟨M, hrun, hv⟩ := main_ok (List.replicate 30 emptyArg) (by decide)
    ((filesOf_replicate 30).mpr (by decide)) (readable_replicate 30)
  exact ⟨_, hrun, hv.hole (by decide)⟩

end xv6.mkfs
