-- A small file system as mkfs makes them: a root directory with one file in it, both of them in
-- the inode cache.
import Xv6.FsCache

open bytes WP

namespace xv6.fs

/-- A `struct dirent` with the number `inum` and the name `name`, as bytes. -/
def direntBytes (inum : Nat) (name : List UInt8) (a : Nat) : UInt8 :=
  if a < 2 then UInt8.ofNat (inum / 256 ^ a) else name.getD (a - 2) 0

/-- The root directory: ".", ".." and "f". -/
def rootBlock : Block := fun a =>
  if a < 16 then direntBytes 1 [46] a
  else if a < 32 then direntBytes 1 [46, 46] (a - 16)
  else if a < 48 then direntBytes 2 [102] (a - 32)
  else 0

def rootDinode : Dinode :=
  { Dinode.zero with type := T_DIR, nlink := 1, size := 48, addrs := fun i => if i.val = 0
  then 8 else 0 }

/-- A file of ten bytes. -/
def tenDinode : Dinode :=
  { Dinode.zero with type := T_FILE, nlink := 1, size := 10, addrs := fun i => if i.val = 0
  then 9 else 0 }

/-- The disk: inode 1 is the root with block 8, inode 2 is the file with block 9. -/
def rootDisk : Disk := fun b =>
  if b = 8 then rootBlock
  else if b = 9 then fun a => if a < 10 then 7 else 0
  else smallDisk (setDinode (setDinode (fun _ => 0) 1 rootDinode) 2 tenDinode)
    (fun a => if a = 0 then 255 else if a = 1 then 3 else 0) b

/-- The root is in entry 0 of the cache, and the file in entry 1. -/
def smallFs : Fs :=
  { sb := smallSb
    blocks := rootDisk
    logsize := LOGSIZE
    outstanding := 0
    lh := []
    icache := fun k =>
      if k = 0 then
        { dev := ROOTDEV, inum := 1, ref := 1, busy := false, valid := true, din := rootDinode }
      else if k = 1 then
        { dev := ROOTDEV, inum := 2, ref := 1, busy := false, valid := true, din := tenDinode }
      else { dev := 0, inum := 0, ref := 0, busy := false, valid := false, din := Dinode.zero }
    devsw := fun _ => { read := none, write := none } }

/-- The blocks of an inode without an indirect block. -/
theorem held_direct {sb : Superblock} {B : Disk} {din : Nat → Dinode} {i b : Nat} {p : Place}
    (h : Live sb din i → (din i).addr NDIRECT = 0) : held sb B din (i, p) = some b ↔
      Live sb din i ∧ ∃ j ≤ NDIRECT, p = .addr j ∧ (din i).addr j = b ∧ b ≠ 0 := by
  rw [held_eq_some]
  refine and_congr_right fun hl => ?_
  cases p with
  | entry j => simp [Dinode.holds, h hl]
  | addr j =>
    by_cases hj : j ≤ NDIRECT
    · rw [Dinode.holds, if_pos hj, nonzero_eq_some]
      grind
    · rw [Dinode.holds, if_neg hj]
      grind

/-- A small disk with two inodes: the root with block 8, and a file with block 9. -/
structure TwoInodes (s : Fs) : Prop where
  sb : s.sb = smallSb
  live : ∀ i < 8, Live smallSb s.dinode i ↔ i = 1 ∨ i = 2
  addr : ∀ j ≤ NDIRECT, (s.dinode 1).addr j = (if j = 0 then 8 else 0) ∧
    (s.dinode 2).addr j = if j = 0 then 9 else 0
  bit : ∀ b < 64, s.bit b = decide (b < 10)
  super : superblockAt (s.blocks 1) = smallSb

namespace TwoInodes

variable {s : Fs}

theorem inum (h : TwoInodes s) {i : Nat} (hl : Live s.sb s.dinode i) : i = 1 ∨ i = 2 := by
  rw [h.sb] at hl
  exact (h.live i hl.2.1).mp hl

/-- Each of the two inodes holds one block. -/
theorem held_iff (h : TwoInodes s) {q : Nat × Place} {b : Nat} :
    held s.sb s.blocks s.dinode q = some b ↔
    q = (1, .addr 0) ∧ b = 8 ∨ q = (2, .addr 0) ∧ b = 9 := by
  obtain ⟨i, p⟩ := q
  rw [held_direct fun hl => ?_]
  · constructor
    · rintro ⟨hl, j, hj, rfl, hb, hb0⟩
      have := h.addr j hj
      rcases h.inum hl with rfl | rfl <;> grind
    · have h0 := h.addr 0 (Nat.zero_le _)
      rw [h.sb]
      rintro (⟨hq, rfl⟩ | ⟨hq, rfl⟩) <;> obtain ⟨rfl, rfl⟩ := Prod.mk.inj hq
      · exact ⟨(h.live 1 (by decide)).mpr (Or.inl rfl), 0, Nat.zero_le _, rfl, h0.1, by decide⟩
      · exact ⟨(h.live 2 (by decide)).mpr (Or.inr rfl), 0, Nat.zero_le _, rfl, h0.2, by decide⟩
  · have := h.addr NDIRECT (Nat.le_refl _)
    rcases h.inum hl with rfl | rfl <;> grind

theorem blocks (h : TwoInodes s) : Blocks (· < 8) s s.dinode := by
  have hbit : ∀ b, b < s.sb.size ∧ s.bit b = true ↔ b < 10 := by
    intro b
    rw [h.sb]
    show b < 64 ∧ _ ↔ _
    constructor
    · rintro ⟨hb, hset⟩
      rwa [h.bit b hb, decide_eq_true_eq] at hset
    · intro hb
      have hb64 : b < 64 := by omega
      exact ⟨hb64, by rw [h.bit b hb64, decide_eq_true hb]⟩
  refine ⟨h.sb ▸ ⟨by decide, by decide, by decide, by decide⟩, h.super.trans h.sb.symm,
    fun b hb => by rw [h.sb] at hb; exact hb, fun b => ?_,
    fun q b hq => ?_, fun q q' b hq hq' => ?_⟩
  · rw [hbit]
    simp only [h.held_iff]
    grind
  · rcases h.held_iff.mp hq with ⟨_, rfl⟩ | ⟨_, rfl⟩ <;> decide
  · rcases h.held_iff.mp hq with ⟨h1, rfl⟩ | ⟨h1, rfl⟩ <;>
      rcases h.held_iff.mp hq' with ⟨h2, h⟩ | ⟨h2, h⟩ <;> simp_all

end TwoInodes

theorem smallFs_two : TwoInodes smallFs :=
  ⟨rfl, by decide +kernel, by decide +kernel, by decide +kernel, by decide +kernel⟩

theorem smallFs_dinode : smallFs.dinode 1 = rootDinode ∧ smallFs.dinode 2 = tenDinode := by
  have hib : ∀ i < 8, IBLOCK i smallSb = 5 := by decide
  unfold Fs.dinode
  rw [show smallFs.sb = smallSb from rfl, hib 1 (by decide), hib 2 (by decide)]
  have h5 : smallFs.blocks 5 = setDinode (setDinode (fun _ => 0) 1 rootDinode) 2 tenDinode := rfl
  rw [h5]
  refine ⟨?_, dinodeAt_setDinode ..⟩
  rw [dinodeAt_setDinode_ne _ (by decide)]
  exact dinodeAt_setDinode ..

theorem smallFs_cached : Cached smallFs := by
  have hent : ∀ k, 0 < (smallFs.icache k).ref → k = 0 ∨ k = 1 := by
    intro k hr
    by_contra hk
    simp only [not_or] at hk
    simp [smallFs, hk.1, hk.2] at hr
  have hl1 : Live smallSb smallFs.dinode 1 := (smallFs_two.live 1 (by decide)).mpr (Or.inl rfl)
  have hl2 : Live smallSb smallFs.dinode 2 := (smallFs_two.live 2 (by decide)).mpr (Or.inr rfl)
  refine ⟨fun k _ hr _ => ?_, fun k _ k' _ hr hr' => ?_, fun k _ hr => ?_, fun k hk => ?_⟩
  · rcases hent k hr with rfl | rfl
    · exact ⟨hl1, smallFs_dinode.1.symm⟩
    · exact ⟨hl2, smallFs_dinode.2.symm⟩
  · rcases hent k hr with rfl | rfl <;> rcases hent k' hr' with rfl | rfl <;> decide
  · rcases hent k hr with rfl | rfl <;> rfl
  · revert k
    decide

theorem smallFs_good : Good (· < 8) smallFs := by
  refine ⟨smallFs_cached, smallFs_two.blocks, fun i hl _ x hx => ?_⟩
  have hi := smallFs_two.inum hl
  have hx0 : x / BSIZE = 0 := by
    rcases hi with rfl | rfl
    · rw [smallFs_dinode.1] at hx
      exact Nat.div_eq_of_lt (Nat.lt_trans hx (by decide))
    · rw [smallFs_dinode.2] at hx
      exact Nat.div_eq_of_lt (Nat.lt_trans hx (by decide))
  rw [hx0]
  rcases hi with rfl | rfl
  · exact fun h => by cases (smallFs_two.held_iff.mpr (Or.inl ⟨rfl, rfl⟩)).symm.trans h
  · exact fun h => by cases (smallFs_two.held_iff.mpr (Or.inr ⟨rfl, rfl⟩)).symm.trans h

end xv6.fs
