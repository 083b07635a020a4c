-- Runs of the functions of fs.c, in any order and with any arguments, as long as the caller holds
-- what a function asks for. Two facts last through every run: the bitmap marks exactly the blocks
-- in use, and an inode has exactly the blocks that its size asks for.
import Xv6.FsDirs
import Xv6.Runs

open Option bytes WP

namespace xv6.fs

open dir (Name Fields)

/-! ## The machine -/

inductive FsAct where
  | begin_op
  | end_op
  | iget (i : Nat)
  | idup (k : Nat)
  | ilock (k : Nat)
  | iunlock (k : Nat)
  /-- with `itrunc`, when nothing refers to the inode any more -/
  | iput (k : Nat)
  | ialloc (type : UInt16)
  | readi (k off n : Nat)
  | writei (k : Nat) (src : Nat → UInt8) (off n : Nat)
  /-- set fields, then `iupdate` -/
  | update (k : Nat) (g : Fields → Fields)
  | dirlink (k : Nat) (name : Name) (inum : Nat)

def FsAct.prog : FsAct → FsM Unit
  | .begin_op => fs.begin_op
  | .end_op => fs.end_op
  | .iget i => do let _ ← fs.iget ROOTDEV i
  | .idup k => do let _ ← fs.idup k
  | .ilock k => fs.ilock k
  | .iunlock k => fs.iunlock k
  | .iput k => fs.iput k
  | .ialloc type => do let _ ← fs.ialloc ROOTDEV type
  | .readi k off n => do let _ ← fs.readi k off n
  | .writei k src off n => do let _ ← fs.writei k src off n
  | .update k g => dir.Inodes.update k g
  | .dirlink k name inum => do let _ ← (dir.dirlink k name inum : FsM Int)

/-- The file of entry `k`, if the entry is locked. -/
def Fs.locked (s : Fs) (k : Nat) : Option File :=
  (s.entry k).bind fun e => if e.busy = true ∧ e.valid = true then s.file e.inum else none

/-- What a caller sees to. -/
def FsAct.ready (s : Fs) : FsAct → Bool
  | .begin_op | .end_op => true
  | .iget i => decide (0 < i ∧ i < s.sb.ninodes)
  | .idup k | .ilock k | .iput k => (s.entry k).isSome
  | .iunlock k | .update k _ => (s.locked k).isSome
  | .ialloc type => decide (type ≠ 0)
  | .readi k off n | .writei k _ off n => (s.locked k).isSome && decide (off < 2 ^ 32 ∧ n < 2 ^ 32)
  | .dirlink k _ _ => (s.locked k).any fun f => decide (f.type = T_DIR ∧ f.size % 16 = 0)

/-- A function that returns. -/
def FsAct.step (s : Fs) (a : FsAct) : Option Fs :=
  match a.prog s with
  | .ok _ u => some u
  | .error _ _ => none

/-- The functions of a run are called as they should be. -/
def Called : Fs → List FsAct → Prop := runs.Along FsAct.step fun s a => a.ready s = true

/-! ## One function -/

/-- The file system is in order, and the inode cache has inodes that there are. -/
structure Inv (R : Nat → Prop) (T : Prop) (n : Nat) (s : Fs) : Prop where
  good : Good R s
  tight : T → Tight s
  ninodes : s.sb.ninodes = n
  inums : ∀ k e, s.entry k = some e → 0 < e.inum ∧ e.inum < n

section Step

variable {R : Nat → Prop} {T : Prop} {n : Nat} {F : Nat → Option File} {C C' : Nat → Option Entry}
  {s u : Fs} {k i : Nat} {e : Entry}

theorem Inv.stands (h : Inv R T n s) : Stands R T n s.file s.entry s :=
  ⟨h.good, h.tight, h.ninodes, rfl, rfl⟩

theorem Stands.inv (h : Stands R T n F C s) (hi : ∀ k e, C k = some e → 0 < e.inum ∧ e.inum < n) :
    Inv R T n s :=
  ⟨h.good, h.tight, h.ninodes, fun k e he => hi k e (h.entry ▸ he)⟩

/-- An entry that changes keeps its inode, or gets one that there is. -/
theorem inums_update (hi : ∀ k e, C k = some e → 0 < e.inum ∧ e.inum < n) {x : Option Entry}
    (hx : ∀ e, x = some e → 0 < e.inum ∧ e.inum < n) :
    ∀ k' e, Function.update C k x k' = some e → 0 < e.inum ∧ e.inum < n := by
  intro k' e he
  by_cases hk : k' = k
  · subst hk
    rw [Function.update_self] at he
    exact hx e he
  · rw [Function.update_of_ne hk] at he
    exact hi k' e he

theorem inums_grab (hi : ∀ k e, C k = some e → 0 < e.inum ∧ e.inum < n) (h : 0 < i ∧ i < n) :
    ∀ k' e, Function.update C k (some (grab i (C k))) k' = some e → 0 < e.inum ∧ e.inum < n := by
  refine inums_update hi fun e he => ?_
  obtain rfl := some.inj he
  cases hc : C k with
  | none => exact h
  | some e => exact hi k e hc

theorem freeInode_lt {m : Nat} (h : freeInode F i m = some k) : i ≤ k ∧ k < i + m := by
  have := List.mem_range'_1.mp (List.mem_of_find?_eq_some h)
  omega

theorem locked_eq_some {f : File} : s.locked k = some f ↔
    ∃ e, s.entry k = some e ∧ e.busy = true ∧ e.valid = true ∧ s.file e.inum = some f := by
  unfold Fs.locked
  rw [bind_eq_some_iff]
  refine exists_congr fun e => and_congr_right fun _ => ?_
  split
  · rename_i h
    exact ⟨fun hf => ⟨h.1, h.2, hf⟩, fun hf => hf.2.2⟩
  · rename_i h
    exact ⟨fun hf => (by cases hf), fun hf => absurd ⟨hf.1, hf.2.1⟩ h⟩

/-- A device does not see the disk. -/
theorem readi_device (h : (s.icache k).din.type = T_DEV) (off n : Nat)
    {Q : Option (List UInt8) → Fs → Prop} {E : Stop → Fs → Prop} (hQ : ∀ r, Q r s) :
    spec (readi k off n) s Q E := by
  unfold fs.readi
  simp only [spec_bind, spec_get]
  rw [if_pos h]
  split
  · exact (spec_pure ..).mpr (hQ _)
  · split <;> exact (spec_pure ..).mpr (hQ _)

theorem writei_device (h : (s.icache k).din.type = T_DEV) (src : Nat → UInt8) (off n : Nat)
    {Q : Int → Fs → Prop} {E : Stop → Fs → Prop} (hQ : ∀ r, Q r s) :
    spec (writei k src off n) s Q E := by
  unfold fs.writei
  simp only [spec_bind, spec_get]
  rw [if_pos h]
  split
  · exact (spec_pure ..).mpr (hQ _)
  · split <;> exact (spec_pure ..).mpr (hQ _)

/-- `readi` of a locked inode changes nothing, whatever the offset and the length. -/
theorem Good.readi_same (h : Good R s) {f : File} (hl : s.locked k = some f) {off len : Nat}
    (hoff : off < 2 ^ 32) (hlen : len < 2 ^ 32) :
    spec (fs.readi k off len) s (fun _ u => u = s) fun _ _ => False := by
  obtain ⟨e, he, _, hv, hf⟩ := locked_eq_some.mp hl
  have hk := Good.inUse he hv
  obtain ⟨_, _, rfl⟩ := entry_eq_some.mp he
  by_cases hty : f.type = T_DEV
  · refine readi_device ?_ off len fun _ => rfl
    rw [h.file_eq hk] at hf
    rw [← hty, ← some.inj hf]
    rfl
  · have hw := h.whole hk hf hty
    unfold spec
    rw [hw.readi_eq hoff hlen]

theorem full_ne {x : Stop} (h : x.full) : x ≠ .panic "freeing free block" := by
  rcases h with rfl | rfl | rfl <;> decide

/-- Every function keeps the file system in order, and frees no block that is free. -/
theorem Inv.act (h : Inv R T n s) (a : FsAct) (ha : a.ready s = true) :
    spec a.prog s (fun _ u => Inv R T n u) fun x _ => x ≠ .panic "freeing free block" := by
  have hs := h.stands
  have hi := h.inums
  cases a with
  | begin_op => exact hs.begin_op (fun u hu => hu.inv hi) (by decide)
  | end_op => exact hs.end_op fun u hu => hu.inv hi
  | iget i =>
    simp only [FsAct.prog, spec_bind, spec_pure]
    exact hs.iget i (fun k u _ hu => hu.inv (inums_grab hi (h.ninodes ▸ of_decide_eq_true ha)))
      fun _ => by decide
  | idup k =>
    obtain ⟨e, he⟩ := isSome_iff_exists.mp ha
    simp only [FsAct.prog, spec_bind, spec_pure]
    exact hs.idup he fun u hu => hu.inv (inums_update hi fun x hx => some.inj hx ▸ hi k e he)
  | ilock k =>
    obtain ⟨e, he⟩ := isSome_iff_exists.mp ha
    refine hs.ilock he (hi k e he) (fun u _ _ _ hu => ?_) fun x u hx => ?_
    · exact hu.inv (inums_update hi fun x hx => some.inj hx ▸ hi k e he)
    · rcases hx with ⟨rfl, _⟩ | ⟨rfl, _⟩ <;> decide
  | iunlock k =>
    obtain ⟨_, hl⟩ := isSome_iff_exists.mp ha
    obtain ⟨e, he, hb, _⟩ := locked_eq_some.mp hl
    exact hs.iunlock he hb fun u hu => hu.inv (inums_update hi fun x hx => some.inj hx ▸ hi k e he)
  | iput k =>
    obtain ⟨e, he⟩ := isSome_iff_exists.mp ha
    refine hs.iput he (fun u hu => hu.inv (inums_update hi fun x hx => ?_)) fun x u hx => ?_
    · unfold drop at hx
      split at hx
      · cases hx
      · exact some.inj hx ▸ hi k e he
    · rcases hx with hx | rfl
      · exact full_ne hx
      · decide
  | ialloc type =>
    simp only [FsAct.prog, spec_bind, spec_pure]
    refine hs.ialloc (of_decide_eq_true ha) (fun k i u hfree _ hu => ?_) fun x u hx => ?_
    · have := freeInode_lt hfree
      exact hu.inv (inums_grab hi ⟨by omega, by omega⟩)
    · rcases hx with hx | rfl | rfl
      · exact full_ne hx
      · decide
      · decide
  | readi k off len =>
    obtain ⟨hl, ha⟩ := (Bool.and_eq_true ..).mp ha
    obtain ⟨f, hl⟩ := isSome_iff_exists.mp hl
    obtain ⟨hoff, hlen⟩ := of_decide_eq_true ha
    simp only [FsAct.prog, spec_bind, spec_pure]
    exact spec_mono (h.good.readi_same hl hoff hlen) (fun _ u hu => hu ▸ h) fun _ _ hx => hx.elim
  | writei k src off len =>
    obtain ⟨hl, ha⟩ := (Bool.and_eq_true ..).mp ha
    obtain ⟨f, hl⟩ := isSome_iff_exists.mp hl
    obtain ⟨e, he, _, hv, hf⟩ := locked_eq_some.mp hl
    have hlen := (of_decide_eq_true ha).2
    simp only [FsAct.prog, spec_bind, spec_pure]
    by_cases hty : f.type = T_DEV
    · refine writei_device ?_ src off len fun _ => h
      have hk := Good.inUse he hv
      obtain ⟨_, _, rfl⟩ := entry_eq_some.mp he
      rw [h.good.file_eq hk] at hf
      rw [← hty, ← some.inj hf]
      rfl
    · exact hs.writei he hv hf hty hlen (fun u _ _ hu => hu.inv hi) (fun _ => h)
        fun x u hx _ => full_ne hx
  | update k g =>
    obtain ⟨f, hl⟩ := isSome_iff_exists.mp ha
    obtain ⟨e, he, _, hv, hf⟩ := locked_eq_some.mp hl
    exact hs.update he hv hf g (fun u hu => hu.inv hi) fun x u hx => full_ne hx
  | dirlink k name inum =>
    obtain ⟨f, hl, ha⟩ := (any_eq_true _ _).mp ha
    obtain ⟨e, he, _, hv, hf⟩ := locked_eq_some.mp hl
    obtain ⟨hty, hsize⟩ := of_decide_eq_true ha
    simp only [FsAct.prog, spec_bind, spec_pure]
    refine hs.dirlink ⟨he, hv, hf, hty, hsize⟩ (fun u _ hu => hu.inv hi) (fun u _ _ hu => hu.inv hi)
      fun x u hx => ?_
    rcases hx with hx | ⟨rfl, _⟩ | ⟨rfl, _⟩
    · exact full_ne hx.1
    · decide
    · decide

theorem Inv.step (h : Inv R T n s) {a : FsAct} (ha : a.ready s = true) (hs : a.step s = some u) :
    Inv R T n u := by
  unfold FsAct.step at hs
  split at hs
  · rename_i hrun
    obtain rfl := some.inj hs
    have hu := of_spec (h.act a ha) hrun
    exact hu
  · cases hs

theorem Inv.run (h : Inv R T n s) {acts : List FsAct} (ha : Called s acts)
    (hrun : runs.run FsAct.step s acts = some u) : Inv R T n u :=
  runs.inv_of_along (fun _ _ _ hi ha hs => hi.step ha hs) h ha hrun

end Step

/-! ## Blocks -/

section Blocks

variable {s u : Fs} {acts : List FsAct}

/-- Whatever the functions are that run: a block is marked in the bitmap exactly if it is a metadata
block or some place of some inode holds it, and no two places do. What `balloc` gives is in use
nowhere, and no block is freed that is free. -/
theorem block_allocation_is_exact {n : Nat} (h : Inv (· < s.sb.nmeta) False n s)
    (ha : Called s acts) (hrun : runs.run FsAct.step s acts = some u) :
    (∀ b, b < u.sb.size ∧ u.bit b = true ↔
      b < s.sb.nmeta ∨ ∃ q, held u.sb u.blocks u.dinode q = some b) ∧
    (∀ q q' b, held u.sb u.blocks u.dinode q = some b →
      held u.sb u.blocks u.dinode q' = some b → q = q') ∧
    (∀ b u', balloc u = .ok b u' →
      s.sb.nmeta ≤ b ∧ ∀ q, held u.sb u.blocks u.dinode q ≠ some b) ∧
    ∀ a : FsAct, a.ready u = true →
      ∀ x u', a.prog u = .error x u' → x ≠ .panic "freeing free block" := by
  have hu := h.run ha hrun
  have hexact := hu.good.blocks.exact
  refine ⟨hexact.used_iff, fun q q' b => hexact.once q q' b, fun b u' hb => ?_,
    fun a hr x u' hx => ?_⟩
  · have htook : Took u b u' := by
      refine (of_spec (balloc_spec (P := False) (U := ∅) (m := 0) hu.good.blocks.geometry
        hu.good.blocks.bit_meta ?_) hb).1
      exact ⟨⟨False.elim, False.elim, False.elim⟩, False.elim⟩
    have hfree : ¬ (b < u.sb.size ∧ u.bit b = true) := fun hb => by
      rw [htook.was_free] at hb
      cases hb.2
    exact ⟨Nat.le_of_not_lt fun hlt => hfree ((hexact.used_iff b).mpr (Or.inl hlt)),
      hexact.not_held hfree⟩
  · have hne := of_spec_error (hu.act a hr) hx
    exact hne

theorem smallFs_inv (T : Prop) (ht : T → Tight smallFs) :
    Inv (· < smallFs.sb.nmeta) T 8 smallFs := by
  have hmeta : smallFs.sb.nmeta = 8 := by decide
  refine ⟨hmeta ▸ smallFs_good, ht, rfl, fun k e he => ?_⟩
  obtain ⟨_, hr, rfl⟩ := entry_eq_some.mp he
  simp only [smallFs] at hr ⊢
  split at hr
  · simp_all
  · split at hr
    · simp_all
    · exact absurd hr (by decide)

/-- A write to the file of the small disk, a new inode that is put again, and a new name. -/
def someActs : List FsAct :=
  [.begin_op, .ilock 1, .writei 1 (fun _ => 7) 10 600, .iunlock 1, .ialloc T_FILE, .ilock 2,
    .update 2 (fun x => { x with nlink := 0 }), .iunlock 2, .iput 2, .ilock 0,
    .dirlink 0 [103] 2, .end_op]

theorem someActs_run :
    Called smallFs someActs ∧ ∃ u, runs.run FsAct.step smallFs someActs = some u := by
  rw [← isSome_iff_exists]
  unfold Called
  decide +kernel

theorem some_acts_allocate_exactly : ∃ u, Called smallFs someActs ∧
    runs.run FsAct.step smallFs someActs = some u ∧
    ((∀ b, b < u.sb.size ∧ u.bit b = true ↔
      b < smallFs.sb.nmeta ∨ ∃ q, held u.sb u.blocks u.dinode q = some b) ∧
    (∀ q q' b, held u.sb u.blocks u.dinode q = some b →
      held u.sb u.blocks u.dinode q' = some b → q = q') ∧
    (∀ b u', balloc u = .ok b u' →
      smallFs.sb.nmeta ≤ b ∧ ∀ q, held u.sb u.blocks u.dinode q ≠ some b) ∧
    ∀ a : FsAct, a.ready u = true →
      ∀ x u', a.prog u = .error x u' → x ≠ .panic "freeing free block") := by
  obtain ⟨hc, u, hu⟩ := someActs_run
  exact ⟨u, hc, hu, block_allocation_is_exact (smallFs_inv False False.elim) hc hu⟩

/-- A new name in the root, which is then put. -/
def linkInRoot : List FsAct :=
  [.begin_op, .iget 1, .ilock 0, .dirlink 0 [103] 2, .iunlock 0, .iput 0, .end_op]

/-- A root with a hole, as mkfs leaves it: reading the directory allocates the block of the
hole, and nothing writes the inode back. Once the inode is put the block is marked and
nothing holds it. -/
theorem a_hole_leaks_a_block : Cached holeFs ∧ Blocks (· < holeFs.sb.nmeta) holeFs holeFs.dinode ∧
    (∀ k < NINODE, holeFs.entry k = none) ∧ Called holeFs linkInRoot ∧
    ∃ u, runs.run FsAct.step holeFs linkInRoot = some u ∧ (∀ k < NINODE, u.entry k = none) ∧
      10 < u.sb.size ∧ u.bit 10 = true ∧ ¬ 10 < u.sb.nmeta ∧
      ∀ q, held u.sb u.blocks u.dinode q ≠ some 10 := by
  have hcalled : Called holeFs linkInRoot := by
    unfold Called
    decide +kernel
  obtain ⟨u, hu, hsb, hentry, hbit, haddr⟩ : ∃ u, runs.run FsAct.step holeFs linkInRoot = some u ∧
      u.sb = smallSb ∧ (∀ k < NINODE, u.entry k = none) ∧ u.bit 10 = true ∧
      ∀ i < 8, ∀ j ≤ NDIRECT, (u.dinode i).addr j < 10 ∧
      (j = NDIRECT → (u.dinode i).addr j = 0) := by
    decide +kernel
  refine ⟨holeFs_cached, holeFs_two.blocks, by decide, hcalled, u, hu,
    hentry, by rw [hsb]; decide, hbit, by rw [hsb]; decide, fun q hq => ?_⟩
  obtain ⟨i, p⟩ := q
  rw [hsb, held_direct fun hl => (haddr i hl.2.1 NDIRECT (Nat.le_refl _)).2 rfl] at hq
  obtain ⟨hl, j, hj, _, hb, _⟩ := hq
  have := (haddr i hl.2.1 j hj).1
  omega

/-! ## Sizes -/

/-- Inode `i` has exactly the blocks that its size asks for. -/
structure Filled (s : Fs) (i : Nat) : Prop where
  block : ∀ bn < MAXFILE, held s.sb s.blocks s.dinode (i, place bn) ≠ none ↔
    bn < ((s.dinode i).size.toNat + BSIZE - 1) / BSIZE
  indirect : held s.sb s.blocks s.dinode (i, .addr NDIRECT) ≠ none ↔
    NDIRECT * BSIZE < (s.dinode i).size.toNat

theorem indirect_of_entry {i j : Nat} (h : held s.sb s.blocks s.dinode (i, .entry j) ≠ none) :
    held s.sb s.blocks s.dinode (i, .addr NDIRECT) ≠ none := by
  obtain ⟨b, hb⟩ := ne_none_iff_exists'.mp h
  obtain ⟨hl, hp⟩ := held_eq_some.mp hb
  simp only [Dinode.holds] at hp
  split at hp
  · cases hp
  · rename_i hno
    have h0 : (s.dinode i).addr NDIRECT ≠ 0 := fun h0 => hno (Or.inl h0)
    rw [held, if_pos hl, Dinode.holds, if_pos (Nat.le_refl _), nonzero, if_neg h0]
    simp

theorem lt_blocks_iff (bn size : Nat) : bn < (size + BSIZE - 1) / BSIZE ↔ bn * BSIZE < size := by
  have hB : 0 < BSIZE := by decide
  rw [Nat.lt_iff_add_one_le, Nat.le_div_iff_mul_le hB]
  simp only [BSIZE]
  omega

theorem Good.filled {R : Nat → Prop} (h : Good R s) (ht : Tight s) {i : Nat}
    (hl : Live s.sb s.dinode i) (hty : (s.dinode i).type ≠ T_DEV) : Filled s i := by
  have hB : 0 < BSIZE := by decide
  refine ⟨fun bn _ => ?_, ?_⟩
  · rw [lt_blocks_iff]
    constructor
    · intro hne
      obtain ⟨b, hb⟩ := ne_none_iff_exists'.mp hne
      have := ht i hl hty _ b hb
      rwa [start_place] at this
    · intro hlt
      have := h.full i hl hty (bn * BSIZE) hlt
      rwa [Nat.mul_div_cancel _ hB] at this
  · constructor
    · intro hne
      obtain ⟨b, hb⟩ := ne_none_iff_exists'.mp hne
      exact ht i hl hty _ b hb
    · intro hlt
      have := h.full i hl hty (NDIRECT * BSIZE) hlt
      rw [Nat.mul_div_cancel _ hB] at this
      exact indirect_of_entry this

theorem tight_of_filled (h : ∀ i, Live s.sb s.dinode i → (s.dinode i).type ≠ T_DEV → Filled s i) :
    Tight s := by
  intro i hl hty p b hb
  have hne : held s.sb s.blocks s.dinode (i, p) ≠ none := by rw [hb]; simp
  have hf := h i hl hty
  cases p with
  | addr j =>
    have hj : j ≤ NDIRECT := by
      have hp := (held_eq_some.mp hb).2
      simp only [Dinode.holds] at hp
      split at hp
      · assumption
      · cases hp
    rcases Nat.lt_or_eq_of_le hj with hlt | rfl
    · have hplace : place j = .addr j := if_pos hlt
      rw [← hplace] at hne
      exact (lt_blocks_iff ..).mp ((hf.block j (Nat.lt_trans hlt (by decide))).mp hne)
    · exact hf.indirect.mp hne
  | entry j =>
    have hj : j < NINDIRECT := by
      have hp := (held_eq_some.mp hb).2
      simp only [Dinode.holds] at hp
      split at hp
      · cases hp
      · rename_i hno
        omega
    have hplace : place (NDIRECT + j) = .entry j := by simp [place]
    rw [← hplace] at hne
    exact (lt_blocks_iff ..).mp ((hf.block _ (Nat.add_lt_add_left hj _)).mp hne)

/-- Whatever the functions are that run: an inode that is no device has exactly the blocks that its
size asks for, and a valid copy in the cache is as on the disk. To read changes nothing, at any
offset and with or without a transaction. -/
theorem files_have_no_holes {R : Nat → Prop} {n : Nat} (h : Inv R False n s)
    (hf : ∀ i, Live s.sb s.dinode i → (s.dinode i).type ≠ T_DEV → Filled s i)
    (ha : Called s acts) (hrun : runs.run FsAct.step s acts = some u) :
    (∀ i, Live u.sb u.dinode i → (u.dinode i).type ≠ T_DEV → Filled u i) ∧
    (∀ k e, u.entry k = some e → e.valid = true → (u.icache k).din = u.dinode e.inum) ∧
    ∀ k f off len, u.locked k = some f → off < 2 ^ 32 → len < 2 ^ 32 →
      ∃ r, readi k off len u = .ok r u := by
  have hinv : Inv R True n s := ⟨h.good, fun _ => tight_of_filled hf, h.ninodes, h.inums⟩
  have hu := hinv.run ha hrun
  refine ⟨fun i hl hty => hu.good.filled (hu.tight trivial) hl hty, fun k e he hv => ?_,
    fun k f off len hl hoff hlen => ?_⟩
  · obtain ⟨hk, hr, rfl⟩ := entry_eq_some.mp he
    exact (hu.good.valid k hk hr hv).2
  · obtain ⟨r, v, hv, rfl⟩ := exists_of_spec (hu.good.readi_same hl hoff hlen)
    exact ⟨r, hv⟩

theorem smallFs_tight : Tight smallFs := by
  intro i hl _ p b hb
  rcases smallFs_two.held_iff.mp hb with ⟨hq, _⟩ | ⟨hq, _⟩
  · obtain ⟨rfl, rfl⟩ := Prod.mk.inj hq
    rw [smallFs_dinode.1]
    decide
  · obtain ⟨rfl, rfl⟩ := Prod.mk.inj hq
    rw [smallFs_dinode.2]
    decide

theorem some_acts_leave_no_holes : ∃ u, Called smallFs someActs ∧
    runs.run FsAct.step smallFs someActs = some u ∧
    ((∀ i, Live u.sb u.dinode i → (u.dinode i).type ≠ T_DEV → Filled u i) ∧
    (∀ k e, u.entry k = some e → e.valid = true → (u.icache k).din = u.dinode e.inum) ∧
    ∀ k f off len, u.locked k = some f → off < 2 ^ 32 → len < 2 ^ 32 →
      ∃ r, readi k off len u = .ok r u) := by
  obtain ⟨hc, u, hu⟩ := someActs_run
  exact ⟨u, hc, hu, files_have_no_holes (smallFs_inv False False.elim)
    (fun i hl hty => smallFs_good.filled smallFs_tight hl hty) hc hu⟩

end Blocks

end xv6.fs
