-- The kernel looks up the files of an image of mkfs. The law: dirlookup on the root directory finds
-- every file under its stored name, and readi returns its bytes.
import Xv6.MkfsBoot

open List bytes WP

namespace xv6.mkfs

open fs
open dir (Name Dirent strncpy strncmp namecmp dirlookup lookupFrom readDirent dirent turns)

/-! ## The entries of the root directory -/

/-- The name that mkfs stores: without a leading '_', and cut to what fits. -/
def Arg.stored (a : Arg) : Name := a.base.take DIRSIZ

theorem Arg.base_ok (a : Arg) : 0 ∉ a.base := by
  unfold Arg.base
  split
  · exact fun h => a.name_ok (mem_of_mem_tail h)
  · exact a.name_ok

variable {args : List Arg}

/-- The bytes of the entry of file `j`. -/
theorem getD_entries {j b inum : Nat} {a : Arg} (ha : args[j]? = some a) (hb : b < 16) :
    (entries inum args).getD (16 * j + b) 0 = (entryBytes (inum + j) a.base).getD b 0 := by
  induction args generalizing j inum with
  | nil => simp at ha
  | cons c args ih =>
    have hlen := length_entryBytes inum c.base
    rw [entries]
    cases j with
    | zero =>
      obtain rfl : c = a := by simpa using ha
      rw [Nat.mul_zero, Nat.zero_add, getD_append _ _ _ _ (by omega), Nat.add_zero]
    | succ j =>
      rw [getD_append_right _ _ _ _ (by omega), hlen,
        show 16 * (j + 1) + b - 16 = 16 * j + b by omega, ih (by simpa using ha),
        Nat.add_assoc, Nat.add_comm 1 j]

/-- The number and the name of entry `e` of the root directory. -/
def rootEntry (args : List Arg) : Nat → Nat × Name
  | 0 => (ROOTINO, [46])
  | 1 => (ROOTINO, [46, 46])
  | e + 2 => (e + 2, (args[e]?.map Arg.base).getD [])

theorem getD_rootBytes {e b : Nat} (he : e < args.length + 2) (hb : b < 16) :
    (rootBytes args).getD (16 * e + b) 0 =
      (entryBytes (rootEntry args e).1 (rootEntry args e).2).getD b 0 := by
  have h1 := length_entryBytes ROOTINO [46]
  have h2 := length_entryBytes ROOTINO [46, 46]
  unfold rootBytes
  match e with
  | 0 =>
    rw [append_assoc, getD_append _ _ _ _ (by omega), Nat.mul_zero, Nat.zero_add]
    rfl
  | 1 =>
    rw [append_assoc, getD_append_right _ _ _ _ (by omega),
      getD_append _ _ _ _ (by omega), h1, Nat.add_sub_cancel_left]
    rfl
  | e + 2 =>
    have hlt : e < args.length := by omega
    have hget := List.getElem?_eq_getElem hlt
    rw [getD_append_right _ _ _ _ (by rw [length_append]; omega), length_append, h1, h2,
      show 16 * (e + 2) + b - (16 + 16) = 16 * e + b by omega, getD_entries hget hb,
      Nat.add_comm _ e]
    simp only [rootEntry, hget, Option.map_some, Option.getD_some]

/-- An entry of the root directory, as the kernel reads it. -/
theorem dirent_rootBytes {e : Nat} (he : e < args.length + 2) (hn : args.length + 1 < NINODES) :
    dirent (slice (fun a => (rootBytes args).getD a 0) (16 * e) 16) =
      { inum := (rootEntry args e).1, name := strncpy DIRSIZ (rootEntry args e).2 } := by
  have hbytes : slice (fun a => (rootBytes args).getD a 0) (16 * e) 16 =
      entryBytes (rootEntry args e).1 (rootEntry args e).2 := by
    apply ext_getElem
    · rw [length_slice, length_entryBytes]
    · intro b h1 h2
      rw [length_entryBytes] at h2
      simp only [slice, getElem_map, getElem_range]
      rw [getD_rootBytes he h2, getD_eq_getElem _ _ (by rwa [length_entryBytes])]
  have hinum : (rootEntry args e).1 < 2 ^ 16 := by
    rcases e with _ | _ | e
    · simp [rootEntry]
    · simp [rootEntry]
    · simp only [rootEntry, NINODES] at *
      omega
  rw [hbytes]
  exact dir.dirent_byte hinum (dir.length_strncpy ..)

/-- The name of file `j` is found at its entry. -/
theorem namecmp_self {j : Nat} {a : Arg} (ha : args[j]? = some a) :
    namecmp a.stored (strncpy DIRSIZ (rootEntry args (j + 2)).2) = 0 := by
  simp only [rootEntry, ha, Option.map_some, Option.getD_some]
  exact (dir.strncmp_strncpy a.base_ok a.base_ok).mpr rfl

/-- ... and at no entry before it. -/
theorem namecmp_other {j e : Nat} {a : Arg} (ha : args[j]? = some a) (he : e < j + 2)
    (hnodup : (args.map Arg.stored).Nodup) (hdot : a.stored ≠ [46]) (hdots : a.stored ≠ [46, 46]) :
    namecmp a.stored (strncpy DIRSIZ (rootEntry args e).2) ≠ 0 := by
  match e with
  | 0 =>
    exact fun h => hdot ((dir.strncmp_strncpy a.base_ok (show 0 ∉ [46] by decide)).mp h)
  | 1 =>
    exact fun h => hdots ((dir.strncmp_strncpy a.base_ok (show 0 ∉ [46, 46] by decide)).mp h)
  | e + 2 =>
    obtain ⟨hj, rfl⟩ := List.getElem?_eq_some_iff.mp ha
    have hlt : e < args.length := by omega
    simp only [rootEntry, List.getElem?_eq_getElem hlt, Option.map_some, Option.getD_some]
    intro h
    have hsame := (dir.strncmp_strncpy args[j].base_ok args[e].base_ok).mp h
    have hj' : j < (args.map Arg.stored).length := by simpa using hj
    have he' : e < (args.map Arg.stored).length := by simpa using hlt
    have hstored : (args.map Arg.stored)[j] = (args.map Arg.stored)[e] := by
      simpa [Arg.stored] using hsame
    have := (List.Nodup.getElem_inj_iff hnodup).mp hstored
    omega

/-! ## The inode cache -/

/-- The kernel has the root directory locked in entry `r`, no other inode locked, and an entry of
the inode cache to spare. -/
structure Rooted (s : Fs) (r : Nat) : Prop where
  cached : Cached s
  root : InUse s r
  inum : (s.icache r).inum = ROOTINO
  idle : ∀ k < NINODE, k ≠ r → 0 < (s.icache k).ref → (s.icache k).busy = false
  spare : ∃ k < NINODE, (s.icache k).ref = 0

/-- Entry `k` is for inode `i` after `iget`. -/
structure Got (s : Fs) (i k : Nat) (u : Fs) : Prop where
  sb : u.sb = s.sb
  blocks : u.blocks = s.blocks
  inum : (u.icache k).inum = i
  ref : 0 < (u.icache k).ref
  busy : (u.icache k).busy = true → k < NINODE ∧ 0 < (s.icache k).ref ∧
    (s.icache k).inum = i ∧ (s.icache k).busy = true
  valid : (u.icache k).valid = true → (u.icache k).din = s.dinode i

section Cache

variable {s u v : Fs} {r i k : Nat} {E : Stop → Fs → Prop}

theorem iget_got (hc : Cached s) (hspare : ∃ k < NINODE, (s.icache k).ref = 0) (i : Nat) :
    spec (fs.iget ROOTDEV i) s (fun k u => Got s i k u) E := by
  unfold fs.iget
  simp only [spec_bind, spec_get]
  cases hf : s.first fun ip => decide (ip.ref > 0 ∧ ip.dev = ROOTDEV ∧ ip.inum = i) with
  | some k =>
    obtain ⟨hk, htest⟩ := first_eq_some hf
    obtain ⟨hr, _, rfl⟩ := of_decide_eq_true htest
    have hr : 0 < (s.icache k).ref := hr
    simp only [spec_bind, spec_setInode, spec_pure]
    refine ⟨rfl, rfl, ?_, ?_, ?_, ?_⟩ <;> rw [icache_withSlot, if_pos rfl]
    · grind
    · grind
    · exact fun hv => (hc.valid k hk hr hv).2
  | none =>
    cases hg : s.first fun ip => decide (ip.ref = 0) with
    | none =>
      grind [first_eq_none]
    | some k =>
      simp only [spec_bind, spec_setInode, spec_pure]
      refine ⟨rfl, rfl, ?_, ?_, ?_, ?_⟩ <;> rw [icache_withSlot, if_pos rfl]
      · exact Int.one_pos
      · exact fun hb => by cases hb
      · exact fun hv => by cases hv

/-- `ilock` of an inode on the disk that nobody has locked. -/
theorem ilock_got (hg : Got s i k u) (hidle : (u.icache k).busy = false)
    (hty : (s.dinode i).type ≠ 0) :
    spec (fs.ilock k) u (fun _ v => v.sb = s.sb ∧ v.blocks = s.blocks ∧ Copies v k i) E := by
  have hdisk : ∀ ip, dinodeAt ((u.withSlot k ip).blocks (IBLOCK (u.icache k).inum u.sb))
      ((u.icache k).inum % IPB) = s.dinode i := fun ip => by
    rw [show (u.withSlot k ip).blocks = u.blocks from rfl, hg.inum, hg.sb, hg.blocks]
    rfl
  have hsame : ∀ ip, (u.withSlot k ip).dinode i = s.dinode i := fun ip => by
    unfold Fs.dinode
    rw [show (u.withSlot k ip).sb = u.sb from rfl,
      show (u.withSlot k ip).blocks = u.blocks from rfl, hg.sb, hg.blocks]
  have href := hg.ref
  unfold fs.ilock
  simp only [bread, spec_bind, spec_get]
  rw [if_neg (by omega), if_neg (by simp [hidle])]
  simp only [spec_bind, spec_ite, spec_setInode, spec_pure, spec_throw, spec_get,
    withSlot_withSlot, hdisk]
  refine ⟨fun _ => ⟨fun h0 => absurd h0 hty, fun _ => ⟨hg.sb, hg.blocks, ?_, ?_⟩⟩,
    fun hv => ⟨hg.sb, hg.blocks, ?_, ?_⟩⟩
  · rw [icache_withSlot, if_pos rfl]
    simpa [icache_withSlot] using hg.inum
  · rw [hsame, icache_withSlot, if_pos rfl]
  · rw [icache_withSlot, if_pos rfl]
    exact hg.inum
  · grind [icache_withSlot, hg.valid]

end Cache

/-! ## The lookup -/

section Lookup

variable {args : List Arg} {s : Fs} {r j : Nat} {a : Arg} {E : Stop → Fs → Prop}

/-- The bytes of a file that are there are read. -/
theorem readi_there {R : Nat → Prop} {k off n : Nat} (ho : Opened R s k)
    (hty : (s.icache k).din.type ≠ T_DEV) (hle : off + n ≤ (s.icache k).din.size.toNat)
    (hmax : off + n ≤ MAXFILE * BSIZE) (hthere : ∀ x, off ≤ x → x < off + n →
      s.places k ((s.icache k).inum, place (x / BSIZE)) ≠ none)
    {Q : Option (List UInt8) → Fs → Prop}
    (hQ : Q (some (slice (s.byte k (s.icache k).inum) off n)) s) :
      spec (fs.readi k off n) s Q E := by
  have huint : uint (off + n) = off + n := by grind
  unfold fs.readi
  simp only [spec_bind, spec_get]
  rw [if_neg hty, if_neg (by omega), huint, if_neg (by omega)]
  simp only [spec_bind, spec_pure]
  exact readLoop_spec ho _ _ _ _ (Nat.le_refl _) hmax hthere hQ

theorem Rooted.copies (hr : Rooted s r) : Copies s r ROOTINO := by
  obtain ⟨_, hdin⟩ := hr.cached.valid r hr.root.lt hr.root.ref hr.root.valid
  rw [hr.inum] at hdin
  exact ⟨hr.inum, hdin⟩

/-- An entry of the root directory is read. -/
theorem readDirent_root (h : Holds s (filesOf args)) (hr : Rooted s r)
    (hn : args.length + 1 < NINODES) {e : Nat} (he : e < args.length + 2) {msg : String}
    {Q : Dirent → Fs → Prop}
    (hQ : Q { inum := (rootEntry args e).1, name := strncpy DIRSIZ (rootEntry args e).2 } s) :
    spec (readDirent (m := FsM) r (16 * e) msg) s Q E := by
  have hshows := h.shows 0 _ (show (filesOf args)[0]? = some ⟨T_DIR, rootBytes args⟩ from rfl)
  have hc := hr.copies
  have hlen := length_rootBytes args
  have hdir : T_DIR ≠ T_DEV := by decide
  have hbyte : s.byte r (s.icache r).inum = fun b => (rootBytes args).getD b 0 := by
    funext b
    unfold Fs.byte
    rw [hc.view, hc.inum]
    exact hshows.byte b
  have hread : spec (fs.readi r (16 * e) 16) s (fun o t => t = s ∧
      o = some (slice (fun b => (rootBytes args).getD b 0) (16 * e) 16)) E := by
    apply readi_there (hc.opened h hshows)
    · rw [hc.din, hshows.type]
      exact hdir
    · rw [hc.din, hshows.size, sizeOf, if_pos rfl]
      simp only [BSIZE]
      omega
    · grind
    · grind [hc.inum, Fs.places, hc.view, hshows.packed.full]
    · grind
  unfold readDirent
  rw [spec_bind]
  apply spec_mono hread _ (fun _ _ h => h)
  rintro _ _ ⟨rfl, rfl⟩
  dsimp only
  rw [if_neg (by simp), spec_pure, dirent_rootBytes he hn]
  exact hQ

/-- The loop of `dirlookup` comes to the entry of the file. -/
theorem lookupFrom_root (h : Holds s (filesOf args)) (hr : Rooted s r)
    (hn : args.length + 1 < NINODES) (ha : args[j]? = some a)
    (hnodup : (args.map Arg.stored).Nodup) (hdot : a.stored ≠ [46]) (hdots : a.stored ≠ [46, 46])
    (d : Nat) : ∀ e n, e + d = j + 2 → d < n →
    spec (lookupFrom (m := FsM) r a.stored n (16 * e)) s
      (fun o u => ∃ k, o = some (k, 16 * (j + 2)) ∧ Got s (j + 2) k u) E := by
  have hj : j < args.length := (List.getElem?_eq_some_iff.mp ha).1
  have hinum : ∀ e, (rootEntry args e).1 ≠ 0 := fun e => by
    match e with
    | 0 | 1 => simp [rootEntry]
    | e + 2 => simp [rootEntry]
  induction d with
  | zero =>
    intro e n he hlt
    obtain ⟨n, rfl⟩ := Nat.exists_eq_succ_of_ne_zero (Nat.ne_of_gt hlt)
    obtain rfl : e = j + 2 := he
    rw [lookupFrom, spec_bind]
    apply readDirent_root h hr hn (by omega)
    rw [if_pos ⟨hinum _, namecmp_self ha⟩, spec_bind]
    have hdev : (s.icache r).dev = ROOTDEV := hr.cached.dev r hr.root.lt hr.root.ref
    have hstat : spec (dir.Inodes.stat (m := FsM) r) s (fun d t => t = s ∧ d.dev = ROOTDEV) E := by
      show spec (fs.stat r) s _ _
      unfold fs.stat
      simp only [spec_bind, spec_get, spec_pure, true_and]
      exact hdev
    apply spec_mono hstat _ (fun _ _ h => h)
    rintro d _ ⟨rfl, hd⟩
    rw [hd, spec_bind]
    apply spec_mono (iget_got hr.cached hr.spare (j + 2)) _ (fun _ _ h => h)
    intro k u hg
    exact (spec_pure _).mpr ⟨k, rfl, hg⟩
  | succ d ih =>
    intro e n he hlt
    obtain ⟨n, rfl⟩ := Nat.exists_eq_succ_of_ne_zero (Nat.ne_of_gt (Nat.zero_lt_of_lt hlt))
    rw [lookupFrom, spec_bind]
    apply readDirent_root h hr hn (by omega)
    rw [if_neg (fun hc => namecmp_other ha (by omega) hnodup hdot hdots hc.2),
      show 16 * e + 16 = 16 * (e + 1) by omega]
    exact ih (e + 1) n (by omega) (by omega)

theorem dirlookup_root (h : Holds s (filesOf args)) (hr : Rooted s r)
    (hn : args.length + 1 < NINODES) (ha : args[j]? = some a)
    (hnodup : (args.map Arg.stored).Nodup) (hdot : a.stored ≠ [46]) (hdots : a.stored ≠ [46, 46]) :
    spec (dirlookup (m := FsM) r a.stored) s
      (fun o u => ∃ k, o = some (k, 16 * (j + 2)) ∧ Got s (j + 2) k u) E := by
  have hshows := h.shows 0 _ (show (filesOf args)[0]? = some ⟨T_DIR, rootBytes args⟩ from rfl)
  have hc := hr.copies
  have hj : j < args.length := (List.getElem?_eq_some_iff.mp ha).1
  have hstat : spec (dir.Inodes.stat (m := FsM) r) s (fun d t => t = s ∧ d.type = T_DIR ∧
      16 * (args.length + 2) ≤ d.size) E := by
    show spec (fs.stat r) s _ _
    unfold fs.stat
    simp only [spec_bind, spec_get, spec_pure, true_and]
    rw [hc.din, hshows.type, hshows.size, sizeOf, if_pos rfl, length_rootBytes]
    refine ⟨rfl, ?_⟩
    simp only [BSIZE]
    omega
  unfold dirlookup
  rw [spec_bind]
  apply spec_mono hstat _ (fun _ _ h => h)
  rintro d _ ⟨rfl, hty, hsize⟩
  rw [if_neg (by rw [hty]; simp)]
  apply lookupFrom_root h hr hn ha hnodup hdot hdots (j + 2) 0 _ (Nat.zero_add _)
  unfold dir.turns
  omega

end Lookup

/-! ## The law -/

/-- The blocks that the files and the root directory take. -/
def blocksFor (args : List Arg) : Nat :=
  blocksOf (16 * (args.length + 2)) + (args.map fun a => blocksOf a.data.length).sum

theorem fits_of (hn : args.length ≤ NINODES - 2)
    (hsize : ∀ a ∈ args, a.data.length ≤ MAXFILE * BSIZE)
    (hroom : nmeta + blocksFor args ≤ FSSIZE) :
    Fits (filesOf args) := by
  refine ⟨fun x hx => ?_, ?_⟩
  · simp only [filesOf, mem_cons, mem_map] at hx
    rcases hx with rfl | ⟨a, ha, rfl⟩
    · grind [length_rootBytes]
    · exact hsize a ha
  · have hsum : ((filesOf args).map fun x => blocksOf x.bytes.length).sum = blocksFor args := by
      simp only [filesOf, map_cons, sum_cons, length_rootBytes, blocksFor, map_map,
        Function.comp_def]
    rwa [hsum]

/-- The first bytes of a file. -/
theorem slice_getD (bs : List UInt8) (n : Nat) :
    slice (fun b => bs.getD b 0) 0 (min (0 + n) bs.length - 0) = bs.take n := by
  apply ext_getElem
  · simp
  · intro b h1 h2
    rw [length_take] at h2
    simp only [slice, getElem_map, getElem_range, Nat.zero_add, getElem_take]
    exact getD_eq_getElem _ _ (by omega)

/-- On files with distinct names that fit, mkfs ends well, and a kernel that boots from the image
finds every file under its stored name in the root directory and reads its bytes. The bitmap marks
the meta blocks and what the inodes hold. -/
theorem the_kernel_finds_the_files (args : List Arg) (hopen : Readable args)
    (hn : args.length ≤ NINODES - 2) (hsize : ∀ a ∈ args, a.data.length ≤ MAXFILE * BSIZE)
    (hroom : nmeta + blocksFor args ≤ FSSIZE) (hnodup : (args.map Arg.stored).Nodup)
    (hdots : ∀ a ∈ args, a.stored ≠ [46] ∧ a.stored ≠ [46, 46]) :
    ∃ M, main args Image.start = .ok () M ∧ ∀ s, Boots M s →
      (∀ b < BPB, s.bit b = true ↔ b < nmeta ∨
        ∃ i p, Live s.sb s.dinode i ∧ (s.dinode i).holds s.blocks p = some b) ∧
      ∀ r, Rooted s r → ∀ j a, args[j]? = some a → ∀ n < 2 ^ 32,
        ∃ k off u v, dirlookup (m := FsM) r a.stored s = .ok (some (k, off)) u ∧
          fs.ilock k u = .ok () v ∧
          (v.icache k).inum = j + 2 ∧ fs.readi k 0 n v = .ok (some (a.data.take n)) v := by
  have hlt : args.length + 1 < NINODES := Nat.add_le_of_le_sub (by decide) hn
  obtain ⟨M, hrun, hv⟩ := main_ok args hlt (fits_of hn hsize hroom) hopen
  refine ⟨M.finished, hrun, fun s hs => ⟨fun b hb => ?_, fun r hr j a ha n hnn => ?_⟩⟩
  · have h := hv.boots_holds hs
    have hex := h.blocks.exact.used_iff b
    have hsz : s.sb.size = FSSIZE := by rw [h.sb]; rfl
    rw [hsz] at hex
    constructor
    · intro hbit
      rcases hex.mp ⟨h.bit b hb hbit, hbit⟩ with hm | ⟨q, hq⟩
      · exact Or.inl hm
      · exact Or.inr ⟨q.1, q.2, held_eq_some.mp hq⟩
    · rintro (hm | ⟨i, p, hp⟩)
      · exact (hex.mpr (Or.inl hm)).2
      · exact (hex.mpr (Or.inr ⟨(i, p), held_eq_some.mpr hp⟩)).2
  · have h := hv.boots_holds hs
    have hmem : a ∈ args := List.mem_of_getElem? ha
    have hitem : (filesOf args)[j + 1]? = some ⟨T_FILE, a.data⟩ := by
      simp [filesOf, ha]
    have hshows := h.shows (j + 1) _ hitem
    have hlook : spec (dirlookup (m := FsM) r a.stored) s _ fun _ _ => False :=
      dirlookup_root h hr hlt ha hnodup (hdots a hmem).1 (hdots a hmem).2
    obtain ⟨_, u, hu, k, rfl, hg⟩ := exists_of_spec hlook
    have hidle : (u.icache k).busy = false := by
      by_contra hb
      obtain ⟨hk, href, hin, hb⟩ := hg.busy (by simpa using hb)
      by_cases hkr : k = r
      · rw [hkr, hr.inum] at hin
        simp only [ROOTINO] at hin
        omega
      · rw [hr.idle k hk hkr href] at hb
        cases hb
    obtain ⟨_, v, hv', hsb, hbl, hc⟩ := exists_of_spec (ilock_got (E := fun _ _ => False) hg hidle
      hshows.live.2.2)
    have hh : Holds v (filesOf args) := hv.boots_holds ⟨hsb.trans hs.sb, hbl.trans hs.blocks⟩
    have hsv := hh.shows (j + 1) _ hitem
    have hw : Whole (· < nmeta) v k := by
      refine hc.whole hh hsv (by simp only; decide) (hsv.full_iff.mpr ?_)
      omega
    refine ⟨k, _, u, v, hu, hv', hc.inum, ?_⟩
    rw [hw.readi_eq (by decide) hnn, if_pos ⟨Nat.zero_le _, by omega⟩]
    have hlen : (v.icache k).din.size.toNat = a.data.length := by
      rw [hc.din, hsv.size]
      rfl
    have hbyte : v.byte k (v.icache k).inum = fun b => a.data.getD b 0 := by
      funext b
      unfold Fs.byte
      rw [hc.view, hc.inum]
      exact hsv.byte b
    rw [hlen, hbyte, slice_getD]

/-- There is a kernel with the root directory open. -/
theorem exists_rooted {M : Image} (hv : Valid M (filesOf args)) :
    ∃ s, Boots M.finished s ∧ Rooted s 0 := by
  obtain ⟨s0, hs0⟩ := exists_boots M.finished
  have hs : Boots M.finished { s0 with icache := oneInode ROOTINO (s0.dinode ROOTINO) } :=
    ⟨hs0.sb, hs0.blocks⟩
  have hlive := ((hv.boots_holds hs).shows 0 _ rfl).live
  refine ⟨_, hs, cached_one rfl hlive, ⟨by decide, Int.one_pos, rfl⟩, rfl, fun k _ hk hr => ?_, 1,
    by decide, rfl⟩
  exact absurd (oneInode_ref hr) hk

/-- The file "_b" with the bytes 1, 2, 3, which `read` returns in two parts. -/
def threeBytes : Arg :=
  { name := [95, 98], reads := some [[1, 2],
  [3]], name_ok := by decide, reads_ok := by simp [BSIZE] }

/-- The law for the files "a" and "_b": an empty file, and a file that is stored
under the name "b". -/
theorem the_kernel_finds_two_files :
    ∃ M s, main [emptyArg, threeBytes] Image.start = .ok () M ∧ Boots M s ∧ Rooted s 0 ∧
      ∃ k off u v, dirlookup (m := FsM) 0 [98] s = .ok (some (k, off)) u ∧ fs.ilock k u = .ok () v ∧
        fs.readi k 0 512 v = .ok (some [1, 2, 3]) v := by
  have hopen : Readable [emptyArg, threeBytes] := by simp [Readable, emptyArg, threeBytes]
  have hsize : ∀ a ∈ [emptyArg, threeBytes], a.data.length ≤ MAXFILE * BSIZE := by decide
  have hroom : nmeta + blocksFor [emptyArg, threeBytes] ≤ FSSIZE := by decide
  obtain ⟨M, hrun, h⟩ := the_kernel_finds_the_files [emptyArg, threeBytes] hopen
    (by decide) hsize hroom (by decide) (by decide)
  obtain ⟨M0, hrun0, hv⟩ := main_ok [emptyArg, threeBytes] (by decide)
    (fits_of (by decide) hsize hroom) hopen
  obtain rfl : M0.finished = M := by
    rw [hrun0] at hrun
    injection hrun
  obtain ⟨s, hs, hr⟩ := exists_rooted hv
  obtain ⟨k, off, u, v, hu, hv, _, hread⟩ := (h s hs).2 0 hr 1 threeBytes rfl 512 (by decide)
  exact ⟨_, s, hrun, hs, hr, k, off, u, v, hu, hv, hread⟩

end xv6.mkfs
