-- The main function of mkfs. The laws: when the files on the command line fit, the image has
-- the root directory with an entry for each of them, and each of them; when they do not, mkfs
-- does not end well.
import Xv6.MkfsFiles

open List bytes WP

namespace xv6.mkfs

open fs
open dir (Name Dirent strncpy)

/-! ## What should be on the image -/

/-- The bytes of a directory entry. -/
def entryBytes (inum : Nat) (name : Name) : List UInt8 :=
  (List.range 16).map (Dirent.byte { inum := inum, name := strncpy DIRSIZ name })

/-- The bytes that `read` returns in all. -/
def Arg.data (a : Arg) : List UInt8 := (a.reads.getD []).flatten

/-- The entries of the files, which get the inodes from `inum` on. -/
def entries : Nat → List Arg → List UInt8
  | _, [] => []
  | inum, a :: rest => entryBytes inum a.base ++ entries (inum + 1) rest

def rootBytes (args : List Arg) : List UInt8 :=
  entryBytes ROOTINO [46] ++ entryBytes ROOTINO [46, 46] ++ entries (ROOTINO + 1) args

/-- The files of the image. -/
def filesOf (args : List Arg) : List Item :=
  ⟨T_DIR, rootBytes args⟩ :: args.map fun a => ⟨T_FILE, a.data⟩

/-- The files are not too large and there are blocks for them. -/
structure Fits (files : List Item) : Prop where
  size : ∀ x ∈ files, x.bytes.length ≤ MAXFILE * BSIZE
  room : nmeta + (files.map fun x => blocksOf x.bytes.length).sum ≤ FSSIZE

/-- The files can be opened and have names that mkfs takes. -/
def Readable (args : List Arg) : Prop := ∀ a ∈ args, 47 ∉ a.name ∧ a.reads ≠ none

theorem length_entryBytes (inum : Nat) (name : Name) : (entryBytes inum name).length = 16 := by
  simp [entryBytes]

theorem length_entries (args : List Arg) (inum : Nat) :
    (entries inum args).length = 16 * args.length := by
  induction args generalizing inum with
  | nil => rfl
  | cons a args ih =>
    simp only [entries, length_append, length_entryBytes, ih, length_cons]
    omega

theorem length_rootBytes (args : List Arg) : (rootBytes args).length = 16 * (args.length + 2) := by
  simp only [rootBytes, length_append, length_entryBytes, length_entries]
  omega

/-! ## Files that fit -/

/-- The first files are there, and none is shorter. -/
def Shorter (files files' : List Item) : Prop :=
  ∀ (i : Nat) (x : Item), files[i]? = some x →
    ∃ y, files'[i]? = some y ∧ x.bytes.length ≤ y.bytes.length

section Fits

variable {files files' files'' : List Item} {j : Nat} {x y : Item}

theorem Shorter.trans (h : Shorter files files') (h' : Shorter files' files'') :
    Shorter files files'' := by
  intro i x hx
  obtain ⟨y, hy, hxy⟩ := h i x hx
  obtain ⟨z, hz, hyz⟩ := h' i y hy
  exact ⟨z, hz, Nat.le_trans hxy hyz⟩

theorem Shorter.append (files files' : List Item) : Shorter files (files ++ files') :=
  fun i x hx => by
  refine ⟨x, ?_, Nat.le_refl _⟩
  rw [List.getElem?_append_left (List.getElem?_eq_some_iff.mp hx).1]
  exact hx

theorem Shorter.set (hx : files[j]? = some x) (hle : x.bytes.length ≤ y.bytes.length) :
    Shorter files (files.set j y) := by
  intro i z hz
  by_cases hi : i = j
  · grind
  · grind

theorem Shorter.sum_le (h : Shorter files files') :
      (files.map fun x => blocksOf x.bytes.length).sum ≤
      (files'.map fun x => blocksOf x.bytes.length).sum := by
  induction files generalizing files' with
  | nil => exact Nat.zero_le _
  | cons x files ih =>
    cases files' with
    | nil =>
      obtain ⟨y, hy, _⟩ := h 0 x rfl
      cases hy
    | cons y files' =>
      obtain ⟨z, hz, hle⟩ := h 0 x rfl
      obtain rfl : y = z := Option.some.inj hz
      simp only [map_cons, sum_cons]
      exact Nat.add_le_add (blocksOf_mono hle) (ih fun i w hw => h (i + 1) w hw)

/-- A list of files without one that is longer fits where the list does. -/
theorem Fits.of_shorter (h : Fits files') (hs : Shorter files files') : Fits files := by
  refine ⟨fun x hx => ?_, Nat.le_trans (Nat.add_le_add_left hs.sum_le _) h.room⟩
  obtain ⟨i, hi⟩ := mem_iff_getElem?.mp hx
  obtain ⟨y, hy, hle⟩ := hs i x hi
  exact Nat.le_trans hle (h.size y (mem_of_getElem? hy))

/-- An append fails only if the files do not fit then. -/
theorem Exit.explained.not_fits {M : Image} {e : Exit} {p : Nat → UInt8} {n : Nat}
    (hv : Valid M files) (hx : files[j]? = some x) (he : e.explained M x.bytes.length n) :
    ¬ Fits (files.set j (x.append p n)) := by
  intro hf
  rcases he with ⟨_, hroom⟩ | ⟨_, hsize⟩
  · have hsum := sum_map_set (fun y : Item => blocksOf y.bytes.length) (b := x.append p n) hx
    have hfit := hf.room
    have hfb := hv.freeblock
    rw [Item.length_append] at hsum
    omega
  · have hmem : x.append p n ∈ files.set j (x.append p n) :=
      mem_of_getElem? (List.getElem?_set_self (List.getElem?_eq_some_iff.mp hx).1)
    have := hf.size _ hmem
    rw [Item.length_append] at this
    omega

end Fits

/-! ## The functions of main -/

section Main

variable {M : Image} {files : List Item} {j : Nat} {x root : Item}

/-- A file with more bytes. -/
def Item.add (x : Item) (bs : List UInt8) : Item := { x with bytes := x.bytes ++ bs }

theorem Item.add_add (x : Item) (as bs : List UInt8) : (x.add as).add bs = x.add (as ++ bs) := by
  simp [Item.add]

theorem copyReads_spec (rs : List (List UInt8)) : ∀ (M : Image) (files : List Item) (x : Item),
    Valid M files → files[j]? = some x → x.type ≠ T_DEV → (∀ buf ∈ rs, 0 < buf.length) →
    spec (copyReads (j + 1) rs) M (fun _ M' => Valid M' (files.set j (x.add rs.flatten)))
      (fun _ _ => ¬ Fits (files.set j (x.add rs.flatten))) := by
  induction rs with
  | nil =>
    intro M files x hv hx _ _
    rw [copyReads, spec_pure]
    have hsame : x.add [] = x := by simp [Item.add]
    obtain ⟨hlt, rfl⟩ := List.getElem?_eq_some_iff.mp hx
    rw [flatten_nil, hsame, set_getElem_self hlt]
    exact hv
  | cons buf rs ih =>
    intro M files x hv hx hty hpos
    have hlt := (List.getElem?_eq_some_iff.mp hx).1
    have happ : x.append (fun i => buf.getD i 0) buf.length = x.add buf := by
      rw [Item.append, map_getD_all]
      rfl
    have hx' : (files.set j (x.add buf))[j]? = some (x.add buf) := List.getElem?_set_self hlt
    have hend : (files.set j (x.add buf)).set j ((x.add buf).add rs.flatten) =
        files.set j (x.add (buf :: rs).flatten) := by
      rw [set_set, Item.add_add, flatten_cons]
    have hshort : Shorter (files.set j (x.add buf)) (files.set j (x.add (buf :: rs).flatten)) := by
      rw [← hend]
      exact Shorter.set hx' (by simp [Item.add])
    rw [copyReads, spec_bind]
    have hiapp := iappend_spec (p := fun i => buf.getD i 0) hv hx hty (hpos buf (mem_cons_self ..))
    rw [happ] at hiapp
    apply spec_mono hiapp
    · intro _ M' hv'
      have hrest := ih M' (files.set j (x.add buf)) (x.add buf) hv' hx' hty
        (fun b hb => hpos b (mem_cons_of_mem _ hb))
      rwa [hend] at hrest
    · intro e M' he hf
      have hno := he.not_fits (p := fun i => buf.getD i 0) hv hx
      rw [happ] at hno
      exact hno (hf.of_shorter hshort)

/-- An entry is added to the root directory. -/
theorem appendDirent_spec (hv : Valid M (root :: files)) (hty : root.type ≠ T_DEV) (inum : Nat)
    (name : Name) : spec (appendDirent ROOTINO { inum := inum, name := strncpy DIRSIZ name }) M
      (fun _ M' => Valid M' (root.add (entryBytes inum name) :: files))
      (fun _ _ => ¬ Fits (root.add (entryBytes inum name) :: files)) := by
  apply spec_mono (iappend_spec (j := 0) hv rfl hty (by decide))
  · exact fun _ _ h => h
  · intro e _ he
    exact he.not_fits (j := 0) hv rfl

/-- A file is added. -/
theorem addFile_spec (hv : Valid M (root :: files)) (hty : root.type ≠ T_DEV)
    (hroom : files.length + 2 < NINODES) (a : Arg) : spec (addFile ROOTINO a) M
      (fun _ M' => Valid M' (root.add (entryBytes (files.length + 2) a.base) ::
        (files ++ [⟨T_FILE, a.data⟩])))
      (fun _ _ => ¬ (Fits (root.add (entryBytes (files.length + 2) a.base) ::
        (files ++ [⟨T_FILE, a.data⟩])) ∧ 47 ∉ a.name ∧ a.reads ≠ none)) := by
  unfold addFile
  rw [spec_ite]
  refine ⟨fun hname => (spec_throw _).mpr fun h => h.2.1 hname, fun _ => ?_⟩
  cases hreads : a.reads with
  | none => exact (spec_throw _).mpr fun h => h.2.2 rfl
  | some rs =>
    have hdata : a.data = rs.flatten := by simp [Arg.data, hreads]
    have hpos : ∀ buf ∈ rs, 0 < buf.length := fun buf hb => (a.reads_ok rs hreads buf hb).1
    have hfile : T_FILE ≠ T_DEV := by decide
    rw [hdata]
    simp only [spec_bind]
    apply spec_mono (ialloc_spec hv hroom (by decide)) _ (fun _ _ he => he)
    rintro _ M1 ⟨rfl, hv1⟩
    rw [cons_append] at hv1
    have hlast : ∀ r : Item, (r :: (files ++ [(⟨T_FILE, []⟩ : Item)]))[files.length + 1]? =
        some ⟨T_FILE, []⟩ := fun r => by simp
    have hset : ∀ r : Item, (r :: (files ++ [(⟨T_FILE, []⟩ : Item)])).set (files.length + 1)
        (Item.add ⟨T_FILE, []⟩ rs.flatten) = r :: (files ++ [⟨T_FILE, rs.flatten⟩]) := fun r => by
      simp [Item.add]
    have hlong : ∀ r : Item, Shorter (r :: (files ++ [⟨T_FILE, []⟩]))
        (r :: (files ++ [⟨T_FILE, rs.flatten⟩])) := fun r => by
      rw [← hset r]
      exact Shorter.set (hlast r) (Nat.zero_le _)
    apply spec_mono (appendDirent_spec hv1 hty _ _)
    · intro _ M2 hv2
      have hcopy := copyReads_spec rs M2 _ _ hv2 (hlast _) hfile hpos
      rw [hset] at hcopy
      exact spec_mono hcopy (fun _ _ h => h) fun _ _ he h => he h.1
    · exact fun _ _ he h => he (h.1.of_shorter (hlong _))

theorem addFiles_spec (args : List Arg) : ∀ (M : Image) (root : Item) (files : List Item),
    Valid M (root :: files) → root.type ≠ T_DEV → files.length + 1 + args.length < NINODES →
    spec (addFiles ROOTINO args) M
        (fun _ M' => Valid M' (root.add (entries (files.length + 2) args) ::
        (files ++ args.map fun a => ⟨T_FILE, a.data⟩)))
      (fun _ _ => ¬ (Fits (root.add (entries (files.length + 2) args) ::
        (files ++ args.map fun a => ⟨T_FILE, a.data⟩)) ∧ Readable args)) := by
  induction args with
  | nil =>
    intro M root files hv _ _
    rw [addFiles, spec_pure]
    simpa [entries, Item.add] using hv
  | cons a args ih =>
    intro M root files hv hty hroom
    rw [length_cons] at hroom
    have hlen : (files ++ [(⟨T_FILE, a.data⟩ : Item)]).length = files.length + 1 := by simp
    have hend : (root.add (entryBytes (files.length + 2) a.base)).add
          (entries (files.length + 1 + 2) args) ::
          (files ++ [⟨T_FILE, a.data⟩] ++ args.map fun a => (⟨T_FILE, a.data⟩ : Item)) =
        root.add (entries (files.length + 2) (a :: args)) ::
          (files ++ (a :: args).map fun a => (⟨T_FILE, a.data⟩ : Item)) := by
      rw [Item.add_add, entries, map_cons, append_assoc, singleton_append]
    have hshort : Shorter (root.add (entryBytes (files.length + 2) a.base) ::
        (files ++ [⟨T_FILE, a.data⟩])) (root.add (entries (files.length + 2) (a :: args)) ::
          (files ++ (a :: args).map fun a => (⟨T_FILE, a.data⟩ : Item))) := by
      rw [← hend]
      refine Shorter.trans (Shorter.append _ (args.map fun a => ⟨T_FILE, a.data⟩)) ?_
      exact Shorter.set (j := 0) rfl (by simp [Item.add])
    rw [addFiles, spec_bind]
    apply spec_mono (addFile_spec hv hty (by omega) a)
    · intro _ M' hv'
      have hrest := ih M' _ _ hv' hty (by rw [hlen]; omega)
      rw [hlen, hend] at hrest
      exact spec_mono hrest (fun _ _ h => h) fun _ _ he h =>
        he ⟨h.1, fun b hb => h.2 b (mem_cons_of_mem _ hb)⟩
    · exact fun _ _ he h => he ⟨h.1.of_shorter hshort, h.2 a (mem_cons_self ..)⟩

end Main

/-! ## main -/

/-- The inode of the root directory with its size rounded up. -/
def Dinode.rounded (d : Dinode) : Dinode :=
  { d with size := UInt32.ofNat ((d.size.toNat / BSIZE + 1) * BSIZE) }

/-- The image with the size of the root directory fixed and the bitmap written. -/
def Image.finished (M : Image) : Image :=
  (M.setInode ROOTINO (Dinode.rounded ((M.kernel fun _ => noInode).dinode ROOTINO))).put
    sb.bmapstart (bitmap M.freeblock)

/-- What `main` leaves on the image, and why it fails. -/
theorem main_spec {args : List Arg} (hn : args.length + 1 < NINODES) : spec (main args) Image.start
      (fun _ M' => ∃ M, Valid M (filesOf args) ∧ M' = M.finished)
      (fun _ _ => ¬ (Fits (filesOf args) ∧ Readable args)) := by
  have hdir : T_DIR ≠ T_DEV := by decide
  have hshort : ∀ bs : List UInt8, bs <+: rootBytes args →
      Shorter [⟨T_DIR, bs⟩] (filesOf args) := fun bs hbs => by
    have hroot : Shorter [⟨T_DIR, bs⟩] [⟨T_DIR, rootBytes args⟩] :=
      Shorter.set (j := 0) rfl hbs.length_le
    exact hroot.trans (Shorter.append _ _)
  unfold main
  simp only [spec_bind]
  apply spec_mono format_spec _ (fun _ _ he => he)
  rintro _ _ rfl
  apply spec_mono (ialloc_spec blank_valid (by decide) (by decide)) _ (fun _ _ he => he)
  rintro r M0 ⟨hr, hv0⟩
  obtain rfl : r = ROOTINO := hr
  rw [if_neg (by decide), spec_bind]
  apply spec_mono (appendDirent_spec hv0 hdir _ _)
  swap
  · refine fun _ _ he h => he (h.1.of_shorter (hshort _ ?_))
    simp [rootBytes]
  intro _ M1 hv1
  rw [spec_bind]
  apply spec_mono (appendDirent_spec hv1 hdir _ _)
  swap
  · refine fun _ _ he h => he (h.1.of_shorter (hshort _ ?_))
    simp [rootBytes, Item.add]
  intro _ M2 hv2
  rw [spec_bind]
  have hfiles := addFiles_spec args M2 _ [] hv2 hdir (by simpa [Nat.add_comm] using hn)
  have hend : filesOf args = Item.add (Item.add (Item.add ⟨T_DIR, []⟩ (entryBytes ROOTINO [46]))
      (entryBytes ROOTINO [46, 46])) (entries (List.length ([] : List Item) + 2) args) ::
      ([] ++ args.map fun a => (⟨T_FILE, a.data⟩ : Item)) := by
    simp [filesOf, rootBytes, Item.add]
  rw [← hend] at hfiles
  apply spec_mono hfiles _ (fun _ _ he => he)
  intro _ M hv
  have hroot : ROOTINO < NINODES := by decide
  unfold fixRoot balloc
  rw [spec_bind, spec_bind, spec_rinode hv.ready (mounted_kernel M fun _ => noInode) hroot]
  rw [spec_winode hv.ready hroot, spec_bind, spec_get, spec_ite]
  refine ⟨fun _ => ?_, fun hbig => ?_⟩
  · rw [spec_wsect (hv.ready.setInode hroot) (by decide)]
    exact ⟨M, hv, rfl⟩
  · exact absurd (Nat.lt_of_le_of_lt hv.ready.hi (by decide)) hbig

end xv6.mkfs
