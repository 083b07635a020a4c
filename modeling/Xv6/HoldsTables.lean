-- The laws of the system calls that open and close files, over the references to inodes that the
-- processes and the open files have, and those of exec, read, write and fstat.
import Xv6.HoldsCalls
import Xv6.Places

open Option Multiset prog WP places

namespace xv6.sysfile

open sysread (OpenFile)

/-! ## The references of the tables -/

/-- The current directory of a process. -/
def procRefs : Option Proc → Multiset Nat
  | none => 0
  | some proc => {proc.cwd}

/-- The inode of an open file. -/
def fileRefs (x : OpenFile) : Multiset Nat := if 0 < x.ref ∧ x.type = .FD_INODE then {x.ip} else 0

namespace Tables

/-- The entries of the inode cache that the processes and the open files refer to. -/
def refs (t : Tables) : Multiset Nat :=
  ∑ p ∈ Finset.range NPROC, procRefs (t.procs p) + ∑ f ∈ Finset.range NFILE, fileRefs (t.ftable f)

/-- A file that is not open has no type, and descriptors are for files of the table. -/
structure Ok (t : Tables) : Prop where
  nonneg : ∀ f, 0 ≤ (t.ftable f).ref
  free : ∀ f, (t.ftable f).ref = 0 → (t.ftable f).type = .FD_NONE
  slot : ∀ p proc, t.procs p = some proc → p < NPROC
  ofile : ∀ p proc fd f, t.procs p = some proc → proc.ofile fd = some f → f < NFILE

end Tables

section

variable {t : Tables} {p f k : Nat} {x : OpenFile}

theorem refs_setProc (hp : p < NPROC) (y : Option Proc) :
    (t.setProc p y).refs + procRefs (t.procs p) = t.refs + procRefs y := by
  have h := sum_update procRefs t.procs hp y
  unfold Tables.refs Tables.setProc
  rw [add_right_comm, h, add_right_comm]

theorem refs_setFile (hf : f < NFILE) (x : OpenFile) :
    (t.setFile f x).refs + fileRefs (t.ftable f) = t.refs + fileRefs x := by
  have h := sum_update fileRefs t.ftable hf x
  unfold Tables.refs Tables.setFile
  rw [add_assoc, h, ← add_assoc]

/-- A process keeps its current directory. -/
theorem refs_setProc_same {proc : Proc} (hp : p < NPROC) (h : t.procs p = some proc)
    (o : Nat → Option Nat) : (t.setProc p (some { proc with ofile := o })).refs = t.refs := by
  have := refs_setProc (t := t) hp (some { proc with ofile := o })
  rw [h] at this
  exact add_right_cancel this

/-- A file stays open, or not open, with the same inode. -/
theorem refs_setFile_same (hf : f < NFILE) (h : fileRefs x = fileRefs (t.ftable f)) :
    (t.setFile f x).refs = t.refs := by
  have := refs_setFile (t := t) hf x
  rw [h] at this
  exact add_right_cancel this

theorem cwd_mem {proc : Proc} (ht : t.Ok) (h : t.procs p = some proc) : proc.cwd ∈ t.refs := by
  have hle : procRefs (t.procs p) ≤ ∑ p ∈ Finset.range NPROC, procRefs (t.procs p) :=
    Finset.single_le_sum (f := fun p => procRefs (t.procs p)) (fun _ _ => zero_le _)
      (Finset.mem_range.mpr (ht.slot p proc h))
  refine mem_of_le (hle.trans (le_add_right _ _)) ?_
  rw [h]
  exact mem_singleton_self _

theorem ip_mem (hf : f < NFILE) (hr : 0 < (t.ftable f).ref)
    (htype : (t.ftable f).type = .FD_INODE) :
    (t.ftable f).ip ∈ t.refs := by
  have hle : fileRefs (t.ftable f) ≤ ∑ f ∈ Finset.range NFILE, fileRefs (t.ftable f) :=
    Finset.single_le_sum (f := fun f => fileRefs (t.ftable f)) (fun _ _ => zero_le _)
      (Finset.mem_range.mpr hf)
  refine mem_of_le (hle.trans (le_add_left _ _)) ?_
  rw [fileRefs, if_pos ⟨hr, htype⟩]
  exact mem_singleton_self _

theorem ftable_setFile (f f' : Nat) (x : OpenFile) :
    (t.setFile f x).ftable f' = if f' = f then x else t.ftable f' :=
  Function.update_apply ..

theorem Tables.Ok.setFile (ht : t.Ok) (h0 : 0 ≤ x.ref) (hfree : x.ref = 0 → x.type = .FD_NONE) :
    (t.setFile f x).Ok := by
  refine ⟨fun f' => ?_, fun f' => ?_, ht.slot, ht.ofile⟩
  · rw [ftable_setFile]
    split
    · exact h0
    · exact ht.nonneg f'
  · grind [ftable_setFile, ht.free]

theorem Tables.Ok.setProc (ht : t.Ok) (hp : p < NPROC) {y : Option Proc}
    (h : ∀ proc fd f, y = some proc → proc.ofile fd = some f → f < NFILE) : (t.setProc p y).Ok := by
  have happly : ∀ q, (t.setProc p y).procs q = if q = p then y else t.procs q :=
    fun q => Function.update_apply ..
  refine ⟨ht.nonneg, ht.free, fun q proc hq => ?_, fun q proc fd f hq => ?_⟩
  · rw [happly] at hq
    split at hq
    · rename_i he
      exact he ▸ hp
    · exact ht.slot q proc hq
  · grind [ht.ofile]

end

end xv6.sysfile

namespace xv6.ops

open dir sysfile image
open sysread (OpenFile)
open dir.Inodes hiding panic

/-! ## Open files -/

/-- A process holds what the tables account for, and `X` on top of it. -/
structure Held (t : Tables) (X L : Multiset Nat) (n : Nat) (g : Hold) : Prop where
  ok : t.Ok
  has : Has (t.refs + X) L n g

section

variable {t t' : Tables} {X L : Multiset Nat} {n p f k : Nat} {g : Hold} {proc : Proc}

/-- Tables with the same references. -/
theorem Held.congr (h : Held t X L n g) (hok : t'.Ok) (hrefs : t'.refs = t.refs) :
    Held t' X L n g :=
  ⟨hok, by rw [hrefs]; exact h.has⟩

theorem fileclose_law (h : Held t X L n g) (hf : f < NFILE) (hL : ∀ k ∈ L, k ∈ X) :
    wp rules (fileclose t f : OpM Tables) g fun t' g' => t'.procs = t.procs ∧ Held t' X L n g' := by
  unfold fileclose
  dsimp only
  split
  · exact wp_panic
  rename_i href
  split
  · rename_i hmore
    refine ⟨rfl, h.congr (h.ok.setFile (by simp only; omega) (by simp only; omega)) ?_⟩
    refine refs_setFile_same hf ?_
    simp only [fileRefs]
    exact if_congr (and_congr_left' (iff_of_true hmore (by omega))) rfl rfl
  · have hok : (t.setFile f { t.ftable f with ref := 0, type := .FD_NONE }).Ok :=
      h.ok.setFile le_rfl fun _ => rfl
    have hrefs := refs_setFile (t := t) hf { t.ftable f with ref := 0, type := .FD_NONE }
    simp only [fileRefs, lt_irrefl, false_and, if_false, add_zero] at hrefs
    split
    · rename_i htype
      have hhas := h.has
      rw [if_pos ⟨by omega, htype⟩] at hrefs
      rw [← hrefs, add_right_comm, add_comm _ ({(t.ftable f).ip} : Multiset Nat),
        singleton_add] at hhas
      apply wp_seq (begin_op_law hhas)
      intro _ g1 h1
      apply wp_seq (iput_law h1 fun k hk => mem_add.mpr (Or.inr (hL k hk)))
      intro _ g2 h2
      exact wp_seq (end_op_law h2) fun _ _ h3 => ⟨rfl, hok, h3⟩
    · rename_i htype
      rw [if_neg fun hc => htype hc.2, add_zero] at hrefs
      exact ⟨rfl, h.congr hok hrefs⟩

/-- What is left of the tables' share when nothing else is held. -/
theorem Held.nil (h : Held t 0 L n g) : Has t.refs L n g := by
  have := h.has
  rwa [add_zero] at this

theorem Held.of_has (ht : t.Ok) (h : Has t.refs L n g) : Held t 0 L n g := by
  refine ⟨ht, ?_⟩
  rwa [add_zero]

/-- A file that `filealloc` gives is not open yet. -/
theorem Held.filealloc (h : Held t X L n g) (hf : filealloc t = some (f, t')) :
    f < NFILE ∧ t'.procs = t.procs ∧ (t'.ftable f).ref = 1 ∧ (t'.ftable f).type = .FD_NONE ∧
      Held t' X L n g := by
  unfold sysfile.filealloc at hf
  split at hf
  · rename_i f' hfind
    obtain ⟨rfl, rfl⟩ := Prod.mk.inj (some.inj hf)
    obtain ⟨hlt, hfree⟩ := bytes.scan_eq_some hfind
    have href : (t.ftable f').ref = 0 := of_decide_eq_true hfree
    have htype := h.ok.free f' href
    refine ⟨hlt,
      rfl, by rw [ftable_setFile, if_pos rfl], by rw [ftable_setFile, if_pos rfl]; exact htype,
      h.congr (h.ok.setFile (by simp) fun h0 => absurd h0 one_ne_zero) (refs_setFile_same hlt ?_)⟩
    simp [fileRefs, htype]
  · cases hf

/-- A descriptor changes no reference to an inode. -/
theorem Held.fdalloc {fd : Nat} (h : Held t X L n g) (hp : t.procs p = some proc) (hf : f < NFILE)
    (hfd : fdalloc t p proc f = some (fd, t')) : t'.ftable = t.ftable ∧ Held t' X L n g := by
  unfold sysfile.fdalloc at hfd
  split at hfd
  · rename_i fd' hfind
    obtain ⟨rfl, rfl⟩ := Prod.mk.inj (some.inj hfd)
    have hlt := h.ok.slot p proc hp
    refine ⟨rfl, h.congr (h.ok.setProc hlt ?_) (refs_setProc_same hlt hp _)⟩
    intro q i f' hq hi
    obtain rfl := some.inj hq
    simp only [Function.update_apply] at hi
    split at hi
    · exact some.inj hi ▸ hf
    · exact h.ok.ofile p proc i f' hp hi
  · cases hfd

/-- A file that has no type yet gets an inode, and with it the reference to it. -/
theorem Held.open {x : OpenFile} (h : Held t {x.ip} 0 n g) (hf : f < NFILE)
    (htype : (t.ftable f).type = .FD_NONE) (hx : x.type = .FD_INODE) (href : 0 < x.ref) :
    Held (t.setFile f x) 0 0 n g := by
  refine Held.of_has (h.ok.setFile href.le fun h0 => absurd h0 href.ne') ?_
  have hrefs := refs_setFile (t := t) hf x
  rw [fileRefs, fileRefs, if_neg fun hc => absurd (htype.symm.trans hc.2) (by decide),
    if_pos ⟨href, hx⟩, add_zero] at hrefs
  rw [hrefs]
  exact h.has

/-- The end of `sys_open`, with the inode locked. -/
theorem open_end_law {ip : Nat} (omode : Nat) (ht : t.Ok)
    (hhas : Has (ip ::ₘ t.refs) (ip ::ₘ 0) (n + 1) g) (hp : t.procs p = some proc) :
    wp rules (match filealloc t with
      | none => do
        iunlockput ip
        end_op
        pure (-1, t)
      | some (f, t) =>
        match fdalloc t p proc f with
        | none => do
          let t ← fileclose t f
          iunlockput ip
          end_op
          pure (-1, t)
        | some (fd, t) => do
          iunlock ip
          end_op
          let file : OpenFile := { t.ftable f with
            type := .FD_INODE, ip := ip, off := 0, readable := omode &&& O_WRONLY = 0
            writable := omode &&& O_WRONLY ≠ 0 || omode &&& O_RDWR ≠ 0 }
          pure ((fd : Int), t.setFile f file) : OpM (Int × Tables)) g fun r g' =>
      Held r.2 0 0 n g' := by
  have hbad : ∀ {t : Tables} {g : Hold}, Held t {ip} (ip ::ₘ 0) (n + 1) g →
      wp rules (do iunlockput ip; end_op; pure (-1, t) : OpM (Int × Tables)) g fun r g' =>
        Held r.2 0 0 n g' := by
    intro t g h
    have hhas := h.has
    rw [add_comm, singleton_add] at hhas
    refine wp_mono (leave_law hhas) ?_
    rintro _ g' ⟨rfl, h'⟩
    exact Held.of_has h.ok h'
  have h : Held t {ip} (ip ::ₘ 0) (n + 1) g := by
    refine ⟨ht, ?_⟩
    rw [add_comm, singleton_add]
    exact hhas
  split
  · exact hbad h
  rename_i f t1 hf
  obtain ⟨hlt, hprocs, href, htype, h1⟩ := h.filealloc hf
  split
  · exact wp_seq (fileclose_law h1 hlt fun k hk => hk) fun t2 g2 h2 => hbad h2.2
  · rename_i fd t2 hfd
    obtain ⟨hftable, h2⟩ := h1.fdalloc (hprocs ▸ hp) hlt hfd
    apply wp_seq (iunlock_law h2.has)
    intro _ g3 h3
    apply wp_seq (end_op_law h3)
    intro _ g4 h4
    exact Held.open ⟨h2.ok, h4⟩ hlt (hftable ▸ htype) rfl (by simp [hftable, href])

theorem sys_open_law {path : Name} {omode : Nat} (h : Held t 0 0 n g) (hp : t.procs p = some proc) :
    wp rules (sys_open t p proc path omode : OpM (Int × Tables)) g
    fun r g' => Held r.2 0 0 n g' := by
  have hcwd := cwd_mem h.ok hp
  have hnone : ∀ g', Has t.refs 0 (n + 1) g' →
      wp rules (do end_op; pure (-1, t) : OpM (Int × Tables)) g' fun r g' => Held r.2 0 0 n g' :=
    fun g' h' => wp_seq (end_op_law h') fun _ _ h2 => Held.of_has h.ok h2
  apply wp_seq (begin_op_law h.nil)
  intro _ g1 h1
  apply wp_ite
  · intro _
    apply wp_seq (create_law h1 hcwd)
    rintro (_ | ip) g2 h2
    · exact hnone g2 h2
    · exact open_end_law omode h.ok h2 hp
  · intro _
    apply wp_seq (namei_law h1 hcwd)
    rintro (_ | ip) g2 h2
    · exact hnone g2 h2
    apply wp_seq (ilock_law h2 (mem_cons_self ip _))
    intro _ g3 h3
    apply wp_seq (stat_law h3 (mem_cons_self ip _))
    intro st g4 h4
    apply wp_ite
    · intro _
      apply wp_seq (iunlockput_law h4 no_locks)
      intro _ g5 h5
      exact hnone g5 h5
    · exact fun _ => open_end_law omode h.ok h4 hp

theorem sys_chdir_law {path : Option Name} (h : Held t 0 0 n g) (hp : t.procs p = some proc) :
    wp rules (sys_chdir t p proc path : OpM (Int × Tables)) g fun r g' => Held r.2 0 0 n g' := by
  have hlt := h.ok.slot p proc hp
  apply wp_seq (begin_op_law h.nil)
  intro _ g1 h1
  apply wp_seq (withPath_law (Q := Inode t.refs (n + 1)) h1 fun p => namei_law h1 (cwd_mem h.ok hp))
  rintro (_ | ip) g2 h2
  · exact wp_seq (end_op_law h2) fun _ _ h3 => Held.of_has h.ok h3
  apply wp_seq (ilock_law h2 (mem_cons_self ip _))
  intro _ g3 h3
  apply wp_seq (stat_law h3 (mem_cons_self ip _))
  intro st g4 h4
  split
  · refine wp_mono (leave_law h4) ?_
    rintro _ g5 ⟨rfl, h5⟩
    exact Held.of_has h.ok h5
  · apply wp_seq (iunlock_law h4)
    intro _ g5 h5
    -- the reference of the old directory goes, that of the new one is the process's now
    have hrefs := refs_setProc (t := t) hlt (some { proc with cwd := ip })
    simp only [hp, procRefs] at hrefs
    have h5' : Has (proc.cwd ::ₘ (t.setProc p (some { proc with cwd := ip })).refs) 0
        (n + 1) g5 := by
      rw [← singleton_add, add_comm, hrefs, add_comm]
      exact h5
    apply wp_seq (iput_law h5' no_locks)
    intro _ g6 h6
    refine wp_seq (end_op_law h6) fun _ _ h7 => Held.of_has (h.ok.setProc hlt ?_) h7
    intro q i f hq hi
    obtain rfl := some.inj hq
    exact h.ok.ofile p proc i f hp hi

theorem sys_close_law {fd : Int} (h : Held t 0 0 n g) (hp : t.procs p = some proc) :
    wp rules (sys_close t p proc fd : OpM (Int × Tables)) g fun r g' => Held r.2 0 0 n g' := by
  have hlt := h.ok.slot p proc hp
  unfold sys_close
  split
  · exact h
  rename_i f hf
  have hf' : f < NFILE := by
    split at hf
    · cases hf
    · exact h.ok.ofile p proc _ f hp hf
  have hok :
      (t.setProc p (some { proc with ofile := Function.update proc.ofile fd.toNat none })).Ok := by
    refine h.ok.setProc hlt fun q i f hq hi => ?_
    obtain rfl := some.inj hq
    simp only [Function.update_apply] at hi
    split at hi
    · cases hi
    · exact h.ok.ofile p proc i f hp hi
  have h1 := h.congr hok (refs_setProc_same hlt hp _)
  exact wp_seq (fileclose_law h1 hf' fun k hk => hk) fun t' g' h' => h'.2

theorem closeFrom_law {turns fd : Nat} (h : Held t 0 0 n g)
    (hfiles : ∀ fd f, proc.ofile fd = some f → f < NFILE) :
    wp rules (closeFrom proc turns fd t : OpM Tables) g fun t' g' =>
      t'.procs = t.procs ∧ Held t' 0 0 n g' := by
  induction turns generalizing fd t g with
  | zero => exact ⟨rfl, h⟩
  | succ turns ih =>
    unfold closeFrom
    split
    · exact ih h
    · rename_i f hf
      refine wp_seq (fileclose_law h (hfiles fd f hf) fun k hk => hk) ?_
      rintro t1 g1 ⟨hprocs, h1⟩
      exact wp_mono (ih h1) fun t' g' h' => ⟨h'.1.trans hprocs, h'.2⟩

theorem exit_law (h : Held t 0 0 n g) (hp : t.procs p = some proc) :
    wp rules (sysfile.exit t p proc : OpM Tables) g fun t' g' => Held t' 0 0 n g' := by
  have hlt := h.ok.slot p proc hp
  apply wp_seq (closeFrom_law h fun fd f => h.ok.ofile p proc fd f hp)
  rintro t1 g1 ⟨hprocs, h1⟩
  apply wp_seq (begin_op_law h1.nil)
  intro _ g2 h2
  have hrefs := refs_setProc (t := t1) hlt none
  simp only [hprocs, hp, procRefs, add_zero] at hrefs
  have h2' : Has (proc.cwd ::ₘ (t1.setProc p none).refs) 0 (n + 1) g2 := by
    grind [Multiset.singleton_add]
  apply wp_seq (iput_law h2' no_locks)
  intro _ g3 h3
  refine wp_seq (end_op_law h3) fun _ _ h4 => Held.of_has (h1.ok.setProc hlt ?_) h4
  intro q i f hq
  cases hq

/-! ## exec -/

theorem pteAddr_law {d va : Nat} :
    wp rules (Pages.pteAddr d va : OpM (Option Nat)) g fun _ g' => g' = g :=
  ⟨trivial, fun _ _ => rfl⟩

theorem setupkvm_law : wp rules (Pages.setupkvm : OpM (Option Nat)) g fun _ g' => g' = g :=
  ⟨trivial, fun _ _ => rfl⟩

variable {R : Multiset Nat}

theorem loadFrom_law {d addr ip offset sz turns i : Nat} (h : Has R (ip ::ₘ 0) n g) :
    wp rules (loadFrom d addr ip offset sz turns i : OpM Bool) g fun _ g' =>
      Has R (ip ::ₘ 0) n g' := by
  induction turns generalizing i g with
  | zero => exact h
  | succ turns ih =>
    apply wp_seq pteAddr_law
    rintro (_ | pa) _ rfl
    · exact wp_panic
    · apply wp_seq (readi_law h (mem_cons_self ip 0))
      rintro (_ | bs) g1 h1
      · exact h1
      · dsimp only
        apply wp_ite
        · exact fun _ => h1
        · exact fun _ => ih h1

theorem loaduvm_law {d addr ip offset sz : Nat} (h : Has R (ip ::ₘ 0) n g) :
    wp rules (loaduvm d addr ip offset sz : OpM Bool) g fun _ g' => Has R (ip ::ₘ 0) n g' :=
  wp_ite (fun _ => wp_panic) fun _ => loadFrom_law h

theorem loadSegments_law {d ip turns off sz : Nat} (h : Has R (ip ::ₘ 0) n g) :
    wp rules (loadSegments d ip turns off sz : OpM (Option Nat)) g fun _ g' =>
      Has R (ip ::ₘ 0) n g' := by
  induction turns generalizing off sz g with
  | zero => exact h
  | succ turns ih =>
    apply wp_seq (readi_law h (mem_cons_self ip 0))
    rintro (_ | bs) g1 h1
    · exact h1
    refine wp_ite (fun _ => h1) fun _ => wp_ite (fun _ => ih h1) fun _ => wp_ite
      (fun _ => h1) fun _ => ?_
    refine ⟨trivial, fun sz' _ => wp_ite (fun _ => h1) fun _ => ?_⟩
    apply wp_seq (loaduvm_law h1)
    intro ok g2 h2
    exact wp_ite (fun _ => h2) fun _ => ih h2

theorem loadImage_law {ip : Nat} {stack : List UInt8} (h : Has R (ip ::ₘ 0) n g) :
    wp rules (loadImage ip stack : OpM (Option (Elfhdr × Nat × Nat))) g fun _ g' =>
      Has R (ip ::ₘ 0) n g' := by
  have helf : wp rules (readElf ip stack : OpM (Option Elfhdr)) g fun _ g' =>
      Has R (ip ::ₘ 0) n g' := by
    apply wp_seq (readi_law h (mem_cons_self ip 0))
    rintro (_ | bs) g1 h1
    · exact h1
    · exact wp_ite (fun _ => h1) fun _ => h1
  apply wp_seq helf
  rintro (_ | elf) g1 h1
  · exact h1
  refine wp_ite (fun _ => h1) fun _ => wp_seq setupkvm_law ?_
  rintro (_ | d) _ rfl
  · exact h1
  · apply wp_seq (loadSegments_law h1)
    rintro (_ | sz) g2 h2
    · exact h2
    · exact h2

theorem pushArgs_law {d argc sp : Nat} {argv : List Name} {ptrs : List Nat} (h : Has R L n g) :
    wp rules (pushArgs d argv argc sp ptrs : OpM (Option (Nat × List Nat))) g fun _ g' =>
      Has R L n g' := by
  induction argv generalizing argc sp ptrs with
  | nil => exact h
  | cons s argv ih =>
    exact wp_ite (fun _ => h) fun _ => ⟨trivial, fun r _ => wp_ite (fun _ => h) fun _ => ih⟩

theorem pushStack_law {d sz : Nat} {argv : List Name} (h : Has R L n g) :
    wp rules (pushStack d sz argv : OpM (Option (Nat × Nat))) g fun _ g' => Has R L n g' := by
  refine ⟨trivial, fun sz' _ => wp_ite (fun _ => h) fun _ => ?_⟩
  apply wp_seq (pushArgs_law h)
  rintro (_ | ⟨sp, ptrs⟩) g1 h1
  · exact h1
  · exact ⟨trivial, fun r _ => wp_ite (fun _ => h1) fun _ => h1⟩

theorem exec_law {cwd old : Nat} {stack : List UInt8} {path : Name} {argv : List Name}
    (h : Has R 0 n g) (hcwd : cwd ∈ R) :
    wp rules (exec cwd old stack path argv : OpM (Option Image)) g fun _ g' => Has R 0 n g' := by
  apply wp_seq (begin_op_law h)
  intro _ g1 h1
  apply wp_seq (namei_law h1 hcwd)
  rintro (_ | ip) g2 h2
  · exact wp_seq (end_op_law h2) fun _ _ h => h
  apply wp_seq (ilock_law h2 (mem_cons_self ip R))
  intro _ g3 h3
  apply wp_seq (loadImage_law h3)
  rintro (_ | ⟨elf, pgdir, sz⟩) g4 h4
  · exact wp_mono (leave_law h4) fun _ _ h => h.2
  · apply wp_seq (iunlockput_law h4 no_locks)
    intro _ g5 h5
    apply wp_seq (end_op_law h5)
    intro _ g6 h6
    apply wp_seq (pushStack_law h6)
    rintro (_ | ⟨sz', sp⟩) g7 h7
    · exact h7
    · exact h7

/-! ## Reading and writing -/

/-- A file with a type is open. -/
theorem Tables.Ok.open (ht : t.Ok) (h : (t.ftable f).type = .FD_INODE) : 0 < (t.ftable f).ref :=
  lt_of_le_of_ne (ht.nonneg f) fun h0 => by
    rw [ht.free f h0.symm] at h
    cases h

/-- Another offset in a file. -/
theorem Held.setOff (h : Held t X L n g) (hf : f < NFILE) (off : Nat) :
    Held (t.setFile f { t.ftable f with off := off }) X L n g :=
  h.congr (h.ok.setFile (h.ok.nonneg f) (h.ok.free f)) (refs_setFile_same hf rfl)

theorem fileread_law {len piped : Int} (h : Held t 0 0 n g) (hf : f < NFILE) :
    wp rules (fileread t f len piped : OpM (Int × Tables)) g fun r g' => Held r.2 0 0 n g' := by
  unfold fileread
  refine wp_ite (fun _ => h) fun _ => ?_
  split
  · exact h
  · rename_i htype
    apply wp_seq (ilock_law h.nil (ip_mem hf (Tables.Ok.open h.ok htype) htype))
    intro _ g1 h1
    apply wp_seq (readi_law h1 (mem_cons_self _ 0))
    intro r g2 h2
    apply wp_seq (iunlock_law h2)
    intro _ g3 h3
    cases r with
    | none => exact Held.of_has h.ok h3
    | some bs => exact (Held.of_has h.ok h3).setOff hf _
  · exact wp_panic

theorem writeChunk_law {ip off len : Nat} {src : Nat → UInt8} (h : Has R 0 n g) (hip : ip ∈ R) :
    wp rules (writeChunk ip src off len : OpM Int) g fun _ g' => Has R 0 n g' := by
  apply wp_seq (begin_op_law h)
  intro _ g1 h1
  apply wp_seq (ilock_law h1 hip)
  intro _ g2 h2
  apply wp_seq (writei_law h2 (mem_cons_self ip 0))
  intro r g3 h3
  apply wp_seq (iunlock_law h3)
  intro _ g4 h4
  exact wp_seq (end_op_law h4) fun _ _ h => h

theorem writeFrom_law {ip len turns i off : Nat} {src : Nat → UInt8} (h : Has R 0 n g)
    (hip : ip ∈ R) :
    wp rules (writeFrom ip src len turns i off : OpM (Nat × Nat)) g fun _ g' => Has R 0 n g' := by
  induction turns generalizing i off g with
  | zero => exact h
  | succ turns ih =>
    refine wp_ite (fun _ => ?_) fun _ => h
    apply wp_seq (writeChunk_law h hip)
    intro r g1 h1
    exact wp_ite (fun _ => h1) fun _ => wp_ite (fun _ => wp_panic) fun _ => ih h1

theorem filewrite_law {src : Nat → UInt8} {len piped : Int} (h : Held t 0 0 n g) (hf : f < NFILE) :
    wp rules (filewrite t f src len piped : OpM (Int × Tables)) g
    fun r g' => Held r.2 0 0 n g' := by
  unfold filewrite
  refine wp_ite (fun _ => h) fun hw => ?_
  split
  · exact h
  · rename_i htype
    apply wp_seq (writeFrom_law h.nil (ip_mem hf (Tables.Ok.open h.ok htype) htype))
    intro r g1 h1
    exact (Held.of_has h.ok h1).setOff hf _
  · exact wp_panic

theorem filestat_law (h : Held t 0 0 n g) (hf : f < NFILE) :
    wp rules (filestat t f : OpM (Option Stat)) g fun _ g' => Held t 0 0 n g' := by
  unfold filestat
  dsimp only
  split
  · rename_i htype
    have hip := ip_mem hf (Tables.Ok.open h.ok htype) htype
    apply wp_seq (ilock_law h.nil hip)
    intro _ g1 h1
    apply wp_seq (stat_law h1 hip)
    intro st g2 h2
    exact wp_seq (iunlock_law h2) fun _ _ h3 => Held.of_has h.ok h3
  · exact h

/-! ## The calls -/

theorem call_law {c : Call} (h : Held t 0 0 n g) (hp : t.procs p = some proc) :
    wp rules (call t p proc c : OpM Tables) g fun t' g' => Held t' 0 0 n g' := by
  have hcwd := cwd_mem h.ok hp
  have hof : ∀ g', Has t.refs 0 n g' → Held t 0 0 n g' := fun g' => Held.of_has h.ok
  cases c with
  | «open» path omode => exact wp_seq (sys_open_law h hp) fun _ _ h => h
  | mkdir path => exact wp_seq (sys_mkdir_law h.nil hcwd) fun _ => hof
  | mknod path major minor => exact wp_seq (sys_mknod_law h.nil hcwd) fun _ => hof
  | link old new => exact wp_seq (sys_link_law h.nil hcwd) fun _ => hof
  | unlink path => exact wp_seq (sys_unlink_law h.nil hcwd) fun _ => hof
  | chdir path => exact wp_seq (sys_chdir_law h hp) fun _ _ h => h
  | close fd => exact wp_seq (sys_close_law h hp) fun _ _ h => h
  | exit => exact exit_law h hp

theorem argfd_lt {fd : Int} (ht : t.Ok) (hp : t.procs p = some proc) (hf : argfd proc fd = some f) :
    f < NFILE := by
  unfold argfd at hf
  split at hf
  · cases hf
  · exact ht.ofile p proc _ f hp hf

/-- Every call ends with what the tables account for, and holds nothing else. -/
theorem program_law {a : Act} (h : Held t 0 0 n g) (hp : t.procs p = some proc) :
    wp rules (program t p proc a) g fun t' g' => Held t' 0 0 n g' := by
  have hof : ∀ g', Has t.refs 0 n g' → Held t 0 0 n g' := fun g' => Held.of_has h.ok
  cases a with
  | call c => exact call_law h hp
  | exec stack path argv => exact wp_seq (exec_law h.nil (cwd_mem h.ok hp)) fun _ => hof
  | read fd len =>
    unfold program
    dsimp only
    split
    · exact h
    · rename_i f hf
      exact wp_seq (fileread_law h (argfd_lt h.ok hp hf)) fun _ _ h => h
  | write fd src len =>
    unfold program
    dsimp only
    split
    · exact h
    · rename_i f hf
      exact wp_seq (filewrite_law h (argfd_lt h.ok hp hf)) fun _ _ h => h
  | fstat fd =>
    unfold program
    dsimp only
    split
    · exact h
    · rename_i f hf
      exact wp_seq (filestat_law h (argfd_lt h.ok hp hf)) fun _ _ h => h

end

end xv6.ops
