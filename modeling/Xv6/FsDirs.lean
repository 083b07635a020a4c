-- A directory as a map from names to inodes. The entries of the directory's file are the map;
-- looking up goes through them in order, and linking writes to the first one that is empty.
import Xv6.FsFull
import Xv6.FsState

open bytes WP

namespace xv6.fs

open dir (Name Dirent dirent)

/-! ## The map in the bytes -/

/-- What counts when a name is compared: the bytes before the null byte, at most DIRSIZ of them. -/
def key (name : Name) : Name := (name.take DIRSIZ).takeWhile (· ≠ 0)

theorem namecmp_eq_zero {p q : Name} : dir.namecmp p q = 0 ↔ key p = key q := dir.strncmp_eq_zero

/-- Entry `j` of a directory. -/
def File.slot (f : File) (j : Nat) : Dirent := dirent (slice f.data (16 * j) 16)

/-- Entry `j` is in use and has the name. -/
def File.Hit (f : File) (name : Name) (j : Nat) : Prop :=
  (f.slot j).inum ≠ 0 ∧ key name = key (f.slot j).name

instance (f : File) (name : Name) (j : Nat) : Decidable (f.Hit name j) :=
  inferInstanceAs (Decidable (_ ∧ _))

def File.lookupFrom (f : File) (name : Name) : Nat → Nat → Option (Nat × Nat)
  | 0, _ => none
  | n + 1, j =>
    if f.Hit name j then some ((f.slot j).inum, 16 * j) else f.lookupFrom name n (j + 1)

/-- The inode and the offset that a directory has for a name. -/
def File.lookup (f : File) (name : Name) : Option (Nat × Nat) := f.lookupFrom name (f.size / 16) 0

def File.emptyFrom (f : File) : Nat → Nat → Nat
  | 0, j => j
  | n + 1, j => if (f.slot j).inum = 0 then j else f.emptyFrom n (j + 1)

/-- The first entry that is not in use, or the one after the last. -/
def File.empty (f : File) : Nat := f.emptyFrom (f.size / 16) 0

/-- No two entries in use have the same name. -/
def File.Distinct (f : File) : Prop :=
  ∀ j < f.size / 16, ∀ j' < f.size / 16, (f.slot j).inum ≠ 0 ∧ (f.slot j').inum ≠ 0 ∧
    key (f.slot j).name = key (f.slot j').name → j = j'

instance (f : File) : Decidable f.Distinct :=
  inferInstanceAs (Decidable (∀ j < f.size / 16, ∀ j' < f.size / 16, _ → j = j'))

section Map

variable {f : File} {name nm : Name} {j n inum off : Nat}

theorem lookupFrom_eq_none : f.lookupFrom name n j = none ↔ ∀ a < n, ¬ f.Hit name (j + a) := by
  induction n generalizing j with
  | zero => simp [File.lookupFrom]
  | succ n ih =>
    rw [File.lookupFrom]
    split
    · rename_i hhit
      exact iff_of_false (by simp) fun h => h 0 (Nat.succ_pos n) hhit
    · rename_i hno
      rw [ih]
      constructor
      · intro h a ha
        cases a with
        | zero => exact hno
        | succ a =>
          have := h a (by omega)
          rwa [Nat.add_assoc, Nat.add_comm 1] at this
      · intro h a ha
        rw [Nat.add_assoc, Nat.add_comm 1]
        exact h (a + 1) (by omega)

theorem lookupFrom_eq_some (h : f.lookupFrom name n j = some (inum, off)) :
    ∃ a, j ≤ a ∧ a < j + n ∧ f.Hit name a ∧ inum = (f.slot a).inum ∧ off = 16 * a := by
  induction n generalizing j with
  | zero => cases h
  | succ n ih =>
    rw [File.lookupFrom] at h
    split at h
    · rename_i hhit
      obtain ⟨rfl, rfl⟩ := Prod.mk.inj (Option.some.inj h)
      exact ⟨j, Nat.le_refl j, by omega, hhit, rfl, rfl⟩
    · obtain ⟨a, h1, h2, ha⟩ := ih h
      exact ⟨a, by omega, by omega, ha⟩

theorem lookup_eq_none : f.lookup name = none ↔ ∀ a < f.size / 16, ¬ f.Hit name a := by
  simp [File.lookup, lookupFrom_eq_none]

theorem lookup_eq_some (h : f.lookup name = some (inum, off)) :
    ∃ a < f.size / 16, f.Hit name a ∧ inum = (f.slot a).inum ∧ off = 16 * a := by
  obtain ⟨a, _, h2, ha⟩ := lookupFrom_eq_some h
  exact ⟨a, by omega, ha⟩

theorem File.Distinct.lookup (hd : f.Distinct) (hj : j < f.size / 16) (hhit : f.Hit name j) :
    f.lookup name = some ((f.slot j).inum, 16 * j) := by
  cases hl : f.lookup name with
  | none => exact absurd hhit (lookup_eq_none.mp hl j hj)
  | some p =>
    obtain ⟨a, ha, hhit', h1, h2⟩ := lookup_eq_some hl
    obtain rfl := hd a ha j hj ⟨hhit'.1, hhit.1, hhit'.2.symm.trans hhit.2⟩
    rw [← h1, ← h2]

theorem emptyFrom_spec (n j : Nat) : j ≤ f.emptyFrom n j ∧ f.emptyFrom n j ≤ j + n ∧
    (∀ a, j ≤ a → a < f.emptyFrom n j → (f.slot a).inum ≠ 0) ∧
    (f.emptyFrom n j < j + n → (f.slot (f.emptyFrom n j)).inum = 0) := by
  induction n generalizing j with
  | zero =>
    refine ⟨Nat.le_refl j, Nat.le_refl j, fun a h1 h2 => ?_, fun h => absurd h (Nat.lt_irrefl j)⟩
    exact absurd h2 (Nat.not_lt.mpr h1)
  | succ n ih =>
    rw [File.emptyFrom]
    split
    · rename_i h0
      exact ⟨Nat.le_refl j, by omega, fun a h1 h2 => by omega, fun _ => h0⟩
    · rename_i h0
      obtain ⟨h1, h2, h3, h4⟩ := ih (j + 1)
      refine ⟨by omega, by omega, fun a ha1 ha2 => ?_, fun h => h4 (by omega)⟩
      by_cases ha : a = j
      · rwa [ha]
      · exact h3 a (by omega) ha2

/-- Directory `g` is `f` with `d` as entry `j`, whose name no other entry has. -/
structure Puts (f : File) (j : Nat) (d : Dirent) (g : File) : Prop where
  count : g.size / 16 = max (f.size / 16) (j + 1)
  slot : ∀ a, g.slot a = if a = j then d else f.slot a
  le : j ≤ f.size / 16
  fresh : d.inum ≠ 0 → ∀ a < f.size / 16, a ≠ j → (f.slot a).inum ≠ 0 →
    key (f.slot a).name ≠ key d.name

variable {g : File} {d : Dirent}

theorem Puts.lt (h : Puts f j d g) {a : Nat} (ha : a < g.size / 16) (hne : a ≠ j) :
    a < f.size / 16 := by
  have := h.count
  have := h.le
  omega

theorem Puts.hit (h : Puts f j d g) (a : Nat) :
    g.Hit nm a ↔ if a = j then d.inum ≠ 0 ∧ key nm = key d.name else f.Hit nm a := by
  unfold File.Hit
  rw [h.slot]
  split <;> rfl

theorem Puts.distinct (h : Puts f j d g) (hd : f.Distinct) : g.Distinct := by
  rintro a ha b hb ⟨hla, hlb, hab⟩
  rw [h.slot] at hla hab
  rw [h.slot] at hlb hab
  by_cases h1 : a = j <;> by_cases h2 : b = j
  · rw [h1, h2]
  · rw [if_pos h1] at hla hab
    rw [if_neg h2] at hlb hab
    exact absurd hab.symm (h.fresh hla b (h.lt hb h2) h2 hlb)
  · rw [if_neg h1] at hla hab
    rw [if_pos h2] at hlb hab
    exact absurd hab (h.fresh hlb a (h.lt ha h1) h1 hla)
  · rw [if_neg h1] at hla hab
    rw [if_neg h2] at hlb hab
    exact hd a (h.lt ha h1) b (h.lt hb h2) ⟨hla, hlb, hab⟩

/-- The name of the new entry is looked up there, and the name that was there before is gone. -/
theorem Puts.lookup (h : Puts f j d g) (hd : f.Distinct) (nm : Name) : g.lookup nm =
    if d.inum ≠ 0 ∧ key nm = key d.name then some (d.inum, 16 * j)
    else if j < f.size / 16 ∧ f.Hit nm j then none else f.lookup nm := by
  have hcount := h.count
  have hd' := h.distinct hd
  split
  · rename_i hk
    have hhit : g.Hit nm j := (h.hit j).mpr (by rwa [if_pos rfl])
    rw [hd'.lookup (by omega) hhit, h.slot, if_pos rfl]
  · rename_i hk
    -- an entry with the name is another one, and was there before
    have hold : ∀ a < g.size / 16, g.Hit nm a → a ≠ j ∧ a < f.size / 16 ∧ f.Hit nm a := by
      intro a ha hh
      rw [h.hit] at hh
      by_cases haj : a = j
      · exact absurd (by rwa [if_pos haj] at hh) hk
      · exact ⟨haj, h.lt ha haj, by rwa [if_neg haj] at hh⟩
    split
    · rename_i hj
      refine lookup_eq_none.mpr fun a ha hh => ?_
      obtain ⟨hne, ha, hh⟩ := hold a ha hh
      exact hne (hd a ha j hj.1 ⟨hh.1, hj.2.1, hh.2.symm.trans hj.2.2⟩)
    · rename_i hj
      cases hl : f.lookup nm with
      | none =>
        refine lookup_eq_none.mpr fun a ha hh => ?_
        obtain ⟨_, ha, hh⟩ := hold a ha hh
        exact lookup_eq_none.mp hl a ha hh
      | some p =>
        obtain ⟨a, ha, hh, h1, h2⟩ := lookup_eq_some hl
        have hne : a ≠ j := fun e => hj (e ▸ ⟨ha, hh⟩)
        have hhit : g.Hit nm a := (h.hit a).mpr (by rwa [if_neg hne])
        rw [hd'.lookup (by omega) hhit, h.slot, if_neg hne, ← h1, ← h2]

/-- The directory with a new entry. -/
def File.link (f : File) (name : Name) (inum : Nat) : File :=
  f.write (16 * f.empty) 16 (Dirent.byte { inum := inum, name := dir.strncpy DIRSIZ name })

/-- The directory without the entry at `off`. -/
def File.unlink (f : File) (off : Nat) : File := f.write off 16 fun _ => 0

theorem empty_le : f.empty ≤ f.size / 16 := by
  have := (emptyFrom_spec (f := f) (f.size / 16) 0).2.1
  rwa [Nat.zero_add] at this

end Map

/-! ## The functions -/

section Laws

variable {R : Nat → Prop} {T : Prop} {n : Nat} {F : Nat → Option File}
  {C : Nat → Option Entry} {s : Fs}
  {k : Nat} {e : Entry} {f : File} {name : Name} {E : Stop → Fs → Prop}

/-- Entry `k` is for a directory, which is locked. -/
structure Stands.Dir (F : Nat → Option File) (C : Nat → Option Entry) (k : Nat) (e : Entry)
    (f : File) :
    Prop where
  entry : C k = some e
  valid : e.valid = true
  file : F e.inum = some f
  type : f.type = T_DIR
  size : f.size % 16 = 0

theorem Stands.readDirent (h : Stands R T n F C s) (hd : Stands.Dir F C k e f) {j : Nat}
    (msg : String) (hj : j < f.size / 16) {Q : Dirent → Fs → Prop} (hQ : Q (f.slot j) s) :
    spec (dir.readDirent k (16 * j) msg) s Q E := by
  have hty : f.type ≠ T_DEV := by rw [hd.type]; decide
  have hle := h.size_le hd.entry hd.valid hd.file hty
  have hmax : MAXFILE * BSIZE < 2 ^ 31 := by decide
  have hread : f.read (16 * j) 16 = slice f.data (16 * j) 16 := by
    rw [File.read, Nat.min_eq_left (by omega), Nat.add_sub_cancel_left]
  unfold dir.readDirent
  rw [spec_bind]
  refine h.readi hd.entry hd.valid hd.file hty (by omega) (by omega) ?_
  rw [hread]
  simp only [length_slice, ne_eq, not_true_eq_false, if_false, spec_pure]
  exact hQ

theorem Stands.lookupFrom (h : Stands R T n F C s) (hd : Stands.Dir F C k e f)
    {Q : Option (Nat × Nat) → Fs → Prop} (m : Nat) : ∀ j, j + m ≤ f.size / 16 →
    (f.lookupFrom name m j = none → Q none s) →
    (∀ inum off ip u, f.lookupFrom name m j = some (inum, off) → Spot C inum ip →
      Stands R T n F (Function.update C ip (some (grab inum (C ip)))) u → Q (some (ip, off)) u) →
    (∀ inum off, f.lookupFrom name m j = some (inum, off) → spot C inum = none →
      E (.panic "iget: no inodes") s) →
    spec (dir.lookupFrom k name m (16 * j)) s Q E := by
  induction m with
  | zero =>
    intro j _ hnone _ _
    rw [dir.lookupFrom, spec_pure]
    exact hnone rfl
  | succ m ih =>
    intro j hj hnone hsome hE
    rw [dir.lookupFrom, spec_bind]
    refine h.readDirent hd _ (by omega) ?_
    simp only [File.lookupFrom] at hnone hsome hE
    by_cases hhit : f.Hit name j
    · rw [if_pos ⟨hhit.1, namecmp_eq_zero.mpr hhit.2⟩, spec_bind]
      simp only [if_pos hhit] at hsome hE
      refine h.stat hd.entry fun st hdev _ _ => ?_
      rw [spec_bind, hdev]
      refine h.iget _ (fun ip u hspot hu => ?_) fun hno => hE _ _ rfl hno
      rw [spec_pure]
      exact hsome _ _ ip u rfl hspot hu
    · rw [if_neg fun hh => hhit ⟨hh.1, namecmp_eq_zero.mp hh.2⟩]
      simp only [if_neg hhit] at hnone hsome hE
      exact ih (j + 1) (by omega) hnone hsome hE

theorem turns_eq {size : Nat} (h : size % 16 = 0) : dir.turns size = size / 16 := by
  unfold dir.turns
  omega

/-- The inode of the name is in the cache with one more reference, or the name is not there. The
kernel stops if all entries of the cache have references to other inodes. -/
theorem Stands.dirlookup (h : Stands R T n F C s) (hd : Stands.Dir F C k e f)
    {Q : Option (Nat × Nat) → Fs → Prop} (hnone : f.lookup name = none → Q none s)
    (hsome : ∀ inum off ip u, f.lookup name = some (inum, off) → Spot C inum ip →
      Stands R T n F (Function.update C ip (some (grab inum (C ip)))) u → Q (some (ip, off)) u)
    (hE : ∀ inum off, f.lookup name = some (inum, off) → spot C inum = none →
      E (.panic "iget: no inodes") s) : spec (dir.dirlookup k name) s Q E := by
  unfold dir.dirlookup
  rw [spec_bind]
  refine h.stat hd.entry fun st _ _ hst => ?_
  obtain ⟨hty, _, hsize⟩ := hst f hd.valid hd.file
  rw [if_neg (by rw [hty, hd.type]; simp), hsize, turns_eq hd.size]
  exact h.lookupFrom hd _ 0 (by omega) hnone hsome hE

theorem Stands.emptyFrom (h : Stands R T n F C s) (hd : Stands.Dir F C k e f) {Q : Nat → Fs → Prop}
    (m : Nat) : ∀ j, j + m ≤ f.size / 16 → Q (16 * f.emptyFrom m j) s →
    spec (dir.emptyFrom k m (16 * j)) s Q E := by
  induction m with
  | zero =>
    intro j _ hQ
    rw [dir.emptyFrom, spec_pure]
    exact hQ
  | succ m ih =>
    intro j hj hQ
    rw [dir.emptyFrom, spec_bind]
    refine h.readDirent hd _ (by omega) ?_
    rw [File.emptyFrom] at hQ
    split
    · rename_i h0
      rw [if_pos h0] at hQ
      rw [spec_pure]
      exact hQ
    · rename_i h0
      rw [if_neg h0] at hQ
      exact ih (j + 1) (by omega) hQ

theorem dead_grab {inum ip : Nat} (hpos : ∀ e, C ip = some e → 0 < e.ref) :
    dead F (grab inum (C ip)) = false := by
  cases hc : C ip with
  | none => simp [grab, dead]
  | some e =>
    have := hpos e hc
    have hne : ¬ e.ref + 1 = 1 := by omega
    simp [grab, dead, hne]

theorem drop_grab {inum ip : Nat} (hpos : ∀ e, C ip = some e → 0 < e.ref) :
    drop (grab inum (C ip)) = C ip := by
  cases hc : C ip with
  | none => simp [grab, drop]
  | some e =>
    have := hpos e hc
    have hne : ¬ e.ref + 1 = 1 := by omega
    simp [grab, drop, hne]

theorem Stands.ref_pos (h : Stands R T n F C s) : ∀ k e, C k = some e → 0 < e.ref := by
  intro k e he
  rw [← h.entry] at he
  obtain ⟨_, hr, rfl⟩ := entry_eq_some.mp he
  exact hr

/-- An entry of a directory is in one block. -/
theorem spanned_entry (j : Nat) : spanned (16 * j) 16 = 1 := by
  have hsize : BSIZE = 512 := rfl
  unfold spanned
  rw [hsize, if_neg (by decide)]
  omega

/-- The name is there and nothing changes, or there is room for an entry and it is made. A directory
that has no room stops the kernel. -/
theorem Stands.dirlink (h : Stands R T n F C s) (hd : Stands.Dir F C k e f) {inum : Nat}
    {Q : Int → Fs → Prop} (hfound : ∀ u, f.lookup name ≠ none → Stands R T n F C u → Q (-1) u)
    (hlink : ∀ u, f.lookup name = none → 16 * f.empty + 16 ≤ MAXFILE * BSIZE →
      Stands R T n (Function.update F e.inum (some (f.link name inum))) C u → Q 0 u)
    (hE : ∀ x u, x.full ∧ f.lookup name = none ∧ ¬ RoomFor s 1 ∨
      x = .panic "iget: no inodes" ∧ (∃ p, f.lookup name = some p ∧ spot C p.1 = none) ∨
      x = .panic "dirlink" ∧ f.lookup name = none ∧ MAXFILE * BSIZE < 16 * f.empty + 16 → E x u) :
    spec (dir.dirlink k name inum) s Q E := by
  have hty : f.type ≠ T_DEV := by rw [hd.type]; decide
  unfold dir.dirlink
  rw [spec_bind]
  refine h.dirlookup hd (fun hnone => ?_) (fun i off ip u hl hspot hu => ?_) fun i off hl hno =>
    hE _ s (Or.inr (Or.inl ⟨rfl, _, hl, hno⟩))
  · dsimp only
    rw [spec_bind]
    refine h.stat hd.entry fun st _ _ hst => ?_
    rw [(hst f hd.valid hd.file).2.2]
    rw [turns_eq hd.size, spec_bind]
    refine h.emptyFrom hd _ 0 (by omega) ?_
    rw [spec_bind]
    have hle := empty_le (f := f)
    refine h.writei hd.entry hd.valid hd.file hty (by decide) (fun u _ hmax hu => ?_)
      (fun hno => ?_) fun x u hx hno => hE x u (Or.inl ⟨hx, hnone, spanned_entry _ ▸ hno⟩)
    · rw [if_neg (by simp), spec_pure]
      exact hlink u hnone hmax hu
    · rw [if_pos (by decide)]
      refine (spec_throw ..).mpr (hE _ s (Or.inr (Or.inr ⟨rfl, hnone, ?_⟩)))
      exact Nat.lt_of_not_le fun hmax => hno ⟨by show 16 * f.empty ≤ _; omega, hmax⟩
  · dsimp only
    rw [spec_bind]
    refine hu.iput_live (Function.update_self ..) (dead_grab (h.ref_pos ip)) fun v hv => ?_
    rw [Function.update_idem, drop_grab (h.ref_pos ip), Function.update_eq_self] at hv
    rw [spec_pure]
    exact hfound v (by rw [hl]; simp) hv

end Laws

/-! ## A directory is a map -/

section Map

variable {R : Nat → Prop} {T : Prop} {n : Nat} {F : Nat → Option File}
  {C : Nat → Option Entry} {s : Fs} {k : Nat} {e : Entry} {f : File} {name : Name} {inum : Nat}

theorem Stands.Dir.write (h : Stands.Dir F C k e f) {j : Nat} {src : Nat → UInt8} :
    Stands.Dir (Function.update F e.inum (some (f.write (16 * j) 16 src))) C k e
    (f.write (16 * j) 16 src) := by
  have hsize := h.size
  refine ⟨h.entry, h.valid, Function.update_self .., h.type, ?_⟩
  show max f.size (16 * j + 16) % 16 = 0
  omega

end Map

end xv6.fs
