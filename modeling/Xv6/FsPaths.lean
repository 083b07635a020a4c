-- Path resolution as a fold: the elements of a path are looked up one after another, each in the
-- directory that the last one gave. The references that are taken on the way are given back.
import Xv6.FsDirs

open Option List Function bytes WP

namespace xv6.fs

open dir (Name)

/-! ## The elements of a path -/

/-- What is between the slashes. -/
def words (path : Name) : List Name := (path.splitOn 47).filter (· ≠ [])

/-- The components of a path, each cut to DIRSIZ bytes. -/
def components (path : Name) : List Name := (words path).map (·.take DIRSIZ)

theorem words_slash (path : Name) : words (47 :: path) = words path := by
  unfold words
  rw [splitOn_eq_splitOnP, splitOnP_cons_eq_if_modifyHead, if_pos (by decide)]
  rfl

theorem words_dropWhile (path : Name) : words (path.dropWhile (· = 47)) = words path := by
  induction path with
  | nil => rfl
  | cons c path ih =>
    by_cases hc : c = 47
    · rw [dropWhile_cons_of_pos (by simpa using hc), ih, hc, words_slash]
    · rw [dropWhile_cons_of_neg (by simpa using hc)]

theorem words_append {w rest : Name} (hw : w ≠ []) (hslash : 47 ∉ w)
    (hrest : rest = [] ∨ ∃ t, rest = 47 :: t) : words (w ++ rest) = w :: words rest := by
  have hno : ∀ c ∈ w, (c == 47) = false := fun c hc => by
    rw [beq_eq_false_iff_ne]
    rintro rfl
    exact hslash hc
  rcases hrest with rfl | ⟨t, rfl⟩
  · unfold words
    rw [append_nil, splitOn_eq_splitOnP, splitOnP_eq_singleton hno]
    simp [hw]
  · rw [words_slash]
    unfold words
    rw [splitOn_eq_splitOnP, splitOnP_append_cons _ _ (by decide), splitOnP_eq_singleton hno,
      splitOn_eq_splitOnP]
    simp [hw]

theorem elemsFrom_eq (n : Nat) (path : Name) (hn : path.length ≤ n) :
    dir.elemsFrom n path = components path := by
  induction n generalizing path with
  | zero =>
    rw [length_eq_zero_iff.mp (Nat.le_zero.mp hn)]
    rfl
  | succ n ih =>
    rw [dir.elemsFrom, dir.skipelem, components, ← words_dropWhile path]
    have hlen := (dropWhile_suffix (l := path) (· = 47)).length_le
    have hhead : ∀ c l, path.dropWhile (· = 47) = c :: l → c ≠ 47 := by
      intro c l hcl
      have := List.head?_dropWhile_not (· = 47) path
      rw [hcl] at this
      simpa using this
    cases hs : path.dropWhile (· = 47) with
    | nil => rfl
    | cons c l =>
      have hc := hhead c l hs
      dsimp only
      generalize hcl : c :: l = s at hs
      rw [hs] at hlen
      have hw : s.takeWhile (· ≠ 47) ≠ [] := by
        rw [← hcl, takeWhile_cons_of_pos (by simpa using hc)]
        simp
      have hsplit := takeWhile_append_dropWhile (p := (· ≠ 47)) (l := s)
      have hrest : s.dropWhile (· ≠ 47) = [] ∨ ∃ t, s.dropWhile (· ≠ 47) = 47 :: t := by
        cases hd : s.dropWhile (· ≠ 47) with
        | nil => exact Or.inl rfl
        | cons b t =>
          have := List.head?_dropWhile_not (· ≠ 47) s
          rw [hd] at this
          exact Or.inr ⟨t, by simpa using this⟩
      have hslash : 47 ∉ s.takeWhile (· ≠ 47) := fun hmem => by
        simpa using all_eq_true.mp (all_takeWhile (p := (· ≠ 47)) (l := s)) 47 hmem
      have hwords : words s = s.takeWhile (· ≠ 47) :: words (s.dropWhile (· ≠ 47)) := by
        conv_lhs => rw [← hsplit]
        exact words_append hw hslash hrest
      rw [hwords, map_cons, ih, components, words_dropWhile]
      have h1 := (dropWhile_suffix (l := s.dropWhile (· ≠ 47)) (· = 47)).length_le
      have h2 := congrArg List.length hsplit
      have h3 := length_pos_iff.mpr hw
      rw [length_append] at h2
      omega

/-- The elements that `skipelem` gives are the components. -/
theorem elems_eq (path : Name) : dir.elems path = components path :=
  elemsFrom_eq _ path (Nat.le_refl _)

section Pure

variable (F : Nat → Option File)

/-- The inode that directory `i` has for a name. -/
def look (i : Nat) (name : Name) : Option Nat :=
  (F i).bind fun f => if f.type = T_DIR then (f.lookup name).map Prod.fst else none

/-- The inode reached from `i` by looking up the names in turn. -/
def resolve (i : Nat) (names : List Name) : Option Nat := names.foldlM (look F) i

/-- What the loop of `namex` comes to. -/
def walkTo (parent : Bool) : Nat → List Name → Option (Nat × Name)
  | i, [] => if parent then none else some (i, [])
  | i, name :: path =>
    if ¬ (F i).any (fun f => f.type = T_DIR) then none
    else if parent ∧ path = [] then some (i, name)
    else (look F i name).bind fun j => walkTo parent j path

end Pure

/-! ## References -/

/-- The inode and the number of references of each entry. -/
def refs (C : Nat → Option Entry) (k : Nat) : Option (Nat × Int) :=
  (C k).map fun e => (e.inum, e.ref)

abbrev Refs := Nat → Option (Nat × Int)

/-- One more reference to inode `i`, in entry `k`. -/
def Refs.add (c : Refs) (k i : Nat) : Refs :=
  Function.update c k (some (i, ((c k).map Prod.snd).getD 0 + 1))

/-- One reference less in entry `k`. -/
def Refs.sub (c : Refs) (k : Nat) : Refs :=
  Function.update c k ((c k).bind fun p => if p.2 = 1 then none else some (p.1, p.2 - 1))

/-- Entry `k` is free, or it has references to inode `i`. -/
def Refs.For (c : Refs) (k i : Nat) : Prop := ∀ p, c k = some p → p.1 = i ∧ 0 < p.2

section Refs

variable {C : Nat → Option Entry} {c : Refs} {k k' i i' : Nat} {e : Entry}

theorem refs_update (C : Nat → Option Entry) (k : Nat) (x : Option Entry) :
    refs (update C k x) = update (refs C) k (x.map fun e => (e.inum, e.ref)) := by
  funext k'
  unfold refs
  by_cases hk : k' = k
  · subst hk
    simp
  · simp [hk]

theorem refs_grab (h : ∀ e, C k = some e → e.inum = i) :
    refs (update C k (some (grab i (C k)))) = Refs.add (refs C) k i := by
  rw [refs_update, Refs.add]
  congr 1
  cases hc : C k with
  | none => simp [grab, refs, hc]
  | some e => simp [grab, refs, hc, h e hc]

/-- Flags do not count. -/
theorem refs_set (he : C k = some e) {x : Entry} (hx : x.inum = e.inum ∧ x.ref = e.ref) :
    refs (update C k (some x)) = refs C := by
  rw [refs_update]
  conv_rhs => rw [← update_eq_self k (refs C)]
  simp [refs, he, hx.1, hx.2]

theorem refs_drop (he : C k = some e) {x : Entry} (hx : x.inum = e.inum ∧ x.ref = e.ref) :
    refs (update C k (drop x)) = Refs.sub (refs C) k := by
  rw [refs_update, Refs.sub]
  congr 1
  unfold drop
  simp only [refs, he, map_some, bind_some, hx.2]
  split
  · rfl
  · simp [hx.1]

theorem sub_add (h : c.For k i) : (c.add k i).sub k = c := by
  funext k'
  by_cases hk : k' = k
  · subst hk
    simp only [Refs.sub, Refs.add, update_self, bind_some]
    cases hc : c k' with
    | none => simp
    | some p =>
      obtain ⟨h1, h2⟩ := h p hc
      rw [if_neg (by simp only [map_some, getD_some]; omega)]
      simp [← h1]
  · simp [Refs.sub, Refs.add, hk]

/-- To take a reference and give an older one back moves the older one. -/
theorem sub_add_add (h : c.For k i) (h' : (c.add k i).For k' i') :
    ((c.add k i).add k' i').sub k = c.add k' i' := by
  by_cases hk : k' = k
  · subst hk
    obtain ⟨rfl, -⟩ := h' (i, _) (update_self ..)
    exact sub_add h'
  · have hcomm : (c.add k i).add k' i' = (c.add k' i').add k i := by
      unfold Refs.add
      rw [update_of_ne hk, update_of_ne (Ne.symm hk), update_comm hk]
    rw [hcomm]
    refine sub_add fun p hp => h p ?_
    rwa [Refs.add, update_of_ne (Ne.symm hk)] at hp

end Refs

/-! ## The walk -/

/-- The kernel stops in `iget`: no entry of the inode cache is left for inode `j`. Of the entries of
before, one at most was free. -/
structure NoEntry (c : Refs) (j : Nat) (x : Stop) (u : Fs) : Prop where
  stop : x = .panic "iget: no inodes"
  full : spot u.entry j = none
  free : ∀ k < NINODE, ∀ k' < NINODE, c k = none → c k' = none → k = k'

/-- There is no entry for the inode that some of the names lead to. -/
def Stuck (F : Nat → Option File) (c : Refs) (i : Nat) (names : List Name) (x : Stop)
    (u : Fs) : Prop :=
  ∃ pre j, pre <+: names ∧ resolve F i pre = some j ∧ NoEntry c j x u

/-- Nobody has an inode locked. -/
def Unlocked (C : Nat → Option Entry) : Prop := ∀ k e, C k = some e → e.busy = false

/-- A file system in which every name leads to an inode, and an inode without links is in use. -/
structure Tree (F : Nat → Option File) (c : Refs) : Prop where
  size : ∀ i f, F i = some f → f.type = T_DIR → f.size % 16 = 0
  named : ∀ i f, F i = some f → f.type = T_DIR → ∀ j < f.size / 16, (f.slot j).inum ≠ 0 →
    ∃ g, F (f.slot j).inum = some g
  links : ∀ i f, F i = some f → f.nlink = 0 → ∃ k r, c k = some (i, r)
  root : ∃ f, F ROOTINO = some f

/-- The entries are `c` with one more reference to inode `i`, in entry `k`. -/
structure At (F : Nat → Option File) (c : Refs) (k i : Nat) (C : Nat → Option Entry) : Prop where
  refs : refs C = c.add k i
  unlocked : Unlocked C
  spot : c.For k i
  file : ∃ f, F i = some f

section Walk

variable {R : Nat → Prop} {T : Prop} {n : Nat} {F : Nat → Option File}
  {C : Nat → Option Entry} {s : Fs} {k i : Nat} {c : Refs} {e : Entry} {E : Stop → Fs → Prop}

theorem At.entry (h : At F c k i C) :
    ∃ e, C k = some e ∧ e.inum = i ∧ e.ref = ((c k).map Prod.snd).getD 0 + 1 := by
  have hk := congrFun h.refs k
  rw [Refs.add, update_self, fs.refs, map_eq_some_iff] at hk
  obtain ⟨e, he, hp⟩ := hk
  obtain ⟨h1, h2⟩ := Prod.mk.inj hp
  exact ⟨e, he, h1, h2⟩

theorem Stands.unique (h : Stands R T n F C s) {k' : Nat} {e' : Entry} (he : C k = some e)
    (he' : C k' = some e') (hi : e.inum = e'.inum) : k = k' := by
  rw [← h.entry] at he he'
  obtain ⟨hk, hr, rfl⟩ := entry_eq_some.mp he
  obtain ⟨hk', hr', rfl⟩ := entry_eq_some.mp he'
  exact h.good.unique k hk k' hk' hr hr' hi

theorem Stands.live (h : Stands R T n F C s) {f : File} (hf : F i = some f) : 0 < i ∧ i < n := by
  rw [← h.file] at hf
  have hl := live_of_file hf
  exact ⟨hl.1, h.ninodes ▸ hl.2.1⟩

/-- The inode of the walk is not freed when it is put back: it has links, or another reference. -/
theorem Stands.linked (h : Stands R T n F C s) (ht : Tree F c) (hat : At F c k i C)
    (he : C k = some e) (hr : e.ref = 1) : ∀ f, F i = some f → f.nlink ≠ 0 := by
  intro f hf h0
  obtain ⟨k', r, hk'⟩ := ht.links i f hf h0
  obtain ⟨e1, he1, hi1, hr1⟩ := hat.entry
  obtain rfl := some.inj (he.symm.trans he1)
  by_cases hkk : k' = k
  · subst hkk
    have hpos := (hat.spot _ hk').2
    rw [hk'] at hr1
    simp only [map_some, getD_some] at hr1 hpos
    omega
  · have hother := congrFun hat.refs k'
    rw [Refs.add, Function.update_of_ne hkk, hk', fs.refs, map_eq_some_iff] at hother
    obtain ⟨e', he', hp⟩ := hother
    exact hkk (h.unique he' he ((congrArg Prod.fst hp).trans hi1.symm))

/-- `iunlockput` of an entry that keeps its inode. -/
theorem Stands.iunlockput (h : Stands R T n F C s) (he : C k = some e) (hb : e.busy = true)
    (hlive : e.ref = 1 → ∀ f, F e.inum = some f → f.nlink ≠ 0) {Q : Unit → Fs → Prop}
    (hQ : ∀ u, Stands R T n F (Function.update C k (drop { e with busy := false })) u → Q () u) :
    spec (dir.iunlockput k : FsM Unit) s Q E := by
  unfold dir.iunlockput
  rw [spec_bind]
  refine h.iunlock he hb fun u hu => ?_
  refine hu.iput_live (Function.update_self ..) ?_ fun v hv => ?_
  · rw [Bool.eq_false_iff]
    intro hdead
    obtain ⟨hr, -, f, hf, h0⟩ := dead_iff.mp hdead
    exact hlive hr f hf h0
  · rw [Function.update_idem] at hv
    exact hQ v hv

theorem Unlocked.update (h : ∀ k', k' ≠ k → ∀ e, C k' = some e → e.busy = false) {x : Option Entry}
    (hx : ∀ e, x = some e → e.busy = false) : Unlocked (update C k x) := by
  intro k' e he
  by_cases hk : k' = k
  · subst hk
    rw [update_self] at he
    exact hx e he
  · rw [update_of_ne hk] at he
    exact h k' hk e he

theorem busy_drop {e x : Entry} (h : drop { e with busy := false } = some x) : x.busy = false := by
  unfold drop at h
  split at h
  · cases h
  · rw [← some.inj h]

/-- How a walk ends: with a reference to the inode it comes to, or with the references of before. -/
def Came (F : Nat → Option File) (c : Refs) (w r : Option (Nat × Name))
    (C : Nat → Option Entry) : Prop :=
  match w, r with
  | none, none => refs C = c
  | some (i, name), some (k, name') => name' = name ∧ At F c k i C
  | _, _ => False

/-- The directory is locked, and another inode was found in it: the references move on. -/
theorem At.next (h : At F c k i C) (he : C k = some e) {e1 : Entry}
    (he1 : e1 = { e with busy := true, valid := true }) {ip j : Nat} {f : File} (hf : F j = some f)
    (hspot : Spot (update C k (some e1)) j ip) (hpos : ∀ k e, C k = some e → 0 < e.ref) {e2 : Entry}
    (he2 : update (update C k (some e1)) ip (some (grab j (update C k (some e1) ip))) k = some e2) :
    At F c ip j (update (update (update C k (some e1)) ip
      (some (grab j (update C k (some e1) ip)))) k (drop { e2 with busy := false })) := by
  have hrefs1 : fs.refs (update C k (some e1)) = c.add k i := by
    rw [refs_set he (by rw [he1]; exact ⟨rfl, rfl⟩), h.refs]
  have hfor : (c.add k i).For ip j := by
    intro p hp
    rw [← hrefs1, fs.refs, map_eq_some_iff] at hp
    obtain ⟨e', he', rfl⟩ := hp
    refine ⟨hspot.same e' he', ?_⟩
    by_cases hk : ip = k
    · subst hk
      rw [update_self] at he'
      rw [← some.inj he', he1]
      exact hpos _ e he
    · rw [update_of_ne hk] at he'
      exact hpos ip e' he'
  refine ⟨?_, Unlocked.update (fun k' hk' x hx => ?_) fun x hx => busy_drop hx,
    fun p hp => ?_, f, hf⟩
  · rw [refs_drop he2 ⟨by rfl, by rfl⟩, refs_grab hspot.same, hrefs1, sub_add_add h.spot hfor]
  · by_cases hip : k' = ip
    · subst hip
      rw [update_self, update_of_ne hk'] at hx
      obtain rfl := some.inj hx
      cases hc : C k' with
      | none => rfl
      | some x => exact h.unlocked k' x hc
    · rw [update_of_ne hip, update_of_ne hk'] at hx
      exact h.unlocked k' x hx
  · by_cases hk : ip = k
    · subst hk
      obtain ⟨rfl, -⟩ := hfor (i, _) (update_self ..)
      exact h.spot p hp
    · exact hfor p (by rwa [Refs.add, update_of_ne hk])

theorem Stuck.cons {j : Nat} {name : Name} {names : List Name} {x : Stop}
    (h : Stuck F c j names x s) (hlook : look F i name = some j) :
    Stuck F c i (name :: names) x s := by
  obtain ⟨pre, j', hpre, hres, hno⟩ := h
  refine ⟨name :: pre, j', (prefix_cons_inj name).mpr hpre, ?_, hno⟩
  rw [resolve, foldlM_cons, hlook]
  exact hres

/-- The walk has one reference more than before, so that only its entry can have been free. -/
theorem stuck_of_add {j : Nat} {name : Name} {names : List Name} (hlook : look F i name = some j)
    (hrefs : refs s.entry = c.add k i) (hno : spot s.entry j = none) :
    Stuck F c i (name :: names) (.panic "iget: no inodes") s := by
  have honly : ∀ k' < NINODE, c k' = none → k' = k := by
    intro k' hk' hnone
    by_contra hne
    have hk := congrFun hrefs k'
    rw [Refs.add, update_of_ne hne, hnone, refs, map_eq_none_iff] at hk
    exact spot_eq_none hno hk' hk
  refine ⟨[name], j, ⟨names, rfl⟩, ?_, rfl, hno, fun k1 h1 k2 h2 hn1 hn2 =>
    (honly k1 h1 hn1).trans (honly k2 h2 hn2).symm⟩
  rw [resolve, foldlM_cons, hlook]
  rfl

theorem Stands.walk (ht : Tree F c) (parent : Bool) (path : List Name) :
    ∀ {k i : Nat} {C : Nat → Option Entry} {s : Fs}, Stands R T n F C s → At F c k i C →
    spec (dir.walk parent k path : FsM _) s
      (fun r u => ∃ C', Stands R T n F C' u ∧ Came F c (walkTo F parent i path) r C')
      (Stuck F c i path) := by
  induction path with
  | nil =>
    intro k i C s h hat
    obtain ⟨e, he, hi, hr⟩ := hat.entry
    rw [dir.walk, walkTo]
    cases parent with
    | false => exact (spec_pure ..).mpr ⟨C, h, rfl, hat⟩
    | true =>
      rw [if_pos rfl, if_pos rfl, spec_bind]
      refine h.iput_live he ?_ fun u hu => (spec_pure ..).mpr ⟨_, hu, ?_⟩
      · rw [Bool.eq_false_iff]
        intro hdead
        obtain ⟨hr1, -, f, hf, h0⟩ := dead_iff.mp hdead
        exact h.linked ht hat he hr1 f (hi ▸ hf) h0
      · show refs _ = c
        rw [refs_drop he ⟨rfl, rfl⟩, hat.refs, sub_add hat.spot]
  | cons name path ih =>
    intro k i C s h hat
    obtain ⟨e, he, hi, hr⟩ := hat.entry
    obtain ⟨f, hf⟩ := hat.file
    have hf' : F e.inum = some f := hi ▸ hf
    rw [dir.walk, spec_bind]
    refine h.ilock he (h.live hf') (fun s1 _ hidle _ h1 => ?_) fun x u hx => ?_
    · rw [spec_bind]
      have he1 := Function.update_self k (some { e with busy := true, valid := true }) C
      refine h1.stat he1 fun st _ _ hst => ?_
      rw [(hst f rfl hf').1, walkTo, hf]
      simp only [any_some, decide_eq_true_eq]
      -- the references of before are back after the directory is put
      have hput : ∀ {Q : Unit → Fs → Prop},
          (∀ u, (∃ C', Stands R T n F C' u ∧ Came F c none none C') →
          Q () u) → spec (dir.iunlockput k : FsM Unit) s1 Q (Stuck F c i (name :: path)) := by
        intro Q hQ
        refine h1.iunlockput he1 rfl (fun hr1 f hf0 => h.linked ht hat he hr1 f (hi ▸ hf0))
          fun u hu => hQ u ⟨_, hu, ?_⟩
        show refs _ = c
        rw [Function.update_idem, refs_drop he ⟨by rfl, by rfl⟩, hat.refs, sub_add hat.spot]
      by_cases hty : f.type = T_DIR
      · have hdir :
            Stands.Dir F (Function.update C k (some { e with busy := true, valid := true })) k
            { e with busy := true, valid := true } f := ⟨he1, rfl, hf', hty, ht.size i f hf hty⟩
        simp only [hty, ne_eq, not_true_eq_false, if_false]
        by_cases hlast : parent = true ∧ path = []
        · simp only [if_pos hlast]
          rw [spec_bind]
          refine h1.iunlock he1 rfl fun u hu => (spec_pure ..).mpr ⟨_, hu, rfl, ?_, ?_,
            hat.spot, f, hf⟩
          · rw [Function.update_idem, refs_set he ⟨by rfl, by rfl⟩, hat.refs]
          · rw [Function.update_idem]
            exact Unlocked.update (fun k' _ => hat.unlocked k') fun x hx => by rw [← some.inj hx]
        · simp only [if_neg hlast]
          rw [spec_bind]
          refine h1.dirlookup hdir (fun hnone => ?_) (fun j off ip u hl hspot hu => ?_)
            fun j off hl hno => ?_
          · have hlook : look F i name = none := by simp [look, hf, hty, hnone]
            rw [hlook]
            dsimp only
            rw [spec_bind]
            exact hput fun u hu => (spec_pure ..).mpr hu
          · have hlook : look F i name = some j := by simp [look, hf, hty, hl]
            rw [hlook]
            dsimp only [bind_some]
            rw [spec_bind]
            obtain ⟨a, ha, hhit, rfl, -⟩ := lookup_eq_some hl
            obtain ⟨g, hg⟩ := ht.named i f hf hty a ha hhit.1
            obtain ⟨e2, he2, hb2, hi2, hr2⟩ : ∃ e2, Function.update (Function.update C k (some
                { e with busy := true, valid := true })) ip
                (some (grab (f.slot a).inum (Function.update C k
                  (some { e with busy := true, valid := true }) ip))) k = some e2 ∧ e2.busy = true ∧
                e2.inum = i ∧ (e2.ref = 1 → e.ref = 1) := by
              by_cases hk : ip = k
              · subst hk
                refine ⟨_, Function.update_self .., ?_⟩
                rw [he1]
                have hpos := h.ref_pos ip e he
                exact ⟨rfl, hi, fun h1 => absurd h1 (by simp only [grab]; omega)⟩
              · refine ⟨_, (Function.update_of_ne (Ne.symm hk) ..).trans he1, rfl, hi, fun h1 => h1⟩
            refine hu.iunlockput he2 hb2 (fun hr1 f hf0 => h.linked ht hat he (hr2 hr1) f
              (hi2 ▸ hf0)) fun v hv => ?_
            exact spec_mono (ih hv (hat.next he rfl hg hspot h.ref_pos he2)) (fun _ _ hq => hq)
              fun _ _ hx => hx.cons hlook
          · have hlook : look F i name = some j := by simp [look, hf, hty, hl]
            have hrefs : refs s1.entry = c.add k i := by
              rw [h1.entry, refs_set he ⟨by rfl, by rfl⟩, hat.refs]
            exact stuck_of_add hlook hrefs (h1.entry ▸ hno)
      · simp only [hty, ne_eq, not_false_eq_true, if_true]
        rw [spec_bind]
        exact hput fun u hu => (spec_pure ..).mpr hu
    · rcases hx with ⟨-, hbusy⟩ | ⟨-, hnone⟩
      · rw [hat.unlocked k e he] at hbusy
        cases hbusy
      · rw [hf'] at hnone
        cases hnone

/-- A walk starts with a new reference. -/
theorem At.start (hsame : ∀ e, C k = some e → e.inum = i) (hun : Unlocked C)
    (hpos : ∀ k e, C k = some e → 0 < e.ref) (hf : ∃ f, F i = some f) :
    At F (fs.refs C) k i (update C k (some (grab i (C k)))) := by
  refine ⟨refs_grab hsame, Unlocked.update (fun k' _ => hun k') fun x hx => ?_, fun p hp => ?_, hf⟩
  · obtain rfl := some.inj hx
    cases hc : C k with
    | none => rfl
    | some e => exact hun k e hc
  · obtain ⟨e, he, rfl⟩ := map_eq_some_iff.mp hp
    exact ⟨hsame e he, hpos k e he⟩

/-- Where a path starts. -/
def startOf (path : Name) (cwd : Nat) : Nat := if path.head? = some 47 then ROOTINO else cwd

theorem Stands.namex (h : Stands R T n F C s) (ht : Tree F (refs C)) (hun : Unlocked C) {cwd : Nat}
    (he : C cwd = some e) (hf : ∃ f, F e.inum = some f) (path : Name) (parent : Bool) :
    spec (dir.namex cwd path parent : FsM _) s (fun r u => u.file = F ∧
        Came F (refs C) (walkTo F parent (startOf path e.inum) (components path)) r u.entry)
      (Stuck F (refs C) (startOf path e.inum) (components path)) := by
  have hwalk : ∀ {k i : Nat} {u : Fs}, (∀ e, C k = some e → e.inum = i) → (∃ f, F i = some f) →
      Stands R T n F (Function.update C k (some (grab i (C k)))) u →
      spec (dir.walk parent k (dir.elems path) : FsM _) u
        (fun r u => u.file = F ∧ Came F (refs C) (walkTo F parent i (components path)) r u.entry)
        (Stuck F (refs C) i (components path)) := by
    intro k i u hsame hfile hu
    rw [elems_eq]
    refine spec_mono (Stands.walk ht parent _ hu (At.start hsame hun h.ref_pos hfile))
      (fun r v hv => ?_) fun _ _ hx => hx
    obtain ⟨C', hv, hc⟩ := hv
    exact ⟨hv.file, hv.entry ▸ hc⟩
  unfold dir.namex startOf
  dsimp only
  split
  · rw [spec_bind]
    refine h.iget ROOTINO (fun k u hspot hu => hwalk hspot.same ht.root hu) fun hno => ?_
    refine ⟨[], ROOTINO, nil_prefix, rfl, rfl, h.entry ▸ hno, fun k hk _ _ hnone _ => ?_⟩
    exact absurd (map_eq_none_iff.mp hnone) (spot_eq_none hno hk)
  · rw [spec_bind]
    refine h.idup he fun u hu => hwalk (fun e' he' => ?_) hf ?_
    · rw [some.inj (he'.symm.trans he)]
    · rw [he]
      exact hu

end Walk

end xv6.fs
