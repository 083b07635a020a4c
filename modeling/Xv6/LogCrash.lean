-- The crash law of the log: a power cut can fall before any block write of a commit
-- or of a recovery, and the recovery that ends leaves whole transactions only. A commit
-- that finds no free buffer panics, which is one more way to be cut.
import Xv6.Log

open List Function WP

namespace xv6.log

/-! ## The disk as a reader of the log sees it -/

/-- Where the log lies: `log.start` and `log.size`. The header block is part of it. -/
structure Geometry where
  start : Nat
  size : Nat
  size_pos : 0 < size

def Geometry.InLog (g : Geometry) (b : Nat) : Prop := g.start ≤ b ∧ b < g.start + g.size

/-- A transaction: the new contents of distinct home blocks, few enough for the slots of the
log and for the header. -/
structure Tx (g : Geometry) where
  writes : List (Nat × Block)
  nodup : (writes.map Prod.fst).Nodup
  fits_slots : writes.length ≤ g.size - 1
  fits_header : writes.length ≤ LOGSIZE
  home : ∀ w ∈ writes, ¬ g.InLog w.1
  uint : ∀ w ∈ writes, w.1 < 2 ^ 32

variable {g : Geometry}

/-- The block numbers of a transaction, in the order of the log. -/
def Tx.blocks (tx : Tx g) : List Nat := tx.writes.map Prod.fst

def Home (g : Geometry) (d D : Disk) : Prop := ∀ b, ¬ g.InLog b → d b = D b

/-- The log is empty, and `D` is at home. -/
def Clean (g : Geometry) (D d : Disk) : Prop := word (d g.start) 0 = 0 ∧ Home g d D

/-- The log holds all of `tx`, and `D` is at home but for the blocks of `tx`. -/
structure Pending (tx : Tx g) (D d : Disk) : Prop where
  header : head (d g.start) = tx.blocks
  slots : ∀ (i : Nat) w, tx.writes[i]? = some w → d (g.start + i + 1) = w.2
  rest : ∀ b, ¬ g.InLog b → b ∉ tx.blocks → d b = D b
  target : ∀ w ∈ tx.writes, D w.1 = w.2

/-- A recovery that ends leaves `D` at home. An empty log is one that holds the empty
transaction. -/
def Recoverable (g : Geometry) (D d : Disk) : Prop := ∃ tx : Tx g, Pending tx D d

/-- The block numbers of each header with `n > 0` that reached the disk, oldest first. -/
def commitRecords (start : Nat) (ws : List (Nat × Block)) : List (List Nat) :=
  (ws.filter (fun w => w.1 = start ∧ word w.2 0 ≠ 0)).map (fun w => head w.2)

variable {tx : Tx g} {D : Disk} {R : List (List Nat)} {s : Machine} {w : Nat × Block}

theorem commitRecords_snoc_other {start : Nat} {ws : List (Nat × Block)}
    (h : w.1 ≠ start ∨ word w.2 0 = 0) :
    commitRecords start (ws ++ [w]) = commitRecords start ws := by
  rcases h with h | h <;> simp [commitRecords, filter_append, h]

theorem Tx.blocks_getD (tx : Tx g) {i : Nat} (h : tx.writes[i]? = some w) :
    tx.blocks.getD i 0 = w.1 := by
  simp [Tx.blocks, h]

theorem Tx.not_inLog (tx : Tx g) {b : Nat} (h : b ∈ tx.blocks) : ¬ g.InLog b := by
  obtain ⟨w, hw, rfl⟩ := mem_map.mp h
  exact tx.home w hw

theorem Geometry.inLog_start (g : Geometry) : g.InLog g.start := by
  have := g.size_pos
  exact ⟨by omega, by omega⟩

theorem Tx.inLog_slot (tx : Tx g) {i : Nat} (h : i < tx.writes.length) :
    g.InLog (g.start + i + 1) := by
  have := tx.fits_slots
  exact ⟨by omega, by omega⟩

/-! ## One block write -/

/-- The machine after a block write. -/
def Machine.wrote (s : Machine) (bno : Nat) (data : Block) : Machine :=
  { s with
    disk := Function.update s.disk bno data
    dirty := Function.update s.dirty bno none
    left := s.left.map (· - 1)
    writes := s.writes ++ [(bno, data)] }

theorem spec_bwrite {bno : Nat} {data : Block} {Q : Unit → Machine → Prop}
    {E : Stop → Machine → Prop} (hq : Q () (s.wrote bno data))
    (he : s.left = some 0 → E .powerCut s) : spec (bwrite bno data) s Q E := by
  unfold bwrite
  simp only [spec_bind, spec_get, spec_ite, spec_throw, spec_modify]
  exact ⟨he, fun _ => hq⟩

theorem spec_bread {busy bno : Nat} {Q : Block → Machine → Prop} {E : Stop → Machine → Prop}
    (hq : Q ((s.dirty bno).getD (s.disk bno)) s) (he : E (.panic "bget: no buffers") s) :
    spec (bread busy bno) s Q E := by
  unfold bread
  simp only [spec_bind, spec_get, spec_ite, spec_throw, spec_pure]
  exact ⟨fun _ => he, fun _ => hq⟩

/-- Without a dirty buffer there are enough. -/
theorem spec_bread_clean {busy bno : Nat} {Q : Block → Machine → Prop} {E : Stop → Machine → Prop}
    (hd : ∀ b, s.dirty b = none) (hb : busy < NBUF) (hq : Q (s.disk bno) s) :
    spec (bread busy bno) s Q E := by
  have hpinned : s.pinned = 0 := by simp [Machine.pinned, hd]
  unfold bread
  simp only [spec_bind, spec_get, spec_ite, spec_throw, spec_pure, hpinned, hd]
  exact ⟨fun h => by omega, fun _ => hq⟩

/-- What every state of a session has in common: the geometry, and no dirty log block. -/
structure Sound (g : Geometry) (s : Machine) : Prop where
  start_eq : s.start = g.start
  size_eq : s.size = g.size
  clean_log : ∀ b, g.InLog b → s.dirty b = none

theorem Sound.wrote (h : Sound g s) (bno : Nat) (data : Block) : Sound g (s.wrote bno data) := by
  refine ⟨h.start_eq, h.size_eq, ?_⟩
  intro b hb
  simp only [Machine.wrote, update_apply]
  split
  · rfl
  · exact h.clean_log b hb

theorem Sound.with_lh (h : Sound g s) (lh : List Nat) :
    Sound g { s with lh } := ⟨h.start_eq, h.size_eq, h.clean_log⟩

theorem Sound.bread_log (h : Sound g s) {b : Nat} (hb : g.InLog b) :
    (s.dirty b).getD (s.disk b) = s.disk b := by
  simp [h.clean_log b hb]

/-- A home block of the transaction that is written with its own data. -/
theorem Pending.wrote {d : Disk} (h : Pending tx D d) (hw : w ∈ tx.writes) :
    Pending tx D (update d w.1 w.2) := by
  have hmem : w.1 ∈ tx.blocks := mem_map_of_mem hw
  have hne : ∀ b, g.InLog b → b ≠ w.1 := fun b hb e => tx.not_inLog hmem (e ▸ hb)
  refine ⟨?_, ?_, ?_, h.target⟩
  · rw [update_of_ne (hne _ g.inLog_start)]
    exact h.header
  · intro i v hv
    have hi : i < tx.writes.length := (List.getElem?_eq_some_iff.mp hv).1
    rw [update_of_ne (hne _ (tx.inLog_slot hi))]
    exact h.slots i v hv
  · grind [h.rest]

/-- The empty transaction. -/
def Tx.empty (g : Geometry) : Tx g :=
  ⟨[], List.nodup_nil, Nat.zero_le _, Nat.zero_le _, by simp, by simp⟩

theorem Clean.recoverable {d : Disk} (h : Clean g D d) : Recoverable g D d := by
  refine ⟨Tx.empty g, head_of_zero h.1, ?_, fun b hb _ => h.2 b hb, ?_⟩
  · intro i w hw
    simp [Tx.empty] at hw
  · intro w hw
    simp [Tx.empty] at hw

/-! ## Installing -/

/-- The first `j` blocks of the transaction are home. -/
def Installed (tx : Tx g) (j : Nat) (d : Disk) : Prop :=
  ∀ (i : Nat) w, i < j → tx.writes[i]? = some w → d w.1 = w.2

theorem Tx.eq_of_fst_eq (tx : Tx g) {i j : Nat} {v : Nat × Block} (hv : tx.writes[i]? = some v)
    (hw : tx.writes[j]? = some w) (e : v.1 = w.1) : i = j := by
  have hi : i < tx.blocks.length := by
    simpa [Tx.blocks] using (List.getElem?_eq_some_iff.mp hv).1
  have hblk : tx.blocks[i]? = tx.blocks[j]? := by simp [Tx.blocks, hv, hw, e]
  exact (List.getElem?_inj hi tx.nodup).mp hblk

theorem Installed.wrote {j : Nat} {d : Disk} (h : Installed tx j d) (hw : tx.writes[j]? = some w) :
    Installed tx (j + 1) (update d w.1 w.2) := by
  intro i v hi hv
  by_cases hvw : v.1 = w.1
  · obtain rfl := tx.eq_of_fst_eq hv hw hvw
    rw [hw] at hv
    cases hv
    simp
  · have hij : i ≠ j := by grind
    rw [update_of_ne hvw]
    exact h i v (by omega) hv

/-- The states of `install_trans` after `j` blocks, with `R` on record. The buffers of the
blocks that are not home yet may still be dirty. -/
structure Installing (tx : Tx g) (D : Disk) (R : List (List Nat)) (j : Nat) (s : Machine) :
    Prop where
  sound : Sound g s
  lh_eq : s.lh = tx.blocks
  pending : Pending tx D s.disk
  done : Installed tx j s.disk
  records : commitRecords g.start s.writes = R
  pinned : ∀ b, b ∉ tx.blocks.drop j → s.dirty b = none

theorem Installing.wrote {j : Nat} (h : Installing tx D R j s) (hw : tx.writes[j]? = some w) :
    Installing tx D R (j + 1) (s.wrote w.1 w.2) := by
  have hmem : w ∈ tx.writes := mem_of_getElem? hw
  refine ⟨h.sound.wrote _ _, h.lh_eq, h.pending.wrote hmem, h.done.wrote hw, ?_, ?_⟩
  · have hne : w.1 ≠ g.start := fun e => tx.home w hmem (e ▸ g.inLog_start)
    simp only [Machine.wrote]
    rw [commitRecords_snoc_other (Or.inl hne)]
    exact h.records
  · intro b hb
    simp only [Machine.wrote, update_apply]
    split
    · rfl
    · rename_i hbw
      apply h.pinned
      have hj : tx.blocks[j]? = some w.1 := by simp [Tx.blocks, hw]
      rw [drop_eq_getElem_cons (List.getElem?_eq_some_iff.mp hj).1, mem_cons, not_or]
      refine ⟨?_, hb⟩
      rw [(List.getElem?_eq_some_iff.mp hj).2]
      exact hbw

theorem install_trans_spec (h : Installing tx D R 0 s) :
    spec install_trans s (fun _ s' => Installing tx D R tx.writes.length s')
      (fun _ s' => Pending tx D s'.disk ∧ commitRecords g.start s'.writes = R) := by
  unfold install_trans
  rw [spec_bind, spec_get]
  have hlen : s.lh.length = tx.writes.length := by simp [h.lh_eq, Tx.blocks]
  rw [hlen]
  refine spec_loop (I := fun j s' => Installing tx D R j s') ?_ h
  intro j t hj ht
  obtain ⟨w, hw⟩ : ∃ w, tx.writes[j]? = some w := ⟨_, List.getElem?_eq_getElem hj⟩
  have hslot : (t.dirty (s.start + j + 1)).getD (t.disk (s.start + j + 1)) = w.2 := by
    rw [h.sound.start_eq, ht.sound.bread_log (tx.inLog_slot hj)]
    exact ht.pending.slots j w hw
  have hdst : s.lh.getD j 0 = w.1 := by rw [h.lh_eq, tx.blocks_getD hw]
  simp only [spec_bind]
  refine spec_bread (spec_bread ?_ ⟨ht.pending, ht.records⟩) ⟨ht.pending, ht.records⟩
  rw [hslot, hdst]
  exact spec_bwrite (ht.wrote hw) (fun _ => ⟨ht.pending, ht.records⟩)

/-! ## Clearing the log -/

/-- Between two transactions: the log is empty, and `D` is at home. -/
structure Idle (g : Geometry) (D : Disk) (R : List (List Nat)) (s : Machine) : Prop where
  sound : Sound g s
  lh_eq : s.lh = []
  clean : Clean g D s.disk
  records : commitRecords g.start s.writes = R
  pinned : ∀ b, s.dirty b = none

theorem Installing.home (h : Installing tx D R tx.writes.length s) : Home g s.disk D := by
  intro b hb
  by_cases hmem : b ∈ tx.blocks
  · obtain ⟨w, hw, rfl⟩ := mem_map.mp hmem
    obtain ⟨i, hi⟩ := List.getElem?_of_mem hw
    rw [h.done i w (List.getElem?_eq_some_iff.mp hi).1 hi, h.pending.target w hw]
  · exact h.pending.rest b hb hmem

theorem clear_spec (h : Installing tx D R tx.writes.length s) :
    spec (do modify fun s => { s with lh := [] }
             write_head) s (fun _ s' => Idle g D R s')
      (fun _ s' => Pending tx D s'.disk ∧ commitRecords g.start s'.writes = R) := by
  have hzero : ∀ b : Block, word (setHead b []) 0 = 0 := fun b => word_setHead_zero (by simp)
  simp only [write_head, spec_bind, spec_modify, spec_get]
  refine spec_bread ?_ ⟨h.pending, h.records⟩
  refine spec_bwrite ?_ (fun _ => ⟨h.pending, h.records⟩)
  refine ⟨(h.sound.with_lh []).wrote _ _, rfl, ⟨?_, ?_⟩, ?_, ?_⟩
  · simp only [Machine.wrote, h.sound.start_eq, update_self]
    exact hzero _
  · intro b hb
    have hne : b ≠ g.start := fun e => hb (e ▸ g.inLog_start)
    simp only [Machine.wrote, h.sound.start_eq, update_of_ne hne]
    exact h.home b hb
  · grind [Machine.wrote, commitRecords_snoc_other, h.records]
  · intro b
    simp only [Machine.wrote, update_apply]
    split
    · rfl
    · exact h.pinned b (by simp [Tx.blocks, drop_of_length_le])

/-! ## Recovery -/

/-- A recovery that is cut leaves a disk that recovers to the same blocks, and one that
ends leaves them at home with an empty log. -/
theorem recover_from_log_spec {d : Disk} (h : Recoverable g D d) (left : Option Nat) :
    spec recover_from_log (boot g.start g.size d left) (fun _ s => Clean g D s.disk)
      (fun _ s => Recoverable g D s.disk) := by
  have hr := h
  obtain ⟨tx, hp⟩ := h
  unfold recover_from_log read_head
  simp only [spec_bind, spec_get, spec_modify]
  refine spec_bread ?_ hr
  have h0 : Installing tx D [] 0 { boot g.start g.size d left with lh := head (d g.start) } := by
    refine ⟨⟨rfl, rfl, fun _ _ => rfl⟩, hp.header, hp, ?_, rfl, fun _ _ => rfl⟩
    intro i w hi
    omega
  apply spec_mono (install_trans_spec h0)
  · intro _ s hs
    have := clear_spec hs
    simp only [spec_bind, spec_modify] at this
    exact spec_mono this (fun _ s' hs' => hs'.clean) (fun _ s' hs' => ⟨tx, hs'.1⟩)
  · rintro _ s ⟨hps, _⟩
    exact ⟨tx, hps⟩

/-- While the power stays on, a recovery ends: no buffer is dirty when it starts. -/
theorem recover_from_log_ends (start size : Nat) (d : Disk) :
    spec recover_from_log (boot start size d none) (fun _ _ => True) (fun _ _ => False) := by
  let Fresh : Machine → Prop := fun t => t.left = none ∧ ∀ b, t.dirty b = none
  have hw : ∀ (bno : Nat) (data : Block) (t : Machine), Fresh t →
      spec (bwrite bno data) t (fun _ t' => Fresh t') (fun _ _ => False) := by
    rintro bno data t ⟨hl, hd⟩
    refine spec_bwrite ⟨by simp [Machine.wrote, hl], fun b => ?_⟩ (by simp [hl])
    simp only [Machine.wrote, update_apply, hd, ite_self]
  have hi : ∀ t : Machine, Fresh t →
      spec install_trans t (fun _ t' => Fresh t') (fun _ _ => False) := by
    intro t ht
    unfold install_trans
    rw [spec_bind, spec_get]
    refine spec_loop (I := fun _ (t' : Machine) => Fresh t') (fun j u _ hu => ?_) ht
    simp only [spec_bind]
    exact spec_bread_clean hu.2 (by decide) (spec_bread_clean hu.2 (by decide) (hw _ _ _ hu))
  unfold recover_from_log read_head write_head
  simp only [spec_bind, spec_get, spec_modify]
  refine spec_bread_clean (fun _ => rfl) (by decide) ?_
  apply spec_mono (hi { boot start size d none with lh := head (d start) } ⟨rfl, fun _ => rfl⟩)
  · intro _ t ht
    refine spec_bread_clean ht.2 (by decide) ?_
    exact spec_mono (hw _ _ { t with lh := [] } ht) (fun _ _ _ => trivial) (fun _ _ h => h)
  · exact fun _ _ h => h

/-! ## A commit -/

/-- The blocks `ws` of a transaction are in the cache and in the header in memory. -/
structure Staged (g : Geometry) (ws : List (Nat × Block)) (D : Disk) (R : List (List Nat))
    (s : Machine) : Prop where
  sound : Sound g s
  lh_eq : s.lh = ws.map Prod.fst
  clean : Clean g D s.disk
  records : commitRecords g.start s.writes = R
  dirty : ∀ w ∈ ws, s.dirty w.1 = some w.2
  pinned : ∀ b, b ∉ ws.map Prod.fst → s.dirty b = none

theorem Staged.log_write {pre post : List (Nat × Block)} (htx : tx.writes = pre ++ w :: post)
    (h : Staged g pre D R s) : Staged g (pre ++ [w]) D R
      { s with lh := absorb s.lh w.1, dirty := update s.dirty w.1 (some w.2) } := by
  have hmem : w ∈ tx.writes := by simp [htx]
  have hnew : w.1 ∉ pre.map Prod.fst := by
    have := tx.nodup
    rw [htx, map_append, nodup_append] at this
    exact fun hin => this.2.2 _ hin w.1 (by simp) rfl
  refine ⟨⟨h.sound.start_eq, h.sound.size_eq, ?_⟩, ?_, h.clean, h.records, ?_, ?_⟩
  · intro b hb
    have hne : b ≠ w.1 := fun e => tx.home w hmem (e ▸ hb)
    simp only [update_of_ne hne]
    exact h.sound.clean_log b hb
  · simp only [h.lh_eq, absorb_of_notMem hnew, map_append, map_cons, map_nil]
  · intro v hv
    rcases mem_append.mp hv with hv | hv
    · grind [mem_map_of_mem, h.dirty]
    · grind
  · intro b hb
    simp only [map_append, map_cons, map_nil, mem_append, mem_singleton, not_or] at hb
    simp only [update_of_ne hb.2]
    exact h.pinned b hb.1

/-- The slots of the log hold the first `j` blocks of the transaction. -/
def Logged (tx : Tx g) (j : Nat) (d : Disk) : Prop :=
  ∀ (i : Nat) w, i < j → tx.writes[i]? = some w → d (g.start + i + 1) = w.2

theorem Staged.write_slot {j : Nat} (h : Staged g tx.writes D R s) (hl : Logged tx j s.disk)
    (hw : tx.writes[j]? = some w) : Staged g tx.writes D R (s.wrote (g.start + j + 1) w.2) ∧
      Logged tx (j + 1) (s.wrote (g.start + j + 1) w.2).disk := by
  have hslot := tx.inLog_slot (List.getElem?_eq_some_iff.mp hw).1
  refine ⟨⟨h.sound.wrote _ _, h.lh_eq, ⟨?_, ?_⟩, ?_, ?_, ?_⟩, ?_⟩
  · have hne : g.start ≠ g.start + j + 1 := by omega
    simp only [Machine.wrote, update_of_ne hne]
    exact h.clean.1
  · intro b hb
    have hne : b ≠ g.start + j + 1 := fun e => hb (e ▸ hslot)
    simp only [Machine.wrote, update_of_ne hne]
    exact h.clean.2 b hb
  · grind [Machine.wrote, commitRecords_snoc_other, h.records]
  · intro v hv
    have hne : v.1 ≠ g.start + j + 1 := fun e => tx.home v hv (e ▸ hslot)
    simp only [Machine.wrote, update_of_ne hne]
    exact h.dirty v hv
  · intro b hb
    simp only [Machine.wrote, update_apply]
    split
    · rfl
    · exact h.pinned b hb
  · intro i v hi hv
    simp only [Machine.wrote]
    by_cases hij : i = j
    · grind
    · rw [update_of_ne (by omega)]
      exact hl i v (by omega) hv

theorem write_log_spec (h : Staged g tx.writes D R s) : spec write_log s
      (fun _ s' => Staged g tx.writes D R s' ∧ Logged tx tx.writes.length s'.disk)
      (fun _ s' => Clean g D s'.disk ∧ commitRecords g.start s'.writes = R) := by
  unfold write_log
  rw [spec_bind, spec_get]
  have hlen : s.lh.length = tx.writes.length := by simp [h.lh_eq]
  rw [hlen]
  refine spec_loop (I := fun j s' => Staged g tx.writes D R s' ∧ Logged tx j s'.disk) ?_
    ⟨h, fun i w hi => by omega⟩
  rintro j t hj ⟨ht, hl⟩
  obtain ⟨w, hw⟩ : ∃ w, tx.writes[j]? = some w := ⟨_, List.getElem?_eq_getElem hj⟩
  have hfrom : s.lh.getD j 0 = w.1 := by
    rw [h.lh_eq]
    exact tx.blocks_getD hw
  have hdata : (t.dirty w.1).getD (t.disk w.1) = w.2 := by
    rw [ht.dirty w (mem_of_getElem? hw)]
    rfl
  simp only [spec_bind, hfrom, h.sound.start_eq]
  refine spec_bread (spec_bread ?_ ⟨ht.clean, ht.records⟩) ⟨ht.clean, ht.records⟩
  rw [hdata]
  exact spec_bwrite (ht.write_slot hl hw) (fun _ => ⟨ht.clean, ht.records⟩)

/-- The header write is the commit: before it the old blocks recover, and after it the new
ones. -/
theorem write_head_spec (hne : tx.writes ≠ []) (h : Staged g tx.writes D R s)
    (hl : Logged tx tx.writes.length s.disk) :
    spec write_head s (fun _ s' => Installing tx (writes.apply tx.writes D) (R ++ [tx.blocks]) 0 s')
      (fun _ s' => Clean g D s'.disk ∧ commitRecords g.start s'.writes = R) := by
  have hlen : tx.blocks.length ≤ LOGSIZE := by simpa [Tx.blocks] using tx.fits_header
  have hpos : tx.blocks.length ≠ 0 := by simpa [Tx.blocks] using hne
  have huint : ∀ b ∈ tx.blocks, b < 2 ^ 32 := by
    intro b hb
    obtain ⟨w, hw, rfl⟩ := mem_map.mp hb
    exact tx.uint w hw
  have hlh : s.lh = tx.blocks := h.lh_eq
  simp only [write_head, spec_bind, spec_get, hlh, h.sound.start_eq]
  refine spec_bread ?_ ⟨h.clean, h.records⟩
  refine spec_bwrite ?_ (fun _ => ⟨h.clean, h.records⟩)
  refine ⟨h.sound.wrote _ _, hlh, ⟨?_, ?_, ?_, ?_⟩, fun i w hi => by omega, ?_, ?_⟩
  · simp only [Machine.wrote, update_self]
    exact head_setHead hlen huint
  · intro i w hw
    simp only [Machine.wrote]
    rw [update_of_ne (by omega)]
    exact hl i w (List.getElem?_eq_some_iff.mp hw).1 hw
  · intro b hb hnot
    have hbs : b ≠ g.start := fun e => hb (e ▸ g.inLog_start)
    simp only [Machine.wrote, update_of_ne hbs, writes.apply_of_notMem hnot]
    exact h.clean.2 b hb
  · intro w hw
    exact writes.apply_of_mem tx.nodup hw _
  · have hn : word (setHead ((s.dirty g.start).getD (s.disk g.start)) tx.blocks) 0 ≠ 0 := by
      rw [word_setHead_zero hlen]
      exact hpos
    have hrec := h.records
    unfold commitRecords at hrec ⊢
    simp only [Machine.wrote, filter_append, map_append, hrec]
    simp [hn, head_setHead hlen huint]
  · intro b hb
    simp only [Machine.wrote, update_apply]
    split
    · rfl
    · exact h.pinned b (by simpa [Tx.blocks] using hb)

theorem commit_spec (hne : tx.writes ≠ []) (h : Staged g tx.writes D R s) :
    spec commit s (fun _ s' => Idle g (writes.apply tx.writes D) (R ++ [tx.blocks]) s')
      (fun _ s' => (Recoverable g D s'.disk ∧ commitRecords g.start s'.writes = R) ∨
        (Recoverable g (writes.apply tx.writes D) s'.disk ∧
          commitRecords g.start s'.writes = R ++ [tx.blocks])) := by
  unfold commit
  have hpos : s.lh.length > 0 := by grind [h.lh_eq, length_map]
  rw [spec_bind, spec_get, if_pos hpos, spec_bind]
  apply spec_mono (write_log_spec h)
  · rintro _ s1 ⟨h1, hl1⟩
    rw [spec_bind]
    apply spec_mono (write_head_spec hne h1 hl1)
    · intro _ s2 h2
      rw [spec_bind]
      apply spec_mono (install_trans_spec h2)
      · intro _ s3 h3
        exact spec_mono (clear_spec h3) (fun _ _ h => h)
          (fun _ s' he => Or.inr ⟨⟨tx, he.1⟩, he.2⟩)
      · exact fun _ s' he => Or.inr ⟨⟨tx, he.1⟩, he.2⟩
    · exact fun _ s' he => Or.inl ⟨he.1.recoverable, he.2⟩
  · exact fun _ s' he => Or.inl ⟨he.1.recoverable, he.2⟩

theorem stage_spec {E : Stop → Machine → Prop} (h : Staged g [] D R s) (ho : s.outstanding = 1) :
    spec (tx.writes.forM fun w => log_write w.1 w.2) s
    (fun _ s' => Staged g tx.writes D R s') E := by
  refine spec_mono (spec_forM (I := fun pre s' => Staged g pre D R s' ∧ s'.outstanding = 1) ?_
    ⟨h, ho⟩) (fun _ _ h => h.1) (fun _ _ h => h)
  rintro pre w post t htx ⟨ht, hot⟩
  have hlt : pre.length < tx.writes.length := by simp [htx]
  have hroom : ¬ tooBig t.lh t.size := by
    have h1 := tx.fits_slots
    have h2 := tx.fits_header
    rw [LOGSIZE_eq] at h2
    rw [tooBig, ht.lh_eq, ht.sound.size_eq, length_map, LOGSIZE_eq]
    omega
  unfold log_write
  rw [spec_bind, spec_get, if_neg hroom, if_neg (by rw [hot]; decide), spec_modify]
  exact ⟨ht.log_write htx, hot⟩

/-- The records that a transaction leaves: one, when it wrote anything. -/
def Tx.record (tx : Tx g) : List (List Nat) := if tx.writes = [] then [] else [tx.blocks]

theorem transact_spec (h : Idle g D R s) : spec (transact tx.writes) s
      (fun _ s' => Idle g (writes.apply tx.writes D) (R ++ tx.record) s')
      (fun _ s' => (Recoverable g D s'.disk ∧ commitRecords g.start s'.writes = R) ∨
        (Recoverable g (writes.apply tx.writes D) s'.disk ∧
          commitRecords g.start s'.writes = R ++ tx.record)) := by
  unfold transact
  rw [spec_bind, spec_modify, spec_bind]
  have h0 : Staged g [] D R { s with outstanding := 1 } :=
    ⟨⟨h.sound.start_eq, h.sound.size_eq, h.sound.clean_log⟩, h.lh_eq, h.clean, h.records,
      by simp, fun b _ => h.pinned b⟩
  apply spec_mono (stage_spec h0 rfl)
  · intro _ s1 h1
    rw [spec_bind, spec_modify]
    have h2 : Staged g tx.writes D R { s1 with outstanding := 0 } :=
      ⟨⟨h1.sound.start_eq, h1.sound.size_eq, h1.sound.clean_log⟩, h1.lh_eq, h1.clean,
        h1.records, h1.dirty, h1.pinned⟩
    by_cases hne : tx.writes = []
    · -- an empty transaction commits nothing
      have hlh : s1.lh = [] := by rw [h1.lh_eq, hne]; rfl
      unfold commit
      rw [spec_bind, spec_get, if_neg (by simp [hlh]), spec_pure]
      simp only [Tx.record, hne, if_true, append_nil, writes.apply_nil]
      exact ⟨h2.sound, hlh, h2.clean, h2.records, fun b => h2.pinned b (by simp [hne])⟩
    · simp only [Tx.record, if_neg hne]
      exact commit_spec hne h2
  · exact fun _ _ h => h

/-! ## A session and its recovery -/

/-- The blocks after the transactions, applied whole and in order. -/
def applyTxs (txs : List (Tx g)) (d : Disk) : Disk :=
  txs.foldl (fun d tx => writes.apply tx.writes d) d

/-- The transactions that write a header: `commit` skips an empty one. -/
def nonempty (txs : List (Tx g)) : List (Tx g) := txs.filter (fun tx => tx.writes ≠ [])

def session (txs : List (Tx g)) : LogM Unit := txs.forM fun tx => transact tx.writes

/-- The state in which a program ended or was cut. -/
def stopped {ε α : Type} : EStateM.Result ε Machine α → Machine
  | .ok _ s => s
  | .error _ s => s

/-- The disk after recoveries that are cut after so many block writes each, and one that is
not cut. It is `none` if that one does not end. -/
def recoverAll (g : Geometry) : List Nat → Disk → Option Disk
  | [], d =>
    match recover_from_log (boot g.start g.size d none) with
    | .ok _ s => some s.disk
    | .error _ _ => none
  | k :: ks, d => recoverAll g ks (stopped (recover_from_log (boot g.start g.size d (some k)))).disk

theorem applyTxs_append (as bs : List (Tx g)) (d : Disk) :
    applyTxs (as ++ bs) d = applyTxs bs (applyTxs as d) := by
  simp [applyTxs, foldl_append]

theorem applyTxs_nonempty (txs : List (Tx g)) (d : Disk) :
    applyTxs (nonempty txs) d = applyTxs txs d := by
  induction txs generalizing d with
  | nil => rfl
  | cons tx txs ih =>
    unfold nonempty applyTxs at *
    by_cases h : tx.writes = []
    · simpa [h] using ih d
    · grind

theorem nonempty_snoc (txs : List (Tx g)) (tx : Tx g) :
    (nonempty (txs ++ [tx])).map Tx.blocks = (nonempty txs).map Tx.blocks ++ tx.record := by
  unfold nonempty Tx.record
  by_cases h : tx.writes = [] <;> simp [h]

/-- The first `m` transactions with a header are on record, and the disk recovers to them. -/
def CommittedUpTo (txs : List (Tx g)) (d : Disk) (m : Nat) (s : Machine) : Prop :=
  m ≤ (nonempty txs).length ∧
    commitRecords g.start s.writes = ((nonempty txs).take m).map Tx.blocks ∧
    Recoverable g (applyTxs ((nonempty txs).take m) d) s.disk

theorem committedUpTo_of_prefix {txs pre post : List (Tx g)} {d : Disk} (htxs : txs = pre ++ post)
    (hrec : commitRecords g.start s.writes = (nonempty pre).map Tx.blocks)
    (hdisk : Recoverable g (applyTxs pre d) s.disk) : ∃ m, CommittedUpTo txs d m s := by
  have htake : (nonempty txs).take (nonempty pre).length = nonempty pre := by simp [htxs, nonempty]
  refine ⟨(nonempty pre).length, ?_, ?_, ?_⟩
  · simp [htxs, nonempty]
  · rw [htake, hrec]
  · rw [htake, applyTxs_nonempty]
    exact hdisk

theorem session_spec (d : Disk) (hd : word (d g.start) 0 = 0) (txs : List (Tx g))
    (left : Option Nat) :
    spec (session txs) (boot g.start g.size d left) (fun _ s => ∃ m, CommittedUpTo txs d m s)
      (fun _ s => ∃ m, CommittedUpTo txs d m s) := by
  have h0 : Idle g d [] (boot g.start g.size d left) :=
    ⟨⟨rfl, rfl, fun _ _ => rfl⟩, rfl, ⟨hd, fun _ _ => rfl⟩, rfl, fun _ => rfl⟩
  unfold session
  refine spec_mono (spec_forM
    (I := fun pre s => Idle g (applyTxs pre d) ((nonempty pre).map Tx.blocks) s) ?_ h0) ?_
    (fun _ _ h => h)
  · intro pre tx post s htxs hs
    have happ : applyTxs (pre ++ [tx]) d = writes.apply tx.writes (applyTxs pre d) := by
      rw [applyTxs_append]
      rfl
    have hrec := nonempty_snoc pre tx
    apply spec_mono (transact_spec hs)
    · grind
    · rintro e s' (⟨hdisk, hr⟩ | ⟨hdisk, hr⟩)
      · exact committedUpTo_of_prefix htxs hr hdisk
      · rw [← hrec] at hr
        rw [← happ] at hdisk
        exact committedUpTo_of_prefix (show txs = (pre ++ [tx]) ++ post by simp [htxs]) hr hdisk
  · intro _ s hs
    exact committedUpTo_of_prefix (append_nil txs).symm hs.records hs.clean.recoverable

theorem recoverAll_clean (cuts : List Nat) (d : Disk) (h : Recoverable g D d) :
    ∃ d', recoverAll g cuts d = some d' ∧ Clean g D d' := by
  induction cuts generalizing d with
  | nil =>
    have hspec := recover_from_log_spec h none
    have hends := recover_from_log_ends g.start g.size d
    unfold spec at hspec hends
    unfold recoverAll
    cases hr : recover_from_log (boot g.start g.size d none) with
    | ok a s =>
      grind
    | error e s =>
      grind
  | cons k ks ih =>
    have hspec := recover_from_log_spec h (some k)
    unfold spec at hspec
    rw [recoverAll]
    cases hr : recover_from_log (boot g.start g.size d (some k)) with
    | ok a s =>
      rw [hr] at hspec
      exact ih s.disk (Clean.recoverable hspec)
    | error e s =>
      rw [hr] at hspec
      exact ih s.disk hspec

/-- Cut a session of transactions before any block write, and cut any number of recoveries
after it. The recovery that ends leaves an empty log, and the blocks outside the log are those
after a prefix of the transactions, applied whole: the prefix of those whose header with
`n > 0` reached the disk. -/
theorem recovery_leaves_whole_transactions (g : Geometry) (d : Disk)
    (hd : word (d g.start) 0 = 0) (txs : List (Tx g)) (left : Option Nat) (cuts : List Nat) :
    let s := stopped (session txs (boot g.start g.size d left))
    ∃ m ≤ (nonempty txs).length, ∃ d', recoverAll g cuts s.disk = some d' ∧
      commitRecords g.start s.writes = ((nonempty txs).take m).map Tx.blocks ∧
      (∀ b, ¬ g.InLog b → d' b = applyTxs ((nonempty txs).take m) d b) ∧
      word (d' g.start) 0 = 0 := by
  have hspec := session_spec d hd txs left
  unfold spec at hspec
  obtain ⟨m, hm, hrec, hdisk⟩ : ∃ m, CommittedUpTo txs d m
      (stopped (session txs (boot g.start g.size d left))) := by
    cases hr : session txs (boot g.start g.size d left) <;> rw [hr] at hspec <;> exact hspec
  obtain ⟨d', hd', hclean, hhome⟩ := recoverAll_clean cuts _ hdisk
  exact ⟨m, hm, d', hd', hrec, hhome, hclean⟩

/-- The log of a mkfs image. -/
def mkfsLog : Geometry := ⟨2, nlog, by decide⟩

/-- A transaction of one block after the metadata of a mkfs image. -/
def oneBlock : Tx mkfsLog :=
  ⟨[(100, fun _ => 7)], by simp, by simp [mkfsLog, nlog, LOGSIZE_eq], by simp [LOGSIZE_eq],
    by simp [Geometry.InLog, mkfsLog, nlog, LOGSIZE_eq], by simp⟩

/-- A commit that is cut after its header, and two recoveries, the first of them cut. -/
theorem recovery_of_a_cut_commit :
    let s := stopped (session [oneBlock] (boot mkfsLog.start mkfsLog.size (fun _ _ => 0) (some 2)))
    ∃ m ≤ (nonempty [oneBlock]).length, ∃ d', recoverAll mkfsLog [1] s.disk = some d' ∧
      commitRecords mkfsLog.start s.writes = ((nonempty [oneBlock]).take m).map Tx.blocks ∧
      (∀ b, ¬ mkfsLog.InLog b →
        d' b = applyTxs ((nonempty [oneBlock]).take m) (fun _ _ => 0) b) ∧
      word (d' mkfsLog.start) 0 = 0 :=
  recovery_leaves_whole_transactions mkfsLog (fun _ _ => 0) rfl [oneBlock] (some 2) [1]

end xv6.log
