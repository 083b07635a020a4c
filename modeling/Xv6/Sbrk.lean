-- sbrk does what was asked or nothing: growproc of proc.c for one process, with the contents of its
-- pages.
import Mathlib.Data.Finset.Card
import Mathlib.Data.Finset.Range
import Xv6.Frames
import Xv6.Grow

open Finset Option bytes WP

namespace xv6.grow

open proc vm

/-! ## A process in order -/

/-- The byte at user address `va`, when the page is mapped. -/
def byteAt (s : Sys) (c va : Nat) : Option UInt8 :=
  (s.vm.pte (s.p.procs c).pgdir (va / PGSIZE * PGSIZE)).map fun e => s.vm.ram e.pa (va % PGSIZE)

/-- The pages of process `c` below its size are mapped, each to a page of its own that is not
free. -/
structure InOrder (s : Sys) (c : Nat) : Prop where
  kmem : s.vm.Kmem
  mapped : ∀ pg, pg * PGSIZE < KERNBASE →
    (s.vm.maps (s.p.procs c).pgdir pg ↔ pg * PGSIZE < (s.p.procs c).sz)
  used : ∀ pg e, pg * PGSIZE < KERNBASE → s.vm.pte (s.p.procs c).pgdir (pg * PGSIZE) = some e →
    s.vm.Frame e.pa ∧ e.pa ∉ s.vm.free
  own : ∀ pg q e f, pg * PGSIZE < KERNBASE → q * PGSIZE < KERNBASE →
    s.vm.pte (s.p.procs c).pgdir (pg * PGSIZE) = some e →
    s.vm.pte (s.p.procs c).pgdir (q * PGSIZE) = some f → e.pa = f.pa → pg = q

theorem user_of_page_lt {pg : Nat} (h : pg < 2 ^ 19) : pg * PGSIZE < KERNBASE := by
  simp only [PGSIZE, KERNBASE]
  omega

/-- There are not enough pages below PHYSTOP to map the whole user half. -/
theorem InOrder.small {s : Sys} {c : Nat} (h : InOrder s c) : (s.p.procs c).sz < KERNBASE := by
  by_contra hge
  have hall : ∀ pg < 2 ^ 19, ∃ e, s.vm.pte (s.p.procs c).pgdir (pg * PGSIZE) = some e := by
    intro pg hpg
    have hk := user_of_page_lt hpg
    exact ne_none_iff_exists'.mp ((h.mapped pg hk).mpr (by omega))
  have : Nonempty Pte := ⟨⟨0, 0⟩⟩
  choose! e he using hall
  have hcard := card_le_card_of_injOn (s := Finset.range (2 ^ 19))
    (t := Finset.range (PHYSTOP / PGSIZE)) (fun pg => (e pg).pa / PGSIZE) ?_ ?_
  · grind
  · intro pg hpg
    have hpg := mem_range.mp hpg
    have hf := (h.used pg _ (user_of_page_lt hpg) (he pg hpg)).1.below
    simp only [coe_range, Set.mem_Iio, PHYSTOP, PGSIZE] at hf ⊢
    omega
  · intro pg hpg q hq heq
    have hpg := mem_range.mp hpg
    have hq := mem_range.mp hq
    have hkp := user_of_page_lt hpg
    have hkq := user_of_page_lt hq
    have h1 := (h.used pg _ hkp (he pg hpg)).1.aligned
    have h2 := (h.used q _ hkq (he q hq)).1.aligned
    refine h.own pg q _ _ hkp hkq (he pg hpg) (he q hq) ?_
    simp only [PGSIZE] at heq h1 h2
    omega

/-! ## What was asked, or nothing -/

/-- The call did what was asked: the size is the old one and `n`, the pages below it are mapped and
no others, the new ones are zero, and the bytes below both sizes are as they were. -/
structure Granted (s : Sys) (c : Nat) (n : Int) (s' : Sys) : Prop where
  size : ((s'.p.procs c).sz : Int) = (s.p.procs c).sz + n
  mapped : ∀ pg, pg * PGSIZE < KERNBASE →
    (s'.vm.maps (s'.p.procs c).pgdir pg ↔ pg * PGSIZE < (s'.p.procs c).sz)
  zero : ∀ va < KERNBASE, byteAt s c va = none → byteAt s' c va ≠ none → byteAt s' c va = some 0
  kept : ∀ va, va < (s.p.procs c).sz → va < (s'.p.procs c).sz → byteAt s' c va = byteAt s c va

/-- The call changed nothing: neither the size, nor the user mappings, nor a page that is not
free. -/
structure Refused (s : Sys) (c : Nat) (s' : Sys) : Prop where
  procs : s'.p = s.p
  mapped : ∀ pg, pg * PGSIZE < KERNBASE →
    s'.vm.pte (s.p.procs c).pgdir (pg * PGSIZE) = s.vm.pte (s.p.procs c).pgdir (pg * PGSIZE)
  memory : ∀ p, p ∉ s.vm.free → s'.vm.ram p = s.vm.ram p

/-- How `growproc` is to end. -/
inductive AllOrNothing (s : Sys) (c : Nat) (n r : Int) (s' : Sys) : Prop where
  | granted : r = 0 → Granted s c n s' → AllOrNothing s c n r s'
  | refused : r = -1 → Refused s c s' → AllOrNothing s c n r s'

/-- A call that asks for less memory asks for some, and the free pages do not run out at the page
table of the last new page. -/
def Sound (s : Sys) (c : Nat) (n : Int) : Prop :=
  (n < 0 → 0 < (s.p.procs c).sz → 0 < (s.p.procs c).sz + n) ∧ ¬ TableShort s c n

/-- A user address and its page. -/
theorem page_of_user {va : Nat} (h : va < KERNBASE) : va / PGSIZE * PGSIZE < KERNBASE :=
  Nat.lt_of_le_of_lt (Nat.div_mul_le_self _ _) h

/-- The bytes of a page whose entry and contents are the same. -/
theorem byteAt_congr {s s' : Sys} {c va : Nat} (hd : (s'.p.procs c).pgdir = (s.p.procs c).pgdir)
    (hpte : s'.vm.pte (s.p.procs c).pgdir (va / PGSIZE * PGSIZE) =
      s.vm.pte (s.p.procs c).pgdir (va / PGSIZE * PGSIZE))
    (hram : ∀ e, s.vm.pte (s.p.procs c).pgdir (va / PGSIZE * PGSIZE) = some e →
      s'.vm.ram e.pa = s.vm.ram e.pa) : byteAt s' c va = byteAt s c va := by
  unfold byteAt
  rw [hd, hpte]
  cases he : s.vm.pte (s.p.procs c).pgdir (va / PGSIZE * PGSIZE) with
  | none => rfl
  | some e => simp only [map_some, hram e he]

section Growproc

variable {s : Sys} {c : Nat} {n : Int}

theorem InOrder.fresh (h : InOrder s c) {new : Nat} (hk : new < KERNBASE) (pg : Nat)
    (h1 : (s.p.procs c).sz ≤ pg * PGSIZE) (h2 : pg * PGSIZE < new) :
    ¬ s.vm.maps (s.p.procs c).pgdir pg := by
  rw [h.mapped pg (Nat.lt_trans h2 hk)]
  omega

/-- The new pages are all there, and are zero. -/
theorem granted_of_filled {vm : Vm} (h : InOrder s c) (hn : 0 < n)
    (hk : (asked s c n).toNat < KERNBASE)
    (hout : Outside s.vm (s.p.procs c).pgdir (PGROUNDUP (s.p.procs c).sz) (asked s c n).toNat vm)
    (hg : Grown s.vm (s.p.procs c).pgdir (((s.p.procs c).sz + PGSIZE - 1) / PGSIZE)
      (pages (s.p.procs c).sz (asked s c n).toNat) vm)
    (hfill : Filled s.vm (s.p.procs c).pgdir (((s.p.procs c).sz + PGSIZE - 1) / PGSIZE)
      (pages (s.p.procs c).sz (asked s c n).toNat) vm) :
    Granted s c n (resized s c (asked s c n).toNat vm) := by
  have hle : (s.p.procs c).sz ≤ (asked s c n).toNat := by
    simp only [asked]
    omega
  have hrange := range_of_fresh hle hk (h.fresh hk)
  have hproc : (resized s c (asked s c n).toNat vm).p.procs c =
      { s.p.procs c with sz := (asked s c n).toNat } := by
    simp [resized, proc.Sys.set]
  refine ⟨?_, fun pg hpg => ?_, fun va hva hnone hsome => ?_, fun va h1 h2 => ?_⟩
  · rw [hproc]
    simp only [asked]
    omega
  · rw [hproc]
    simp only [resized]
    rw [hg.maps _ pg (page_lt_of_user hpg), h.mapped pg hpg, ← below_grown hle hrange]
    simp only [true_and]
  · -- a page that is mapped now and was not mapped before is one of the new ones
    have hpg := page_lt_of_user (page_of_user hva)
    have hold : ¬ s.vm.maps (s.p.procs c).pgdir (va / PGSIZE) := by
      intro hm
      unfold byteAt at hnone
      exact hm (map_eq_none_iff.mp hnone)
    have hnew : vm.maps (s.p.procs c).pgdir (va / PGSIZE) := by
      intro hm
      refine hsome ?_
      unfold byteAt
      rw [hproc]
      exact map_eq_none_iff.mpr hm
    rw [hg.maps _ _ hpg] at hnew
    obtain ⟨-, h1, h2⟩ := hnew.resolve_left hold
    obtain ⟨e, he, -, -, hz⟩ := hfill.new (va / PGSIZE - ((s.p.procs c).sz + PGSIZE - 1) / PGSIZE)
      (by omega)
    rw [Nat.add_sub_cancel' h1] at he
    unfold byteAt
    rw [hproc]
    simp only [resized, he, map_some, hz]
  · have hk0 := h.small
    have hpg := page_of_user (Nat.lt_trans h1 hk0)
    refine byteAt_congr (by rw [hproc]) (hout _ (page_lt_of_user hpg) (Or.inl ?_)) fun e he => ?_
    · grind [PGROUNDUP_eq]
    · exact hfill.old _ (h.used _ e hpg he).2

/-- `growproc` with `n > 0`. -/
theorem grows (h : InOrder s c) (hn : 0 < n) (hn' : n < 2 ^ 31) :
    spec (growproc c n) s (fun r s' => AllOrNothing s c n r s' ↔ Sound s c n)
    (fun _ _ => False) := by
  have hsz := h.small
  have hask := ofInt_asked (n := n) hsz (by simp only [asked]; omega) hn'
  have hle : (s.p.procs c).sz ≤ (asked s c n).toNat := by
    simp only [asked]
    omega
  have hpos : (asked s c n).toNat ≠ 0 := by
    simp only [asked]
    omega
  have hsound : Sound s c n ↔ ¬ TableShort s c n := and_iff_right fun hneg => by omega
  unfold growproc
  simp only [spec_bind, spec_get, if_pos hn, onVm, spec_zoom, hask, hsound]
  by_cases hk : (asked s c n).toNat < KERNBASE
  · have hfresh := h.fresh hk
    have hrange := range_of_fresh hle hk hfresh
    refine spec_mono (spec_and (allocuvm_frames h.kmem hle hk hpos hfresh)
      (spec_and (allocuvm_spec hle hk hfresh) (allocuvm_outside hk hle))) ?_ (fun _ _ he => he.1)
    rintro r vm ⟨htaken, hall, -, hout⟩
    rcases hall with ⟨rfl, hg, hfree⟩ | ⟨j, hj, rfl, htab, hfree⟩ | ⟨rfl, hsame, hfree⟩
    · obtain ⟨j, hj, hgj, hfill, -⟩ := htaken.new hpos
      obtain rfl := hgj.count_eq hg hj fun hlt =>
        ⟨Nat.lt_trans (hrange.page_lt hlt) (by decide), hrange.fresh _ (by omega) (by omega)⟩
      simp only [if_neg hpos, setProc, spec_bind, spec_modify, spec_pure]
      refine iff_of_true (.granted rfl (granted_of_filled h hn hk hout hg hfill)) fun hs => ?_
      have := hs.2.2.2.2
      simp only [needed] at this
      omega
    · -- the last page is not there, and the call succeeds
      simp only [if_neg hpos, setProc, spec_bind, spec_modify, spec_pure]
      have hshort : TableShort s c n := ⟨hn, by omega, by omega, by rwa [hj], hfree⟩
      refine iff_of_false ?_ (not_not.mpr hshort)
      rintro (⟨-, hgr⟩ | ⟨h0, -⟩)
      · obtain ⟨i, hi, hgi, -, hlen⟩ := htaken.new hpos
        have hlt : i < pages (s.p.procs c).sz (asked s c n).toNat := by grind
        have hpg := hrange.page_lt hlt
        have hm := (hgr.mapped _ (user_of_page_lt hpg)).mpr (by
          simpa [proc.Sys.set] using (hrange.last _ (by omega)).mpr (Nat.add_lt_add_left hlt _))
        simp only [proc.Sys.set, Function.update_self] at hm
        rw [hgi.maps _ _ (by omega)] at hm
        have := (hm.resolve_left (hrange.fresh _ (by omega) (by omega))).2.2
        omega
      · cases h0
    · simp only [if_true, spec_pure]
      refine iff_of_true (.refused rfl ⟨rfl, fun pg hpg => ?_, htaken.old⟩) fun hs => ?_
      · by_cases hin : (s.p.procs c).sz ≤ pg * PGSIZE ∧ pg * PGSIZE < (asked s c n).toNat
        · grind [page_lt_of_user, Vm.maps]
        · refine hout pg (page_lt_of_user hpg) ?_
          rw [PGROUNDUP_eq hsz]
          simp only [PGSIZE] at *
          omega
      · exact htaken.failed rfl ⟨hs.2.2.2.1, hs.2.2.2.2⟩
  · rw [allocuvm_kernel hk, spec_pure]
    simp only [if_true, spec_pure]
    refine iff_of_true (.refused rfl ⟨rfl, fun _ _ => rfl, fun _ _ => rfl⟩) fun hs => ?_
    have := hs.2.1
    omega

/-- A page of the process from page `q` on. -/
def PageFrom (s : Sys) (c q p : Nat) : Prop :=
  ∃ pg e, q ≤ pg ∧ pg * PGSIZE < (s.p.procs c).sz ∧
    s.vm.pte (s.p.procs c).pgdir (pg * PGSIZE) = some e ∧ e.pa = p

theorem InOrder.frames_above (h : InOrder s c) (q p : Nat) (hp : PageFrom s c q p) :
    s.vm.Frame p := by
  obtain ⟨pg, e, -, hlt, he, rfl⟩ := hp
  exact (h.used pg e (Nat.lt_trans hlt h.small) he).1

/-- The pages above the new size are gone, and the others are as they were. -/
theorem granted_of_unmapped {vm : Vm} (h : InOrder s c) (hpos : ¬ asked s c n < 0)
    (hlt : (asked s c n).toNat < (s.p.procs c).sz)
    (hun : Unmapped s.vm (s.p.procs c).pgdir (((asked s c n).toNat + PGSIZE - 1) / PGSIZE)
      (s.p.procs c).sz vm)
    (hout : Outside s.vm (s.p.procs c).pgdir (PGROUNDUP (asked s c n).toNat) (s.p.procs c).sz vm)
    (hram : ∀ p, ¬ PageFrom s c (((asked s c n).toNat + PGSIZE - 1) / PGSIZE) p →
      vm.ram p = s.vm.ram p) : Granted s c n (resized s c (asked s c n).toNat vm) := by
  have hk := h.small
  have hproc : (resized s c (asked s c n).toNat vm).p.procs c =
      { s.p.procs c with sz := (asked s c n).toNat } := by
    simp [resized, proc.Sys.set]
  refine ⟨?_, fun pg hpg => ?_, fun va hva hnone hsome => ?_, fun va h1 h2 => ?_⟩
  · rw [hproc]
    simp only [asked] at *
    omega
  · rw [hproc]
    simp only [resized]
    rw [hun _ pg (page_lt_of_user hpg), h.mapped pg hpg, ← below_shrunk hlt]
    simp only [true_and]
  · -- no page is new
    unfold byteAt at hnone hsome
    rw [hproc] at hsome
    have hnew : vm.maps (s.p.procs c).pgdir (va / PGSIZE) := fun hm =>
      hsome (map_eq_none_iff.mpr hm)
    exact absurd (map_eq_none_iff.mp hnone)
      ((hun _ _ (page_lt_of_user (page_of_user hva))).mp hnew).1
  · rw [hproc] at h2
    have hpg := page_of_user (Nat.lt_trans h1 hk)
    refine byteAt_congr (by rw [hproc]) (hout _ (page_lt_of_user hpg) (Or.inl ?_)) fun e he => ?_
    · rw [PGROUNDUP_eq (Nat.lt_trans hlt hk)]
      simp only [PGSIZE] at *
      omega
    · refine hram _ ?_
      rintro ⟨q, f, hq, hqlt, hf, hpa⟩
      have := h.own q _ f e (Nat.lt_trans hqlt hk) hpg hf he hpa
      simp only [PGSIZE] at *
      omega

/-- `growproc` with `n < 0`. -/
theorem shrinks (h : InOrder s c) (hn : n < 0) (hn' : -2 ^ 31 ≤ n) :
    spec (growproc c n) s (fun r s' => AllOrNothing s c n r s' ↔ Sound s c n)
    (fun _ _ => False) := by
  have hsz := h.small
  have hsound : Sound s c n ↔ (0 < (s.p.procs c).sz → 0 < (s.p.procs c).sz + n) := by
    refine ⟨fun hs => hs.1 hn, fun hs => ⟨fun _ => hs, fun ht => ?_⟩⟩
    have := ht.1
    omega
  unfold growproc
  simp only [spec_bind, spec_get, if_neg (Int.not_lt.mpr (Int.le_of_lt hn)), if_pos hn, onVm,
    spec_zoom, hsound]
  by_cases hneg : asked s c n < 0
  · rw [deallocuvm_wraps hneg hn', spec_pure]
    simp only [asked] at hneg
    simp only [setProc, spec_ite, spec_bind, spec_modify, spec_pure]
    refine ⟨fun h0 => ?_, fun h0 => ?_⟩
    · exact iff_of_true (.refused rfl ⟨rfl, fun _ _ => rfl, fun _ _ => rfl⟩) fun _ => by omega
    · refine iff_of_false ?_ fun hs => by
        omega
      rintro (⟨-, hgr⟩ | ⟨hm, -⟩)
      · have := hgr.size
        omega
      · cases hm
  · have hlt : (asked s c n).toNat < (s.p.procs c).sz := by
      simp only [asked] at *
      omega
    rw [ofInt_asked hsz hneg (by omega)]
    refine spec_mono (spec_and (deallocuvm_frames (Nat.le_of_lt hsz) hlt (h.frames_above _)
      (fun pg e h1 h2 he => ⟨pg, e, h1, h2, he, rfl⟩))
      (spec_and (deallocuvm_spec (Nat.le_of_lt hsz) hlt (packed_of_mapped hsz h.mapped _))
        (deallocuvm_outside (Nat.le_of_lt hsz) hlt))) ?_ (fun _ _ he => he.1)
    rintro r vm ⟨hram, ⟨rfl, hun⟩, -, hout⟩
    by_cases h0 : (asked s c n).toNat = 0
    · -- all pages are gone, and the call fails
      simp only [if_pos h0, spec_pure]
      simp only [asked] at h0 hneg hlt
      refine iff_of_false ?_ fun hs => by
        omega
      rintro (⟨hm, -⟩ | ⟨-, href⟩)
      · cases hm
      · have hold : s.vm.maps (s.p.procs c).pgdir 0 :=
          (h.mapped 0 (by decide)).mpr (by simp only [Nat.zero_mul]; omega)
        have hgone := href.mapped 0 (by decide)
        have hnew : vm.maps (s.p.procs c).pgdir 0 := by
          unfold Vm.maps
          rw [hgone]
          exact hold
        refine ((hun _ 0 (by decide)).mp hnew).2 ⟨rfl, ?_, by simp only [Nat.zero_mul]; omega⟩
        simp only [asked, h0, PGSIZE]
        omega
    · simp only [if_neg h0, setProc, spec_bind, spec_modify, spec_pure]
      refine iff_of_true (.granted rfl (granted_of_unmapped h hneg hlt hun hout hram)) fun _ => ?_
      simp only [asked] at *
      omega

theorem growproc_law (h : InOrder s c) (hn : -2 ^ 31 ≤ n) (hn' : n < 2 ^ 31) :
    (∃ r s', growproc c n s = .ok r s' ∧ AllOrNothing s c n r s') ↔ Sound s c n := by
  have hspec : spec (growproc c n) s (fun r s' => AllOrNothing s c n r s' ↔ Sound s c n)
      (fun _ _ => False) := by
    rcases Int.lt_trichotomy n 0 with hneg | rfl | hpos
    · exact shrinks h hneg hn
    · unfold growproc
      simp only [spec_bind, spec_get, Int.lt_irrefl, if_false, spec_pure]
      refine iff_of_true (.granted rfl ⟨by simp, h.mapped, fun _ _ h1 h2 => absurd h1 h2,
        fun _ _ _ => rfl⟩) ⟨fun h0 => by omega, fun ht => absurd ht.1 (by omega)⟩
    · exact grows h hpos hn'
  obtain ⟨r, s', hrun, hiff⟩ := exists_of_spec hspec
  refine ⟨fun hdone => ?_, fun hs => ⟨r, s', hrun, hiff.mpr hs⟩⟩
  obtain ⟨r1, s1, hrun1, hdoes⟩ := hdone
  rw [hrun] at hrun1
  cases hrun1
  exact hiff.mp hdoes

/-- `growproc` does what was asked or nothing exactly if a shrinking call leaves some memory, and
the free pages do not run out at the page table of the last new page. -/
theorem sbrk_does_what_was_asked_or_nothing (h : InOrder s c) (hn : -2 ^ 31 ≤ n)
    (hn' : n < 2 ^ 31) :
    (∃ r s', growproc c n s = .ok r s' ∧ AllOrNothing s c n r s') ↔
      (n < 0 → 0 < (s.p.procs c).sz → 0 < (s.p.procs c).sz + n) ∧ ¬ TableShort s c n :=
  growproc_law h hn hn'

end Growproc

theorem pte_boot {free : List Nat} {pg : Nat} {e : Pte} (hpg : pg < 2 ^ 20)
    (h : (boot free).vm.pte 2 (pg * PGSIZE) = some e) : pg = 0 ∧ e.pa = 0x104000 := by
  have hm : (boot free).vm.maps 2 pg := by simp [Vm.maps, h]
  obtain rfl := (maps_boot free hpg).mp hm
  refine ⟨rfl, ?_⟩
  have he : some (⟨0x104000, PTE_W + PTE_U⟩ : Pte) = some e := h
  cases he
  rfl

theorem initRuns_inOrder : InOrder (initRuns [0x200000]) 0 := by
  have hd : ((initRuns [0x200000]).p.procs 0).pgdir = 2 := rfl
  refine ⟨⟨?_, by decide⟩, fun pg hpg => ?_, fun pg e hpg he => ?_,
    fun pg q e f hp hq he hf _ => ?_⟩
  · intro p hp
    obtain rfl := List.mem_singleton.mp hp
    exact ⟨by decide, by decide, by decide, by decide⟩
  · have hsz : ((initRuns [0x200000]).p.procs 0).sz = 4096 := rfl
    rw [hd, hsz]
    refine (maps_boot [0x200000] (page_lt_of_user hpg)).trans ?_
    simp only [PGSIZE]
    omega
  · obtain ⟨-, hpa⟩ := pte_boot (page_lt_of_user hpg) he
    rw [hpa]
    exact ⟨⟨by decide, by decide, by decide, by decide⟩, by decide⟩
  · rw [(pte_boot (page_lt_of_user hp) he).1, (pte_boot (page_lt_of_user hq) hf).1]

/-- With a free page, init gets the page that it asks for. -/
theorem init_gets_a_page : ∃ r s', growproc 0 4096 (initRuns [0x200000]) = .ok r s' ∧
      AllOrNothing (initRuns [0x200000]) 0 4096 r s' :=
  (sbrk_does_what_was_asked_or_nothing initRuns_inOrder (by decide) (by decide)).mpr
    ⟨by decide, fun h => absurd h.2.2.2.1 (by decide)⟩

/-- Init gives up its only page: the page is gone, and the call returns -1 with the old size. -/
theorem init_loses_its_page :
    InOrder (initRuns [0x200000]) 0 ∧
    ¬ ∃ r s', growproc 0 (-4096) (initRuns [0x200000]) = .ok r s' ∧
      AllOrNothing (initRuns [0x200000]) 0 (-4096) r s' := by
  refine ⟨initRuns_inOrder, fun h => ?_⟩
  have hsound := (growproc_law initRuns_inOrder (by decide) (by decide)).mp h
  exact absurd (hsound.1 (by decide) (by decide)) (by decide)

end xv6.grow
