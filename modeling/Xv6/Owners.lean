-- Members of a forest that use resources: a member shares the resource of the one it answers
-- to, or has one of its own. What it takes to release a resource only when nobody else uses
-- it, and only once.
import Mathlib.Data.List.Nodup
import Mathlib.Logic.Function.Basic

open Option Function

namespace owners

/-! ## The forest -/

structure Member where
  /-- the member that this one answers to -/
  boss : Option Nat
  /-- later members have higher ranks -/
  rank : Nat
  /-- the resource that it uses -/
  res : Nat
  done : Bool

structure State where
  root : Nat
  member : Nat → Option Member
  /-- the rank of the next member -/
  nextRank : Nat
  /-- the resources from here on are new -/
  nextRes : Nat
  /-- each release, with the other members that used the resource then -/
  released : List (Nat × List Nat)

variable {n : Nat} {s s' : State}

/-- The members other than `i`, below `n`, that use `r`. -/
def others (n : Nat) (member : Nat → Option Member) (i r : Nat) : List Nat :=
  (List.range n).filter fun q => q ≠ i ∧ (member q).any (fun m => m.res = r)

/-- The member does not share its resource with the one it answers to. -/
def State.Head (s : State) (i : Nat) : Prop :=
  ∀ m b mb, s.member i = some m → m.boss = some b → s.member b = some mb → mb.res ≠ m.res

/-- Nobody who answers to the member shares its resource. -/
def State.Childless (s : State) (i : Nat) : Prop :=
  ∀ m j mj, s.member i = some m → s.member j = some mj → mj.boss = some i → mj.res ≠ m.res

/-- The members, with those who answered to `c` now answering to the root. -/
def State.adopted (s : State) (c : Nat) : Nat → Option Member := fun i =>
  (s.member i).map fun m => if m.boss = some c then { m with boss := some s.root } else m

/-- Everyone but the root answers to an earlier member that is not done, and each resource in
use has one head. -/
structure Forest (n : Nat) (s : State) : Prop where
  root : ∃ m, s.member s.root = some m ∧ m.boss = none ∧ m.done = false
  bound : ∀ i m, s.member i = some m → i < n ∧ m.rank < s.nextRank ∧ m.res < s.nextRes
  boss : ∀ i m, s.member i = some m → i ≠ s.root →
    ∃ b mb, m.boss = some b ∧ s.member b = some mb ∧ mb.done = false ∧ mb.rank < m.rank
  head : ∀ i j mi mj, s.member i = some mi → s.member j = some mj → mi.res = mj.res →
    s.Head i → s.Head j → i = j

/-- A released resource is in nobody's use, then or later, and it is released once. -/
structure Ledger (s : State) : Prop where
  gone : ∀ r ∈ s.released, r.1 < s.nextRes ∧ ∀ i m, s.member i = some m → m.res ≠ r.1
  once : (s.released.map Prod.fst).Nodup
  alone : ∀ r ∈ s.released, r.2 = []

/-! ## Who uses a resource -/

/-- Only the root answers to nobody. -/
theorem Forest.ne_root (h : Forest n s) {i b : Nat} {m : Member} (hi : s.member i = some m)
    (hb : m.boss = some b) : i ≠ s.root := by
  rintro rfl
  obtain ⟨m', hm', hnone, _⟩ := h.root
  obtain rfl : m = m' := some.inj (hi.symm.trans hm')
  rw [hnone] at hb
  cases hb

/-- The one a member answers to. -/
theorem Forest.boss_of (h : Forest n s) {i b : Nat} {m : Member} (hi : s.member i = some m)
    (hb : m.boss = some b) :
    ∃ mb, s.member b = some mb ∧ mb.done = false ∧ mb.rank < m.rank := by
  obtain ⟨b', mb, hb', hmb, hd, hlt⟩ := h.boss i m hi (h.ne_root hi hb)
  obtain rfl : b = b' := some.inj (hb.symm.trans hb')
  exact ⟨mb, hmb, hd, hlt⟩

/-- A head that shares with nobody below it is the only user of its resource. -/
theorem Forest.only_user (h : Forest n s) {i : Nat} {mi : Member} (hi : s.member i = some mi)
    (hh : s.Head i) (hc : s.Childless i) :
    ∀ q mq, s.member q = some mq → mq.res = mi.res → q = i := by
  -- by induction on the rank: a user that is no head has its boss among the users
  have key : ∀ k q mq, mq.rank = k → s.member q = some mq → mq.res = mi.res → q = i := by
    intro k
    induction k using Nat.strongRecOn with
    | ind k ih =>
      intro q mq hk hq hres
      by_contra hne
      have hnh : ¬ s.Head q := fun hq' => hne (h.head q i mq mi hq hi hres hq' hh)
      unfold State.Head at hnh
      push Not at hnh
      obtain ⟨m, b, mb, hm, hb, hmb, hsame⟩ := hnh
      obtain rfl : mq = m := some.inj (hq.symm.trans hm)
      obtain ⟨mb', hmb', _, hlt⟩ := h.boss_of hq hb
      obtain rfl : mb = mb' := some.inj (hmb.symm.trans hmb')
      have hbi : b = i := ih mb.rank (hk ▸ hlt) b mb rfl hmb (hsame.trans hres)
      subst hbi
      exact hc mi q mq hi hq hb hres
  exact fun q mq hq hres => key mq.rank q mq rfl hq hres

theorem others_eq_nil {member : Nat → Option Member} {i r : Nat}
    (h : ∀ q m, member q = some m → m.res = r → q = i) : others n member i r = [] := by
  rw [others, List.filter_eq_nil_iff]
  intro q _ hq
  simp only [decide_eq_true_eq, any_eq_true] at hq
  obtain ⟨hne, m, hm, hr⟩ := hq
  exact hne (h q m hm hr)

/-- A member that is done has nobody who answers to it. -/
theorem Forest.boss_ne_of_done (h : Forest n s) {i : Nat} {mi : Member}
    (hi : s.member i = some mi) (hd : mi.done = true) {j : Nat} {mj : Member}
    (hj : s.member j = some mj) : mj.boss ≠ some i := by
  intro hb
  obtain ⟨mb, hmb, hnd, _⟩ := h.boss_of hj hb
  obtain rfl : mi = mb := some.inj (hi.symm.trans hmb)
  rw [hd] at hnd
  cases hnd

theorem Forest.root_rank_lt (h : Forest n s) {mr : Member} (hr : s.member s.root = some mr)
    {i : Nat} {m : Member} (hi : s.member i = some m) (hne : i ≠ s.root) : mr.rank < m.rank := by
  have key : ∀ k i m, m.rank = k → s.member i = some m → i ≠ s.root → mr.rank < m.rank := by
    intro k
    induction k using Nat.strongRecOn with
    | ind k ih =>
      grind [h.boss, some.inj]
  exact key m.rank i m rfl hi hne

/-! ## What may happen -/

/-- The moves that keep to the rules. -/
inductive Moves (n : Nat) (s : State) : State → Prop where
  /-- ranks and resources are used up -/
  | stay (k r : Nat) : s.nextRank ≤ k → s.nextRes ≤ r →
      Moves n s { s with nextRank := k, nextRes := r }
  /-- a new resource is given back at once -/
  | discard (k r i d : Nat) : s.nextRank ≤ k → s.nextRes ≤ d → d < r →
      Moves n s { s with
        nextRank := k, nextRes := r, released := s.released ++ [(d, others n s.member i d)] }
  /-- a new member shares with the one it answers to, or has a new resource -/
  | enter (i c d r : Nat) (mc : Member) : s.member i = none → i < n → s.member c = some mc →
      mc.done = false → d = mc.res ∨ s.nextRes ≤ d ∧ d < r → s.nextRes ≤ r →
      Moves n s { s with
        member := Function.update s.member i (some ⟨some c, s.nextRank, d, false⟩)
        nextRank := s.nextRank + 1, nextRes := r }
  /-- a member that shares with neither side takes a new resource and releases its own -/
  | renew (c d r : Nat) (mc : Member) : s.member c = some mc → s.Head c → s.Childless c →
      s.nextRes ≤ d → d < r →
      Moves n s { s with
        member := Function.update s.member c (some { mc with res := d })
        nextRes := r
        released := s.released ++
          [(mc.res, others n (Function.update s.member c (some { mc with res := d })) c mc.res)] }
  /-- a member that shares with nobody below it, or with the root, is done -/
  | finish (c : Nat) (mc mr : Member) : c ≠ s.root → s.member c = some mc →
      s.member s.root = some mr → s.Childless c ∨ mr.res = mc.res →
      Moves n s { s with
        member := Function.update (s.adopted c) c (some { mc with done := true }) }
  /-- a member that is done and shares with the one it answers to leaves -/
  | leave (i c : Nat) (mi mc : Member) : s.member i = some mi → mi.done = true →
      mi.boss = some c → s.member c = some mc → mc.res = mi.res →
      Moves n s { s with member := Function.update s.member i none }
  /-- a member that is done and does not share with the one it answers to leaves -/
  | release (i c : Nat) (mi mc : Member) : s.member i = some mi → mi.done = true →
      mi.boss = some c → s.member c = some mc → mc.res ≠ mi.res →
      Moves n s { s with
        member := Function.update s.member i none
        released := s.released ++ [(mi.res, others n s.member i mi.res)] }

/-! ## The forest -/

theorem Forest.enter (h : Forest n s) {i c d r : Nat} {mc : Member} (hi : s.member i = none)
    (hin : i < n) (hc : s.member c = some mc) (hcd : mc.done = false)
    (hd : d = mc.res ∨ s.nextRes ≤ d ∧ d < r) (hr : s.nextRes ≤ r) :
    Forest n { s with
      member := update s.member i (some ⟨some c, s.nextRank, d, false⟩)
      nextRank := s.nextRank + 1, nextRes := r } := by
  have hcr := (h.bound c mc hc).2.2
  have hdr : d < r := by omega
  have hne : ∀ {q m}, s.member q = some m → q ≠ i := by grind
  have hold : ∀ {q m}, s.member q = some m →
      update s.member i (some ⟨some c, s.nextRank, d, false⟩) q = some m := by
    intro q m hq
    rw [update_of_ne (hne hq), hq]
  refine ⟨?_, ?_, ?_, ?_⟩
  · obtain ⟨m, hm, hb⟩ := h.root
    exact ⟨m, hold hm, hb⟩
  · intro q m hq
    by_cases hqi : q = i
    · grind
    · obtain ⟨h1, h2, h3⟩ := h.bound q m (by simpa [hqi] using hq)
      exact ⟨h1, Nat.lt_succ_of_lt h2, Nat.lt_of_lt_of_le h3 hr⟩
  · intro q m hq hroot
    by_cases hqi : q = i
    · subst hqi
      obtain rfl : _ = m := by simpa using hq
      exact ⟨c, mc, rfl, hold hc, hcd, (h.bound c mc hc).2.1⟩
    · obtain ⟨b, mb, hb, hmb, hlt⟩ := h.boss q m (by simpa [hqi] using hq) hroot
      exact ⟨b, mb, hb, hold hmb, hlt⟩
  · -- the new member is a head only if its resource is new, and then nobody else has it
    have hnew : ∀ q mq, s.member q = some mq → mq.res = d → ¬ State.Head { s with
          member := update s.member i (some ⟨some c, s.nextRank, d, false⟩)
          nextRank := s.nextRank + 1, nextRes := r } i := by
      intro q mq hq hres hh
      refine hh ⟨some c, s.nextRank, d, false⟩ c mc (by simp) rfl (hold hc) ?_
      have := (h.bound q mq hq).2.2
      simp only
      omega
    intro p q mp mq hp hq hres hhp hhq
    by_cases hpi : p = i
    · grind
    · by_cases hqi : q = i
      · grind
      · exact h.head p q mp mq (by simpa [hpi] using hp) (by simpa [hqi] using hq) hres
          (fun m b mb hm hb hmb => hhp m b mb (hold hm) hb (hold hmb))
          (fun m b mb hm hb hmb => hhq m b mb (hold hm) hb (hold hmb))

theorem Forest.renew (h : Forest n s) {c d r : Nat} {mc : Member} (hc : s.member c = some mc)
    (hch : s.Childless c) (hd : s.nextRes ≤ d) (hdr : d < r) (rel : List (Nat × List Nat)) :
    Forest n { s with
      member := update s.member c (some { mc with res := d })
      nextRes := r, released := rel } := by
  have hold : ∀ {q m}, s.member q = some m →
        ∃ m', update s.member c (some { mc with res := d }) q = some m' ∧
        m'.boss = m.boss ∧ m'.rank = m.rank ∧ m'.done = m.done ∧ (q ≠ c → m' = m) := by
    intro q m hq
    by_cases hqc : q = c
    · grind
    · grind
  refine ⟨?_, ?_, ?_, ?_⟩
  · obtain ⟨m, hm, hb, hdn⟩ := h.root
    obtain ⟨m', hm', hb', _, hd', _⟩ := hold hm
    exact ⟨m', hm', hb'.trans hb, hd'.trans hdn⟩
  · intro q m hq
    by_cases hqc : q = c
    · subst hqc
      obtain rfl : _ = m := by simpa using hq
      obtain ⟨h1, h2, _⟩ := h.bound q mc hc
      exact ⟨h1, h2, hdr⟩
    · obtain ⟨h1, h2, h3⟩ := h.bound q m (by simpa [hqc] using hq)
      exact ⟨h1, h2, by simp only; omega⟩
  · intro q m hq hroot
    have hqm : ∃ mq, s.member q = some mq ∧ mq.boss = m.boss ∧ mq.rank = m.rank := by grind
    obtain ⟨mq, hmq, hbq, hrq⟩ := hqm
    obtain ⟨b, mb, hb, hmb, hdb, hlt⟩ := h.boss q mq hmq hroot
    obtain ⟨mb', hmb', _, hr', hd', _⟩ := hold hmb
    exact ⟨b, mb', hbq.symm.trans hb, hmb', hd'.trans hdb, by omega⟩
  · -- those who answer to `c` did not share with it, and do not share with it now
    have hheads : ∀ q, q ≠ c → State.Head { s with
        member := update s.member c (some { mc with res := d })
        nextRes := r, released := rel } q → s.Head q := by
      intro q hqc hh m b mb hm hb hmb
      by_cases hbc : b = c
      · subst hbc
        obtain rfl : mc = mb := some.inj (hc.symm.trans hmb)
        exact (hch mc q m hc hm hb).symm
      · exact hh m b mb (by simpa [hqc] using hm) hb (by simpa [hbc] using hmb)
    intro p q mp mq hp hq hres hhp hhq
    by_cases hpc : p = c
    · by_cases hqc : q = c
      · rw [hpc, hqc]
      · subst hpc
        obtain rfl : _ = mp := by simpa using hp
        have := (h.bound q mq (by simpa [hqc] using hq)).2.2
        simp only at hres
        omega
    · by_cases hqc : q = c
      · subst hqc
        obtain rfl : _ = mq := by simpa using hq
        have := (h.bound p mp (by simpa [hpc] using hp)).2.2
        simp only at hres
        omega
      · grind [h.head]

theorem adopted_eq_some {c q : Nat} {m : Member} :
      s.adopted c q = some m ↔ ∃ mq, s.member q = some mq ∧
      m = if mq.boss = some c then { mq with boss := some s.root } else mq := by
  unfold State.adopted
  rw [map_eq_some_iff]
  exact exists_congr fun mq => and_congr_right fun _ => eq_comm

theorem Forest.finish (h : Forest n s) {c : Nat} {mc mr : Member} (hne : c ≠ s.root)
    (hc : s.member c = some mc) (hr : s.member s.root = some mr)
    (hch : s.Childless c ∨ mr.res = mc.res) :
    Forest n { s with
      member := update (s.adopted c) c (some { mc with done := true }) } := by
  -- every member is there after it, and was there before it, with its rank and its resource
  have hto : ∀ {q m}, s.member q = some m → ∃ m',
      update (s.adopted c) c (some { mc with done := true }) q = some m' ∧
        m'.rank = m.rank ∧ m'.res = m.res ∧ (q ≠ c → m'.done = m.done) ∧
        (m.boss ≠ some c → m'.boss = m.boss) := by
    intro q m hq
    by_cases hqc : q = c
    · grind
    · refine ⟨if m.boss = some c then { m with boss := some s.root } else m, ?_, ?_⟩
      · rw [update_of_ne hqc]
        exact adopted_eq_some.mpr ⟨m, hq, rfl⟩
      · grind
  have hfrom : ∀ {q m'}, update (s.adopted c) c (some { mc with done := true }) q = some m' →
      ∃ m, s.member q = some m ∧ m'.rank = m.rank ∧ m'.res = m.res ∧
        (m.boss = some c ∧ m'.boss = some s.root ∨ m.boss ≠ some c ∧ m'.boss = m.boss) := by
    intro q m' hq
    by_cases hqc : q = c
    · grind [h.boss_of, some.inj]
    · rw [update_of_ne hqc] at hq
      obtain ⟨m, hm, rfl⟩ := adopted_eq_some.mp hq
      refine ⟨m, hm, ?_⟩
      split
      · grind
      · grind
  refine ⟨?_, ?_, ?_, ?_⟩
  · grind [h.root]
  · intro q m' hq
    obtain ⟨m, hm, hrank, hres, _⟩ := hfrom hq
    obtain ⟨h1, h2, h3⟩ := h.bound q m hm
    exact ⟨h1, by simp only; omega, by simp only; omega⟩
  · intro q m' hq hroot
    obtain ⟨m, hm, hrank, _, hb⟩ := hfrom hq
    rcases hb with ⟨_, hb'⟩ | ⟨hbc, hb'⟩
    · obtain ⟨mr0, hr0, _, hdn⟩ := h.root
      obtain ⟨mr', hmr', hrk, _, hd', _⟩ := hto hr0
      refine ⟨s.root, mr', hb', hmr', (hd' hne.symm).trans hdn, ?_⟩
      have := h.root_rank_lt hr0 hm hroot
      omega
    · obtain ⟨b, mb, hbb, hmb, hdb, hlt⟩ := h.boss q m hm hroot
      have hbne : b ≠ c := fun e => hbc (e ▸ hbb)
      obtain ⟨mb', hmb', hrk, _, hd', _⟩ := hto hmb
      exact ⟨b, mb', hb'.trans hbb, hmb', (hd' hbne).trans hdb, by omega⟩
  · have hheads : ∀ q, State.Head { s with
        member := update (s.adopted c) c (some { mc with done := true }) } q →
        s.Head q := by
      intro q hh m b mb hm hb hmb
      obtain ⟨m', hm', _, hres, _, hboss⟩ := hto hm
      by_cases hbc : b = c
      · subst hbc
        obtain rfl : mc = mb := some.inj (hc.symm.trans hmb)
        rcases hch with hch | hch
        · exact (hch mc q m hc hm hb).symm
        · obtain ⟨m2, hm2, _, _, hb2⟩ := hfrom hm'
          obtain rfl : m = m2 := some.inj (hm.symm.trans hm2)
          have hroot : m'.boss = some s.root := by grind
          obtain ⟨mr', hmr', _, hrres, _⟩ := hto hr
          have := hh m' s.root mr' hm' hroot hmr'
          omega
      · obtain ⟨mb', hmb', _, hbres, _⟩ := hto hmb
        have := hh m' b mb' hm' ((hboss (by simpa [hb] using hbc)).trans hb) hmb'
        omega
    intro p q mp mq hp hq hres hhp hhq
    obtain ⟨m1, hm1, _, hr1, _⟩ := hfrom hp
    obtain ⟨m2, hm2, _, hr2, _⟩ := hfrom hq
    exact h.head p q m1 m2 hm1 hm2 (by omega) (hheads p hhp) (hheads q hhq)

theorem Forest.remove (h : Forest n s) {i : Nat} {mi : Member} (hi : s.member i = some mi)
    (hd : mi.done = true) (rel : List (Nat × List Nat)) :
    Forest n { s with member := update s.member i none, released := rel } := by
  have hfrom : ∀ {q m}, update s.member i none q = some m → q ≠ i ∧ s.member q = some m := by
    intro q m hq
    by_cases hqi : q = i
    · subst hqi
      simp at hq
    · grind
  have hto : ∀ {q m}, s.member q = some m → q ≠ i → update s.member i none q = some m := by
    intro q m hq hqi
    rw [update_of_ne hqi, hq]
  refine ⟨?_, ?_, ?_, ?_⟩
  · grind [h.root, some.inj]
  · intro q m hq
    exact h.bound q m (hfrom hq).2
  · grind [h.boss, h.boss_ne_of_done]
  · intro p q mp mq hp hq hres hhp hhq
    refine h.head p q mp mq (hfrom hp).2 (hfrom hq).2 hres ?_ ?_
    · intro m b mb hm hb hmb
      exact hhp m b mb (hto hm (hfrom hp).1) hb
        (hto hmb (fun e => h.boss_ne_of_done hi hd hm (e ▸ hb)))
    · intro m b mb hm hb hmb
      exact hhq m b mb (hto hm (hfrom hq).1) hb
        (hto hmb (fun e => h.boss_ne_of_done hi hd hm (e ▸ hb)))

/-! ## The ledger -/

/-- Members of the later state use a new resource or one that was in use. -/
def UsesOld (s s' : State) : Prop :=
  s.nextRes ≤ s'.nextRes ∧ ∀ i m, s'.member i = some m →
    s.nextRes ≤ m.res ∨ ∃ j mj, s.member j = some mj ∧ mj.res = m.res

theorem Ledger.keep (h : Ledger s) (hu : UsesOld s s') (hr : s'.released = s.released) :
    Ledger s' := by
  refine ⟨fun r hrm => ?_, by rw [hr]; exact h.once, by rw [hr]; exact h.alone⟩
  rw [hr] at hrm
  obtain ⟨hlt, hfree⟩ := h.gone r hrm
  refine ⟨Nat.lt_of_lt_of_le hlt hu.1, fun i m hm => ?_⟩
  rcases hu.2 i m hm with hnew | ⟨j, mj, hj, hres⟩
  · omega
  · grind

/-- One more release, of a resource that was in use or new and that nobody else uses. -/
theorem Ledger.add (h : Ledger s) (hu : UsesOld s s') {d : Nat} {l : List Nat} (hl : l = [])
    (hr : s'.released = s.released ++ [(d, l)]) (hd : d < s'.nextRes)
    (hold : s.nextRes ≤ d ∨ ∃ j mj, s.member j = some mj ∧ mj.res = d)
    (hfree : ∀ i m, s'.member i = some m → m.res ≠ d) : Ledger s' := by
  have hkeep : Ledger { s' with released := s.released } := h.keep hu rfl
  refine ⟨fun r hrm => ?_, ?_, fun r hrm => ?_⟩
  · rw [hr] at hrm
    rcases List.mem_append.mp hrm with hrm | hrm
    · exact hkeep.gone r hrm
    · grind
  · rw [hr, List.map_append]
    refine List.Nodup.append h.once (List.nodup_singleton d) ?_
    intro x hx hx'
    obtain rfl := List.mem_singleton.mp hx'
    obtain ⟨e, he, rfl⟩ := List.mem_map.mp hx
    obtain ⟨hlt, hno⟩ := h.gone e he
    rcases hold with hnew | ⟨j, mj, hj, hres⟩
    · omega
    · exact hno j mj hj hres
  · grind [h.alone]

theorem usesOld_of_sub {s s' : State} (hn : s.nextRes ≤ s'.nextRes)
    (h : ∀ i m, s'.member i = some m → s.member i = some m) : UsesOld s s' :=
  ⟨hn, fun i m hm => Or.inr ⟨i, m, h i m hm, rfl⟩⟩

theorem usesOld_update {s s' : State} {i : Nat} {m : Member} (hn : s.nextRes ≤ s'.nextRes)
    (hs : s'.member = update s.member i (some m))
    (hm : s.nextRes ≤ m.res ∨ ∃ j mj, s.member j = some mj ∧ mj.res = m.res) : UsesOld s s' := by
  refine ⟨hn, fun q mq hq => ?_⟩
  rw [hs] at hq
  by_cases hqi : q = i
  · grind
  · grind

/-! ## Every move -/

structure Valid (n : Nat) (s : State) : Prop where
  forest : Forest n s
  ledger : Ledger s

theorem Forest.raise (h : Forest n s) {k r : Nat} (hk : s.nextRank ≤ k) (hr : s.nextRes ≤ r)
    (rel : List (Nat × List Nat)) :
    Forest n { s with nextRank := k, nextRes := r, released := rel } := by
  refine ⟨h.root, fun q m hq => ?_, h.boss, h.head⟩
  obtain ⟨h1, h2, h3⟩ := h.bound q m hq
  exact ⟨h1, Nat.lt_of_lt_of_le h2 hk, Nat.lt_of_lt_of_le h3 hr⟩

/-- A release by a head that shares with nobody below it has no other user. -/
theorem Forest.free_of_head (h : Forest n s) {i : Nat} {mi : Member} (hi : s.member i = some mi)
    (hh : s.Head i) (hc : s.Childless i) {q : Nat} {m : Member} (hq : s.member q = some m)
    (hne : q ≠ i) : m.res ≠ mi.res :=
  fun hres => hne (h.only_user hi hh hc q m hq hres)

theorem Valid.move (h : Valid n s) (hm : Moves n s s') : Valid n s' := by
  obtain ⟨hf, hl⟩ := h
  cases hm with
  | stay k r hk hr =>
    exact ⟨hf.raise hk hr s.released, hl.keep (usesOld_of_sub hr (fun _ _ h => h)) rfl⟩
  | discard k r i d hk hd hdr =>
    have hfree : ∀ q m, s.member q = some m → m.res ≠ d := by
      intro q m hq he
      have := (hf.bound q m hq).2.2
      omega
    have hle : s.nextRes ≤ r := by omega
    exact ⟨hf.raise hk hle _, hl.add (usesOld_of_sub hle (fun _ _ h => h))
      (others_eq_nil fun q m hq hres => absurd hres (hfree q m hq)) rfl hdr (Or.inl hd) hfree⟩
  | enter i c d r mc hi hin hc hcd hd hr =>
    refine ⟨hf.enter hi hin hc hcd hd hr, hl.keep (usesOld_update hr rfl ?_) rfl⟩
    rcases hd with rfl | hd
    · exact Or.inr ⟨c, mc, hc, rfl⟩
    · exact Or.inl hd.1
  | renew c d r mc hc hh hch hd hdr =>
    have hold : ∀ q m, update s.member c (some { mc with res := d }) q = some m →
        m.res ≠ mc.res := by
      intro q m hq
      by_cases hqc : q = c
      · subst hqc
        obtain rfl : _ = m := by simpa using hq
        have := (hf.bound q mc hc).2.2
        simp only
        omega
      · grind [hf.free_of_head]
    refine ⟨hf.renew hc hch hd hdr _, hl.add (usesOld_update (by simp only; omega) rfl (Or.inl hd))
      (others_eq_nil fun q m hq hres => absurd hres (hold q m hq)) rfl ?_
      (Or.inr ⟨c, mc, hc, rfl⟩) hold⟩
    have := (hf.bound c mc hc).2.2
    simp only
    omega
  | finish c mc mr hne hc hr hch =>
    refine ⟨hf.finish hne hc hr hch, hl.keep ⟨Nat.le_refl _, fun q m hq => Or.inr ?_⟩ rfl⟩
    by_cases hqc : q = c
    · grind
    · obtain ⟨mq, hmq, rfl⟩ := adopted_eq_some.mp (by simpa [hqc] using hq)
      exact ⟨q, mq, hmq, by split <;> rfl⟩
  | leave i c mi mc hi hd hb hc hres =>
    refine ⟨hf.remove hi hd s.released, hl.keep (usesOld_of_sub (Nat.le_refl _) ?_) rfl⟩
    intro q m hq
    by_cases hqi : q = i
    · subst hqi
      simp at hq
    · simpa [hqi] using hq
  | release i c mi mc hi hd hb hc hres =>
    have hh : s.Head i := by
      intro m b mb hm hb' hmb
      obtain rfl : mi = m := some.inj (hi.symm.trans hm)
      obtain rfl : c = b := some.inj (hb.symm.trans hb')
      obtain rfl : mc = mb := some.inj (hc.symm.trans hmb)
      exact hres
    have hch : s.Childless i := fun m j mj _ hj hbj => absurd hbj (hf.boss_ne_of_done hi hd hj)
    have hsub : ∀ q m, update s.member i none q = some m → q ≠ i ∧ s.member q = some m := by grind
    exact ⟨hf.remove hi hd _,
      hl.add (usesOld_of_sub (Nat.le_refl _) (fun q m hq => (hsub q m hq).2))
      (others_eq_nil (hf.only_user hi hh hch)) rfl (hf.bound i mi hi).2.2 (Or.inr ⟨i, mi, hi, rfl⟩)
      (fun q m hq => hf.free_of_head hi hh hch (hsub q m hq).2 (hsub q m hq).1)⟩

end owners
