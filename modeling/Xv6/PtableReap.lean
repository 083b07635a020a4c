-- Children are reaped once: the pids that wait and join return, against who made whom and who
-- exited. Init adopts the children of others, so that it can join threads that it did not make; for
-- every other process n joins return the n threads it made.
import Xv6.PtableWaits
import Mathlib.Data.List.Perm.Subperm

open List runs

namespace xv6.ptable

open proc (Procstate Call)

/-! ## The histories -/

/-- The pids that `wait` and `join` have returned. -/
def Table.returned (t : Table) : List Int := t.returns.filterMap Return.pid

/-- Whom the process with pid `c` has made. -/
def Table.made (t : Table) (c : Int) : List (Int × Creator × Int) :=
  t.created.filter fun e => e.1 = c

/-- The pids that `join` has returned to the process with pid `c`. -/
def Table.joined (t : Table) (c : Int) : List Int :=
  (t.returns.filter fun r => r.call = .join ∧ r.caller = c).filterMap Return.pid

structure Table.Hist (t : Table) : Prop where
  once : t.returned.Nodup
  gone : ∀ v ∈ t.returned, v < t.nextpid ∧ ∀ q, (t.procs q).state ≠ .UNUSED → (t.procs q).pid ≠ v
  exited : ∀ q, (t.procs q).state = .ZOMBIE → (t.procs q).pid ∈ t.exited
  makes : (t.created.map fun e => e.2.2).Nodup
  born : ∀ e ∈ t.created, e.2.2 < t.nextpid ∧
    ∀ q, (t.procs q).state = .EMBRYO → (t.procs q).pid ≠ e.2.2
  maker : ∀ q p, (t.procs q).state ≠ .EMBRYO → (t.procs q).parent = some p → p ≠ initproc →
    ∃ k, ((t.procs p).pid, k, (t.procs q).pid) ∈ t.created
  own : ∀ r c v, ⟨r, c, some v⟩ ∈ t.returns → c ≠ 1 → ∃ k, (c, k, v) ∈ t.created

/-- A process in `wait` or `join` that is killed was found by a `kill`. -/
def Killed (s : Sys) : Prop :=
  ∀ p r, (s.pc p).call = some r → Alive (s.tab.procs p).state ∧
    ((s.tab.procs p).killed = true → (s.tab.procs p).pid ∈ s.tab.kills)

theorem hist_init : init.tab.Hist := by
  refine ⟨nodup_nil, nofun, fun q hq => ?_, nodup_nil, nofun, fun q p _ hp => ?_, nofun⟩
  · grind [init]
  · rw [parent_init] at hp
    cases hp

theorem killed_init : Killed init := by
  intro p r hr
  cases hr

section Reap

variable {s s' : Sys} {t t' : Table} {c p q r np : Nat} {x y : Pc}

/-! ## Changes of the table -/

theorem Quiet.hist (h : Quiet t t') (ht : t.Hist) (hret : t'.returned = t.returned)
    (hsome : ∀ r c v, ⟨r, c, some v⟩ ∈ t'.returns → ⟨r, c, some v⟩ ∈ t.returns)
    (hcr : t'.created = t.created) (hex : t'.exited = t.exited) : t'.Hist := by
  have hstate : ∀ x q, ¬ Alive x → ((t'.procs q).state = x ↔ (t.procs q).state = x) :=
    fun x q hx => (h.state q).eq_iff hx
  refine ⟨hret ▸ ht.once, fun v hv => ?_, fun q hq => ?_, hcr ▸ ht.makes, fun e he => ?_,
    fun q p hq hp hne => ?_, fun r c v hr hne => ?_⟩
  · rw [hret] at hv
    obtain ⟨hlt, hgone⟩ := ht.gone v hv
    refine ⟨h.nextpid ▸ hlt, fun q hq => ?_⟩
    rw [h.pid]
    exact hgone q (mt (hstate .UNUSED q (by simp [Alive])).mpr hq)
  · rw [h.pid, hex]
    exact ht.exited q ((hstate .ZOMBIE q (by simp [Alive])).mp hq)
  · rw [hcr] at he
    obtain ⟨hlt, hborn⟩ := ht.born e he
    refine ⟨h.nextpid ▸ hlt, fun q hq => ?_⟩
    rw [h.pid]
    exact hborn q ((hstate .EMBRYO q (by simp [Alive])).mp hq)
  · rw [h.parent] at hp
    rw [h.pid, h.pid, hcr]
    exact ht.maker q p (mt (hstate .EMBRYO q (by simp [Alive])).mpr hq) hp hne
  · grind [ht.own]

theorem Table.Hist.alloc (h : t.Hist) (ht : t.Tree) (hnp : (t.procs np).state = .UNUSED)
    (hnext : (t.alloc np).nextpid = t.nextpid + 1) : (t.alloc np).Hist := by
  have hset : ∀ q, q ≠ np → (t.alloc np).procs q = t.procs q := fun q hq => procs_alloc_ne t hq
  have hself := procs_alloc t np
  refine ⟨h.once, fun v hv => ?_, fun q hq => ?_, h.makes, fun e he => ?_,
    fun q p hq hp hne => ?_, h.own⟩
  · obtain ⟨hlt, hgone⟩ := h.gone v hv
    refine ⟨by omega, fun q hq => ?_⟩
    by_cases hqn : q = np
    · grind
    · grind
  · by_cases hqn : q = np
    · grind
    · rw [hset q hqn] at hq ⊢
      exact h.exited q hq
  · obtain ⟨hlt, hborn⟩ := h.born e he
    refine ⟨by omega, fun q hq => ?_⟩
    by_cases hqn : q = np
    · grind
    · grind
  · by_cases hqn : q = np
    · grind
    · rw [hset q hqn] at hq hp ⊢
      have hpn : p ≠ np := fun hc => (ht.parent q p hp).1.ne.1 (hc ▸ hnp)
      rw [hset p hpn]
      exact h.maker q p hq hp hne

/-- A slot `z` changes, of a process that is nobody's parent, and nothing is noted. -/
theorem Table.Hist.slot {f : Nat → Proc} (h : t.Hist) (z : Nat)
    (hz : ∀ q, (t.procs q).parent ≠ some z) (hset : ∀ q, q ≠ z → f q = t.procs q)
    (hused : (f z).state ≠ .UNUSED →
      (t.procs z).state ≠ .UNUSED ∧ (f z).pid = (t.procs z).pid) (hzombie : (f z).state ≠ .ZOMBIE)
    (hembryo : (f z).state = .EMBRYO → (t.procs z).state = .EMBRYO)
    (hmaker : (f z).state ≠ .EMBRYO → (f z).parent = none) :
      ({ t with procs := f } : Table).Hist := by
  refine ⟨h.once, fun v hv => ?_, fun q (hq : (f q).state = _) => ?_, h.makes, fun e he => ?_,
    fun q p (hq : (f q).state ≠ _) (hp : (f q).parent = _) hne => ?_, h.own⟩
  · obtain ⟨hlt, hgone⟩ := h.gone v hv
    refine ⟨hlt, fun q (hq : (f q).state ≠ _) => show (f q).pid ≠ v from ?_⟩
    by_cases hqz : q = z
    · grind
    · grind
  · grind [h.exited]
  · obtain ⟨hlt, hborn⟩ := h.born e he
    refine ⟨hlt, fun q (hq : (f q).state = _) => show (f q).pid ≠ e.2.2 from ?_⟩
    by_cases hqz : q = z
    · grind
    · grind
  · by_cases hqz : q = z
    · grind
    · grind [h.maker]

theorem Table.Hist.ready {k : Creator} (h : t.Hist) (ht : t.Tree)
    (hst : (t.procs np).state = .EMBRYO) (hpar : (t.procs np).parent = some p) :
    (t.ready k np p).Hist := by
  have hset : ∀ q, q ≠ np → (t.ready k np p).procs q = t.procs q := fun q hq =>
    procs_ready_ne t k p hq
  have hself := procs_ready t k np p
  have hpid : ∀ q, ((t.ready k np p).procs q).pid = (t.procs q).pid := by grind
  have hu : (t.procs np).state ≠ .UNUSED := by simp [hst]
  refine ⟨h.once, fun v hv => ?_, fun q hq => ?_, ?_, fun e he => ?_, fun q p' hq hp hne => ?_,
    fun r c v hr hne => ?_⟩
  · obtain ⟨hlt, hgone⟩ := h.gone v hv
    refine ⟨hlt, fun q hq => ?_⟩
    rw [hpid]
    by_cases hqn : q = np
    · rw [hqn]
      exact hgone np hu
    · grind
  · rw [hpid]
    by_cases hqn : q = np
    · grind
    · rw [hset q hqn] at hq
      exact h.exited q hq
  · refine nodup_cons.mpr ⟨fun hc => ?_, h.makes⟩
    obtain ⟨e, he, heq⟩ := mem_map.mp hc
    exact (h.born e he).2 np hst heq.symm
  · have hlt : e.2.2 < t.nextpid := by
      rcases mem_cons.mp he with rfl | he
      · exact (ht.pids np hu).2
      · exact (h.born e he).1
    refine ⟨hlt, fun q hq => ?_⟩
    have hqn : q ≠ np := by grind
    rw [hpid]
    rw [hset q hqn] at hq
    rcases mem_cons.mp he with rfl | he
    · grind [ht.distinct]
    · exact (h.born e he).2 q hq
  · rw [hpid, hpid]
    by_cases hqn : q = np
    · rw [hqn, hself] at hp
      obtain rfl : p' = p := Option.some.inj (hp.symm.trans hpar)
      exact ⟨k, by rw [hqn]; exact mem_cons_self⟩
    · rw [hset q hqn] at hq hp
      obtain ⟨k', hk⟩ := h.maker q p' hq hp hne
      exact ⟨k', mem_cons_of_mem _ hk⟩
  · obtain ⟨k', hk⟩ := h.own r c v hr hne
    exact ⟨k', mem_cons_of_mem _ hk⟩

theorem Table.Hist.pass (h : t.Hist) (p : Nat) : (t.pass p).Hist := by
  have hpid := (kin_pass t p).pid
  have hstate : ∀ x q, ¬ Alive x → (((t.pass p).procs q).state = x ↔ (t.procs q).state = x) :=
    fun x q hx => ((wakes_pass t p).alike q).eq_iff hx
  have hparent := parent_pass t p
  obtain ⟨f, hf, _⟩ := kin_pass t p
  rw [hf] at hpid hstate hparent ⊢
  refine ⟨h.once, fun v hv => ?_, fun q hq => ?_, h.makes, fun e he => ?_,
    fun q p' hq hp hne => ?_, h.own⟩
  · obtain ⟨hlt, hgone⟩ := h.gone v hv
    refine ⟨hlt, fun q hq => ?_⟩
    rw [hpid]
    exact hgone q (mt (hstate .UNUSED q (by simp [Alive])).mpr hq)
  · rw [hpid]
    exact h.exited q ((hstate .ZOMBIE q (by simp [Alive])).mp hq)
  · obtain ⟨hlt, hborn⟩ := h.born e he
    refine ⟨hlt, fun q hq => ?_⟩
    rw [hpid]
    exact hborn q ((hstate .EMBRYO q (by simp [Alive])).mp hq)
  · rw [hpid, hpid]
    rw [hparent] at hp
    split at hp
    · grind
    · exact h.maker q p' (mt (hstate .EMBRYO q (by simp [Alive])).mpr hq) hp hne

theorem Table.Hist.zombie (h : t.Hist) (hrun : (t.procs p).state = .RUNNING) :
    (t.zombie p).Hist := by
  have hset : ∀ q, q ≠ p → (t.zombie p).procs q = t.procs q := fun q hq => procs_zombie_ne t hq
  have hself := procs_zombie t p
  have hpid : ∀ q, ((t.zombie p).procs q).pid = (t.procs q).pid := by grind
  refine ⟨h.once, fun v hv => ?_, fun q hq => ?_, h.makes, fun e he => ?_,
    fun q p' hq hp hne => ?_, h.own⟩
  · obtain ⟨hlt, hgone⟩ := h.gone v hv
    refine ⟨hlt, fun q hq => ?_⟩
    rw [hpid]
    by_cases hqp : q = p
    · grind
    · grind
  · rw [hpid]
    by_cases hqp : q = p
    · rw [hqp]
      exact mem_cons_self
    · rw [hset q hqp] at hq
      exact mem_cons_of_mem _ (h.exited q hq)
  · obtain ⟨hlt, hborn⟩ := h.born e he
    refine ⟨hlt, fun q hq => ?_⟩
    have hqp : q ≠ p := by grind
    rw [hset q hqp] at hq ⊢
    exact hborn q hq
  · rw [hpid, hpid]
    by_cases hqp : q = p
    · rw [hqp, hself] at hp
      rw [hqp]
      exact h.maker p p' (by simp [hrun]) hp hne
    · rw [hset q hqp] at hq hp
      exact h.maker q p' hq hp hne

theorem Table.Hist.reap {k : Call} (h : t.Hist) (ht : t.Tree)
    (hpar : (t.procs q).parent = some p) (hz : (t.procs q).state = .ZOMBIE) :
    (t.reap p k q).Hist := by
  have hu : (t.procs q).state ≠ .UNUSED := by simp [hz]
  -- first the slot, then the note
  have hslot : ({ t with procs := (t.reap p k q).procs } : Table).Hist := by
    refine h.slot q (fun z hc => ?_) (fun z hzq => procs_reap_ne t p k hzq) ?_ ?_ ?_ ?_
    · exact (ht.parent z q hc).1.ne.2.2 hz
    all_goals simp [procs_reap]
  refine ⟨nodup_cons.mpr ⟨fun hc => (h.gone _ hc).2 q hu rfl, h.once⟩, fun v hv => ?_,
    hslot.exited, hslot.makes, hslot.born, hslot.maker, fun r c v hr hne => ?_⟩
  · rcases mem_cons.mp hv with rfl | hv
    · refine ⟨(ht.pids q hu).2, fun z hz' => ?_⟩
      have hzq : z ≠ q := by grind [procs_reap]
      rw [procs_reap_ne t p k hzq] at hz' ⊢
      exact fun hc => hzq (ht.distinct z q hz' hu hc)
    · exact hslot.gone v hv
  · rcases mem_cons.mp hr with heq | hr
    · obtain ⟨rfl, rfl, hv⟩ := Return.mk.inj heq
      obtain rfl := Option.some.inj hv
      refine h.maker q p (by simp [hz]) hpar fun hc => hne ?_
      rw [hc, ht.first]
    · exact h.own r c v hr hne

/-! ## Steps -/

theorem Does.hist (hc : Cpus s) (ht : Tree s) (h : s.tab.Hist)
    (hrun : (s.tab.procs p).state = .RUNNING) (hd : Does s p x t) (hroom : t.handed < 2 ^ 31 - 1) :
    t.Hist := by
  have halive : Alive (s.tab.procs p).state := alive_of_eq hrun
  have hquiet : ∀ {t'}, Quiet s.tab t' → t'.returns = s.tab.returns → t'.created = s.tab.created →
      t'.exited = s.tab.exited → t'.Hist := fun hq hret hcr hex =>
    hq.hist h (by rw [Table.returned, hret, Table.returned]) (fun _ _ _ hr => hret ▸ hr) hcr hex
  have hparent : ∀ {np}, (s.tab.procs np).state = .EMBRYO → ∀ q, (s.tab.procs q).parent ≠ some np :=
    fun hst q hq => (ht.tab.parent q _ hq).1.ne.2.1 hst
  cases hd with
  | alloc k np hpc hlt hnp => exact h.alloc ht.tab hnp (ht.tab.nextpid_alloc hroom np)
  | stack k np hpc | pgdir k np d hpc _ | rescan r hpc | woken hpc =>
    exact hquiet (quiet_set rfl rfl (Or.inl rfl)) rfl rfl rfl
  | abandon k np hpc =>
    have he : (s.pc p).embryo = some np ∧ (s.pc p).fresh = true := by
      rcases hpc with hpc | hpc <;> rw [hpc] <;> exact ⟨rfl, rfl⟩
    have hst := hc.embryo p np he.1
    have hnone : (s.tab.procs np).parent = none := by
      rw [((ht.places p).embryo np he.1).2.2, he.2]
      rfl
    refine h.slot np (hparent hst) (fun q hq => procs_abandon_ne _ hq) ?_ ?_ ?_ ?_ <;> simp [hnone]
  | adopt k np hpc =>
    have hst := hc.embryo p np (by rw [hpc]; rfl)
    refine h.slot np (hparent hst) (fun q hq => procs_adopt_ne _ _ hq) ?_ ?_ ?_ ?_ <;> simp [hst]
  | ready k np hpc =>
    have he : (s.pc p).embryo = some np := by rw [hpc]; rfl
    refine h.ready ht.tab (hc.embryo p np he) ?_
    rw [((ht.places p).embryo np he).2.2, hpc]
    rfl
  | wakeup chan b hpc | exit_wake q hpc _ => exact hquiet (quiet_wakeup1 _ _) rfl rfl rfl
  | orphan hpc _ => exact h
  | exit_pass hpc => exact h.pass p
  | exit_zombie hpc => exact h.zombie hrun
  | reap r q hpc hlt hq hz => exact h.reap ht.tab hq.1 hz
  | fail r hpc _ =>
    have hq : Quiet s.tab (s.tab.ret p r none) :=
      ⟨rfl, rfl, fun _ => rfl, fun _ => rfl, fun _ => Or.inl rfl⟩
    refine hq.hist h rfl (fun r c v hr => ?_) rfl rfl
    rcases mem_cons.mp hr with heq | hr
    · cases heq
    · exact hr
  | wait r hpc _ => exact h
  | sleep r chan hpc | yield b hpc =>
    exact hquiet (quiet_set rfl rfl (Or.inr ⟨halive, trivial⟩)) rfl rfl rfl
  | kill pid q hpc _ _ => exact hquiet (quiet_kill _ _ _) rfl rfl rfl

theorem hist_step (hc : Cpus s) (ht : Tree s) (h : s.tab.Hist) {a : Act}
    (hs : ptable.step s a = some s') (hroom : s'.tab.handed < 2 ^ 31 - 1) : s'.tab.Hist := by
  cases did_step hc hs with
  | idle he _ _ | move _ _ _ _ he _ _ _ | call _ _ _ _ _ _ _ _ he _ => exact he ▸ h
  | act c p x hon hcpu hrun hd _ _ => exact hd.hist hc ht h hrun hroom
  | choose i hi he _ _ =>
    rw [he]
    exact Quiet.hist (quiet_set rfl rfl (Or.inr ⟨by rw [hi]; trivial, trivial⟩)) h rfl
      (fun _ _ _ => id) rfl rfl
  | irq chan he _ _ =>
    rw [he]
    exact Quiet.hist (quiet_wakeup1 _ _) h rfl (fun _ _ _ => id) rfl rfl

theorem Does.call (hd : Does s p x t) {r : Call} (hx : x.call = some r) :
    (s.pc p).call = some r := by
  cases hd with
  | wakeup chan b hpc | yield b hpc | sleep r chan hpc | rescan r hpc =>
    rw [hpc]
    exact hx
  | wait r hpc _ =>
    rw [hpc]
    exact hx
  | _ => cases hx

/-- What a process does to another one, or to itself, that is alive: its pid stays, and so it stays
alive, but for `exit`, and not killed, but for `kill`. -/
def Keeps (s : Sys) (p : Nat) (x : Pc) (q : Nat) (t : Table) : Prop :=
  (t.procs q).pid = (s.tab.procs q).pid ∧
    ((t.procs q).killed = true → (s.tab.procs q).killed = true ∨ (s.tab.procs q).pid ∈ t.kills) ∧
    (Alive (t.procs q).state ∨ q = p ∧ x = .sched .zombie)

theorem Does.keeps (hc : Cpus s) (hd : Does s p x t) (hq : Alive (s.tab.procs q).state) :
    Keeps s p x q t := by
  have hne : ∀ {z}, ¬ Alive (s.tab.procs z).state → q ≠ z := fun hz hqz => hz (hqz ▸ hq)
  have hembryo : ∀ np, (s.pc p).embryo = some np → q ≠ np := fun _ he =>
    hne (by simp [hc.embryo p _ he, Alive])
  have hsame : ∀ {t : Table}, t.procs q = s.tab.procs q → Keeps s p x q t := by
    intro t he
    rw [Keeps, he]
    exact ⟨rfl, Or.inl, Or.inl hq⟩
  have hkin : ∀ {t : Table}, Kin s.tab t → Wakes s.tab t → Keeps s p x q t := by
    intro t hk hw
    refine ⟨hk.pid q, fun he => Or.inl ?_, Or.inl ((hw.alike q).alive.mpr hq)⟩
    rw [hk.procs q] at he
    exact he
  cases hd with
  | alloc k np hpc hlt hnp => exact hsame (procs_alloc_ne _ (hne (by simp [hnp, Alive])))
  | stack k np hpc =>
    grind [Keeps, Table.stack, procs_set]
  | abandon k np hpc =>
    have hqn := hembryo np (by rcases hpc with hpc | hpc <;> rw [hpc] <;> rfl)
    exact hsame (procs_abandon_ne _ hqn)
  | pgdir k np d hpc _ =>
    grind [Keeps, Table.setPgdir, procs_set]
  | adopt k np hpc => exact hsame (procs_adopt_ne _ _ (hembryo np (by rw [hpc]; rfl)))
  | ready k np hpc => exact hsame (procs_ready_ne _ _ _ (hembryo np (by rw [hpc]; rfl)))
  | wakeup chan b hpc | exit_wake z hpc _ => exact hkin (kin_wakeup1 _ _) (wakes_wakeup1 _ _)
  | orphan hpc _ | fail r hpc _ | wait r hpc _ => exact hsame rfl
  | exit_pass hpc => exact hkin (kin_pass _ _) (wakes_pass _ _)
  | exit_zombie hpc =>
    grind [Keeps, procs_zombie, procs_zombie_ne]
  | reap r z hpc hlt _ hz => exact hsame (procs_reap_ne _ _ _ (hne (by simp [hz, Alive])))
  | rescan _ hpc | woken hpc =>
    grind [Keeps, procs_tidy, procs_tidy_ne]
  | sleep r chan hpc | yield b hpc =>
    simp only [Keeps, Table.sleep, Table.setState, procs_set]
    split
    · rename_i hqp
      rw [hqp]
      exact ⟨rfl, Or.inl, Or.inl trivial⟩
    · exact ⟨rfl, Or.inl, Or.inl hq⟩
  | kill pid z hpc _ hpid =>
    refine ⟨(quiet_kill _ _ _).pid q, fun hk => ?_,
      Or.inl (((quiet_kill _ _ _).state q).alive.mpr hq)⟩
    by_cases hqz : q = z
    · exact Or.inr (by rw [hqz, hpid]; exact mem_cons_self)
    · simp only [Table.kill, procs_set, if_neg hqz] at hk
      exact Or.inl hk

theorem Does.kills (hd : Does s p x t) {v : Int} (hv : v ∈ s.tab.kills) : v ∈ t.kills := by
  cases hd with
  | kill pid q hpc _ _ => exact mem_cons_of_mem _ hv
  | exit_pass hpc =>
    obtain ⟨f, hf, _⟩ := kin_pass s.tab p
    rw [hf]
    exact hv
  | _ => exact hv

theorem Moves.call (h : Moves x y) {r : Call} (hy : y.call = some r) : x.call = some r := by
  cases h with
  | full k => cases hy
  | unknown pid => cases hy
  | _ => exact hy

theorem killed_step (hc : Cpus s) (h : Killed s) {a : Act} (hs : ptable.step s a = some s') :
    Killed s' := by
  have hmove : ∀ {p x}, s'.tab = s.tab → s'.pc = Function.update s.pc p x →
      (∀ r, x.call = some r → Alive (s.tab.procs p).state ∧
        ((s.tab.procs p).killed = true → (s.tab.procs p).pid ∈ s.tab.kills)) → Killed s' := by
    intro p x ht hpc hx q r hr
    rw [hpc] at hr
    rw [ht]
    by_cases hqp : q = p
    · grind
    · rw [Function.update_of_ne hqp] at hr
      exact h q r hr
  have hquiet : Wakes s.tab s'.tab ∨ (∀ q, Alike (s.tab.procs q).state (s'.tab.procs q).state) →
      (∀ q, (s'.tab.procs q).pid = (s.tab.procs q).pid) →
      (∀ q, (s'.tab.procs q).killed = (s.tab.procs q).killed) → s'.tab.kills = s.tab.kills →
      s'.pc = s.pc → Killed s' := by
    intro hst hpid hkilled hkills hpc q r hr
    rw [hpc] at hr
    obtain ⟨ha, hk⟩ := h q r hr
    rw [hpid, hkilled, hkills]
    refine ⟨?_, hk⟩
    rcases hst with hst | hst
    · exact (hst.alike q).alive.mpr ha
    · exact (hst q).alive.mpr ha
  cases did_step hc hs with
  | idle he hpc _ =>
    exact hquiet (Or.inr fun q => by rw [he]; exact Or.inl rfl) (fun q => by rw [he])
      (fun q => by rw [he]) (by rw [he]) hpc
  | move p x hx _ he hpc _ _ => exact hmove he hpc fun r hr => h p r (hx.call hr)
  | call c p x hon hcpu hu hrun hx he hpc =>
    refine hmove he hpc fun r hr => ?_
    cases hx with
    | reap r' hk =>
      grind [alive_of_eq]
    | _ => cases hr
  | act c p x hon hcpu hrun hd hpc hx =>
    intro q r hr
    have hcall : (s.pc q).call = some r := by
      by_cases hqp : q = p
      · grind [hd.call]
      · rcases hpc q hqp with he | ⟨_, he⟩ <;> rw [he] at hr
        · exact hr
        · cases hr
    obtain ⟨ha, hk⟩ := h q r hcall
    obtain ⟨hpid, hkill, hal⟩ := hd.keeps hc ha
    rw [hpid]
    refine ⟨hal.resolve_right fun ⟨hqp, hz⟩ => ?_, fun hk' => ?_⟩
    · rw [hqp, hx, hz] at hr
      cases hr
    · grind [hd.kills]
  | choose i hi he hpc _ =>
    have hq : Quiet s.tab s'.tab := by
      rw [he]
      exact quiet_set rfl rfl (Or.inr ⟨by rw [hi]; trivial, trivial⟩)
    refine hquiet (Or.inr hq.state) hq.pid (fun q => ?_) (by rw [he]; rfl) hpc
    rw [he, Table.setState, procs_set]
    split
    · rename_i hqi
      rw [hqi]
    · rfl
  | irq chan he hpc _ =>
    refine hquiet (Or.inl (by rw [he]; exact wakes_wakeup1 _ _)) (fun q => ?_) (fun q => ?_)
      (by rw [he]; rfl) hpc <;> rw [he]
    · exact (kin_wakeup1 s.tab chan).pid q
    · rw [(kin_wakeup1 s.tab chan).procs q]

/-- A run keeps the histories as long as pids are left. -/
theorem hist_run {as : List Act} (hrun : run step init as = some s)
    (hroom : s.tab.handed < 2 ^ 31 - 1) : s.tab.Hist ∧ Killed s := by
  have h := inv_of_run (I := fun s => Cpus s ∧ Rooted s ∧ Killed s ∧
      (s.tab.handed < 2 ^ 31 - 1 → Tree s ∧ s.tab.Hist))
    (fun _ _ _ ⟨hc, hroot, hk, h⟩ hs => ⟨(cpus_step hc hs).1, rooted_step hc hroot hs,
      killed_step hc hk hs, fun hr =>
        have h' := h (lt_of_le_of_lt (handed_step hc hs) hr)
        ⟨tree_step hc hroot h'.1 hs hr, hist_step hc h'.1 h'.2 hs hr⟩⟩)
    ⟨cpus_init, rooted_init, killed_init, fun _ => ⟨tree_init, hist_init⟩⟩ hrun
  exact ⟨(h.2.2.2 hroom).2, h.2.2.1⟩

/-! ## The law -/

/-- A process notes a return: it has found a child, or none, or it is killed. -/
theorem Does.returns (hd : Does s p x t) {r : Return} (hr : t.returns = r :: s.tab.returns) :
    (s.pc p).call = some r.call ∧ (s.tab.procs p).pid = r.caller ∧
      (∀ v, r.pid = some v → ∃ q, (s.tab.procs q).pid = v ∧ (s.tab.procs q).state = .ZOMBIE ∧
        s.tab.child p r.call q) ∧
      (r.pid = none → (∀ q < NPROC, ¬ s.tab.child p r.call q) ∨ (s.tab.procs p).killed = true) := by
  cases hd with
  | reap k q hpc hlt hq hz =>
    obtain ⟨rfl, _⟩ := List.cons.inj hr
    rw [hpc]
    refine ⟨rfl, rfl, fun v hv => ⟨q, Option.some.inj hv, hz, hq⟩, nofun⟩
  | fail k hpc hno =>
    obtain ⟨rfl, _⟩ := List.cons.inj hr
    rw [hpc]
    exact ⟨rfl, rfl, nofun, fun _ => hno⟩
  | exit_pass hpc =>
    obtain ⟨f, hf, _⟩ := kin_pass s.tab p
    rw [hf] at hr
    exact absurd hr.symm (cons_ne_self _ _)
  | _ => exact absurd hr.symm (cons_ne_self _ _)

/-- The joins of a process other than init return what it made. -/
theorem Table.Hist.joined (h : t.Hist) {c : Int} {ts : List Int} (hc : c ≠ 1)
    (hts : t.made c = ts.map fun v => (c, .clone, v)) (hn : (t.joined c).length = ts.length) :
    (t.joined c).Perm ts := by
  have hnodup : (t.joined c).Nodup := h.once.sublist (filter_sublist.filterMap _)
  have hsub : t.joined c ⊆ ts := by
    intro v hv
    obtain ⟨⟨r, c', pid⟩, hmem, hpid⟩ := mem_filterMap.mp hv
    obtain ⟨hr, hcall⟩ := mem_filter.mp hmem
    obtain rfl : c' = c := (of_decide_eq_true hcall).2
    obtain rfl : pid = some v := hpid
    obtain ⟨k, hk⟩ := h.own r c' v hr hc
    have hmade : (c', k, v) ∈ t.made c' := mem_filter.mpr ⟨hk, by simp⟩
    rw [hts] at hmade
    obtain ⟨v', hv', he⟩ := mem_map.mp hmade
    obtain rfl : v' = v := congrArg (fun e => e.2.2) he
    exact hv'
  exact (subperm_of_subset hnodup hsub).perm_of_length_le (le_of_eq hn.symm)

end Reap

/-- As long as fewer than 2^31 - 1 pids are handed out: a `wait` or `join` returns the pid of
a child of its caller that has exited, a `join` of one with the page directory of the caller,
and -1 only to a caller without such a child or that was killed; no pid is returned twice; and
for a process other than init that has made `ts` by `clone` and nobody else, as many joins
return just `ts`. -/
theorem children_are_reaped_once (as : List Act) (s : Sys) (hrun : run step init as = some s)
    (hpids : s.tab.handed < 2 ^ 31 - 1) :
    (∀ a s' r, step s a = some s' → s'.tab.returns = r :: s.tab.returns →
      ∃ c p, s.cpu c = .on p ∧ (s.tab.procs p).pid = r.caller ∧
        (∀ v, r.pid = some v → ∃ q, (s.tab.procs q).pid = v ∧ v ∈ s.tab.exited ∧
          (s.tab.procs q).state = .ZOMBIE ∧ (s.tab.procs q).parent = some p ∧
          (r.call = .join → (s.tab.procs q).pgdir = (s.tab.procs p).pgdir)) ∧
        (r.pid = none → (∀ q, ¬ ((s.tab.procs q).parent = some p ∧
          (r.call = .join → (s.tab.procs q).pgdir = (s.tab.procs p).pgdir))) ∨
          r.caller ∈ s.tab.kills)) ∧
    s.tab.returned.Nodup ∧
    ∀ c ts, c ≠ (s.tab.procs initproc).pid → s.tab.made c = ts.map (fun v => (c, .clone, v)) →
      (s.tab.joined c).length = ts.length → (s.tab.joined c).Perm ts := by
  obtain ⟨h, hk⟩ := hist_run hrun hpids
  have htree := (tree_run hrun hpids).tab
  have hroot := rooted_run hrun
  refine ⟨fun a s' r hs hr => ?_, h.once, fun c ts hc hts hn => h.joined (htree.first ▸ hc) hts hn⟩
  cases did_step (cpus_run hrun) hs with
  | idle he _ _ | move _ _ _ _ he _ _ _ | call _ _ _ _ _ _ _ _ he _ | choose _ _ he _ _
      | irq _ he _ _ =>
    rw [he] at hr
    exact absurd hr.symm (List.cons_ne_self _ _)
  | act c p x hon hcpu hst hd _ _ =>
    obtain ⟨hcall, hpid, hsome, hnone⟩ := hd.returns hr
    refine ⟨c, p, hon, hpid, fun v hv => ?_, fun hn => ?_⟩
    · obtain ⟨q, hq, hz, hpar, hdir⟩ := hsome v hv
      exact ⟨q, hq, hq ▸ h.exited q hz, hz, hpar, hdir⟩
    · refine (hnone hn).imp (fun hno q hq => ?_) fun hkill => hpid ▸ (hk p _ hcall).2 hkill
      refine hno q (hroot.tab.lt fun hu => ?_) hq
      rw [htree.unused q hu] at hq
      cases hq.1

/-- CPU `c` picks up the process in slot `i`, and the process releases the lock. -/
def pickup (c i : Nat) : List Act := List.replicate (i + 3) (.cpu c) ++ gos c 1

/-- Init makes a thread; the thread makes a thread, which exits, and joins it. -/
def threadJoin : List Act :=
  pickup 0 0 ++ .create 0 .clone :: gos 0 9 ++ pickup 1 1 ++ .create 1 .clone :: gos 1 9 ++
    pickup 2 2 ++ .exit 2 :: gos 2 5 ++ List.replicate 63 (.cpu 2) ++ .reap 1 .join :: gos 1 3

theorem the_thread_joins_its_thread :
    ∃ s, run step init threadJoin = some s ∧ (s.tab.joined 2).Perm [3] := by
  obtain ⟨s, hs, h1, h2, h3, h4⟩ : ∃ s, run step init threadJoin = some s ∧
      s.tab.handed < 2 ^ 31 - 1 ∧ (s.tab.procs initproc).pid = 1 ∧ s.tab.made 2 = [(2, .clone, 3)] ∧
      (s.tab.joined 2).length = 1 := by decide +kernel
  exact ⟨s, hs, (children_are_reaped_once threadJoin s hs h1).2.2 2 [3] (by simp [h2]) h3 h4⟩

/-- Init makes the threads 2 and 3, and 2 makes 4 and exits; init joins 2, and then 4, which has
passed to it. -/
def adoption : List Act :=
  pickup 0 0 ++ .create 0 .clone :: gos 0 9 ++ .create 0 .clone :: gos 0 9 ++ pickup 1 1 ++
    .create 1 .clone :: gos 1 9 ++ .exit 1 :: gos 1 5 ++ List.replicate 3 (.cpu 1) ++ gos 1 1 ++
    .reap 0 .join :: gos 0 3 ++ pickup 2 3 ++ .exit 2 :: gos 2 5 ++ List.replicate 62 (.cpu 2) ++
    .reap 0 .join :: gos 0 3

theorem init_joins_a_thread_that_it_did_not_make :
    ∃ s, run step init adoption = some s ∧ s.tab.handed < 2 ^ 31 - 1 ∧
      s.tab.made 1 = [3, 2].map (fun v => (1, .clone, v)) ∧ (s.tab.joined 1).length = 2 ∧
      ¬ (s.tab.joined 1).Perm [3, 2] := by
  decide +kernel

end xv6.ptable
