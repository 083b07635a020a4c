-- What a step of the process table does, case by case, as a relation between the two states. The
-- law: a process runs on one CPU, states change as they may, and a kernel stack outlives its use.
import Xv6.PtableCpus

open Option runs

namespace xv6.ptable

open proc (Procstate Call)

section Does

variable {s s' : Sys} {t : Table} {c c' p q np : Nat} {x : Pc}

/-! ## What a step does -/

/-- A way from a place to another without a change of the table. -/
inductive Moves : Pc → Pc → Prop where
  | acquire (x : Pc) : Moves (.acquire x) x
  | release (b : Pc) : Moves (.release b) b
  | swtch (x : Pc) : Moves (.sched x) (.off x)
  | enter (x : Pc) : Moves (.off x) x
  | timer {b : Pc} (h : b.plain = true) : Moves b (.acquire (.yield b))
  | wakeup {b : Pc} (h : b.plain = true) (chan : Nat) : Moves b (.acquire (.wakeup1 chan b))
  | full (k : Creator) : Moves (.alloc k) (.release .user)
  | unknown (pid : Int) : Moves (.kill pid) (.release .user)

/-- The calls of a process in user code. -/
inductive Calls (s : Sys) (p : Nat) : Pc → Prop where
  | create (k : Creator) (h : (s.tab.procs p).killed = false) : Calls s p (.alloc k)
  | reap (r : Call) (h : (s.tab.procs p).killed = false) : Calls s p (.scan r)
  | kill (pid : Int) (h : (s.tab.procs p).killed = false) : Calls s p (.kill pid)
  | exit (h : p ≠ initproc) : Calls s p .exit_wake
  | sleep (chan : Nat) : Calls s p (.sleep none chan)

/-- What a step does. -/
inductive Did (s s' : Sys) : Prop where
  | idle (ht : s'.tab = s.tab) (hpc : s'.pc = s.pc)
      (hcpu : ∀ c q, s.cpu c = .on q → s'.cpu c = .on q)
  | move (p : Nat) (x : Pc) (hx : Moves (s.pc p) x)
      (hp : (s.tab.procs p).state = .RUNNING ∨ ∃ y, s.pc p = .sched y) (ht : s'.tab = s.tab)
      (hpc : s'.pc = Function.update s.pc p x)
      (hcpu : ∀ c q, q ≠ p → s.cpu c = .on q → s'.cpu c = .on q)
      (hon : (∃ y, x = .off y) ∨ ∃ c, s'.cpu c = .on p)
  | call (c p : Nat) (x : Pc) (hon : s.cpu c = .on p) (hcpu : s'.cpu = s.cpu) (hu : s.pc p = .user)
      (hrun : (s.tab.procs p).state = .RUNNING) (hx : Calls s p x) (ht : s'.tab = s.tab)
      (hpc : s'.pc = Function.update s.pc p (.acquire x))
  | act (c p : Nat) (x : Pc) (hon : s.cpu c = .on p) (hcpu : s'.cpu = s.cpu)
      (hrun : (s.tab.procs p).state = .RUNNING) (hd : Does s p x s'.tab)
      (hpc : ∀ q, q ≠ p → s'.pc q = s.pc q ∨
        (s.pc p).embryo = some q ∧ s'.pc q = .off (.release .user)) (hx : s'.pc p = x)
  | choose (i : Nat) (hi : (s.tab.procs i).state = .RUNNABLE)
      (ht : s'.tab = s.tab.setState i .RUNNING) (hpc : s'.pc = s.pc)
      (hcpu : ∀ c q, s.cpu c = .on q → s'.cpu c = .on q)
  | irq (chan : Nat) (ht : s'.tab = s.tab.wakeup1 chan) (hpc : s'.pc = s.pc)
      (hcpu : ∀ c q, s.cpu c = .on q → s'.cpu c = .on q)

/-- A move of a process that stays on its CPU. -/
theorem did_quiet {l : Option Nat} (hon : s.cpu c = .on p)
    (hrun : (s.tab.procs p).state = .RUNNING) (hx : Moves (s.pc p) x) :
    Did s { s.move p s.tab x with lock := l } :=
  .move p x hx (Or.inl hrun) rfl rfl (fun _ _ _ hq => hq) (Or.inr ⟨c, hon⟩)

/-- A CPU in `scheduler` changes. -/
theorem on_update {y : Cpu} (hc : ∀ q, s.cpu c ≠ .on q) (c' q : Nat) (hq : s.cpu c' = .on q) :
    Function.update s.cpu c y c' = .on q := by
  have hne : c' ≠ c := fun he => hc q (he ▸ hq)
  rw [Function.update_of_ne hne]
  exact hq

theorem did_went (h : Cpus s) (hon : s.cpu c = .on p) (hw : Went s c p s') : Did s s' := by
  have hst := h.stands hon
  cases hw with
  | acquire x hpc hfree =>
    rw [hpc] at hst
    exact did_quiet hon hst (by rw [hpc]; exact .acquire x)
  | release b hpc =>
    rw [hpc] at hst
    exact did_quiet hon hst (by rw [hpc]; exact .release b)
  | swtch x hpc =>
    refine .move p (.off x) (by rw [hpc]; exact .swtch x) (Or.inr ⟨x, hpc⟩) rfl rfl
      (fun c' q hq hc' => ?_) (Or.inl ⟨x, rfl⟩)
    have hne : c' ≠ c := by grind
    exact (Function.update_of_ne hne ..).trans hc'
  | full k hpc =>
    rw [hpc] at hst
    exact did_quiet hon hst (by rw [hpc]; exact .full k)
  | unknown pid hpc =>
    rw [hpc] at hst
    exact did_quiet hon hst (by rw [hpc]; exact .unknown pid)
  | stack k np hpc =>
    rw [hpc] at hst
    refine .act c p _ hon rfl hst (.stack k np hpc) (fun q hq => ?_) (Function.update_self ..)
    simp only [Sys.move]
    rw [Function.update_of_ne hq]
    by_cases hqn : q = np
    · subst hqn
      exact Or.inr ⟨by rw [hpc]; rfl, Function.update_self ..⟩
    · grind
  | act x t hd =>
    refine .act c p x hon rfl (hd.running hst) hd (fun _ hq => Or.inl (Function.update_of_ne hq ..))
      (Function.update_self ..)

theorem did_scheduler (h : Cpus s) (hs : scheduler s c = some s') : Did s s' := by
  cases hc : s.cpu c with
  | idle =>
    simp only [scheduler, hc, ite_none_right_eq_some, some.injEq] at hs
    obtain ⟨_, rfl⟩ := hs
    exact .idle rfl rfl (on_update (by simp [hc]))
  | scan i =>
    simp only [scheduler, hc] at hs
    split at hs
    · split at hs
      · rename_i hst
        obtain rfl := some.inj hs
        exact .choose i hst rfl rfl (on_update (by simp [hc]))
      · obtain rfl := some.inj hs
        exact .idle rfl rfl (on_update (by simp [hc]))
    · obtain rfl := some.inj hs
      exact .idle rfl rfl (on_update (by simp [hc]))
  | enter p =>
    have hrun := h.placed c p (by rw [hc]; rfl)
    rw [Sys.Placed, hc] at hrun
    simp only [scheduler, hc] at hs
    split at hs
    · rename_i x hpc
      obtain rfl := some.inj hs
      exact .move p x (by rw [hpc]; exact .enter x) (Or.inl hrun) rfl rfl
        (fun c' q _ => on_update (by simp [hc]) c' q) (Or.inr ⟨c, Function.update_self ..⟩)
    · cases hs
  | on p => simp [scheduler, hc] at hs
  | back p =>
    simp only [scheduler, hc, some.injEq] at hs
    subst hs
    exact .idle rfl rfl (on_update (by simp [hc]))
  | wakeup1 chan =>
    simp only [scheduler, hc, some.injEq] at hs
    subst hs
    exact .irq chan rfl rfl (on_update (by simp [hc]))

theorem did_call (h : Cpus s) {ok : Nat → Bool} (hs : s.call c x ok = some s')
    (hx : ∀ p, ok p = true → Calls s p x) : Did s s' := by
  obtain ⟨p, hon, hpc, hok, rfl⟩ := call_eq hs
  have hst := h.stands hon
  rw [hpc] at hst
  exact .call c p x hon rfl hpc hst (hx p hok) rfl rfl

theorem did_interrupt (h : Cpus s) {f : Pc → Pc} (hs : s.interrupt c f = some s')
    (hf : ∀ b : Pc, b.plain = true → Moves b (.acquire (f b))) : Did s s' := by
  obtain ⟨p, hon, hplain, rfl⟩ := h.interrupted hs
  exact did_quiet hon ((Pc.stands_of_plain hplain).mp (h.stands hon)) (hf _ hplain)

theorem did_step (h : Cpus s) {a : Act} (hs : ptable.step s a = some s') : Did s s' := by
  have halive : ∀ p, s.alive p = true → (s.tab.procs p).killed = false := by
    intro p hp
    simpa [Sys.alive] using hp
  cases a with
  | cpu c => exact did_scheduler h hs
  | irq c chan =>
    rw [ptable.step, ite_none_right_eq_some] at hs
    obtain ⟨⟨hc, _⟩, hs⟩ := hs
    obtain rfl := some.inj hs
    exact .idle rfl rfl (on_update (by simp [hc]))
  | go c ok d =>
    simp only [ptable.step] at hs
    split at hs
    · rename_i p hon
      exact did_went h hon (went hs)
    · cases hs
  | create c k => exact did_call h hs fun p hp => .create k (halive p hp)
  | reap c r => exact did_call h hs fun p hp => .reap r (halive p hp)
  | kill c pid => exact did_call h hs fun p hp => .kill pid (halive p hp)
  | exit c => exact did_call h hs fun p hp => .exit (by simpa using hp)
  | sleep c chan => exact did_call h hs fun p _ => .sleep chan
  | wakeup c chan => exact did_interrupt h hs fun b hb => .wakeup hb chan
  | timer c => exact did_interrupt h hs fun b hb => .timer hb

/-! ## Kernel stacks -/

/-- Nothing differs but states and parents. -/
def Kin (t t' : Table) : Prop :=
  ∃ f, t' = { t with procs := f } ∧
    ∀ q, f q = { t.procs q with state := (f q).state, parent := (f q).parent }

theorem Kin.refl (t : Table) : Kin t t := ⟨t.procs, rfl, fun _ => rfl⟩

theorem Kin.trans {t t' t'' : Table} (h1 : Kin t t') (h2 : Kin t' t'') : Kin t t'' := by
  obtain ⟨f, rfl, hf⟩ := h1
  obtain ⟨g, rfl, hg⟩ := h2
  refine ⟨g, rfl, fun q => ?_⟩
  rw [hg q]
  simp only
  rw [hf q]

theorem kin_wakeup1 (t : Table) (chan : Nat) : Kin t (t.wakeup1 chan) := by
  refine ⟨_, rfl, fun q => ?_⟩
  dsimp only
  split <;> rfl

theorem kin_passTurn (p : Nat) (t : Table) (q : Nat) : Kin t (Table.passTurn p t q) := by
  have hset : Kin t (t.set q fun r => { r with parent := some initproc }) := by
    refine ⟨_, rfl, fun q' => ?_⟩
    by_cases hq : q' = q
    · grind
    · rw [Function.update_of_ne hq]
  unfold Table.passTurn
  split
  · dsimp only
    split
    · exact hset.trans (kin_wakeup1 _ _)
    · exact hset
  · exact Kin.refl t

theorem kin_pass (t : Table) (p : Nat) : Kin t (t.pass p) := by
  unfold Table.pass
  generalize List.range NPROC = l
  induction l generalizing t with
  | nil => exact Kin.refl t
  | cons q l ih => exact (kin_passTurn p t q).trans (ih _)

theorem Kin.procs {t t' : Table} (h : Kin t t') (q : Nat) : t'.procs q =
    { t.procs q with state := (t'.procs q).state, parent := (t'.procs q).parent } := by
  obtain ⟨f, rfl, hf⟩ := h
  exact hf q

/-- A step of a process frees a kernel stack only with its slot. -/
theorem Does.frees (hd : Does s p x t) (hq : (s.tab.procs q).kstack = true) :
    (t.procs q).kstack = true ∨ (t.procs q).state = .UNUSED := by
  cases hd with
  | orphan _ _ | wait _ _ _ => exact Or.inl hq
  | exit_pass _ => exact Or.inl (by rw [(kin_pass s.tab p).procs q, hq])
  | _ =>
    simp only [Table.alloc, Table.stack, Table.abandon, Table.setPgdir, Table.adopt, Table.ready,
      Table.wakeup1, Table.zombie, Table.reap, Table.ret, Table.sleep, Table.tidy, Table.kill,
      Table.setState, procs_set]
    grind

/-- No CPU runs a process whose kernel stack is freed. -/
theorem kfree_step (h : Cpus s) {a : Act} (hs : ptable.step s a = some s')
    (hq : (s.tab.procs q).kstack = true) (hq' : (s'.tab.procs q).kstack = false) (c : Nat) :
    (s.cpu c).cur ≠ some q := by
  have hsame : (s'.tab.procs q).kstack ≠ (s.tab.procs q).kstack := by
    rw [hq, hq']
    simp
  cases did_step h hs with
  | idle ht _ _ | move _ _ _ _ ht _ _ _ | call _ _ _ _ _ _ _ _ ht _ =>
    exact absurd (by rw [ht]) hsame
  | choose i _ ht _ _ =>
    grind [Table.setState, procs_set]
  | irq chan ht _ _ =>
    grind [Table.wakeup1]
  | act c' p x hon hcpu hrun hd _ _ =>
    -- the slot is UNUSED then, and that is no state of a process on a CPU
    intro hc
    rcases hd.frees hq with he | he
    · rw [hq'] at he
      cases he
    · rw [← hcpu] at hc
      rcases (cpus_step h hs).1.other hc with hr | ⟨_, hr⟩ <;> rw [he] at hr <;> simp at hr

end Does

theorem cpus_run {as : List Act} {s : Sys} (hrun : run step init as = some s) : Cpus s :=
  inv_of_run (fun _ _ _ h hs => (cpus_step h hs).1) cpus_init hrun

/-- A process runs on one CPU at most; a RUNNING process is on one whenever the lock is free; states
change as they may; and no kernel stack is freed that a CPU is on. -/
theorem a_process_runs_on_one_cpu (as : List Act) (s : Sys) (hrun : run step init as = some s) :
    (∀ c c' p, (s.cpu c).cur = some p → (s.cpu c').cur = some p → c = c') ∧
    (s.lock = none → ∀ p, (s.tab.procs p).state = .RUNNING → ∃ c, s.cpu c = .on p) ∧
    ∀ a s', step s a = some s' →
      (∀ p, (s'.tab.procs p).state = (s.tab.procs p).state ∨
        Turns (s.tab.procs p).state (s'.tab.procs p).state) ∧
      ∀ p, (s.tab.procs p).kstack = true → (s'.tab.procs p).kstack = false →
        ∀ c, (s.cpu c).cur ≠ some p := by
  have h := cpus_run hrun
  refine ⟨h.once, fun hfree p hp => ?_, fun a s' hs => ⟨(cpus_step h hs).2, fun p hq hq' c =>
    kfree_step h hs hq hq' c⟩⟩
  obtain ⟨c, hc⟩ := h.running p hp
  refine ⟨c, ?_⟩
  have hnot : ¬ s.holds c := by
    rw [← h.lock c, hfree]
    simp
  unfold Sys.holds at hnot
  cases hcpu : s.cpu c with
  | on q =>
    rw [hcpu] at hc
    rw [Option.some.inj hc]
  | _ =>
    rw [hcpu] at hc hnot
    first
      | exact (hnot trivial).elim
      | cases hc

/-- Init runs on CPU 0 and forks, and CPU 1 runs the child. -/
def twoRun : List Act :=
  .cpu 0 :: .cpu 0 :: .cpu 0 :: .go 0 true 0 :: .create 0 .fork :: List.replicate 9
    (.go 0 true 7) ++ List.replicate 4 (.cpu 1) ++ [.go 1 true 0]

theorem init_and_its_child_run_on_two_cpus :
    ∃ s, run step init twoRun = some s ∧ s.cpu 0 = .on 0 ∧ s.cpu 1 = .on 1 ∧
      (∀ c, (s.cpu c).cur = some 0 → c = 0) ∧ ∀ c, (s.cpu c).cur = some 1 → c = 1 := by
  obtain ⟨s, hs, h0, h1⟩ : ∃ s, run step init twoRun = some s ∧ s.cpu 0 = .on 0 ∧
      s.cpu 1 = .on 1 := by
    decide +kernel
  have honce := (a_process_runs_on_one_cpu twoRun s hs).1
  refine ⟨s, hs, h0, h1, fun c hc => honce c 0 0 hc ?_, fun c hc => honce c 1 1 hc ?_⟩
  · rw [h0]
    rfl
  · rw [h1]
    rfl

end xv6.ptable
