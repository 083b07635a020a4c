-- What kill finds. It looks for a pid in every slot of the table, and a slot that is UNUSED keeps
-- the pid and the killed flag that a creation left there when it failed. The loops that sleep test
-- proc->killed before they have ptable.lock, so that a kill can come in between.
import Xv6.PtableWaits

open runs

namespace xv6.ptable

open proc (Procstate Call)

/-! ## What a kill finds -/

/-- The slot that `kill` finds. -/
def Table.find (t : Table) (pid : Int) : Option Nat := first fun q => (t.procs q).pid = pid

/-- What `kill` returns. -/
def Table.killReturns (t : Table) (pid : Int) : Int := if (t.find pid).isSome then 0 else -1

/-- The slot that `allocproc` takes. -/
def Table.unused (t : Table) : Option Nat := first fun q => (t.procs q).state = .UNUSED

/-- The place of the process that goes on. -/
def Sys.at (s : Sys) : Act → Option Pc
  | .go c _ _ =>
    match s.cpu c with
    | .on p => some (s.pc p)
    | _ => none
  | _ => none

/-- The table, and whether `kill` was called with the pid of a slot since
`allocproc` took the slot. -/
structure Watched where
  sys : Sys
  told : Nat → Bool

namespace Watched

def tell (x : Watched) (a : Act) (q : Nat) : Bool :=
  match x.sys.at a with
  | some (.kill pid) => x.told q || (x.sys.tab.procs q).pid = pid
  | some (.alloc _) => x.told q && x.sys.tab.unused ≠ some q
  | _ => x.told q

def step (x : Watched) (a : Act) : Option Watched :=
  (ptable.step x.sys a).map fun s' => ⟨s', x.tell a⟩

def init : Watched := ⟨ptable.init, fun _ => false⟩

end Watched

/-- The action is not a call `kill(0)`, and no allocation fails in it. -/
def Act.plain : Act → Bool
  | .go _ ok _ => ok
  | .kill _ pid => pid ≠ 0
  | _ => true

/-- The process is on its way to a scan of `kill` for `pid`. -/
def Pc.aims (pid : Int) : Pc → Bool
  | .kill i => i = pid
  | .acquire x | .wakeup1 _ x | .yield x | .release x | .sched x | .off x => x.aims pid
  | _ => false

/-- An UNUSED slot has no pid and is not killed, and no process is in `kill(0)`. -/
structure Zeroed (s : Sys) : Prop where
  slot : ∀ q, (s.tab.procs q).state = .UNUSED →
    (s.tab.procs q).pid = 0 ∧ (s.tab.procs q).killed = false
  aim : ∀ p, (s.pc p).aims 0 = false

section Kill

variable {s s' : Sys} {t : Table} {x x' : Watched} {c p q : Nat} {y z : Pc} {a : Act} {pid : Int}

/-- Only `kill` sets the flag. -/
theorem Does.killed (hd : Does s p y t) (hq : (t.procs q).killed = true) :
    (s.tab.procs q).killed = true ∨ ∃ pid, s.pc p = .kill pid ∧ (s.tab.procs q).pid = pid := by
  cases hd with
  | orphan | wait => exact Or.inl hq
  | exit_pass _ => exact Or.inl (by rwa [(kin_pass s.tab p).procs q] at hq)
  | kill pid z hpc _ hz =>
    simp only [Table.kill, procs_set] at hq
    grind
  | _ =>
    simp only [Table.alloc, Table.stack, Table.abandon, Table.setPgdir, Table.adopt, Table.ready,
      Table.wakeup1, Table.zombie, Table.reap, Table.ret, Table.sleep, Table.tidy, Table.setState,
      procs_set] at hq
    grind

/-- A slot becomes UNUSED when a creation fails, or in `wait` and `join`. -/
theorem Does.unused (hd : Does s p y t) (hy : y ≠ .user) (hq : (t.procs q).state = .UNUSED) :
    (s.tab.procs q).state = .UNUSED ∧ (t.procs q).pid = (s.tab.procs q).pid ∨
      (t.procs q).pid = 0 ∧ (t.procs q).killed = false := by
  cases hd with
  | abandon => exact absurd rfl hy
  | orphan | wait | fail => exact Or.inl ⟨hq, rfl⟩
  | exit_pass _ =>
    rcases wakes_pass s.tab p q with he | ⟨_, he⟩
    · exact Or.inl ⟨he ▸ hq, by rw [(kin_pass s.tab p).procs q]⟩
    · rw [he] at hq
      cases hq
  | _ =>
    simp only [Table.alloc, Table.stack, Table.setPgdir, Table.adopt, Table.ready, Table.wakeup1,
      Table.zombie, Table.reap, Table.ret, Table.sleep, Table.tidy, Table.kill, Table.setState,
      procs_set] at hq ⊢
    grind

theorem kin_setState (t : Table) (i : Nat) (st : Procstate) : Kin t (t.setState i st) := by
  refine ⟨_, rfl, fun q => ?_⟩
  by_cases hq : q = i
  · subst hq
    rw [Function.update_self]
  · rw [Function.update_of_ne hq]

/-- What `scheduler` leaves alone. -/
theorem scheduler_keeps (hs : scheduler s c = some s') : Kin s.tab s'.tab ∧
    (∀ q st, (s'.tab.procs q).state = st → st ≠ .RUNNING → st ≠ .RUNNABLE →
      (s.tab.procs q).state = st) ∧
    ∀ q, s'.pc q = s.pc q ∨ s.pc q = .off (s'.pc q) := by
  unfold scheduler at hs
  split at hs
  · obtain ⟨_, hs⟩ := Option.ite_none_right_eq_some.mp hs
    exact Option.some.inj hs ▸ ⟨Kin.refl _, fun _ _ hq _ _ => hq, fun _ => Or.inl rfl⟩
  · split at hs
    · split at hs
      · refine Option.some.inj hs ▸ ⟨kin_setState .., fun q st hq hne _ => ?_, fun _ => Or.inl rfl⟩
        rw [state_setState] at hq
        split at hq
        · exact absurd hq.symm hne
        · exact hq
      · exact Option.some.inj hs ▸ ⟨Kin.refl _, fun _ _ hq _ _ => hq, fun _ => Or.inl rfl⟩
    · exact Option.some.inj hs ▸ ⟨Kin.refl _, fun _ _ hq _ _ => hq, fun _ => Or.inl rfl⟩
  · split at hs
    · rename_i p _ _ x hpc
      refine Option.some.inj hs ▸ ⟨Kin.refl _, fun _ _ hq _ _ => hq, fun q => ?_⟩
      simp only [Sys.move]
      by_cases hq : q = p
      · rw [hq, Function.update_self]
        exact Or.inr hpc
      · exact Or.inl (Function.update_of_ne hq ..)
    · cases hs
  · cases hs
  · exact Option.some.inj hs ▸ ⟨Kin.refl _, fun _ _ hq _ _ => hq, fun _ => Or.inl rfl⟩
  · rename_i chan _
    refine Option.some.inj hs ▸ ⟨kin_wakeup1 .., fun q st hq _ hne => ?_, fun _ => Or.inl rfl⟩
    rcases wakes_wakeup1 s.tab chan q with he | ⟨_, he⟩
    · exact he ▸ hq
    · exact absurd (hq.symm.trans he) hne

/-! ## The slots without a process -/

theorem zeroed_init : Zeroed init := by
  refine ⟨fun q hq => ?_, fun _ => rfl⟩
  simp only [init] at hq ⊢
  split at hq
  · cases hq
  · rename_i hne
    rw [if_neg hne]
    exact ⟨rfl, rfl⟩

theorem Zeroed.keep (h : Zeroed s) (hkin : Kin s.tab s'.tab)
    (hst : ∀ q, (s'.tab.procs q).state = .UNUSED → (s.tab.procs q).state = .UNUSED)
    (hpc : ∀ q, (s'.pc q).aims 0 = true → (s.pc q).aims 0 = true) : Zeroed s' := by
  refine ⟨fun q hq => ?_, fun q => ?_⟩
  · rw [hkin.procs q]
    exact h.slot q (hst q hq)
  · refine Bool.eq_false_iff.mpr fun ha => ?_
    cases (h.aim q).symm.trans (hpc q ha)

/-- A process moves to another place. -/
theorem Zeroed.place (h : Zeroed s) (ht : s'.tab = s.tab) (hpc : s'.pc = Function.update s.pc p y)
    (hy : y.aims 0 = false) : Zeroed s' := by
  refine ⟨by rw [ht]; exact h.slot, fun q => ?_⟩
  rw [hpc, Function.update_apply]
  split
  · exact hy
  · exact h.aim q

theorem Does.aims (hd : Does s p y t) (hp : (s.pc p).aims pid = false) : y.aims pid = false := by
  cases hd with
  | wakeup _ _ hpc | yield _ hpc =>
    rw [hpc] at hp
    exact hp
  | _ => rfl

theorem Zeroed.does (h : Zeroed s) (hd : Does s p y t) (hy : y ≠ .user) :
    Zeroed (s.move p t y) := by
  refine ⟨fun q hq => ?_, fun q => ?_⟩
  · rcases hd.unused hy hq with ⟨hun, hpid⟩ | hzero
    · obtain ⟨h0, hk⟩ := h.slot q hun
      refine ⟨hpid.trans h0, Bool.eq_false_iff.mpr fun hset => ?_⟩
      rcases hd.killed hset with hk' | ⟨pid, hpc, hq'⟩
      · rw [hk] at hk'
        cases hk'
      · -- that would be a `kill(0)`
        have haim := h.aim p
        rw [hpc, ← hq', h0] at haim
        cases haim
    · exact hzero
  · simp only [Sys.move, Function.update_apply]
    split
    · exact hd.aims (h.aim p)
    · exact h.aim q

/-- Where memory does not run out, no creation fails. -/
theorem go_ne_user {d : Nat} (hs : go s c p true d = some (s.move p t y)) (hd : Does s p y t) :
    y ≠ .user := by
  rintro rfl
  have hp : ∀ s', some s' = some (s.move p t .user) → s'.pc p = .user := by
    rintro s' hs
    rw [Option.some.inj hs]
    exact Function.update_self ..
  cases hd with
  | abandon k np hpc =>
    rcases hpc with hpc | hpc
    · simp only [go, hpc, if_true] at hs
      simpa [Sys.move] using hp _ hs
    · cases k <;> simp only [go, hpc, if_true] at hs <;> simpa [Sys.move] using hp _ hs

theorem Zeroed.step (hc : Cpus s) (h : Zeroed s) (ha : a.plain = true)
    (hs : ptable.step s a = some s') :
    Zeroed s' := by
  cases a with
  | cpu c =>
    obtain ⟨hkin, hst, hpc⟩ := scheduler_keeps hs
    refine h.keep hkin (fun q hq => hst q _ hq (by simp) (by simp)) fun q hq => ?_
    rcases hpc q with he | he
    · rwa [he] at hq
    · rwa [he]
  | irq c chan =>
    obtain ⟨_, hs⟩ := Option.ite_none_right_eq_some.mp hs
    exact Option.some.inj hs ▸ ⟨h.slot, h.aim⟩
  | create | reap | exit | sleep =>
    obtain ⟨_, _, _, _, rfl⟩ := call_eq hs
    exact h.place rfl rfl rfl
  | kill c pid =>
    obtain ⟨_, _, _, _, rfl⟩ := call_eq hs
    exact h.place rfl rfl (by simpa [Pc.aims, Act.plain] using ha)
  | wakeup | timer =>
    obtain ⟨p, _, _, rfl⟩ := hc.interrupted hs
    exact h.place rfl rfl (h.aim p)
  | go c ok d =>
    obtain rfl : ok = true := ha
    simp only [ptable.step] at hs
    split at hs
    · rename_i p hon
      have haim := h.aim p
      cases went hs with
      | acquire _ hpc | release _ hpc | swtch _ hpc =>
        rw [hpc] at haim
        exact h.place rfl rfl haim
      | full | unknown => exact h.place rfl rfl rfl
      | stack k np hpc =>
        have h1 := h.does (.stack k np hpc) (by simp)
        refine ⟨h1.slot, fun q => ?_⟩
        simp only [Sys.move, Function.update_apply]
        split
        · rfl
        · split
          · rfl
          · exact h.aim q
      | act y t hd => exact h.does hd (go_ne_user hs hd)
    · cases hs

/-- A step is one of a process in the kernel, or it changes states at most. -/
theorem at_cases (h : Cpus s) (hs : step s a = some s') : s.at a = none ∧ Kin s.tab s'.tab ∨
    ∃ c p, s.cpu c = .on p ∧ s.at a = some (s.pc p) ∧ Went s c p s' := by
  cases a with
  | cpu c => exact Or.inl ⟨rfl, (scheduler_keeps hs).1⟩
  | irq c chan =>
    obtain ⟨_, hs⟩ := Option.ite_none_right_eq_some.mp hs
    exact Option.some.inj hs ▸ Or.inl ⟨rfl, Kin.refl _⟩
  | go c ok d =>
    simp only [step] at hs
    split at hs
    · rename_i p hon
      exact Or.inr ⟨c, p, hon, by simp only [Sys.at, hon], went hs⟩
    · cases hs
  | create | reap | kill | exit | sleep =>
    obtain ⟨_, _, _, _, rfl⟩ := call_eq hs
    exact Or.inl ⟨rfl, Kin.refl _⟩
  | wakeup | timer =>
    obtain ⟨_, _, _, rfl⟩ := h.interrupted hs
    exact Or.inl ⟨rfl, Kin.refl _⟩

theorem step_kill (hs : step s a = some s') (ha : s.at a = some (.kill pid)) :
    (s.tab.find pid = none → s'.tab = s.tab) ∧
      ∀ q, s.tab.find pid = some q → s'.tab = s.tab.kill pid q := by
  cases a with
  | go c ok d =>
    simp only [step] at hs
    split at hs
    · rename_i p hon
      simp only [Sys.at, hon, Option.some.injEq] at ha
      simp only [go, ha, Option.some.injEq, kill] at hs
      subst hs
      refine ⟨fun h => ?_, fun q h => ?_⟩ <;> rw [Table.find] at h <;> rw [h] <;> rfl
    · cases hs
  | _ => cases ha

/-- Who is killed was told. -/
def Watched.Told (x : Watched) : Prop := ∀ q, (x.sys.tab.procs q).killed = true → x.told q = true

theorem Watched.Told.tell (hz : Zeroed x.sys) (h : x.Told)
    (hq : (x.sys.tab.procs q).killed = true) :
    x.tell a q = true := by
  have hold := h q hq
  unfold Watched.tell
  split
  · simp [hold]
  · have hne : x.sys.tab.unused ≠ some q := by
      intro hnp
      have hk := (hz.slot q (first_eq_some hnp).2).2
      rw [hq] at hk
      cases hk
    simp [hold, hne]
  · exact hold

theorem Watched.Told.step (hc : Cpus x.sys) (hz : Zeroed x.sys) (h : x.Told)
    (hs : x.step a = some x') :
    x'.Told := by
  obtain ⟨s', hstep, rfl⟩ := Option.map_eq_some_iff.mp hs
  intro q hq
  rcases at_cases hc hstep with ⟨_, hkin⟩ | ⟨c, p, hon, hat, hw⟩
  · rw [hkin.procs q] at hq
    exact h.tell hz hq
  · cases hw with
    | act y t hd =>
      rcases hd.killed hq with hq | ⟨pid, hpc, hpid⟩
      · exact h.tell hz hq
      · rw [hpc] at hat
        simp only [Watched.tell, hat, hpid, decide_true, Bool.or_true]
    | stack k np hpc =>
      simp only [Sys.move, Table.stack, procs_set] at hq
      refine h.tell hz ?_
      grind
    | _ => exact h.tell hz hq

theorem at_kill (hz : Zeroed s) (hat : s.at a = some (.kill pid)) : pid ≠ 0 := by
  rintro rfl
  cases a with
  | go c ok d =>
    simp only [Sys.at] at hat
    split at hat
    · rename_i p _
      have haim := hz.aim p
      rw [Option.some.inj hat] at haim
      cases haim
    · cases hat
  | _ => cases hat

end Kill

/-- What the action does is what it should. A `kill` returns 0 exactly if there is a process with
the pid, and changes no slot but the one of such a process; and a process that `fork` or `clone`
makes RUNNABLE is killed only if it was told. -/
def Watched.Exact (x : Watched) (a : Act) (s' : Sys) : Prop :=
  (∀ pid, x.sys.at a = some (.kill pid) →
    (x.sys.tab.killReturns pid = 0 ↔
      ∃ q < NPROC, (x.sys.tab.procs q).state ≠ .UNUSED ∧ (x.sys.tab.procs q).pid = pid) ∧
    ∀ q, s'.tab.procs q ≠ x.sys.tab.procs q → x.sys.tab.find pid = some q ∧
      (x.sys.tab.procs q).state ≠ .UNUSED ∧ (x.sys.tab.procs q).pid = pid) ∧
  ∀ k np, x.sys.at a = some (.ready k np) → (s'.tab.procs np).killed = true → x.told np = true

/-- Where nothing calls `kill(0)` and memory does not run out, kills are exact. -/
theorem kill_finds_the_process (as : List Act) (hplain : ∀ a ∈ as, a.plain = true) (x : Watched)
    (hrun : run Watched.step Watched.init as = some x) (a : Act) (x' : Watched)
    (hs : x.step a = some x') : x.Exact a x'.sys := by
  obtain ⟨hc, hz, htold⟩ : Cpus x.sys ∧ Zeroed x.sys ∧ x.Told := by
    refine inv_of_along (I := fun x => Cpus x.sys ∧ Zeroed x.sys ∧
      x.Told) (fun x a x' h ha hs => ?_)
      ⟨cpus_init, zeroed_init, fun q hq => ?_⟩ (along_of_forall hplain) hrun
    · obtain ⟨s', hstep, rfl⟩ := Option.map_eq_some_iff.mp hs
      exact ⟨(cpus_step h.1 hstep).1, h.2.1.step h.1 ha hstep, h.2.2.step h.1 h.2.1 hs⟩
    · simp only [Watched.init, init] at hq
      split at hq <;> cases hq
  refine ⟨fun pid hat => ?_, fun k np hat hk => ?_⟩
  · obtain ⟨s', hstep, rfl⟩ := Option.map_eq_some_iff.mp hs
    obtain ⟨hnone, hsome⟩ := step_kill hstep hat
    unfold Table.killReturns
    cases hfind : x.sys.tab.find pid with
    | none =>
      refine ⟨iff_of_false (by simp) ?_, fun q hq => absurd (by rw [hnone hfind]) hq⟩
      rintro ⟨q, hlt, _, hpid⟩
      exact first_eq_none hfind q hlt hpid
    | some r =>
      obtain ⟨hlt, hpid⟩ := first_eq_some hfind
      have hused : (x.sys.tab.procs r).state ≠ .UNUSED := fun hun =>
        at_kill hz hat (hpid.symm.trans (hz.slot r hun).1)
      refine ⟨iff_of_true rfl ⟨r, hlt, hused, hpid⟩, fun q hq => ?_⟩
      obtain rfl : q = r := by
        by_contra hne
        simp only [hsome r hfind, Table.kill, procs_set, if_neg hne] at hq
        exact hq rfl
      exact ⟨rfl, hused, hpid⟩
  · have hnew := htold.step hc hz hs np hk
    obtain ⟨s', _, rfl⟩ := Option.map_eq_some_iff.mp hs
    simpa only [Watched.tell, hat] using hnew

/-- Init runs on CPU 0. -/
def boot : List Act := [.cpu 0, .cpu 0, .cpu 0] ++ gos 0 1

/-- Init makes a process and calls `kill` with its pid. -/
theorem init_kills_its_child :
    ∃ x x', run Watched.step Watched.init
      (boot ++ .create 0 .fork :: gos 0 9 ++ .kill 0 2 :: gos 0 1) = some x ∧
      x.step (.go 0 true 7) = some x' ∧ x.sys.at (.go 0 true 7) = some (.kill 2) ∧
      (x'.sys.tab.procs 1).killed = true ∧ x.Exact (.go 0 true 7) x'.sys := by
  let as : List Act := boot ++ .create 0 .fork :: gos 0 9 ++ .kill 0 2 :: gos 0 1
  have hplain : ∀ a ∈ as, a.plain = true := by decide +kernel
  have hrun : ((run Watched.step Watched.init as).any fun x =>
      decide (x.sys.at (.go 0 true 7) = some (.kill 2)) && (x.step (.go 0 true 7)).any fun x' =>
        (x'.sys.tab.procs 1).killed) = true := by decide +kernel
  obtain ⟨x, hx, hend⟩ := (Option.any_eq_true _ _).mp hrun
  simp only [Bool.and_eq_true, decide_eq_true_eq] at hend
  obtain ⟨hat, hend⟩ := hend
  obtain ⟨x', hs, hk⟩ := (Option.any_eq_true _ _).mp hend
  exact ⟨x, x', hx, hs, hat, hk, kill_finds_the_process as hplain x hx _ x' hs⟩

/-- `kill(0)` finds a slot without a process, and the child that the slot is for is killed when it
becomes RUNNABLE. -/
theorem the_child_is_killed_before_it_is_made :
    ∃ x x', run Watched.step Watched.init
      (boot ++ .kill 0 0 :: gos 0 3 ++ .create 0 .fork :: gos 0 7) = some x ∧
      x.step (.go 0 true 7) = some x' ∧ ¬ x.Exact (.go 0 true 7) x'.sys := by
  have hrun : ((run Watched.step Watched.init
      (boot ++ .kill 0 0 :: gos 0 3 ++ .create 0 .fork :: gos 0 7)).any fun x =>
      (decide (x.sys.at (.go 0 true 7) = some (.ready .fork 1)) && !x.told 1) &&
        (x.step (.go 0 true 7)).any fun x' => (x'.sys.tab.procs 1).killed) =
        true := by decide +kernel
  obtain ⟨x, hx, hend⟩ := (Option.any_eq_true _ _).mp hrun
  simp only [Bool.and_eq_true, decide_eq_true_eq, Bool.not_eq_true'] at hend
  obtain ⟨⟨hat, htold⟩, hend⟩ := hend
  obtain ⟨x', hs, hk⟩ := (Option.any_eq_true _ _).mp hend
  refine ⟨x, x', hx, hs, fun hexact => ?_⟩
  rw [hexact.2 .fork 1 hat hk] at htold
  cases htold

/-! ## Kills and sleep -/

/-- A call of `sleep` in one of the loops is ahead: on a channel of `dev`, or in
`wait` or `join`. -/
def Pc.ahead (dev : Nat → Bool) : Pc → Bool
  | .sleep none chan => dev chan
  | .sleep (some _) _ => true
  | .acquire x | .wakeup1 _ x | .yield x | .release x | .sched x | .off x => x.ahead dev
  | _ => false

/-- The steps, where piperead, pipewrite and consoleread sleep on the channels of `dev`: they return
before they call `sleep` if the process is killed. The `wakeup` of pipewrite, after its test and
before `sleep`, is a `.wakeup` at the `acquire` of `sleep`. -/
def loops (dev : Nat → Bool) (s : Sys) : Act → Option Sys
  | .sleep c chan => s.call c (.sleep none chan) fun p => !dev chan || s.alive p
  | a => step s a

/-- Process `p` sleeps in one of the loops. -/
def Sys.Naps (s : Sys) (dev : Nat → Bool) (p : Nat) : Prop :=
  (s.tab.procs p).state = .SLEEPING ∧
    ((∃ chan, (s.tab.procs p).chan = some chan ∧ dev chan = true) ∨ ∃ r, (s.pc p).call = some r)

/-- `kill` finds no process that has tested `proc->killed` and waits for
`ptable.lock` in `sleep`. -/
def Careful (dev : Nat → Bool) (s : Sys) (a : Act) : Bool :=
  match s.at a with
  | some (.kill pid) => (s.tab.find pid).all fun q => (s.pc q).locked || !(s.pc q).ahead dev
  | _ => true

/-- Who is killed is not asleep in a loop, and not about to be. -/
def Heeds (dev : Nat → Bool) (s : Sys) : Prop :=
  ∀ p, (s.tab.procs p).killed = true → (s.pc p).ahead dev = false ∧ ¬ s.Naps dev p

section Heeds

variable {dev : Nat → Bool} {s s' : Sys} {t : Table} {c p q : Nat} {x y : Pc} {a : Act}

theorem step_of_loops (hs : loops dev s a = some s') : step s a = some s' := by
  cases a with
  | sleep c chan =>
    obtain ⟨p, hon, hpc, _, rfl⟩ := call_eq hs
    simp only [step, Sys.call, hon]
    exact if_pos ⟨hpc, trivial⟩
  | _ => exact hs

/-- Only `wait` and `join` go on to `sleep` with the lock. -/
theorem Does.ahead (hd : Does s p x t) (hx : x.ahead dev = true) :
    (s.pc p).ahead dev = true ∨ ∃ r, s.pc p = .scan r ∧ x = .sleep (some r) p := by
  cases hd with
  | wakeup chan b hpc | yield b hpc => exact Or.inl (hpc ▸ hx)
  | wait r hpc _ => exact Or.inr ⟨r, hpc, rfl⟩
  | _ => cases hx

theorem Does.chan (hd : Does s p x t) (hq : q ≠ p) : (t.procs q).chan = (s.tab.procs q).chan := by
  cases hd with
  | orphan | wait | fail => rfl
  | exit_pass _ => exact ((kin_pass s.tab p).chan q).1
  | _ =>
    simp only [Table.alloc, Table.stack, Table.abandon, Table.setPgdir, Table.adopt, Table.ready,
      Table.wakeup1, Table.zombie, Table.reap, Table.ret, Table.sleep, Table.tidy, Table.kill,
      Table.setState, procs_set]
    grind

/-- A scan of a killed process does not lead to `sleep`. -/
theorem scan_killed {r : Call} (hk : (s.tab.procs p).killed = true) :
    ((scan s p r).pc p).ahead dev = false := by
  unfold scan
  split
  · simp only [Sys.move, Function.update_self]
    rfl
  · rw [if_pos (Or.inr hk)]
    simp only [Sys.move, Function.update_self]
    rfl

/-- Places and states change so that no call of `sleep` comes nearer. -/
theorem Heeds.keep (h : Heeds dev s)
    (hk : ∀ q, (s'.tab.procs q).killed = true → (s.tab.procs q).killed = true)
    (hst : ∀ q, (s'.tab.procs q).state = .SLEEPING → (s.tab.procs q).state = .SLEEPING ∧
      (s'.tab.procs q).chan = (s.tab.procs q).chan ∧ (s'.pc q).call = (s.pc q).call)
    (hpc : ∀ q, (s.tab.procs q).killed = true → (s'.pc q).ahead dev = true →
      (s.pc q).ahead dev = true) :
    Heeds dev s' := by
  intro q hq
  obtain ⟨hahead, hnap⟩ := h q (hk q hq)
  refine ⟨Bool.eq_false_iff.mpr fun ha => ?_, fun hn => hnap ?_⟩
  · rw [hpc q (hk q hq) ha] at hahead
    cases hahead
  · obtain ⟨h1, h2, h3⟩ := hst q hn.1
    exact ⟨h1, by rw [← h2, ← h3]; exact hn.2⟩

/-- A process moves to another place. -/
theorem Heeds.place (h : Heeds dev s) (ht : s'.tab = s.tab) (hpc : s'.pc = Function.update s.pc p x)
    (hcall : (s.tab.procs p).state = .SLEEPING → x.call = (s.pc p).call)
    (hahead : (s.tab.procs p).killed = true → x.ahead dev = true → (s.pc p).ahead dev = true) :
    Heeds dev s' := by
  refine h.keep (fun q hq => ht ▸ hq) (fun q hq => ?_) (fun q hk ha => ?_)
  · rw [ht] at hq ⊢
    refine ⟨hq, rfl, ?_⟩
    rw [hpc]
    by_cases hqp : q = p
    · subst hqp
      rw [Function.update_self]
      exact hcall hq
    · rw [Function.update_of_ne hqp]
  · rw [hpc] at ha
    by_cases hqp : q = p
    · subst hqp
      rw [Function.update_self] at ha
      exact hahead hk ha
    · rwa [Function.update_of_ne hqp] at ha

theorem Heeds.call (hc : Cpus s) (h : Heeds dev s) {ok : Nat → Bool} (hs : s.call c x ok = some s')
    (hx : ∀ p, ok p = true → (s.tab.procs p).killed = true → x.ahead dev = false) :
    Heeds dev s' := by
  obtain ⟨p, hon, hpc, hok, rfl⟩ := call_eq hs
  refine h.place rfl rfl (fun hst => ?_) fun hk ha => ?_
  · have hrun := hc.stands hon
    rw [hpc, hst] at hrun
    cases hrun
  · rw [show (Pc.acquire x).ahead dev = x.ahead dev from rfl, hx p hok hk] at ha
    cases ha

theorem Heeds.does (hc : Cpus s) (h : Heeds dev s) (hon : s.cpu c = .on p) (hd : Does s p x t)
    (hk : ∀ q, (t.procs q).killed = true → (s.tab.procs q).killed = true)
    (hx : (s.tab.procs p).killed = true → ∀ r, s.pc p = .scan r → x.ahead dev = false) :
    Heeds dev (s.move p t x) := by
  have hrun := hd.running (hc.stands hon)
  have hother : ∀ q, q ≠ p → (s.move p t x).pc q = s.pc q := fun q hq => Function.update_of_ne hq ..
  have hself : (s.move p t x).pc p = x := Function.update_self ..
  intro q hq
  obtain ⟨hahead, hnap⟩ := h q (hk q hq)
  by_cases hqp : q = p
  · subst hqp
    rw [hself]
    refine ⟨Bool.eq_false_iff.mpr fun ha => ?_, fun hn => ?_⟩
    · rcases hd.ahead ha with ha' | ⟨r, hr, _⟩
      · rw [ha'] at hahead
        cases hahead
      · rw [hx (hk q hq) r hr] at ha
        cases ha
    · obtain ⟨hst, hin⟩ := hn
      rw [hself] at hin
      rcases hd.sleeps hst with hs | ⟨_, r, hr⟩
      · rw [hrun] at hs
        cases hs
      · cases hd with
        | sleep r chan hpc =>
          rw [hpc] at hahead
          cases r with
          | none =>
            rcases hin with ⟨chan', hchan, hdev⟩ | ⟨r, hr⟩
            · simp only [Sys.move, Table.sleep, procs_set, if_true, Option.some.injEq] at hchan
              rw [← hchan, show dev chan = false from hahead] at hdev
              cases hdev
            · cases hr
          | some r => cases hahead
        | _ => cases hr
  · rw [hother q hqp]
    refine ⟨hahead, fun hn => hnap ⟨?_, ?_⟩⟩
    · exact (hd.sleeps hn.1).resolve_right fun he => hqp he.1
    · rw [← hd.chan hqp, ← hother q hqp]
      exact hn.2

/-- The loop of `kill`. -/
theorem Heeds.kill (hc : Cpus s) (hw : Waits s) (h : Heeds dev s)
    (hon : s.cpu c = .on p) {pid : Int} (hpc : s.pc p = .kill pid)
    (hcare : ∀ q, s.tab.find pid = some q → (s.pc q).locked = true ∨ (s.pc q).ahead dev = false) :
    Heeds dev (kill s p pid) := by
  unfold ptable.kill
  split
  · exact h.place rfl rfl (fun _ => by rw [hpc]; rfl) fun _ ha => by cases ha
  · rename_i z hz
    have hrun := hc.stands hon
    rw [hpc] at hrun
    intro q hq
    have hself : (s.move p (s.tab.kill pid z) (.release .user)).pc p = .release .user :=
      Function.update_self ..
    by_cases hqp : q = p
    · subst hqp
      refine ⟨by rw [hself]; rfl, fun hn => ?_⟩
      rcases wakes_kill s.tab pid z q with he | ⟨he, _⟩
      · exact absurd (he.symm.trans hn.1) (by rw [show _ = Procstate.RUNNING from hrun]; simp)
      · rw [show _ = Procstate.RUNNING from hrun] at he
        cases he
    · have hother : (s.move p (s.tab.kill pid z) (.release .user)).pc q = s.pc q :=
        Function.update_of_ne hqp ..
      by_cases hqz : q = z
      · -- the process that is found is not asleep then, and it had not tested its flag
        subst hqz
        refine ⟨?_, fun hn => ?_⟩
        · rw [hother]
          refine (hcare q hz).resolve_left fun hl => hqp (hw.alone hc hl ?_)
          rw [hpc]
          rfl
        · have hst := hn.1
          simp only [Sys.move, Table.kill, procs_set, if_true] at hst
          split at hst
          · cases hst
          · contradiction
      · have hslot : (s.tab.kill pid z).procs q = s.tab.procs q := by
          simp only [Table.kill, procs_set, if_neg hqz]
        have hold := h q (hslot ▸ hq)
        rw [hother]
        refine ⟨hold.1, fun hn => hold.2 ?_⟩
        unfold Sys.Naps at hn ⊢
        rw [hother] at hn
        exact hslot ▸ hn

theorem Heeds.step (hc : Cpus s) (hw : Waits s) (h : Heeds dev s) (ha : Careful dev s a = true)
    (hs : loops dev s a = some s') : Heeds dev s' := by
  cases a with
  | cpu c =>
    obtain ⟨hkin, hst, hpc⟩ := scheduler_keeps hs
    refine h.keep (fun q hq => by rwa [hkin.procs q] at hq)
      (fun q hq => ⟨hst q _ hq (by simp) (by simp), (hkin.chan q).1, ?_⟩) (fun q _ hq => ?_)
    · rcases hpc q with he | he <;> rw [he]
      rfl
    · rcases hpc q with he | he
      · rwa [he] at hq
      · rw [he]
        exact hq
  | irq c chan =>
    obtain ⟨_, hs⟩ := Option.ite_none_right_eq_some.mp hs
    exact Option.some.inj hs ▸ h
  | create | reap | kill | exit => exact h.call hc hs fun _ _ _ => rfl
  | sleep c chan =>
    refine h.call hc hs fun p hok hk => ?_
    change dev chan = false
    simpa [Sys.alive, hk] using hok
  | wakeup | timer =>
    obtain ⟨p, hon, hplain, rfl⟩ := hc.interrupted hs
    exact h.place rfl rfl (fun _ => rfl) fun _ => id
  | go c ok d =>
    simp only [loops, ptable.step] at hs
    split at hs
    · rename_i p hon
      by_cases hkill : ∃ pid, s.pc p = .kill pid
      · obtain ⟨pid, hpc⟩ := hkill
        simp only [go, hpc, Option.some.injEq] at hs
        subst hs
        refine h.kill hc hw hon hpc fun q hq => ?_
        simpa [Careful, Sys.at, hon, hpc, hq] using ha
      · cases went hs with
        | acquire x hpc | release x hpc | swtch x hpc =>
          exact h.place rfl rfl (fun _ => by rw [hpc]; rfl) fun _ ha => by rw [hpc]; exact ha
        | full k hpc => exact h.place rfl rfl (fun _ => by rw [hpc]; rfl) fun _ ha => by cases ha
        | unknown pid hpc => exact absurd ⟨pid, hpc⟩ hkill
        | stack k np hpc =>
          have hst := hc.embryo p np (by rw [hpc]; rfl)
          have hne : p ≠ np := by
            rintro rfl
            have hrun := hc.stands hon
            rw [hpc, hst] at hrun
            cases hrun
          have hd : Does s p _ _ := .stack k np hpc
          have h1 := h.does hc hon hd
            (fun q hq => (hd.killed hq).resolve_right fun hp => hkill (hp.imp fun _ hp => hp.1))
            fun _ r hr => by rw [hpc] at hr; cases hr
          refine h1.place (p := np) rfl (Function.update_comm hne ..).symm (fun hs => ?_)
            fun _ ha => by cases ha
          cases hs.symm.trans ((state_stack s.tab np np).trans hst)
        | act x t hd =>
          refine h.does hc hon hd (fun q hq => ?_) fun hk r hpc => ?_
          · exact (hd.killed hq).resolve_right fun hp => hkill (hp.imp fun _ hp => hp.1)
          · simp only [go, hpc, Option.some.injEq] at hs
            have hx : ((scan s p r).pc p).ahead dev = false := scan_killed hk
            rw [hs] at hx
            simpa only [Sys.move, Function.update_self] using hx
    · cases hs

end Heeds

/-- A process that is killed does not sleep in piperead, pipewrite, consoleread, `wait` or
`join`, as long as no `kill` comes between a test of `proc->killed` in the first three and
their call of `sleep`. -/
theorem no_kill_is_slept_through (dev : Nat → Bool) (as : List Act) (s : Sys)
    (hrun : run (loops dev) init as = some s)
    (hcare : Along (loops dev) (fun s a => Careful dev s a = true) init as) (p : Nat)
    (hk : (s.tab.procs p).killed = true) : ¬ s.Naps dev p := by
  have h : (∃ bs, run step init bs = some s) ∧ Heeds dev s := by
    refine inv_of_along (I := fun s => (∃ bs, run step init bs = some s) ∧ Heeds dev s)
      (fun s a s' h ha hs => ?_) ⟨⟨[], rfl⟩, fun p hp => ?_⟩ hcare hrun
    · obtain ⟨⟨bs, hbs⟩, h⟩ := h
      exact ⟨⟨bs ++ [a], run_snoc.mpr ⟨s, hbs, step_of_loops hs⟩⟩,
        h.step (cpus_run hbs) (waits_run hbs) ha hs⟩
    · simp only [init] at hp
      split at hp <;> cases hp
  exact (h.2 p hk).2

/-- Channel 9 is that of a pipe. -/
def pipeChan (chan : Nat) : Bool := chan = 9

/-- Init makes a child and goes on to `kill`; the child, on CPU 1, finds its pipe empty. -/
def childReads : List Act :=
  boot ++ .create 0 .fork :: gos 0 9 ++ List.replicate 4 (.cpu 1) ++ gos 1 1 ++ [.sleep 1 9]

/-- The child falls asleep before it is killed, and it is woken. -/
theorem the_sleeping_child_is_woken :
    ∃ s, run (loops pipeChan) init (childReads ++ gos 1 3 ++ List.replicate 64 (.cpu 1) ++
        .kill 0 2 :: gos 0 3) = some s ∧ (s.tab.procs 1).killed = true ∧ ¬ s.Naps pipeChan 1 := by
  let as : List Act := childReads ++ gos 1 3 ++ List.replicate 64 (.cpu 1) ++ .kill 0 2 :: gos 0 3
  have hcare : Along (loops pipeChan) (fun s a => Careful pipeChan s a = true) init as := by
    decide +kernel
  have hrun : ((run (loops pipeChan) init as).any fun s => (s.tab.procs 1).killed) = true := by
    decide +kernel
  obtain ⟨s, hs, hk⟩ := (Option.any_eq_true _ _).mp hrun
  exact ⟨s, hs, hk, no_kill_is_slept_through pipeChan as s hs hcare 1 hk⟩

/-- The kill comes after the test and before the sleep. -/
theorem the_killed_child_sleeps :
    ∃ s, run (loops pipeChan) init (childReads ++ .kill 0 2 :: gos 0 3 ++ gos 1 3 ++
        List.replicate 64 (.cpu 1)) = some s ∧
      s.lock = none ∧ (s.tab.procs 1).killed = true ∧ s.Naps pipeChan 1 := by
  have hrun : ((run (loops pipeChan) init (childReads ++ .kill 0 2 :: gos 0 3 ++ gos 1 3 ++
      List.replicate 64 (.cpu 1))).any fun s => decide (s.lock = none ∧
        (s.tab.procs 1).killed = true ∧ (s.tab.procs 1).state = .SLEEPING ∧
        (s.tab.procs 1).chan = some 9)) = true := by decide +kernel
  obtain ⟨s, hs, hend⟩ := (Option.any_eq_true _ _).mp hrun
  obtain ⟨h1, h2, h3, h4⟩ := of_decide_eq_true hend
  exact ⟨s, hs, h1, h2, h3, Or.inl ⟨9, h4, rfl⟩⟩

end xv6.ptable
