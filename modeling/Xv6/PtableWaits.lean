-- No exit is missed: a process that sleeps in wait or join has no ZOMBIE child to reap, because
-- exit wakes the parent under the same lock that wait and join hold from their scan to their sleep,
-- and because init is woken for the ZOMBIE children that pass to it.
import Xv6.PtableTree

open runs

namespace xv6.ptable

open proc (Procstate Call)

/-! ## The invariant -/

/-- The `wait` or `join` that a process is in. -/
def Pc.call : Pc → Option Call
  | .scan r => some r
  | .sleep r _ | .tidy r => r
  | .acquire x | .wakeup1 _ x | .yield x | .release x | .sched x | .off x => x.call
  | _ => none

/-- There is nothing to reap for a `wait` or `join` of `p`. -/
def Table.Reaped (t : Table) (p : Nat) (r : Call) : Prop :=
  ∀ q, t.child p r q → (t.procs q).state ≠ .ZOMBIE

/-- Process `p` sleeps on its own channel, as `wait` and `join` do. -/
def Table.Naps (t : Table) (p : Nat) : Prop :=
  (t.procs p).state = .SLEEPING ∧ (t.procs p).chan = some p

/-- What the table has for process `p` at a place of `wait`, `join` or `exit`. -/
def Table.Watch (t : Table) (p : Nat) : Pc → Prop
  | .sched (.tidy (some r)) | .off (.tidy (some r)) =>
    (t.procs p).chan = some p ∧ ((t.procs p).state = .SLEEPING → t.Reaped p r)
  | .sleep (some r) chan => chan = p ∧ t.Reaped p r
  | .exit_pass | .exit_zombie => ∀ q, (t.procs p).parent = some q → ¬ t.Naps q
  | _ => True

structure Waits (s : Sys) : Prop where
  away : ∀ p, (∃ x, s.pc p = .off x) ∨ ∃ c, s.cpu c = .on p
  asleep : ∀ p, (s.tab.procs p).state = .SLEEPING →
    ∃ r, s.pc p = .sched (.tidy r) ∨ s.pc p = .off (.tidy r)
  watch : ∀ p, s.tab.Watch p (s.pc p)

theorem waits_init : Waits init := by
  refine ⟨fun p => Or.inl ⟨_, rfl⟩, fun p hp => ?_, fun p => trivial⟩
  simp only [init] at hp
  split at hp <;> cases hp

section Waits

variable {s s' : Sys} {t t' : Table} {c p q r np : Nat} {x y : Pc} {k : Call}

/-! ## Who has the lock -/

theorem Waits.on (h : Waits s) (hl : (s.pc p).locked = true) : ∃ c, s.cpu c = .on p := by
  rcases h.away p with ⟨x, hx⟩ | hc
  · rw [hx] at hl
    cases hl
  · exact hc

/-- One process at most is at a place with the lock. -/
theorem Waits.alone (hc : Cpus s) (h : Waits s) (hp : (s.pc p).locked = true)
    (hq : (s.pc q).locked = true) : p = q := by
  obtain ⟨c, hcp⟩ := h.on hp
  obtain ⟨c', hcq⟩ := h.on hq
  have h1 := hc.locked hcp hp
  have h2 := hc.locked hcq hq
  obtain rfl : c = c' := Option.some.inj (h1.symm.trans h2)
  rw [hcp] at hcq
  exact Cpu.on.inj hcq

/-! ## Changes of the table -/

/-- A process without the lock watches only while it sleeps. -/
theorem Table.Watch.nap (h : t.Watch p x) (hl : x.locked = false)
    (hchan : (t'.procs p).chan = (t.procs p).chan)
    (hreap : ∀ k, (t.procs p).chan = some p → ((t.procs p).state = .SLEEPING → t.Reaped p k) →
      (t'.procs p).state = .SLEEPING → t'.Reaped p k) : t'.Watch p x := by
  cases x with
  | off y =>
    cases y with
    | tidy r =>
      cases r with
      | some k =>
        refine ⟨hchan.trans h.1, fun hs => hreap k h.1 h.2 hs⟩
      | none => trivial
    | _ => trivial
  | user | stack | copy | adopt | acquire => trivial
  | _ => cases hl

/-- No process falls asleep and none dies, and who is a ZOMBIE has the same parent and the same
page directory, as a process that sleeps has. -/
structure Calm (t t' : Table) : Prop where
  sleeping : ∀ q, (t'.procs q).state = .SLEEPING →
    (t.procs q).state = .SLEEPING ∧ (t'.procs q).pgdir = (t.procs q).pgdir
  zombie : ∀ q, (t'.procs q).state = .ZOMBIE → (t.procs q).state = .ZOMBIE ∧
    (t'.procs q).parent = (t.procs q).parent ∧ (t'.procs q).pgdir = (t.procs q).pgdir

theorem Calm.reaped (h : Calm t t') (hp : (t'.procs p).pgdir = (t.procs p).pgdir)
    (hr : t.Reaped p k) : t'.Reaped p k := by
  intro q hq hz
  obtain ⟨h1, h2, h3⟩ := h.zombie q hz
  refine hr q ⟨h2 ▸ hq.1, fun hj => ?_⟩ h1
  rw [← h3, hq.2 hj, hp]

theorem Calm.nap (hcalm : Calm t t') (h : t.Watch p x) (hl : x.locked = false)
    (hchan : (t'.procs p).chan = (t.procs p).chan) : t'.Watch p x :=
  h.nap hl hchan fun _ _ hr hs =>
    hcalm.reaped (hcalm.sleeping p hs).2 (hr (hcalm.sleeping p hs).1)

/-- Who keeps parent and page directory goes on watching. -/
theorem Calm.watch (hcalm : Calm t t') (h : t.Watch p x)
    (hchan : ∀ q, (t'.procs q).chan = (t.procs q).chan)
    (hl : x.locked = true → (t'.procs p).pgdir = (t.procs p).pgdir ∧
      (t'.procs p).parent = (t.procs p).parent) : t'.Watch p x := by
  have hnaps : ∀ q, t'.Naps q → t.Naps q := fun q hq =>
    ⟨(hcalm.sleeping q hq.1).1, hchan q ▸ hq.2⟩
  cases x with
  | exit_pass | exit_zombie =>
    intro q hq hn
    exact h q ((hl rfl).2 ▸ hq) (hnaps q hn)
  | sleep r chan =>
    cases r with
    | some k => exact ⟨h.1, hcalm.reaped (hl rfl).1 h.2⟩
    | none => trivial
  | sched y =>
    cases y with
    | tidy r =>
      cases r with
      | some k =>
        refine ⟨(hchan p).trans h.1, fun hs => ?_⟩
        exact hcalm.reaped (hl rfl).1 (h.2 (hcalm.sleeping p hs).1)
      | none => trivial
    | _ => trivial
  | off y => exact hcalm.nap h rfl (hchan p)
  | _ => trivial

/-- A slot changes and holds no sleeper and no ZOMBIE then. -/
theorem calm_slot (z : Nat) (hset : ∀ q, q ≠ z → t'.procs q = t.procs q)
    (h1 : (t'.procs z).state ≠ .SLEEPING) (h2 : (t'.procs z).state ≠ .ZOMBIE) : Calm t t' := by
  refine ⟨fun q hq => ?_, fun q hq => ?_⟩ <;> by_cases hqz : q = z
  · exact absurd (hqz ▸ hq) h1
  · grind
  · exact absurd (hqz ▸ hq) h2
  · grind

theorem chan_slot (z : Nat) (hset : ∀ q, q ≠ z → t'.procs q = t.procs q)
    (hz : (t'.procs z).chan = (t.procs z).chan) (q : Nat) :
    (t'.procs q).chan = (t.procs q).chan := by
  by_cases hqz : q = z
  · rw [hqz, hz]
  · rw [hset q hqz]

theorem calm_wakeup1 (t : Table) (chan : Nat) : Calm t (t.wakeup1 chan) := by
  refine ⟨fun q hq => ?_, fun q hq => ?_⟩ <;> simp only [Table.wakeup1] at hq ⊢ <;> split at hq
  · cases hq
  · grind
  · cases hq
  · grind

theorem chan_wakeup1 (t : Table) (chan q : Nat) :
    ((t.wakeup1 chan).procs q).chan = (t.procs q).chan := by
  simp only [Table.wakeup1]
  split <;> rfl

theorem calm_kill (t : Table) (pid : Int) (q : Nat) : Calm t (t.kill pid q) := by
  refine ⟨fun q' hq => ?_, fun q' hq => ?_⟩ <;> simp only [Table.kill, procs_set] at hq ⊢ <;>
    by_cases hqq : q' = q
  · grind
  · grind
  · grind
  · grind

theorem chan_kill (t : Table) (pid : Int) (q q' : Nat) :
    ((t.kill pid q).procs q').chan = (t.procs q').chan := by
  simp only [Table.kill, procs_set]
  split
  · rename_i hq
    rw [hq]
  · rfl

theorem procs_tidy_ne (t : Table) (hq : q ≠ p) : (t.tidy p).procs q = t.procs q := by
  simp only [Table.tidy, procs_set, if_neg hq]

theorem procs_tidy (t : Table) (p : Nat) :
    (t.tidy p).procs p = { t.procs p with chan := none } := by
  simp only [Table.tidy, procs_set, if_pos]

theorem not_naps_wakeup1 (t : Table) (q : Nat) : ¬ (t.wakeup1 q).Naps q := by
  rintro ⟨h1, h2⟩
  rw [chan_wakeup1] at h2
  simp only [Table.wakeup1] at h1
  split at h1
  · cases h1
  · grind

theorem Kin.chan (h : Kin t t') (q : Nat) :
    (t'.procs q).chan = (t.procs q).chan ∧ (t'.procs q).pgdir = (t.procs q).pgdir := by
  rw [h.procs q]
  exact ⟨rfl, rfl⟩

/-- Init is woken for a ZOMBIE that passes to it. -/
theorem not_naps_pass (hq : q < NPROC) (hp : (t.procs q).parent = some p)
    (hz : (t.procs q).state = .ZOMBIE) : ¬ (t.pass p).Naps initproc := by
  have hkeep : ∀ (l : List Nat) (t : Table), ¬ t.Naps initproc →
      ¬ (l.foldl (Table.passTurn p) t).Naps initproc := by
    intro l
    induction l with
    | nil => exact fun _ h => h
    | cons z l ih =>
      intro t h
      refine ih _ fun hn => h ⟨?_, ?_⟩
      · rcases wakes_passTurn p t z initproc with he | ⟨_, he⟩
        · exact he ▸ hn.1
        · omega
      · exact ((kin_passTurn p t z).chan initproc).1 ▸ hn.2
  have hlist : ∀ (l : List Nat) (t : Table), q ∈ l → (t.procs q).parent = some p →
      (t.procs q).state = .ZOMBIE → ¬ (l.foldl (Table.passTurn p) t).Naps initproc := by
    intro l
    induction l with
    | nil => nofun
    | cons z l ih =>
      intro t hmem hp hz
      rw [List.foldl_cons]
      by_cases hqz : q = z
      · -- the turn of `q`
        subst hqz
        refine hkeep l _ ?_
        have hzombie : ((t.set q fun r => { r with parent := some initproc }).procs q).state =
            .ZOMBIE := by
          rw [procs_set, if_pos rfl, hz]
        unfold Table.passTurn
        simp only [if_pos hp, if_pos hzombie]
        exact not_naps_wakeup1 _ _
      · refine ih _ ((List.mem_cons.mp hmem).resolve_left hqz) ?_ ?_
        · rw [parent_passTurn, if_neg fun hc => hqz hc.1, hp]
        · rcases wakes_passTurn p t z q with he | ⟨he, _⟩
          · rw [he, hz]
          · rw [hz] at he
            cases he
  exact hlist _ t (List.mem_range.mpr hq) hp hz

/-! ## Steps -/

theorem Moves.watch (hfits : x.Fits) (h : Moves x y) (hw : t.Watch p x) : t.Watch p y := by
  cases h with
  | acquire =>
    cases y with
    | sleep r chan =>
      cases r with
      | some k => cases hfits.1
      | none => trivial
    | exit_pass | exit_zombie | sched | off => cases hfits.1
    | _ => trivial
  | release | enter =>
    cases y with
    | sleep r chan => cases hfits.1
    | exit_pass | exit_zombie | sched | off => cases hfits.1
    | _ => trivial
  | swtch z =>
    cases z with
    | tidy r => cases r <;> exact hw
    | _ => trivial
  | timer | wakeup | full | unknown => trivial

/-- What a process does keeps what the places need. -/
theorem Does.watch (hc : Cpus s) (hroot : Rooted s) (h : Waits s)
    (hrun : (s.tab.procs p).state = .RUNNING) (hd : Does s p x t) :
    t.Watch p x ∧ ∀ r, r ≠ p → t.Watch r (s.pc r) := by
  have hown := h.watch p
  have hothers : (s.pc p).locked = true → ∀ r, r ≠ p → (s.pc r).locked = false := by grind [h.alone]
  -- a change with the lock that nobody can miss
  have hcalm : ∀ {t : Table}, (s.pc p).locked = true → Calm s.tab t →
      (∀ q, q ≠ p → (t.procs q).chan = (s.tab.procs q).chan) → ∀ r, r ≠ p → t.Watch r (s.pc r) :=
    fun hl hcalm hchan r hr => hcalm.nap (h.watch r) (hothers hl r hr) (hchan r hr)
  -- a change of an embryo, which needs no lock
  have hembryo : ∀ {t : Table} {np : Nat}, (s.tab.procs np).state = .EMBRYO →
      (∀ q, q ≠ np → t.procs q = s.tab.procs q) →
      (t.procs np).chan = (s.tab.procs np).chan ∧ (t.procs np).state ≠ .SLEEPING ∧
        (t.procs np).state ≠ .ZOMBIE → ∀ r, r ≠ p → t.Watch r (s.pc r) := by
    rintro t np hst hset ⟨hchan, h1, h2⟩ r hr
    refine (calm_slot np hset h1 h2).watch (h.watch r) (chan_slot np hset hchan) fun hl => ?_
    have hne : r ≠ np := by
      rintro rfl
      obtain ⟨c, hcr⟩ := h.on hl
      rcases hc.other (c := c) (p := r) (by rw [hcr]; rfl) with he | ⟨_, he⟩ <;>
        rw [hst] at he <;> simp at he
    rw [hset r hne]
    exact ⟨rfl, rfl⟩
  cases hd with
  | alloc k np hpc hlt hnp =>
    have hset : ∀ q, q ≠ np → (s.tab.alloc np).procs q = s.tab.procs q := fun q hq =>
      procs_alloc_ne _ hq
    refine ⟨trivial, hcalm (by rw [hpc]; rfl) (calm_slot np hset ?_ ?_) fun q _ =>
      chan_slot np hset ?_ q⟩ <;> rw [procs_alloc]
    · simp
    · simp
  | stack k np hpc =>
    have hst := hc.embryo p np (by rw [hpc]; rfl)
    refine ⟨trivial, hembryo hst (fun q hq => ?_) ?_⟩ <;> simp only [Table.stack, procs_set]
    · rw [if_neg hq]
    · simp [hst]
  | abandon k np hpc =>
    have hst := hc.embryo p np (by rcases hpc with hpc | hpc <;> rw [hpc] <;> rfl)
    refine ⟨trivial, hembryo hst (fun q hq => procs_abandon_ne _ hq) ?_⟩
    rw [procs_abandon]
    simp
  | pgdir k np d hpc _ =>
    have hst := hc.embryo p np (by rw [hpc]; rfl)
    refine ⟨trivial, hembryo hst (fun q hq => ?_) ?_⟩ <;> simp only [Table.setPgdir, procs_set]
    · rw [if_neg hq]
    · simp [hst]
  | adopt k np hpc =>
    have hst := hc.embryo p np (by rw [hpc]; rfl)
    refine ⟨trivial, hembryo hst (fun q hq => procs_adopt_ne _ _ hq) ?_⟩
    rw [procs_adopt]
    simp [hst]
  | ready k np hpc =>
    have hst := hc.embryo p np (by rw [hpc]; rfl)
    refine ⟨trivial, hembryo hst (fun q hq => procs_ready_ne _ _ _ hq) ?_⟩
    rw [procs_ready]
    simp
  | wakeup chan b hpc =>
    exact ⟨trivial, hcalm (by rw [hpc]; rfl) (calm_wakeup1 _ _) fun q _ => chan_wakeup1 _ _ q⟩
  | exit_wake q hpc hq =>
    refine ⟨fun q' hq' => ?_, hcalm (by rw [hpc]; rfl) (calm_wakeup1 _ _) fun q _ =>
      chan_wakeup1 _ _ q⟩
    rw [(quiet_wakeup1 _ _).parent, hq] at hq'
    obtain rfl := Option.some.inj hq'
    exact not_naps_wakeup1 _ _
  | orphan hpc hq =>
    refine ⟨fun q' hq' => ?_, fun r hr => h.watch r⟩
    rw [hq] at hq'
    cases hq'
  | exit_pass hpc =>
    rw [hpc] at hown
    have hkin := (kin_pass s.tab p).chan
    have hwakes := wakes_pass s.tab p
    have hsleeps : ∀ q, ((s.tab.pass p).procs q).state = .SLEEPING →
        (s.tab.procs q).state = .SLEEPING := by
      intro q hq
      rcases hwakes q with he | ⟨_, he⟩
      · exact he ▸ hq
      · rw [he] at hq
        cases hq
    have hzombie : ∀ q, ((s.tab.pass p).procs q).state = .ZOMBIE →
        (s.tab.procs q).state = .ZOMBIE := by
      intro q hq
      rcases hwakes q with he | ⟨_, he⟩
      · exact he ▸ hq
      · rw [he] at hq
        cases hq
    refine ⟨fun q hq hn => ?_, fun r hr => ?_⟩
    · rw [parent_pass, if_neg fun hc => hroot.tab.self p hc.2] at hq
      exact hown q hq ⟨hsleeps q hn.1, (hkin q).1 ▸ hn.2⟩
    · refine (h.watch r).nap (hothers (by rw [hpc]; rfl) r hr) (hkin r).1 fun k hch hreap hs => ?_
      intro q hq hz
      have hpar := hq.1
      rw [parent_pass] at hpar
      split at hpar
      · rename_i hpq
        obtain rfl : initproc = r := Option.some.inj hpar
        exact not_naps_pass hpq.1 hpq.2 (hzombie q hz) ⟨hs, (hkin _).1.trans hch⟩
      · refine hreap (hsleeps r hs) q ⟨hpar, fun hj => ?_⟩ (hzombie q hz)
        rw [← (hkin q).2, hq.2 hj, (hkin r).2]
  | exit_zombie hpc =>
    rw [hpc] at hown
    refine ⟨trivial, fun r hr => ?_⟩
    have hset : ∀ q, q ≠ p → (s.tab.zombie p).procs q = s.tab.procs q := fun q hq =>
      procs_zombie_ne _ hq
    have hp : (s.tab.zombie p).procs p = { s.tab.procs p with state := .ZOMBIE } := procs_zombie _ _
    refine (h.watch r).nap (hothers (by rw [hpc]; rfl) r hr) (by rw [hset r hr])
      fun k hch hreap hs q hq hz => ?_
    rw [hset r hr] at hs
    by_cases hqp : q = p
    · subst hqp
      have hpar := hq.1
      rw [hp] at hpar
      exact hown r hpar ⟨hs, hch⟩
    · rw [hset q hqp] at hz
      refine hreap hs q ⟨?_, fun hj => ?_⟩ hz
      · rw [← hset q hqp]
        exact hq.1
      · have := hq.2 hj
        rwa [hset q hqp, hset r hr] at this
  | reap r q hpc hlt hq hz =>
    have hset : ∀ q', q' ≠ q → (s.tab.reap p r q).procs q' = s.tab.procs q' := fun q' hq' =>
      procs_reap_ne _ _ _ hq'
    refine ⟨trivial, hcalm (by rw [hpc]; rfl) (calm_slot q hset ?_ ?_) fun q' _ =>
      chan_slot q hset ?_ q'⟩ <;> rw [procs_reap]
    · simp
    · simp
  | fail r hpc _ => exact ⟨trivial, fun r hr => h.watch r⟩
  | wait r hpc hno =>
    refine ⟨⟨rfl, fun q hq hz => ?_⟩, fun r hr => h.watch r⟩
    exact hno q (hroot.tab.lt (by simp [hz])) hq hz
  | sleep r chan hpc =>
    have hset : ∀ q, q ≠ p → (s.tab.sleep p chan).procs q = s.tab.procs q := fun q hq => by
      simp only [Table.sleep, procs_set, if_neg hq]
    have hp : (s.tab.sleep p chan).procs p =
        { s.tab.procs p with chan := some chan, state := .SLEEPING } := by
      simp only [Table.sleep, procs_set, if_pos]
    have hpgdir : ∀ q, ((s.tab.sleep p chan).procs q).pgdir = (s.tab.procs q).pgdir := by grind
    have hreaped : ∀ r k, s.tab.Reaped r k → (s.tab.sleep p chan).Reaped r k := by
      intro r k hr q hq hz
      have hqp : q ≠ p := by grind
      rw [hset q hqp] at hz
      refine hr q ⟨?_, fun hj => ?_⟩ hz
      · rw [← hset q hqp]
        exact hq.1
      · rw [← hpgdir q, hq.2 hj, hpgdir r]
    refine ⟨?_, fun r' hr => ?_⟩
    · cases r with
      | none => trivial
      | some k =>
        rw [hpc] at hown
        obtain ⟨rfl, hr⟩ := hown
        exact ⟨by rw [hp], fun _ => hreaped _ k hr⟩
    · refine (h.watch r').nap (hothers (by rw [hpc]; rfl) r' hr) (by rw [hset r' hr])
        fun k _ hreap hs => hreaped r' k (hreap ?_)
      rwa [hset r' hr] at hs
  | rescan r hpc | woken hpc =>
    refine ⟨trivial, hcalm (by rw [hpc]; rfl) (calm_slot p (fun q hq => procs_tidy_ne _ hq) ?_ ?_)
      fun q hq => by rw [procs_tidy_ne _ hq]⟩ <;> rw [procs_tidy]
    · simp [hrun]
    · simp [hrun]
  | kill pid q hpc _ _ =>
    exact ⟨trivial, hcalm (by rw [hpc]; rfl) (calm_kill _ _ _) fun q' _ => chan_kill _ _ _ q'⟩
  | yield b hpc =>
    have hset : ∀ q, q ≠ p → (s.tab.setState p .RUNNABLE).procs q = s.tab.procs q := fun q hq => by
      simp only [Table.setState, procs_set, if_neg hq]
    refine ⟨trivial, hcalm (by rw [hpc]; rfl) (calm_slot p hset ?_ ?_) fun q hq => by
      rw [hset q hq]⟩ <;> rw [state_setState, if_pos rfl] <;> simp

/-- Only `sleep` puts a process to sleep. -/
theorem Does.sleeps (hd : Does s p x t) (hq : (t.procs q).state = .SLEEPING) :
    (s.tab.procs q).state = .SLEEPING ∨ q = p ∧ ∃ r, x = .sched (.tidy r) := by
  cases hd with
  | sleep r chan hpc =>
    grind [state_sleep]
  | exit_pass hpc =>
    rcases wakes_pass s.tab p q with he | ⟨he, _⟩
    · exact Or.inl (he ▸ hq)
    · exact Or.inl he
  | kill pid z _ _ _ =>
    rcases wakes_kill s.tab pid z q with he | ⟨he, _⟩
    · exact Or.inl (he ▸ hq)
    · exact Or.inl he
  | wakeup chan _ _ =>
    rcases wakes_wakeup1 s.tab chan q with he | ⟨he, _⟩
    · exact Or.inl (he ▸ hq)
    · exact Or.inl he
  | exit_wake z _ _ =>
    rcases wakes_wakeup1 s.tab z q with he | ⟨he, _⟩
    · exact Or.inl (he ▸ hq)
    · exact Or.inl he
  | orphan | fail | wait => exact Or.inl hq
  | alloc | abandon | ready | exit_zombie | reap | yield =>
    simp only [state_alloc, state_abandon, state_ready, state_zombie, state_reap,
      state_setState] at hq
    split at hq
    · cases hq
    · exact Or.inl hq
  | stack | pgdir | adopt | rescan | woken =>
    grind [state_stack, state_setPgdir, state_adopt, state_tidy]

theorem waits_step (hc : Cpus s) (hroot : Rooted s) (h : Waits s) {a : Act}
    (hs : ptable.step s a = some s') : Waits s' := by
  -- a step that changes one place, of a process that does not sleep after it
  have hmove : ∀ {p x}, s'.tab = s.tab → s'.pc = Function.update s.pc p x →
      ((∃ y, x = .off y) ∨ ∃ c, s'.cpu c = .on p) →
      (∀ c q, q ≠ p → s.cpu c = .on q → s'.cpu c = .on q) →
      ((s.tab.procs p).state = .SLEEPING → ∃ r, x = .off (.tidy r)) →
      s.tab.Watch p x → Waits s' := by
    intro p x ht hpc hx hon hsleep hw
    refine ⟨fun q => ?_, fun q hq => ?_, fun q => ?_⟩ <;> rw [hpc] <;> by_cases hqp : q = p
    · grind
    · rw [Function.update_of_ne hqp]
      exact (h.away q).imp_right fun ⟨c, hcq⟩ => ⟨c, hon c q hqp hcq⟩
    · grind
    · grind [h.asleep]
    · grind
    · grind [h.watch]
  -- a step of `scheduler`, which wakes processes or runs one
  have hcpus : Calm s.tab s'.tab → (∀ q, (s'.tab.procs q).chan = (s.tab.procs q).chan) →
      (∀ q, (s'.tab.procs q).pgdir = (s.tab.procs q).pgdir ∧
        (s'.tab.procs q).parent = (s.tab.procs q).parent) → s'.pc = s.pc →
      (∀ c q, s.cpu c = .on q → s'.cpu c = .on q) → Waits s' := by
    intro hcalm hchan hkeep hpc hon
    refine ⟨fun q => ?_, fun q hq => ?_, fun q => ?_⟩ <;> rw [hpc]
    · exact (h.away q).imp_right fun ⟨c, hcq⟩ => ⟨c, hon c q hcq⟩
    · exact h.asleep q (hcalm.sleeping q hq).1
    · exact hcalm.watch (h.watch q) hchan fun _ => hkeep q
  cases did_step hc hs with
  | idle ht hpc hon =>
    refine hcpus ?_ (fun q => by rw [ht]) (fun q => by rw [ht]; exact ⟨rfl, rfl⟩) hpc hon
    rw [ht]
    exact ⟨fun q hq => ⟨hq, rfl⟩, fun q hq => ⟨hq, rfl, rfl⟩⟩
  | move p x hx hp ht hpc hcpu hon =>
    refine hmove ht hpc hon hcpu (fun hsl => ?_) (hx.watch (hc.fits p) (h.watch p))
    obtain ⟨r, hr⟩ := h.asleep p hsl
    rcases hp with hrun | ⟨y, hy⟩
    · rw [hrun] at hsl
      cases hsl
    · rw [hy] at hx
      cases hx with
      | swtch => simp_all
      | timer hb => cases hb
      | wakeup hb => cases hb
  | call c p x hon hcpu hu hrun hx ht hpc =>
    refine hmove ht hpc (Or.inr ⟨c, by rw [hcpu, hon]⟩) (fun c q _ hq => by rw [hcpu, hq])
      (fun hsl => ?_) trivial
    rw [hrun] at hsl
    cases hsl
  | act c p x hon hcpu hrun hd hpc hx =>
    obtain ⟨hw, hothers⟩ := hd.watch hc hroot h hrun
    refine ⟨fun q => ?_, fun q hq => ?_, fun q => ?_⟩ <;> by_cases hqp : q = p
    · exact Or.inr ⟨c, by rw [hcpu, hqp, hon]⟩
    · rcases hpc q hqp with he | ⟨_, he⟩ <;> rw [he]
      · rw [hcpu]
        exact h.away q
      · exact Or.inl ⟨_, rfl⟩
    · grind [hd.sleeps]
    · have hsl := (hd.sleeps hq).resolve_right fun hc => hqp hc.1
      rcases hpc q hqp with he | ⟨he, _⟩
      · rw [he]
        exact h.asleep q hsl
      · rw [hc.embryo p q he] at hsl
        cases hsl
    · rw [hqp, hx]
      exact hw
    · rcases hpc q hqp with he | ⟨_, he⟩ <;> rw [he]
      · exact hothers q hqp
      · trivial
  | choose i hi ht hpc hon =>
    have hset : ∀ q, q ≠ i → s'.tab.procs q = s.tab.procs q := fun q hq => by
      rw [ht, Table.setState, procs_set, if_neg hq]
    have hself : s'.tab.procs i = { s.tab.procs i with state := .RUNNING } := by
      rw [ht, Table.setState, procs_set, if_pos rfl]
    refine hcpus (calm_slot i hset ?_ ?_) (chan_slot i hset ?_) (fun q => ?_) hpc hon
    · simp [hself]
    · simp [hself]
    · simp [hself]
    · grind
  | irq chan ht hpc hon =>
    rw [ht] at hcpus
    refine hcpus (calm_wakeup1 _ _) (chan_wakeup1 _ _) (fun q => ?_) hpc hon
    simp only [Table.wakeup1]
    split <;> exact ⟨rfl, rfl⟩

theorem waits_run {as : List Act} (hrun : run step init as = some s) : Waits s := by
  have h := inv_of_run (I := fun s => Cpus s ∧ Rooted s ∧ Waits s) (fun _ _ _ ⟨hc, hroot, h⟩ hs =>
      ⟨(cpus_step hc hs).1, rooted_step hc hroot hs, waits_step hc hroot h hs⟩)
    ⟨cpus_init, rooted_init, waits_init⟩ hrun
  exact h.2.2

end Waits

/-! ## The law -/

/-- A process that sleeps in `wait` has no ZOMBIE child, and one that sleeps in `join` has none with
its own page directory. -/
theorem no_exit_is_missed (as : List Act) (s : Sys) (hrun : run step init as = some s) (p q : Nat)
    (hsleep : (s.tab.procs p).state = .SLEEPING) (hchild : (s.tab.procs q).parent = some p)
    (hz : (s.tab.procs q).state = .ZOMBIE) :
    (s.pc p).call ≠ some .wait ∧
      ((s.tab.procs q).pgdir = (s.tab.procs p).pgdir → (s.pc p).call ≠ some .join) := by
  have h := waits_run hrun
  have hcall : ∀ r, (s.pc p).call = some r → ¬ s.tab.child p r q := by
    intro r hr hq
    have hw := h.watch p
    obtain ⟨r', hpc⟩ := h.asleep p hsleep
    have hr' : r' = some r := by
      rcases hpc with hpc | hpc <;> rw [hpc] at hr <;> exact hr
    subst hr'
    rcases hpc with hpc | hpc <;> rw [hpc] at hw <;> exact hw.2 hsleep q hq hz
  exact ⟨fun hr => hcall _ hr ⟨hchild, nofun⟩, fun hd hr => hcall _ hr ⟨hchild, fun _ => hd⟩⟩

/-- CPU `c` takes `n` steps for its process. -/
def gos (c n : Nat) : List Act := List.replicate n (.go c true 7)

/-- Init makes a process and a thread and joins; the process exits, and init looks
and sleeps again. -/
def joinNap : List Act :=
  [.cpu 0, .cpu 0, .cpu 0] ++ gos 0 1 ++ .create 0 .fork :: gos 0 9 ++
    .create 0 .clone :: gos 0 9 ++
    .reap 0 .join :: gos 0 4 ++ [.cpu 0, .cpu 0, .cpu 0] ++ gos 0 1 ++ .exit 0 :: gos 0 5 ++
    [.cpu 0, .cpu 0, .cpu 0] ++ gos 0 1 ++ [.cpu 1, .cpu 1, .cpu 1] ++ gos 1 4

theorem the_zombie_of_the_joiner_is_no_thread :
    ∃ s, run step init joinNap = some s ∧ (s.pc 0).call = some .join ∧
      (s.tab.procs 1).state = .ZOMBIE ∧ (s.tab.procs 1).pgdir ≠ (s.tab.procs 0).pgdir := by
  obtain ⟨s, hs, h1, h2, h3, h4⟩ : ∃ s, run step init joinNap = some s ∧
      (s.tab.procs 0).state = .SLEEPING ∧ (s.tab.procs 1).parent = some 0 ∧
      (s.tab.procs 1).state = .ZOMBIE ∧ (s.pc 0).call = some .join := by decide +kernel
  exact ⟨s, hs, h4, h3, fun hd => (no_exit_is_missed joinNap s hs 0 1 h1 h2 h3).2 hd h4⟩

/-- Contexts are switched with `ptable.lock`. A process at `swtch` in `sched` has the lock on its
CPU and is not RUNNING, as `sched` tests; one that `scheduler` switches to is RUNNING and has a
saved or new context. A slot that `fork` or `clone` fills is EMBRYO, and nobody else fills it. -/
theorem contexts_are_switched_with_the_lock {as : List Act} {s : Sys}
    (hrun : run step init as = some s) :
    (∀ c p x, s.cpu c = .on p → s.pc p = .sched x →
      s.lock = some c ∧ (s.tab.procs p).state ≠ .RUNNING) ∧
    (∀ c p, s.cpu c = .enter p → s.lock = some c ∧ (s.tab.procs p).state = .RUNNING ∧
      ∃ x, s.pc p = .off x ∧ x.resumed = true) ∧
    ∀ p q np, (s.pc p).embryo = some np → (s.pc q).embryo = some np →
      (s.tab.procs np).state = .EMBRYO ∧ p = q := by
  have h := cpus_run hrun
  refine ⟨fun c p x hon hpc => ?_, fun c p hen => ?_, fun p q np hp hq =>
    ⟨h.embryo p np hp, h.mother p q np hp hq⟩⟩
  · refine ⟨h.locked hon (by rw [hpc]; rfl), fun hst => ?_⟩
    simpa [hpc, hst, Pc.Stands] using h.stands hon
  · have hcur : (s.cpu c).cur = some p := by rw [hen]; rfl
    have hp := h.placed c p hcur
    rw [Sys.Placed, hen] at hp
    refine ⟨(h.lock c).mpr (by rw [Sys.holds, hen]; trivial), hp, ?_⟩
    rcases (waits_run hrun).away p with ⟨x, hx⟩ | ⟨c', hon⟩
    · have hfits := h.fits p
      rw [hx] at hfits
      exact ⟨x, hx, hfits.1⟩
    · obtain rfl := h.once c c' p hcur (by rw [hon]; rfl)
      rw [hen] at hon
      cases hon

/-- CPU 0 switches to init, init makes a process, and when it joins it switches away. -/
theorem init_is_switched_to_and_away :
    (∃ s, run step init (joinNap.take 2) = some s ∧ s.cpu 0 = .enter 0 ∧ s.lock = some 0 ∧
      (s.tab.procs 0).state = .RUNNING ∧ ∃ x, s.pc 0 = .off x ∧ x.resumed = true) ∧
    (∃ s, run step init (joinNap.take 8) = some s ∧ (s.pc 0).embryo = some 1 ∧
      (s.tab.procs 1).state = .EMBRYO ∧ ∀ q, (s.pc q).embryo = some 1 → 0 = q) ∧
    ∃ s, run step init (joinNap.take 28) = some s ∧ s.cpu 0 = .on 0 ∧
      s.pc 0 = .sched (.tidy (some .join)) ∧ s.lock = some 0 ∧
      (s.tab.procs 0).state ≠ .RUNNING := by
  obtain ⟨s, hs, he⟩ : ∃ s, run step init (joinNap.take 2) = some s ∧ s.cpu 0 = .enter 0 := by
    decide +kernel
  obtain ⟨t, ht, hfork⟩ : ∃ t, run step init (joinNap.take 8) = some t ∧
      (t.pc 0).embryo = some 1 := by
    decide +kernel
  obtain ⟨u, hu, hon, hsched⟩ : ∃ u, run step init (joinNap.take 28) = some u ∧ u.cpu 0 = .on 0 ∧
      u.pc 0 = .sched (.tidy (some .join)) := by decide +kernel
  refine ⟨⟨s, hs, he, (contexts_are_switched_with_the_lock hs).2.1 0 0 he⟩,
    ⟨t, ht, hfork, ?_, fun q hq => ?_⟩,
    u, hu, hon, hsched, (contexts_are_switched_with_the_lock hu).1 0 0 _ hon hsched⟩
  · exact ((contexts_are_switched_with_the_lock ht).2.2 0 0 1 hfork hfork).1
  · exact ((contexts_are_switched_with_the_lock ht).2.2 0 q 1 hfork hq).2

end xv6.ptable
