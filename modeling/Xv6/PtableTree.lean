-- The tree of the processes. Init stays the root, whatever is done; and as long as pids are left,
-- parents are alive and have smaller pids than their children. The law: every process has its chain
-- of parents up to init, at every moment and not only while ptable.lock is free.
import Xv6.PtableDoes
import Mathlib.Logic.Relation

open Option runs

namespace xv6.ptable

open proc (Procstate Call)

/-! ## The invariant -/

/-- The states of a process that can be a parent. -/
def Alive : Procstate → Prop
  | .SLEEPING | .RUNNABLE | .RUNNING => True
  | _ => False

/-- The state is the same, or it is of a process that is alive before and after. -/
def Alike (st st' : Procstate) : Prop := st' = st ∨ Alive st ∧ Alive st'

/-- Init is there and nobody's child. -/
structure Table.Rooted (t : Table) : Prop where
  outside : ∀ q, NPROC ≤ q → (t.procs q).state = .UNUSED
  alive : Alive (t.procs initproc).state
  top : (t.procs initproc).parent = none
  self : ∀ q, (t.procs q).parent ≠ some q

/-- Parents are alive and older than their children. -/
structure Table.Tree (t : Table) : Prop where
  nextpid : t.nextpid = t.handed + 1
  pids : ∀ q, (t.procs q).state ≠ .UNUSED → 0 < (t.procs q).pid ∧ (t.procs q).pid < t.nextpid
  distinct : ∀ q q', (t.procs q).state ≠ .UNUSED → (t.procs q').state ≠ .UNUSED →
    (t.procs q).pid = (t.procs q').pid → q = q'
  unused : ∀ q, (t.procs q).state = .UNUSED → (t.procs q).parent = none
  parent : ∀ q p, (t.procs q).parent = some p →
    Alive (t.procs p).state ∧ (t.procs p).pid < (t.procs q).pid
  child : ∀ q, q ≠ initproc → (t.procs q).state ≠ .UNUSED → (t.procs q).state ≠ .EMBRYO →
    (t.procs q).parent ≠ none
  first : (t.procs initproc).pid = 1

/-- The embryo has no parent yet. -/
def Pc.fresh : Pc → Bool
  | .ready .. => false
  | .acquire x | .wakeup1 _ x | .yield x | .release x | .sched x | .off x => x.fresh
  | _ => true

/-- The process is in `exit`. -/
def Pc.exits : Pc → Bool
  | .exit_wake | .exit_pass | .exit_zombie => true
  | .acquire x | .wakeup1 _ x | .yield x | .release x | .sched x | .off x => x.exits
  | _ => false

/-- What the table has for process `p` at place `x`. -/
structure Table.At (t : Table) (p : Nat) (x : Pc) : Prop where
  embryo : ∀ np, x.embryo = some np → Alive (t.procs p).state ∧
    (t.procs p).pid < (t.procs np).pid ∧ (t.procs np).parent = if x.fresh then none else some p
  childless : x = .exit_zombie → ∀ q, (t.procs q).parent ≠ some p

structure Rooted (s : Sys) : Prop where
  tab : s.tab.Rooted
  exits : ∀ p, (s.pc p).exits = true → p ≠ initproc

structure Tree (s : Sys) : Prop where
  tab : s.tab.Tree
  places : ∀ p, s.tab.At p (s.pc p)

theorem alive_of_eq {st : Procstate} (h : st = .RUNNING) : Alive st := by
  rw [h]
  trivial

theorem Alive.ne {st : Procstate} (h : Alive st) : st ≠ .UNUSED ∧ st ≠ .EMBRYO ∧ st ≠ .ZOMBIE := by
  cases st with
  | SLEEPING | RUNNABLE | RUNNING => simp
  | _ => cases h

theorem Alike.alive {st st' : Procstate} (h : Alike st st') : Alive st' ↔ Alive st := by
  rcases h with rfl | ⟨h1, h2⟩
  · rfl
  · exact ⟨fun _ => h1, fun _ => h2⟩

theorem Alike.eq_iff {st st' x : Procstate} (h : Alike st st') (hx : ¬ Alive x) :
    st' = x ↔ st = x := by
  rcases h with rfl | ⟨h1, h2⟩
  · rfl
  · grind

theorem used_init {q : Nat} (hq : (init.tab.procs q).state ≠ .UNUSED) : q = initproc := by
  by_contra hne
  simp [init, hne] at hq

theorem parent_init (q : Nat) : (init.tab.procs q).parent = none := by
  simp only [init]
  split <;> rfl

theorem rooted_init : Rooted init := by
  refine ⟨⟨fun q hq => ?_, trivial, rfl, fun q => by simp [parent_init]⟩, fun p he => by cases he⟩
  by_contra hne
  rw [used_init hne] at hq
  simp [NPROC] at hq

theorem tree_init : Tree init := by
  refine ⟨⟨rfl, fun q hq => ?_, fun q q' hq hq' _ => ?_, fun q _ => parent_init q,
    fun q p hp => ?_, fun q hne hq => absurd (used_init hq) hne, rfl⟩,
    fun p => ⟨fun np hnp => ?_, fun he => ?_⟩⟩
  · rw [used_init hq]
    simp [init]
  · rw [used_init hq, used_init hq']
  · rw [parent_init] at hp
    cases hp
  · cases hnp
  · cases he

section Tree

variable {s s' : Sys} {t t' : Table} {p q np : Nat} {x y : Pc}

/-! ## Places -/

/-- A place that knows of no more than another. -/
def Pc.Forgets (x y : Pc) : Prop :=
  (y.embryo = none ∨ y.embryo = x.embryo ∧ y.fresh = x.fresh) ∧ y ≠ .exit_zombie

theorem Table.At.forget (h : t.At p x) (hf : x.Forgets y) : t.At p y := by
  obtain ⟨he, hz⟩ := hf
  refine ⟨fun np hnp => ?_, fun hy => absurd hy hz⟩
  rcases he with he | ⟨he, hfr⟩
  · rw [he] at hnp
    cases hnp
  · rw [hfr]
    exact h.embryo np (he ▸ hnp)

/-- What a place needs is what the table has of parents and of pids in use. -/
theorem Table.At.congr (h : t.At p x) (hp : Alive (t.procs p).state →
      (t'.procs p).pid = (t.procs p).pid ∧ Alive (t'.procs p).state)
    (hnp : ∀ np, x.embryo = some np → (t'.procs np).pid = (t.procs np).pid ∧
      (t'.procs np).parent = (t.procs np).parent)
    (hq : x = .exit_zombie → ∀ q, (t'.procs q).parent = some p → (t.procs q).parent = some p) :
    t'.At p x := by
  refine ⟨fun np he => ?_, fun hz q hc => h.childless hz q (hq hz q hc)⟩
  obtain ⟨ha, hpid, hparent⟩ := h.embryo np he
  obtain ⟨h1, h2⟩ := hnp np he
  rw [(hp ha).1, h1, h2]
  exact ⟨(hp ha).2, hpid, hparent⟩

/-- Another slot than the own ones changes. -/
theorem Table.At.slot (h : t.At p x) (z : Nat) (hset : ∀ q, q ≠ z → t'.procs q = t.procs q)
    (hz : Alive (t.procs z).state → p ≠ z) (he : x.embryo ≠ some z)
    (hq : (t'.procs z).parent = some p → (t.procs z).parent = some p) : t'.At p x := by
  refine h.congr (fun ha => ?_) (fun np hnp => ?_) fun _ q hp => ?_
  · grind
  · grind
  · grind

theorem at_plain (h1 : x.embryo = none) (h2 : x ≠ .exit_zombie) : t.At p x := by
  refine ⟨fun np hnp => ?_, fun hz => absurd hz h2⟩
  rw [h1] at hnp
  cases hnp

theorem Moves.forgets (hfits : x.Fits) (h : Moves x y) : x.Forgets y := by
  cases h with
  | acquire | release | enter =>
    refine ⟨Or.inr ⟨rfl, rfl⟩, fun he => ?_⟩
    subst he
    cases hfits.1
  | swtch z | timer _ | wakeup _ chan => exact ⟨Or.inr ⟨rfl, rfl⟩, by simp⟩
  | full k => exact ⟨Or.inl rfl, by simp⟩
  | unknown pid => exact ⟨Or.inl rfl, by simp⟩

theorem Moves.exits (h : Moves x y) (hy : y.exits = true) : x.exits = true := by
  cases h with
  | full k => cases hy
  | unknown pid => cases hy
  | _ => exact hy

/-! ## Changes of the table -/

/-- Pids and parents stay, and nobody is born, dies or is reaped. -/
structure Quiet (t t' : Table) : Prop where
  nextpid : t'.nextpid = t.nextpid
  handed : t'.handed = t.handed
  pid : ∀ q, (t'.procs q).pid = (t.procs q).pid
  parent : ∀ q, (t'.procs q).parent = (t.procs q).parent
  state : ∀ q, Alike (t.procs q).state (t'.procs q).state

theorem Quiet.at (h : Quiet t t') (hat : t.At p x) : t'.At p x :=
  hat.congr (fun ha => ⟨h.pid p, (h.state p).alive.mpr ha⟩) (fun np _ => ⟨h.pid np, h.parent np⟩)
    fun _ q hq => h.parent q ▸ hq

theorem Quiet.rooted (h : Quiet t t') (ht : t.Rooted) : t'.Rooted := by
  refine ⟨fun q hq => ((h.state q).eq_iff (by simp [Alive])).mpr (ht.outside q hq), ?_, ?_,
    fun q => ?_⟩
  · rw [(h.state initproc).alive]
    exact ht.alive
  · rw [h.parent]
    exact ht.top
  · rw [h.parent]
    exact ht.self q

theorem Quiet.tree (h : Quiet t t') (ht : t.Tree) : t'.Tree := by
  have hunused : ∀ q, (t'.procs q).state = .UNUSED ↔ (t.procs q).state = .UNUSED :=
    fun q => (h.state q).eq_iff (by simp [Alive])
  have hembryo : ∀ q, (t'.procs q).state = .EMBRYO ↔ (t.procs q).state = .EMBRYO :=
    fun q => (h.state q).eq_iff (by simp [Alive])
  refine ⟨?_, fun q hq => ?_, fun q q' hq hq' he => ?_, fun q hq => ?_, fun q p hp => ?_,
    fun q hne hu he => ?_, ?_⟩
  · rw [h.nextpid, h.handed]
    exact ht.nextpid
  · rw [h.pid, h.nextpid]
    exact ht.pids q (mt (hunused q).mpr hq)
  · grind [h.pid, ht.distinct]
  · rw [h.parent]
    exact ht.unused q ((hunused q).mp hq)
  · rw [h.parent] at hp
    rw [h.pid, h.pid, (h.state p).alive]
    exact ht.parent q p hp
  · grind [h.parent, ht.child]
  · rw [h.pid]
    exact ht.first

/-- One slot changes, but for pid and parent. -/
theorem quiet_set {f : Proc → Proc} (hpid : (f (t.procs np)).pid = (t.procs np).pid)
    (hparent : (f (t.procs np)).parent = (t.procs np).parent)
    (hstate : Alike (t.procs np).state (f (t.procs np)).state) : Quiet t (t.set np f) := by
  refine ⟨rfl, rfl, fun q => ?_, fun q => ?_, fun q => ?_⟩ <;> rw [procs_set] <;>
    by_cases hq : q = np
  · rw [if_pos hq, hq, hpid]
  · rw [if_neg hq]
  · rw [if_pos hq, hq, hparent]
  · rw [if_neg hq]
  · grind
  · rw [if_neg hq]
    exact Or.inl rfl

theorem quiet_wakeup1 (t : Table) (chan : Nat) : Quiet t (t.wakeup1 chan) := by
  have hq : ∀ q, ((t.wakeup1 chan).procs q).pid = (t.procs q).pid ∧
      ((t.wakeup1 chan).procs q).parent = (t.procs q).parent ∧
      Alike (t.procs q).state ((t.wakeup1 chan).procs q).state := by
    intro q
    simp only [Table.wakeup1]
    split
    · rename_i hc
      rw [hc.1]
      exact ⟨rfl, rfl, Or.inr ⟨trivial, trivial⟩⟩
    · exact ⟨rfl, rfl, Or.inl rfl⟩
  exact ⟨rfl, rfl, fun q => (hq q).1, fun q => (hq q).2.1, fun q => (hq q).2.2⟩

theorem quiet_kill (t : Table) (pid : Int) (q : Nat) : Quiet t (t.kill pid q) := by
  refine { quiet_set (f := fun r => { r with
    killed := true, state := if r.state = .SLEEPING then .RUNNABLE else r.state }) rfl rfl ?_ with
    nextpid := rfl, handed := rfl }
  dsimp only
  split
  · rename_i hs
    rw [hs]
    exact Or.inr ⟨trivial, trivial⟩
  · exact Or.inl rfl

theorem procs_alloc (t : Table) (np : Nat) :
    (t.alloc np).procs np = { t.procs np with state := .EMBRYO, pid := t.nextpid } := by
  simp only [Table.alloc, procs_set, if_pos]

theorem procs_alloc_ne (t : Table) {np q : Nat} (hq : q ≠ np) :
    (t.alloc np).procs q = t.procs q := by
  simp only [Table.alloc, procs_set, if_neg hq]

theorem Table.Tree.nextpid_alloc (h : t.Tree) (hroom : t.handed + 1 < 2 ^ 31 - 1) (np : Nat) :
    (t.alloc np).nextpid = t.nextpid + 1 := by
  have hn := h.nextpid
  exact toInt_ofInt (by omega) (by omega)

/-- The slot of a new process. -/
theorem Table.Tree.alloc (h : t.Tree) (hinit : np ≠ initproc) (hnp : (t.procs np).state = .UNUSED)
    (hroom : t.handed + 1 < 2 ^ 31 - 1) : (t.alloc np).Tree := by
  have hself := procs_alloc t np
  have hset : ∀ q, q ≠ np → (t.alloc np).procs q = t.procs q := fun q hq => procs_alloc_ne t hq
  have hnext := h.nextpid_alloc hroom np
  have hold : ∀ q, q ≠ np → ((t.alloc np).procs q).state ≠ .UNUSED →
      0 < ((t.alloc np).procs q).pid ∧ ((t.alloc np).procs q).pid < t.nextpid := by
    intro q hq hu
    rw [hset q hq] at hu ⊢
    exact h.pids q hu
  refine ⟨?_, fun q hq => ?_, fun q q' hq hq' he => ?_, fun q hq => ?_, fun q p hp => ?_,
    fun q hne hu he => ?_, ?_⟩
  · grind [h.nextpid, Table.alloc]
  · rw [hnext]
    by_cases hqn : q = np
    · grind [h.nextpid]
    · have := hold q hqn hq
      omega
  · by_cases hqn : q = np
    · grind
    · have := hold q hqn hq
      by_cases hqn' : q' = np
      · grind
      · grind [h.distinct]
  · grind [h.unused]
  · have hqn : q ≠ np := by grind [h.unused]
    rw [hset q hqn] at hp ⊢
    obtain ⟨ha, hpid⟩ := h.parent q p hp
    have hpn : p ≠ np := fun hc => ha.ne.1 (hc ▸ hnp)
    rw [hset p hpn]
    exact ⟨ha, hpid⟩
  · grind [h.child]
  · grind [h.first]

theorem Table.Rooted.slot (h : t.Rooted) (z : Nat) (hinit : z ≠ initproc)
    (hset : ∀ q, q ≠ z → t'.procs q = t.procs q) (hout : NPROC ≤ z → (t'.procs z).state = .UNUSED)
    (hself : (t'.procs z).parent ≠ some z) : t'.Rooted := by
  refine ⟨fun q hq => ?_, ?_, ?_, fun q => ?_⟩
  · grind [h.outside]
  · grind [h.alive]
  · grind [h.top]
  · grind [h.self]

/-- A process that is not alive is not init. -/
theorem Table.Rooted.ne (h : t.Rooted) (hz : ¬ Alive (t.procs q).state) : q ≠ initproc :=
  fun hc => hz (hc ▸ h.alive)

/-- Who is not UNUSED is in the table. -/
theorem Table.Rooted.lt (h : t.Rooted) (hq : (t.procs q).state ≠ .UNUSED) : q < NPROC := by
  by_contra hlt
  exact hq (h.outside q (by omega))

/-- A slot `z` changes that is nobody's parent: the others keep what they have. -/
theorem Table.Tree.slot (h : t.Tree) (z : Nat) (hinit : z ≠ initproc)
    (hz : ¬ Alive (t.procs z).state ∨ ∀ q, (t.procs q).parent ≠ some z)
    (hnext : t'.nextpid = t.nextpid) (hhanded : t'.handed = t.handed)
    (hset : ∀ q, q ≠ z → t'.procs q = t.procs q) (hpid : (t'.procs z).state ≠ .UNUSED →
      (t.procs z).state ≠ .UNUSED ∧ (t'.procs z).pid = (t.procs z).pid)
    (hunused : (t'.procs z).state = .UNUSED → (t'.procs z).parent = none)
    (hparent : ∀ p, (t'.procs z).parent = some p → p ≠ z ∧ Alive (t.procs p).state ∧
      (t.procs p).pid < (t'.procs z).pid)
    (hchild : (t'.procs z).state ≠ .UNUSED → (t'.procs z).state ≠ .EMBRYO →
      (t'.procs z).parent ≠ none) : t'.Tree := by
  have hback : ∀ q, (t'.procs q).state ≠ .UNUSED →
      (t.procs q).state ≠ .UNUSED ∧ (t'.procs q).pid = (t.procs q).pid := by
    intro q hq
    by_cases hqz : q = z
    · subst hqz
      exact hpid hq
    · grind
  refine ⟨?_, fun q hq => ?_, fun q q' hq hq' he => ?_, fun q hq => ?_, fun q p hp => ?_,
    fun q hne hu he => ?_, ?_⟩
  · rw [hnext, hhanded]
    exact h.nextpid
  · rw [(hback q hq).2, hnext]
    exact h.pids q (hback q hq).1
  · grind [h.distinct]
  · grind [h.unused]
  · by_cases hqz : q = z
    · grind
    · rw [hset q hqz] at hp ⊢
      obtain ⟨ha, hlt⟩ := h.parent q p hp
      have hpz : p ≠ z := by grind
      rw [hset p hpz]
      exact ⟨ha, hlt⟩
  · grind [h.child]
  · grind [h.first]

theorem procs_abandon (t : Table) (np : Nat) :
    (t.abandon np).procs np = { t.procs np with kstack := false, state := .UNUSED } := by
  simp only [Table.abandon, procs_set, if_pos]

theorem procs_abandon_ne (t : Table) {np q : Nat} (hq : q ≠ np) :
    (t.abandon np).procs q = t.procs q := by
  simp only [Table.abandon, procs_set, if_neg hq]

theorem procs_adopt (t : Table) (np p : Nat) :
    (t.adopt np p).procs np = { t.procs np with parent := some p } := by
  simp only [Table.adopt, procs_set, if_pos]

theorem procs_adopt_ne (t : Table) (p : Nat) {np q : Nat} (hq : q ≠ np) :
    (t.adopt np p).procs q = t.procs q := by
  simp only [Table.adopt, procs_set, if_neg hq]

theorem procs_ready (t : Table) (k : Creator) (np p : Nat) :
    (t.ready k np p).procs np = { t.procs np with state := .RUNNABLE } := by
  simp only [Table.ready, procs_set, if_pos]

theorem procs_ready_ne (t : Table) (k : Creator) (p : Nat) {np q : Nat} (hq : q ≠ np) :
    (t.ready k np p).procs q = t.procs q := by
  simp only [Table.ready, procs_set, if_neg hq]

theorem procs_zombie (t : Table) (p : Nat) :
    (t.zombie p).procs p = { t.procs p with state := .ZOMBIE } := by
  simp only [Table.zombie, procs_set, if_pos]

theorem procs_zombie_ne (t : Table) {p q : Nat} (hq : q ≠ p) :
    (t.zombie p).procs q = t.procs q := by
  simp only [Table.zombie, procs_set, if_neg hq]

theorem procs_reap (t : Table) (p : Nat) (r : Call) (q : Nat) : (t.reap p r q).procs q =
    { t.procs q with
      kstack := false, state := .UNUSED, pid := 0, parent := none, killed := false } := by
  simp only [Table.reap, Table.ret, procs_set, if_pos]

theorem procs_reap_ne (t : Table) (p : Nat) (r : Call) {z q : Nat} (hq : q ≠ z) :
    (t.reap p r z).procs q = t.procs q := by
  simp only [Table.reap, Table.ret, procs_set, if_neg hq]

/-- A creation gives its slot back. -/
theorem Table.Tree.abandon (h : t.Tree) (hinit : np ≠ initproc) (hst : (t.procs np).state = .EMBRYO)
    (hnone : (t.procs np).parent = none) : (t.abandon np).Tree := by
  refine h.slot np hinit (Or.inl (by simp [hst, Alive])) rfl rfl
    (fun q hq => procs_abandon_ne t hq) ?_ ?_ ?_ ?_ <;> rw [procs_abandon]
  · exact fun hc => absurd rfl hc
  · exact fun _ => hnone
  · grind
  · exact fun hc => absurd rfl hc

/-- An embryo gets its parent. -/
theorem Table.Tree.adopt (h : t.Tree) (hinit : np ≠ initproc) (hst : (t.procs np).state = .EMBRYO)
    (hp : Alive (t.procs p).state) (hlt : (t.procs p).pid < (t.procs np).pid) :
    (t.adopt np p).Tree := by
  refine h.slot np hinit (Or.inl (by simp [hst, Alive])) rfl rfl
    (fun q hq => procs_adopt_ne t p hq) ?_ ?_ ?_ ?_ <;> rw [procs_adopt]
  · exact fun hc => ⟨hc, rfl⟩
  · grind
  · grind
  · exact fun _ hc => absurd hst hc

/-- An embryo becomes RUNNABLE. -/
theorem Table.Tree.ready {k : Creator} (h : t.Tree) (hinit : np ≠ initproc)
    (hst : (t.procs np).state = .EMBRYO)
    (hparent : (t.procs np).parent = some p) : (t.ready k np p).Tree := by
  refine h.slot np hinit (Or.inl (by simp [hst, Alive])) rfl rfl
    (fun q hq => procs_ready_ne t k p hq) ?_ ?_ ?_ ?_ <;> rw [procs_ready]
  · grind
  · exact fun hc => by cases hc
  · intro p' hp'
    obtain ⟨ha, hlt⟩ := h.parent np p' hp'
    refine ⟨fun hc => ?_, ha, hlt⟩
    rw [hc, hst] at ha
    exact ha
  · grind

/-- A process without children becomes a ZOMBIE. -/
theorem Table.Tree.zombie (h : t.Tree) (hst : (t.procs p).state = .RUNNING) (hp : p ≠ initproc)
    (hno : ∀ q, (t.procs q).parent ≠ some p) : (t.zombie p).Tree := by
  refine h.slot p hp (Or.inr hno) rfl rfl
    (fun q hq => procs_zombie_ne t hq) ?_ ?_ ?_ ?_ <;> rw [procs_zombie]
  · grind
  · exact fun hc => by cases hc
  · intro p' hp'
    obtain ⟨ha, hlt⟩ := h.parent p p' hp'
    exact ⟨fun hc => hno p (hc ▸ hp'), ha, hlt⟩
  · grind [h.child]

/-- A ZOMBIE is reaped. -/
theorem Table.Tree.reap {r : Call} (h : t.Tree) (hinit : q ≠ initproc)
    (hst : (t.procs q).state = .ZOMBIE) :
    (t.reap p r q).Tree := by
  refine h.slot q hinit (Or.inl (by simp [hst, Alive])) rfl rfl (fun q' hq =>
    procs_reap_ne t p r hq) ?_
    ?_ ?_ ?_ <;> rw [procs_reap]
  · exact fun hc => absurd rfl hc
  · exact fun _ => rfl
  · exact fun p' hp' => by cases hp'
  · exact fun hc => absurd rfl hc

theorem parent_passTurn (p : Nat) (t : Table) (z q : Nat) :
      ((Table.passTurn p t z).procs q).parent =
      if q = z ∧ (t.procs q).parent = some p then some initproc else (t.procs q).parent := by
  have hset : ((t.set z fun r => { r with parent := some initproc }).procs q).parent =
      if q = z then some initproc else (t.procs q).parent := by
    rw [procs_set]
    split <;> rfl
  unfold Table.passTurn
  by_cases hp : (t.procs z).parent = some p
  · have hif : (q = z ∧ (t.procs q).parent = some p) ↔ q = z :=
      ⟨fun h => h.1, fun h => ⟨h, h ▸ hp⟩⟩
    simp only [if_pos hp, hif]
    split
    · rw [(quiet_wakeup1 _ _).parent, hset]
    · exact hset
  · grind

/-- The children of `p` are children of init then. -/
theorem parent_pass (t : Table) (p q : Nat) : ((t.pass p).procs q).parent =
      if q < NPROC ∧ (t.procs q).parent = some p then some initproc else (t.procs q).parent := by
  have hlist : ∀ (l : List Nat) (t : Table), ((l.foldl (Table.passTurn p) t).procs q).parent =
      if q ∈ l ∧ (t.procs q).parent = some p then some initproc else (t.procs q).parent := by
    intro l
    induction l with
    | nil => simp
    | cons z l ih =>
      intro t
      rw [List.foldl_cons, ih, parent_passTurn]
      grind
  rw [Table.pass, hlist]
  simp only [List.mem_range]

theorem Kin.pid (h : Kin t t') (q : Nat) : (t'.procs q).pid = (t.procs q).pid := by
  rw [h.procs q]

theorem Wakes.alike (h : Wakes t t') (q : Nat) : Alike (t.procs q).state (t'.procs q).state := by
  rcases h q with he | ⟨h1, h2⟩
  · exact Or.inl he
  · rw [h1, h2]
    exact Or.inr ⟨trivial, trivial⟩

/-- The children of a process pass to init. -/
theorem Table.Tree.pass (h : t.Tree) (hinit : Alive (t.procs initproc).state) (p : Nat) :
    (t.pass p).Tree := by
  have hpid := (kin_pass t p).pid
  have hstate := (wakes_pass t p).alike
  have hunused : ∀ q, ((t.pass p).procs q).state = .UNUSED ↔ (t.procs q).state = .UNUSED :=
    fun q => (hstate q).eq_iff (by simp [Alive])
  have hnext : (t.pass p).nextpid = t.nextpid ∧ (t.pass p).handed = t.handed := by
    obtain ⟨f, hf, _⟩ := kin_pass t p
    rw [hf]
    exact ⟨rfl, rfl⟩
  refine ⟨?_, fun q hq => ?_, fun q q' hq hq' he => ?_, fun q hq => ?_, fun q p' hp => ?_,
    fun q hne hu he => ?_, ?_⟩
  · rw [hnext.1, hnext.2]
    exact h.nextpid
  · rw [hpid, hnext.1]
    exact h.pids q (mt (hunused q).mpr hq)
  · grind [h.distinct]
  · rw [parent_pass, h.unused q ((hunused q).mp hq)]
    simp
  · rw [hpid, hpid, (hstate p').alive]
    rw [parent_pass] at hp
    split at hp
    · -- a child that was not UNUSED, and so not init and with a greater pid
      rename_i hq
      obtain rfl : initproc = p' := some.inj hp
      obtain ⟨ha, hlt⟩ := h.parent q p hq.2
      refine ⟨hinit, ?_⟩
      have h1 := (h.pids p ha.ne.1).1
      rw [h.first]
      omega
    · exact h.parent q p' hp
  · rw [parent_pass]
    split
    · simp
    · exact h.child q hne (mt (hunused q).mpr hu)
        (mt ((hstate q).eq_iff (by simp [Alive])).mpr he)
  · rw [hpid]
    exact h.first

theorem Table.Rooted.pass (h : t.Rooted) (p : Nat) : (t.pass p).Rooted := by
  have hstate := (wakes_pass t p).alike
  refine ⟨fun q hq => ((hstate q).eq_iff (by simp [Alive])).mpr (h.outside q hq), ?_, ?_,
    fun q => ?_⟩
  · rw [(hstate initproc).alive]
    exact h.alive
  · rw [parent_pass, h.top]
    simp
  · rw [parent_pass]
    split
    · -- a child is not init
      rintro ⟨⟩
      rename_i hq
      rw [h.top] at hq
      cases hq.2
    · exact h.self q

/-! ## Steps -/

theorem embryo_ne (hc : Cpus s)
    (h : s.tab.Rooted) (hnp : (s.pc p).embryo = some np) : np ≠ initproc :=
  h.ne (by simp [hc.embryo p np hnp, Alive])

theorem Does.rooted (hc : Cpus s) (h : Rooted s) (hrun : (s.tab.procs p).state = .RUNNING)
    (hd : Does s p x t) : t.Rooted := by
  have halive : Alive (s.tab.procs p).state := alive_of_eq hrun
  have hin : ∀ {np}, (s.pc p).embryo = some np → np < NPROC := fun hnp =>
    h.tab.lt (by simp [hc.embryo p _ hnp])
  cases hd with
  | alloc k np hpc hlt hnp =>
    refine h.tab.slot np (h.tab.ne (by simp [hnp, Alive])) (fun q hq => procs_alloc_ne _ hq)
      (by omega) ?_
    rw [procs_alloc]
    exact h.tab.self np
  | stack k np hpc | pgdir k np d hpc _ | rescan r hpc | woken hpc =>
    exact Quiet.rooted (quiet_set rfl rfl (Or.inl rfl)) h.tab
  | abandon k np hpc =>
    have he : (s.pc p).embryo = some np := by rcases hpc with hpc | hpc <;> rw [hpc] <;> rfl
    refine h.tab.slot np (embryo_ne hc h.tab he) (fun q hq => procs_abandon_ne _ hq) ?_ ?_ <;>
      rw [procs_abandon]
    · exact fun _ => rfl
    · exact h.tab.self np
  | adopt k np hpc =>
    have he : (s.pc p).embryo = some np := by rw [hpc]; rfl
    have hlt := hin he
    refine h.tab.slot np (embryo_ne hc h.tab he) (fun q hq => procs_adopt_ne _ _ hq) (by omega) ?_
    rw [procs_adopt]
    rintro ⟨⟩
    rw [hc.embryo p p he] at hrun
    cases hrun
  | ready k np hpc =>
    have he : (s.pc p).embryo = some np := by rw [hpc]; rfl
    have hlt := hin he
    refine h.tab.slot np (embryo_ne hc h.tab he) (fun q hq => procs_ready_ne _ _ _ hq) (by omega) ?_
    rw [procs_ready]
    exact h.tab.self np
  | wakeup chan b hpc | exit_wake q hpc _ => exact (quiet_wakeup1 _ _).rooted h.tab
  | orphan hpc _ => exact h.tab
  | exit_pass hpc => exact h.tab.pass p
  | exit_zombie hpc =>
    have hlt := h.tab.lt halive.ne.1
    refine h.tab.slot p (h.exits p (by rw [hpc]; rfl)) (fun q hq => procs_zombie_ne _ hq)
      (by omega) ?_
    rw [procs_zombie]
    exact h.tab.self p
  | reap r q hpc hlt hq hz =>
    refine h.tab.slot q (h.tab.ne (by simp [hz, Alive])) (fun q' hq' => procs_reap_ne _ _ _ hq')
      (by omega) ?_
    rw [procs_reap]
    nofun
  | fail r hpc _ => exact ⟨h.tab.outside, h.tab.alive, h.tab.top, h.tab.self⟩
  | wait r hpc _ => exact h.tab
  | sleep r chan hpc | yield b hpc =>
    exact Quiet.rooted (quiet_set rfl rfl (Or.inr ⟨halive, trivial⟩)) h.tab
  | kill pid q hpc _ _ => exact (quiet_kill _ _ _).rooted h.tab

theorem Does.exits (hd : Does s p x t) (hx : x.exits = true) : (s.pc p).exits = true := by
  cases hd with
  | wakeup chan b hpc | yield b hpc =>
    rw [hpc]
    exact hx
  | exit_wake _ hpc _ | orphan hpc _ | exit_pass hpc =>
    rw [hpc]
    rfl
  | _ => cases hx

theorem rooted_step (hc : Cpus s) (h : Rooted s) {a : Act} (hs : ptable.step s a = some s') :
    Rooted s' := by
  have hexits : ∀ {p x}, (x.exits = true → p ≠ initproc) →
      ∀ r, (Function.update s.pc p x r).exits = true → r ≠ initproc := by
    intro p x hx r hr
    by_cases hrp : r = p
    · grind
    · grind [h.exits]
  cases did_step hc hs with
  | idle ht hpc _ => exact ⟨ht ▸ h.tab, by rw [hpc]; exact h.exits⟩
  | move p x hx _ ht hpc _ _ =>
    exact ⟨ht ▸ h.tab, by rw [hpc]; exact hexits fun hy => h.exits p (hx.exits hy)⟩
  | call c p x _ _ _ _ hx ht hpc =>
    refine ⟨ht ▸ h.tab, ?_⟩
    rw [hpc]
    refine hexits fun hy => ?_
    cases hx with
    | exit hp => exact hp
    | _ => cases hy
  | act c p x hon hcpu hrun hd hpc hx =>
    refine ⟨hd.rooted hc h hrun, fun r hr => ?_⟩
    by_cases hrp : r = p
    · rw [hrp] at hr ⊢
      exact h.exits p (hd.exits (hx ▸ hr))
    · rcases hpc r hrp with he | ⟨_, he⟩ <;> rw [he] at hr
      · exact h.exits r hr
      · cases hr
  | choose i hi ht hpc _ =>
    refine ⟨?_, by rw [hpc]; exact h.exits⟩
    rw [ht]
    exact Quiet.rooted (quiet_set rfl rfl (Or.inr ⟨by rw [hi]; trivial, trivial⟩)) h.tab
  | irq chan ht hpc _ =>
    refine ⟨?_, by rw [hpc]; exact h.exits⟩
    rw [ht]
    exact (quiet_wakeup1 _ _).rooted h.tab

/-- What a process does keeps the tree, its own place, and the places of the others. -/
theorem Does.tree (hc : Cpus s) (hroot : Rooted s) (h : Tree s)
    (hrun : (s.tab.procs p).state = .RUNNING) (hd : Does s p x t) (hroom : t.handed < 2 ^ 31 - 1) :
    t.Tree ∧ t.At p x ∧ ∀ r, r ≠ p → t.At r (s.pc r) := by
  have hown := h.places p
  have halive : Alive (s.tab.procs p).state := alive_of_eq hrun
  have hquiet : ∀ {t'}, Quiet s.tab t' → (s.pc p).Forgets x →
      t'.Tree ∧ t'.At p x ∧ ∀ r, r ≠ p → t'.At r (s.pc r) := fun hq hf =>
    ⟨hq.tree h.tab, hq.at (hown.forget hf), fun r _ => hq.at (h.places r)⟩
  -- an embryo of `p` is nobody else's
  have hothers : ∀ {np}, (s.pc p).embryo = some np → ∀ r, r ≠ p → (s.pc r).embryo ≠ some np :=
    fun hnp r hr hc' => hr (hc.mother r p _ hc' hnp)
  cases hd with
  | alloc k np hpc hlt hnp =>
    have hne : p ≠ np := by grind
    have hinit := hroot.tab.ne (q := np) (by simp [hnp, Alive])
    refine ⟨h.tab.alloc hinit hnp hroom, ⟨fun e he => ?_, nofun⟩, fun r hr => ?_⟩
    · obtain rfl : np = e := some.inj he
      rw [procs_alloc_ne _ hne, procs_alloc]
      exact ⟨halive, (h.tab.pids p halive.ne.1).2, h.tab.unused np hnp⟩
    · refine (h.places r).slot np (fun q hq => procs_alloc_ne _ hq) (fun ha => ?_) (fun he => ?_) ?_
      · rw [hnp] at ha
        exact ha.elim
      · rw [hc.embryo r np he] at hnp
        cases hnp
      · rw [procs_alloc]
        exact id
  | stack k np hpc | pgdir k np d hpc _ =>
    refine hquiet (quiet_set rfl rfl (Or.inl rfl)) ?_
    rw [hpc]
    exact ⟨Or.inr ⟨rfl, rfl⟩, by simp⟩
  | abandon k np hpc =>
    have he : (s.pc p).embryo = some np ∧ (s.pc p).fresh = true := by
      rcases hpc with hpc | hpc <;> rw [hpc] <;> exact ⟨rfl, rfl⟩
    have hst := hc.embryo p np he.1
    have hnone : (s.tab.procs np).parent = none := by
      rw [(hown.embryo np he.1).2.2, he.2]
      rfl
    refine ⟨h.tab.abandon (embryo_ne hc hroot.tab he.1) hst hnone, at_plain rfl (by simp),
      fun r hr => ?_⟩
    refine (h.places r).slot np (fun q hq => procs_abandon_ne _ hq) (fun ha => ?_)
      (hothers he.1 r hr) ?_
    · rw [hst] at ha
      exact ha.elim
    · rw [procs_abandon]
      exact id
  | adopt k np hpc =>
    have he : (s.pc p).embryo = some np := by rw [hpc]; rfl
    have hst := hc.embryo p np he
    have hlt := (hown.embryo np he).2.1
    have hne : p ≠ np := by grind
    refine ⟨h.tab.adopt (embryo_ne hc hroot.tab he) hst halive hlt, ⟨fun e he' => ?_, nofun⟩,
      fun r hr => ?_⟩
    · obtain rfl : np = e := some.inj he'
      rw [procs_adopt_ne _ _ hne, procs_adopt]
      exact ⟨halive, hlt, rfl⟩
    · refine (h.places r).slot np (fun q hq => procs_adopt_ne _ _ hq) (fun ha => ?_)
        (hothers he r hr) ?_
      · rw [hst] at ha
        exact ha.elim
      · grind [procs_adopt, some.inj]
  | ready k np hpc =>
    have he : (s.pc p).embryo = some np := by rw [hpc]; rfl
    have hst := hc.embryo p np he
    have hparent : (s.tab.procs np).parent = some p := by
      rw [(hown.embryo np he).2.2, hpc]
      rfl
    refine ⟨h.tab.ready (embryo_ne hc hroot.tab he) hst hparent, at_plain rfl (by simp),
      fun r hr => ?_⟩
    refine (h.places r).slot np (fun q hq => procs_ready_ne _ _ _ hq) (fun ha => ?_)
      (hothers he r hr) ?_
    · rw [hst] at ha
      exact ha.elim
    · rw [procs_ready]
      exact id
  | wakeup chan b hpc =>
    refine hquiet (quiet_wakeup1 _ _) ?_
    rw [hpc]
    exact ⟨Or.inr ⟨rfl, rfl⟩, by simp⟩
  | exit_wake q hpc _ =>
    refine hquiet (quiet_wakeup1 _ _) ?_
    rw [hpc]
    exact ⟨Or.inl rfl, by simp⟩
  | orphan hpc _ =>
    refine ⟨h.tab, hown.forget ?_, fun r _ => h.places r⟩
    rw [hpc]
    exact ⟨Or.inl rfl, by simp⟩
  | exit_pass hpc =>
    have hp : p ≠ initproc := hroot.exits p (by rw [hpc]; rfl)
    have hkin := kin_pass s.tab p
    have hstate := (wakes_pass s.tab p).alike
    refine ⟨h.tab.pass hroot.tab.alive p, ⟨nofun, fun _ q hq => ?_⟩, fun r hr => ?_⟩
    · rw [parent_pass] at hq
      split at hq
      · exact hp (some.inj hq).symm
      · -- whoever has a parent is in the table
        rename_i hno
        refine hno ⟨hroot.tab.lt fun hu => ?_, hq⟩
        rw [h.tab.unused q hu] at hq
        cases hq
    · refine (h.places r).congr (fun ha => ⟨hkin.pid r, ?_⟩)
        (fun np he => ⟨hkin.pid np, ?_⟩) fun hz q hq => ?_
      · rw [(hstate r).alive]
        exact ha
      · rw [parent_pass, if_neg]
        rintro ⟨_, hpar⟩
        rw [((h.places r).embryo np he).2.2] at hpar
        split at hpar
        · cases hpar
        · exact hr (some.inj hpar)
      · rw [parent_pass] at hq
        split at hq
        · exact absurd (some.inj hq).symm (hroot.exits r (by rw [hz]; rfl))
        · exact hq
  | exit_zombie hpc =>
    have hp : p ≠ initproc := hroot.exits p (by rw [hpc]; rfl)
    refine ⟨h.tab.zombie hrun hp (hown.childless hpc), at_plain rfl (by simp), fun r hr => ?_⟩
    refine (h.places r).slot p (fun q hq => procs_zombie_ne _ hq) (fun _ => hr) (fun he => ?_) ?_
    · rw [hc.embryo r p he] at hrun
      cases hrun
    · rw [procs_zombie]
      exact id
  | reap r q hpc hlt hq hz =>
    refine ⟨h.tab.reap (hroot.tab.ne (by simp [hz, Alive])) hz, at_plain rfl (by simp),
      fun r' hr => ?_⟩
    refine (h.places r').slot q (fun q' hq' => procs_reap_ne _ _ _ hq')
      (fun ha => ?_) (fun he => ?_) ?_
    · rw [hz] at ha
      exact ha.elim
    · rw [hc.embryo r' q he] at hz
      cases hz
    · rw [procs_reap]
      nofun
  | fail r hpc _ =>
    refine hquiet ⟨rfl, rfl, fun _ => rfl, fun _ => rfl, fun _ => Or.inl rfl⟩ ?_
    exact ⟨Or.inl rfl, by simp⟩
  | wait r hpc _ =>
    exact ⟨h.tab, at_plain rfl (by simp), fun r _ => h.places r⟩
  | sleep r chan hpc =>
    refine hquiet (quiet_set rfl rfl (Or.inr ⟨halive, trivial⟩)) ?_
    exact ⟨Or.inl rfl, by simp⟩
  | rescan r hpc | woken hpc =>
    exact hquiet (quiet_set rfl rfl (Or.inl rfl)) ⟨Or.inl rfl, by simp⟩
  | kill pid q hpc _ _ =>
    exact hquiet (quiet_kill _ _ _) ⟨Or.inl rfl, by simp⟩
  | yield b hpc =>
    refine hquiet (quiet_set rfl rfl (Or.inr ⟨halive, trivial⟩)) ?_
    rw [hpc]
    exact ⟨Or.inr ⟨rfl, rfl⟩, by simp⟩

theorem tree_step (hc : Cpus s) (hroot : Rooted s) (h : Tree s) {a : Act}
    (hs : ptable.step s a = some s') (hroom : s'.tab.handed < 2 ^ 31 - 1) : Tree s' := by
  have hplaces : ∀ {t : Table} {p x}, t = s.tab → t.At p x →
      ∀ r, t.At r (Function.update s.pc p x r) := by
    rintro _ p x rfl hx r
    by_cases hr : r = p
    · grind
    · grind [h.places]
  cases did_step hc hs with
  | idle ht hpc _ =>
    refine ⟨ht ▸ h.tab, fun p => ?_⟩
    rw [ht, hpc]
    exact h.places p
  | move p x hx _ ht hpc _ _ =>
    refine ⟨ht ▸ h.tab, ?_⟩
    rw [hpc]
    exact hplaces ht (ht ▸ (h.places p).forget (hx.forgets (hc.fits p)))
  | call c p x _ _ _ _ hx ht hpc =>
    refine ⟨ht ▸ h.tab, ?_⟩
    rw [hpc]
    refine hplaces ht ?_
    cases hx <;> exact at_plain rfl (by simp)
  | act c p x hon hcpu hrun hd hpc hx =>
    obtain ⟨h1, h2, h3⟩ := hd.tree hc hroot h hrun hroom
    refine ⟨h1, fun r => ?_⟩
    by_cases hr : r = p
    · rw [hr, hx]
      exact h2
    · rcases hpc r hr with he | ⟨_, he⟩ <;> rw [he]
      · exact h3 r hr
      · exact at_plain rfl (by simp)
  | choose i hi ht hpc _ =>
    have hq : Quiet s.tab s'.tab := by
      rw [ht]
      exact quiet_set rfl rfl (Or.inr ⟨by rw [hi]; trivial, trivial⟩)
    refine ⟨hq.tree h.tab, fun p => ?_⟩
    rw [hpc]
    exact hq.at (h.places p)
  | irq chan ht hpc _ =>
    have hq : Quiet s.tab s'.tab := by
      rw [ht]
      exact quiet_wakeup1 _ _
    refine ⟨hq.tree h.tab, fun p => ?_⟩
    rw [hpc]
    exact hq.at (h.places p)

/-- Pids are not taken back. -/
theorem Does.handed (hd : Does s p x t) : s.tab.handed ≤ t.handed := by
  cases hd with
  | alloc => exact Nat.le_succ _
  | exit_pass _ =>
    obtain ⟨f, hf, _⟩ := kin_pass s.tab p
    rw [hf]
  | _ => exact le_refl _

theorem handed_step (hc : Cpus s) {a : Act} (hs : ptable.step s a = some s') :
    s.tab.handed ≤ s'.tab.handed := by
  cases did_step hc hs with
  | act c p x hon hcpu hrun hd _ _ => exact hd.handed
  | idle ht _ _ | move _ _ _ _ ht _ _ _ | call _ _ _ _ _ _ _ _ ht _ => rw [ht]
  | choose _ _ ht _ _ | irq _ ht _ _ =>
    rw [ht]
    exact le_refl _

theorem rooted_run {as : List Act} (hrun : run step init as = some s) : Rooted s := by
  have h := inv_of_run (I := fun s => Cpus s ∧ Rooted s)
    (fun _ _ _ ⟨hc, hroot⟩ hs => ⟨(cpus_step hc hs).1, rooted_step hc hroot hs⟩)
    ⟨cpus_init, rooted_init⟩ hrun
  exact h.2

/-- A run keeps the tree as long as pids are left. -/
theorem tree_run {as : List Act} (hrun : run step init as = some s)
    (hroom : s.tab.handed < 2 ^ 31 - 1) : Tree s := by
  have h := inv_of_run (I := fun s => Cpus s ∧ Rooted s ∧ (s.tab.handed < 2 ^ 31 - 1 → Tree s))
    (fun _ _ _ ⟨hc, hroot, h⟩ hs => ⟨(cpus_step hc hs).1, rooted_step hc hroot hs, fun hr =>
      tree_step hc hroot (h (lt_of_le_of_lt (handed_step hc hs) hr)) hs hr⟩)
    ⟨cpus_init, rooted_init, fun _ => tree_init⟩ hrun
  exact h.2.2 hroom

/-! ## The law -/

/-- Parents have smaller pids, so that the chain of the parents ends, and it ends at init. -/
theorem Table.Tree.chain (h : t.Tree) (hu : (t.procs q).state ≠ .UNUSED)
    (he : (t.procs q).state ≠ .EMBRYO) :
    Relation.ReflTransGen (fun q p => (t.procs q).parent = some p) q initproc := by
  induction hn : (t.procs q).pid.toNat using Nat.strong_induction_on generalizing q with
  | _ n ih =>
    by_cases hq : q = initproc
    · rw [hq]
    · obtain ⟨p, hp⟩ := ne_none_iff_exists'.mp (h.child q hq hu he)
      obtain ⟨ha, hlt⟩ := h.parent q p hp
      have h0 := (h.pids p ha.ne.1).1
      exact .head hp (ih (t.procs p).pid.toNat (by omega) ha.ne.1 ha.ne.2.1 rfl)

end Tree

/-- As long as fewer than 2^31 - 1 pids are handed out: every process but init has a parent that is
alive, and its chain of parents ends at init; UNUSED slots have no parent; and pids are positive and
distinct. -/
theorem the_processes_are_a_tree (as : List Act) (s : Sys) (hrun : run step init as = some s)
    (hpids : s.tab.handed < 2 ^ 31 - 1) :
    (∀ q, q ≠ initproc → (s.tab.procs q).state ≠ .UNUSED → (s.tab.procs q).state ≠ .EMBRYO →
      (∃ p, (s.tab.procs q).parent = some p ∧ (s.tab.procs p).state ≠ .UNUSED ∧
        (s.tab.procs p).state ≠ .EMBRYO ∧ (s.tab.procs p).state ≠ .ZOMBIE) ∧
      Relation.ReflTransGen (fun q p => (s.tab.procs q).parent = some p) q initproc) ∧
    (∀ q, (s.tab.procs q).state = .UNUSED → (s.tab.procs q).parent = none) ∧
    (∀ q, (s.tab.procs q).state ≠ .UNUSED → 0 < (s.tab.procs q).pid) ∧
    ∀ q q', (s.tab.procs q).state ≠ .UNUSED → (s.tab.procs q').state ≠ .UNUSED →
      (s.tab.procs q).pid = (s.tab.procs q').pid → q = q' := by
  have h := (tree_run hrun hpids).tab
  refine ⟨fun q hq hu he => ⟨?_, h.chain hu he⟩, h.unused, fun q hq => (h.pids q hq).1, h.distinct⟩
  obtain ⟨p, hp⟩ := Option.ne_none_iff_exists'.mp (h.child q hq hu he)
  exact ⟨p, hp, (h.parent q p hp).1.ne⟩

theorem init_and_its_child_are_a_tree :
    ∃ s, run step init twoRun = some s ∧ (s.tab.procs 1).state = .RUNNING ∧
      Relation.ReflTransGen (fun q p => (s.tab.procs q).parent = some p) 1 initproc := by
  obtain ⟨s, hs, hpids, hst⟩ : ∃ s, run step init twoRun = some s ∧ s.tab.handed < 2 ^ 31 - 1 ∧
      (s.tab.procs 1).state = .RUNNING := by decide +kernel
  have htree := (the_processes_are_a_tree twoRun s hs hpids).1 1 (by decide) (by simp [hst])
    (by simp [hst])
  exact ⟨s, hs, hst, htree.2⟩

end xv6.ptable
