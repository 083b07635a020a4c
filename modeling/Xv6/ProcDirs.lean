-- The page-directory law of proc.c and exec.c: when fork, clone, exec, exit, wait and join
-- free a page directory only after its last user, and only once.
import Xv6.Owners
import Xv6.Proc

open List Function runs WP owners

namespace xv6.proc

/-! ## The table as a forest -/

/-- What the law sees of a slot: the parent, the pid, the page directory, and whether the
process is ZOMBIE. -/
def Proc.member (p : Proc) : Option Member :=
  if p.state = .UNUSED then none
  else some { boss := p.parent, rank := p.pid, res := p.pgdir, done := p.state = .ZOMBIE }

/-- Page directories are the resources, and pids the ranks. -/
def Sys.owners (s : Sys) : State :=
  { root := s.initproc
    member := fun i => (s.procs i).member
    nextRank := s.nextpid
    nextRes := s.kalloced + 1
    released := s.freed }

variable {s s' : Sys} {c i : Nat} {E : String → Sys → Prop}

/-- A move of the forest, from the members after it. -/
theorem moves_of_members {f : Nat → Option Member} (hf : ∀ q, (s'.procs q).member = f q)
    (hi : s'.initproc = s.initproc) (hm : Moves NPROC s.owners { s.owners with
        member := f, nextRank := s'.nextpid, nextRes := s'.kalloced + 1, released := s'.freed }) :
    Moves NPROC s.owners s'.owners := by
  have he : s'.owners = { s.owners with
      member := f, nextRank := s'.nextpid, nextRes := s'.kalloced + 1, released := s'.freed } := by
    simp only [Sys.owners, hi, hf]
  rw [he]
  exact hm

/-- A call that changes neither the members nor what is freed. -/
structure Quiet (s s' : Sys) : Prop where
  panicked : s'.panicked = s.panicked
  initproc : s'.initproc = s.initproc
  freed : s'.freed = s.freed
  member : ∀ i, (s'.procs i).member = (s.procs i).member
  nextpid : s.nextpid ≤ s'.nextpid
  kalloced : s.kalloced ≤ s'.kalloced

theorem Quiet.moves (h : Quiet s s') : Moves NPROC s.owners s'.owners := by
  refine moves_of_members h.member h.initproc ?_
  rw [h.freed]
  exact .stay _ _ h.nextpid (Nat.succ_le_succ h.kalloced)

theorem member_update (procs : Nat → Proc) (i : Nat) (x : Proc) (q : Nat) :
      (update procs i x q).member = update (fun q => (procs q).member) i x.member q :=
  Function.apply_update (fun _ => Proc.member) procs i x q

theorem member_set (s : Sys) (i : Nat) (f : Proc → Proc) (q : Nat) :
    ((s.set i f).procs q).member = update s.owners.member i (f (s.procs i)).member q :=
  member_update s.procs i (f (s.procs i)) q

/-- A change of fields that the law does not see. -/
theorem member_set_same {f : Proc → Proc} (h : (f (s.procs i)).member = (s.procs i).member)
    (q : Nat) : ((s.set i f).procs q).member = (s.procs q).member := by
  rw [member_set, h]
  exact congrFun (update_eq_self i s.owners.member) q

/-- What `freevm` records. -/
theorem users_eq (s : Sys) (i d : Nat) : ((List.range NPROC).filter fun q =>
      q ≠ i ∧ (s.procs q).state ≠ .UNUSED ∧ (s.procs q).pgdir = d) =
    others NPROC s.owners.member i d := by
  refine filter_congr fun q _ => ?_
  by_cases h : (s.procs q).state = .UNUSED <;> simp [Sys.owners, Proc.member, h]

theorem spec_freevm (s : Sys) (i d : Nat) {Q : Unit → Sys → Prop} : spec (freevm i d) s Q E ↔
      Q () { s with freed := s.freed ++ [(d, others NPROC s.owners.member i d)] } := by
  unfold freevm
  rw [spec_modify, users_eq]

theorem spec_kalloc (s : Sys) {Q : Nat → Sys → Prop} :
    spec kalloc s Q E ↔ Q (s.kalloced + 1) { s with kalloced := s.kalloced + 1 } := by
  unfold kalloc
  simp only [spec_bind, spec_get, spec_set, spec_pure]

theorem first_eq_some {test : Proc → Bool} (h : s.first test = some i) :
    i < NPROC ∧ test (s.procs i) = true :=
  bytes.scan_eq_some h

/-! ## The calls -/

/-- The state of the table with slot `np` taken by `allocproc`. -/
def embryo (s : Sys) (np : Nat) : Sys :=
  { s.set np fun p => { p with state := .EMBRYO, pid := s.nextpid, kstack := s.kalloced + 1 } with
    nextpid := s.nextpid + 1, kalloced := s.kalloced + 1 }

theorem allocproc_spec (s : Sys) (kstack : Bool) :
    spec (allocproc kstack) s (fun r s' => r = none ∧ Quiet s s' ∧
          (∀ q, s'.procs q = s.procs q ∨ (s'.procs q).state = .UNUSED) ∧
          (kstack = true ∨ s.first (fun p => p.state = .UNUSED) = none → s' = s) ∨
        ∃ np, r = some np ∧ np < NPROC ∧ (s.procs np).state = .UNUSED ∧ s' = embryo s np) E := by
  unfold allocproc
  rw [spec_bind, spec_get]
  cases hf : s.first (fun p => p.state = .UNUSED) with
  | none =>
    rw [spec_pure]
    exact Or.inl ⟨rfl, ⟨rfl, rfl, rfl, fun _ => rfl, Nat.le_refl _, Nat.le_refl _⟩,
      fun _ => Or.inl rfl, fun _ => rfl⟩
  | some i =>
    obtain ⟨hi, hu⟩ := first_eq_some hf
    simp only [decide_eq_true_eq] at hu
    simp only [spec_bind, spec_set, spec_ite, spec_kalloc, spec_pure, spec_modify]
    constructor
    · intro _
      refine Or.inr ⟨i, rfl, hi, hu, ?_⟩
      simp [embryo, Sys.set]
    · intro hk
      refine Or.inl ⟨trivial, ⟨rfl, rfl, rfl, fun q => ?_, Nat.le_succ _, Nat.le_refl _⟩,
        fun q => ?_, fun h => absurd h (by simp [hk])⟩ <;>
      by_cases hq : q = i
      · subst hq
        simp [Sys.set, Proc.member, hu]
      · simp [Sys.set, hq]
      · subst hq
        simp [Sys.set]
      · simp [Sys.set, hq]

/-- A process that runs is a member, and not a ZOMBIE. -/
theorem member_of_running (h : (s.procs c).state = .RUNNING) : s.owners.member c = some
      { boss := (s.procs c).parent, rank := (s.procs c).pid, res := (s.procs c).pgdir,
        done := false } := by
  simp [Sys.owners, Proc.member, h]

theorem member_of_unused (h : (s.procs i).state = .UNUSED) : s.owners.member i = none := by
  simp [Sys.owners, Proc.member, h]

theorem embryo_procs_ne {np q : Nat} (h : q ≠ np) : (embryo s np).procs q = s.procs q := by
  simp [embryo, Sys.set, h]

/-- The members after the caller of `allocproc` filled slot `np` with `x`. -/
theorem member_embryo (s : Sys)
      (np : Nat) (x : Proc) (q : Nat) : (update (embryo s np).procs np x q).member =
      update s.owners.member np x.member q := by
  by_cases hq : q = np
  · subst hq
    simp
  · rw [update_of_ne hq, update_of_ne hq, embryo_procs_ne hq]
    rfl

theorem embryo_pid (s : Sys) (np : Nat) : ((embryo s np).procs np).pid = s.nextpid := by
  simp [embryo, Sys.set]

/-- The move of a `fork` or a `clone` that made `x` in slot `np`. -/
theorem moves_of_child {np : Nat} {x : Proc}
    (hm : ∀ q, (s'.procs q).member = update s.owners.member np x.member q)
    (hx : x.state = .RUNNABLE) (hp : x.parent = some c) (hpid : x.pid = s.nextpid)
    (hi : s'.initproc = s.initproc) (hn : s'.nextpid = s.nextpid + 1) (hf : s'.freed = s.freed)
    (hnp : np < NPROC) (hu : (s.procs np).state = .UNUSED) (hc : (s.procs c).state = .RUNNING)
    (hd : x.pgdir = (s.procs c).pgdir ∨ s.kalloced < x.pgdir ∧ x.pgdir ≤ s'.kalloced)
    (hk : s.kalloced ≤ s'.kalloced) : Moves NPROC s.owners s'.owners := by
  have hxm :
      x.member = some { boss := some c, rank := s.nextpid, res := x.pgdir, done := false } := by
    simp [Proc.member, hx, hp, hpid]
  rw [hxm] at hm
  refine moves_of_members hm hi ?_
  rw [hn, hf]
  exact .enter np c _ _ _ (member_of_unused hu) hnp (member_of_running hc) rfl
    (hd.imp id fun h => ⟨h.1, Nat.lt_succ_of_le h.2⟩) (Nat.succ_le_succ hk)

/-- The members after a call gave its slot back. -/
theorem member_dropped {np : Nat} {x : Proc} (hu : (s.procs np).state = .UNUSED)
    (hx : x.state = .UNUSED) (q : Nat) :
    (update (embryo s np).procs np x q).member = s.owners.member q := by
  have : x.member = s.owners.member np := by
    rw [member_of_unused hu, Proc.member, if_pos hx]
  rw [member_embryo, this, update_eq_self]

/-- Slot `np` itself is not counted when its directory is freed. -/
theorem others_embryo (s : Sys) (np d : Nat) :
    others NPROC (embryo s np).owners.member np d = others NPROC s.owners.member np d := by
  refine filter_congr fun q _ => ?_
  by_cases hq : q = np
  · simp [hq]
  · simp only [Sys.owners, embryo_procs_ne hq]
    rfl

/-- What a call does, when it does not panic and when it does. -/
def Call.Keeps {α : Type} (x : ProcM α) (s : Sys) : Prop :=
  spec x s (fun _ s' => s'.panicked = s.panicked ∧ Moves NPROC s.owners s'.owners)
    (fun _ s' => s'.freed = s.freed)

theorem fork_keeps (m : Memory) (hc : (s.procs c).state = .RUNNING) : Call.Keeps (fork c m) s := by
  unfold Call.Keeps fork
  rw [spec_bind]
  refine spec_mono (allocproc_spec s (m ≠ .noKstack)) ?_ (fun _ _ h => h)
  rintro r s1 (⟨rfl, hq, _⟩ | ⟨np, rfl, hnp, hu, rfl⟩)
  · rw [spec_pure]
    exact ⟨hq.panicked, hq.moves⟩
  simp only [spec_bind, spec_get]
  have hne : c ≠ np := by grind
  rw [embryo_procs_ne hne]
  cases m with
  | noKstack | noPgdir =>
    simp only [copyuvm, spec_bind, spec_pure, spec_modify]
    refine ⟨rfl, moves_of_members (member_dropped hu rfl) rfl ?_⟩
    exact .stay _ _ (Nat.le_succ _) (Nat.le_succ _)
  | noPages =>
    simp only [copyuvm, spec_bind, spec_kalloc, spec_freevm, spec_pure, spec_modify]
    refine ⟨rfl, moves_of_members (member_dropped hu rfl) rfl ?_⟩
    have h := Moves.discard (n := NPROC) (s := s.owners) (s.nextpid + 1) (s.kalloced + 3) np
      (s.kalloced + 2) (Nat.le_succ _) (Nat.le_succ _) (Nat.lt_succ_self _)
    rw [← others_embryo s np] at h
    exact h
  | enough =>
    simp only [copyuvm, spec_bind, spec_kalloc, spec_get, spec_pure, spec_modify]
    exact ⟨rfl, moves_of_child (member_embryo s np _) rfl rfl (embryo_pid s np) rfl rfl rfl hnp hu
      hc (Or.inr ⟨Nat.le_succ _, Nat.le_refl _⟩) (Nat.le_add_right _ 2)⟩

theorem spec_store (s : Sys) (c a w : Nat) {Q : Unit → Sys → Prop} :
    spec (store c a w) s Q E ↔ ((s.space c).mapped a (a + 3) → Q () { s with
        spaces := update s.spaces (s.procs c).pgdir
          { s.space c with mem := bytes.setLe (s.space c).mem a 4 w }
        stored := s.stored ++ (List.range 4).map (a + ·) }) ∧
      (¬ (s.space c).mapped a (a + 3) → E "trap" s) := by
  unfold store
  simp only [spec_bind, spec_get, spec_ite, spec_set, spec_throw]

theorem spec_memmoveSelf (s : Sys) (c a n : Nat) {Q : Unit → Sys → Prop} :
    spec (memmoveSelf c a n) s Q E ↔ ((s.space c).mapped a (a + n - 1) →
        Q () { s with stored := s.stored ++ (List.range n).map (a + ·) }) ∧
      (¬ (s.space c).mapped a (a + n - 1) → E "trap" s) := by
  unfold memmoveSelf
  simp only [spec_bind, spec_get, spec_ite, spec_set, spec_throw]

/-- The stores of `clone` and `join` change memory only. -/
theorem store_spec (s : Sys) (c a w : Nat) {Q : Unit → Sys → Prop}
    (hq : ∀ sp st, Q () { s with spaces := sp, stored := st }) (he : E "trap" s) :
    spec (store c a w) s Q E :=
  (spec_store s c a w).mpr ⟨fun _ => hq _ _, fun _ => he⟩

theorem memmoveSelf_spec (s : Sys) (c a n : Nat) {Q : Unit → Sys → Prop}
    (hq : ∀ st, Q () { s with stored := st }) (he : E "trap" s) :
    spec (memmoveSelf c a n) s Q E :=
  (spec_memmoveSelf s c a n).mpr ⟨fun _ => hq _, fun _ => he⟩

theorem clone_keeps (fn arg stack : Nat) (kstack : Bool) (hc : (s.procs c).state = .RUNNING) :
    Call.Keeps (clone c fn arg stack kstack) s := by
  unfold Call.Keeps clone
  rw [spec_bind]
  refine spec_mono (allocproc_spec s kstack) ?_ (fun _ _ h => h)
  rintro r s1 (⟨rfl, hq, _⟩ | ⟨np, rfl, hnp, hu, rfl⟩)
  · rw [spec_pure]
    exact ⟨hq.panicked, hq.moves⟩
  have hne : c ≠ np := by grind
  simp only [spec_bind, spec_get, spec_modify, spec_pure]
  rw [embryo_procs_ne hne]
  refine store_spec _ _ _ _ (fun sp1 st1 => ?_) rfl
  refine store_spec _ _ _ _ (fun sp2 st2 => ?_) rfl
  refine memmoveSelf_spec _ _ _ _ (fun st3 => ?_) rfl
  simp only [Sys.set, update_idem, update_self]
  exact ⟨rfl, moves_of_child (member_embryo s np _) rfl rfl (embryo_pid s np) rfl rfl rfl hnp hu
    hc (Or.inl rfl) (Nat.le_succ _)⟩

theorem sys_clone_keeps (kstack : Bool) (hc : (s.procs c).state = .RUNNING) :
    Call.Keeps (sys_clone c kstack) s := by
  unfold Call.Keeps sys_clone
  rw [spec_bind, spec_get]
  split
  · exact clone_keeps _ _ _ kstack hc
  · rw [spec_pure]
    exact ⟨rfl, .stay _ _ (Nat.le_refl _) (Nat.le_refl _)⟩

/-! ## What the callers have to do -/

/-- The threads of `c` that it has not joined yet. -/
def Sys.threads (s : Sys) (c : Nat) : List Nat :=
  (List.range NPROC).filter fun i =>
    (s.procs i).state ≠ .UNUSED ∧ (s.procs i).parent = some c ∧
      (s.procs i).pgdir = (s.procs c).pgdir

/-- `c` has the page directory of its parent. -/
def Sys.isThread (s : Sys) (c : Nat) : Bool :=
  (s.procs c).parent.any fun b => (s.procs b).pgdir = (s.procs c).pgdir

/-- Threads are joined and not waited for, a process that exits has joined its threads (init may
join them too, if it has the same page directory), and a process whose `exec` succeeds neither
has threads nor is one. -/
def Careful (s : Sys) : Act → Prop
  | .exec c (.good _ _ _ _) => s.threads c = [] ∧ s.isThread c = false
  | .exit c => s.threads c = [] ∨ (s.procs s.initproc).pgdir = (s.procs c).pgdir
  | .wait c =>
    ∀ i ∈ s.first (fun p => p.parent = some c ∧ p.state = .ZOMBIE),
      (s.procs i).pgdir ≠ (s.procs c).pgdir
  | _ => True

theorem member_eq_some {m : Member} : s.owners.member i = some m ↔ (s.procs i).state ≠ .UNUSED ∧
      m = { boss := (s.procs i).parent, rank := (s.procs i).pid, res := (s.procs i).pgdir,
            done := (s.procs i).state = .ZOMBIE } := by
  by_cases h : (s.procs i).state = .UNUSED
  · simp [Sys.owners, Proc.member, h]
  · grind [Sys.owners, Proc.member, Option.some.injEq]

theorem childless_of_threads (hv : Forest NPROC s.owners) (h : s.threads c = []) :
    s.owners.Childless c := by
  intro m j mj hm hj hb hres
  have hjn := (hv.bound j mj hj).1
  obtain ⟨_, rfl⟩ := member_eq_some.mp hm
  obtain ⟨hju, rfl⟩ := member_eq_some.mp hj
  have hmem : j ∈ s.threads c :=
    mem_filter.mpr ⟨mem_range.mpr hjn, by simp only [decide_eq_true_eq]; exact ⟨hju, hb, hres⟩⟩
  rw [h] at hmem
  cases hmem

theorem head_of_not_thread (h : s.isThread c = false) : s.owners.Head c := by
  intro m b mb hm hb hmb hres
  obtain ⟨_, rfl⟩ := member_eq_some.mp hm
  obtain ⟨_, rfl⟩ := member_eq_some.mp hmb
  simp only at hb hres
  simp [Sys.isThread, hb, hres] at h

/-- The move of an `exec` that took over the new directory. -/
theorem moves_of_exec {d : Nat} {x : Proc} (hv : Forest NPROC s.owners)
    (hcar : s.threads c = [] ∧ s.isThread c = false) (hc : (s.procs c).state = .RUNNING)
    (hprocs : s'.procs = update s.procs c x) (hx : x.member =
      some { boss := (s.procs c).parent, rank := (s.procs c).pid, res := d, done := false })
    (hi : s'.initproc = s.initproc) (hn : s'.nextpid = s.nextpid)
    (hd : s.kalloced < d ∧ d ≤ s'.kalloced) (hf : s'.freed = s.freed ++ [((s.procs c).pgdir,
      others NPROC s'.owners.member c (s.procs c).pgdir)]) : Moves NPROC s.owners s'.owners := by
  have hm : s'.owners.member = update s.owners.member c x.member := by
    funext q
    exact (congrArg Proc.member (congrFun hprocs q)).trans (member_update s.procs c x q)
  rw [hm, hx] at hf
  refine moves_of_members (fun q => congrFun hm q) hi ?_
  rw [hn, hf, hx]
  exact .renew c d _ _ (member_of_running hc) (head_of_not_thread hcar.2)
    (childless_of_threads hv hcar.1) hd.1 (Nat.lt_succ_of_le hd.2)

theorem exec_keeps {image : Image} (hc : (s.procs c).state = .RUNNING) (hv : Forest NPROC s.owners)
    (hcar : Careful s (.exec c image)) : Call.Keeps (exec c image) s := by
  unfold Call.Keeps exec
  cases image with
  | bad =>
    rw [spec_pure]
    exact ⟨rfl, .stay _ _ (Nat.le_refl _) (Nat.le_refl _)⟩
  | badLoad =>
    simp only [spec_bind, spec_kalloc, spec_freevm, spec_pure]
    refine ⟨trivial, moves_of_members (f := s.owners.member) (fun _ => rfl) rfl ?_⟩
    exact .discard _ _ c _ (Nat.le_refl _) (Nat.le_refl _) (Nat.lt_succ_self _)
  | good space sz entry sp =>
    simp only [spec_bind, spec_kalloc, spec_freevm, spec_get, spec_modify, spec_pure]
    refine ⟨rfl, moves_of_exec hv hcar hc rfl ?_ rfl rfl ⟨Nat.lt_succ_self _, Nat.le_refl _⟩ rfl⟩
    simp [Proc.member, hc]

theorem member_wakeup1 (s : Sys) (chan : Option Nat) (i : Nat) :
    ((wakeup1 s chan).procs i).member = (s.procs i).member := by
  unfold wakeup1
  simp only
  split
  · rename_i h
    simp [Proc.member, h.1]
  · rfl

/-- Only slots of the table are members, so `reparent` reaches all children. -/
theorem member_reparent (hv : Forest NPROC s.owners) (c i : Nat) :
    ((reparent s c).procs i).member = s.owners.adopted c i := by
  unfold reparent State.adopted
  by_cases hu : (s.procs i).state = .UNUSED
  · have h1 : s.owners.member i = none := member_of_unused hu
    simp only [h1, Option.map_none]
    split <;> simp [Proc.member, hu]
  · have h1 := member_eq_some.mpr ⟨hu, rfl⟩
    have hi := (hv.bound i _ h1).1
    simp only [h1, Option.map_some, hi, true_and]
    by_cases hp : (s.procs i).parent = some c
    · simp [Proc.member, hu, hp, Sys.owners]
    · simp [Proc.member, hu, hp]

theorem forest_congr (h : s'.owners = s.owners) (hv : Forest NPROC s.owners) :
    Forest NPROC s'.owners := h ▸ hv

theorem owners_wakeup1 (s : Sys) (chan : Option Nat) : (wakeup1 s chan).owners = s.owners := by
  have : (fun i => ((wakeup1 s chan).procs i).member) = s.owners.member :=
    funext (member_wakeup1 s chan)
  simp only [Sys.owners] at this ⊢
  rw [this]
  rfl

theorem exit_keeps (hc : (s.procs c).state = .RUNNING) (hv : Forest NPROC s.owners)
    (hcar : Careful s (.exit c)) : Call.Keeps (exit c) s := by
  unfold Call.Keeps exit
  simp only [spec_bind, spec_get, spec_ite, spec_throw, spec_modify, implies_true, true_and]
  intro hne
  obtain ⟨mr, hmr, _⟩ := hv.root
  have hm := member_of_running hc
  have hself : (s.procs c).parent ≠ some c := by
    intro hb
    obtain ⟨mb, hmb, _, hlt⟩ := hv.boss_of hm hb
    rw [hm] at hmb
    obtain rfl := Option.some.inj hmb
    exact absurd hlt (Nat.lt_irrefl _)
  have hfin := Moves.finish (n := NPROC) c _ mr hne hm hmr (hcar.imp (childless_of_threads hv) (by
    intro h
    obtain ⟨_, rfl⟩ := member_eq_some.mp hmr
    exact h))
  have key : ∀ t : Sys, (∀ q, (t.procs q).member = s.owners.adopted c q) →
      ∀ q, ((t.set c fun p => { p with state := .ZOMBIE }).procs q).member =
          update (s.owners.adopted c) c
          (some { boss := (s.procs c).parent, rank := (s.procs c).pid, res := (s.procs c).pgdir,
                  done := true }) q := by
    intro t ht q
    have htc : t.owners.member c = _ := (ht c).trans (adopted_eq_some.mpr ⟨_, hm, rfl⟩)
    rw [if_neg hself] at htc
    obtain ⟨_, hfields⟩ := member_eq_some.mp htc
    simp only [Member.mk.injEq] at hfields
    obtain ⟨h1, h2, h3, _⟩ := hfields
    rw [member_set, show t.owners.member = s.owners.adopted c from funext ht]
    simp [Proc.member, h1, h2, h3]
  have hre : ∀ q, ((reparent (wakeup1 s (s.procs c).parent) c).procs q).member =
      s.owners.adopted c q := by
    intro q
    rw [member_reparent (forest_congr (owners_wakeup1 s _) hv), owners_wakeup1]
  constructor
  · intro _
    exact ⟨rfl, moves_of_members (key _ fun q => (member_wakeup1 _ _ q).trans (hre q)) rfl hfin⟩
  · intro _
    exact ⟨rfl, moves_of_members (key _ hre) rfl hfin⟩

/-- What `reap` leaves is not a member. -/
theorem member_reap (s : Sys) (i q : Nat) : ((s.set i fun p => { p with
      kstack := 0, state := .UNUSED, pid := 0, parent := none, killed := false }).procs q).member =
      update s.owners.member i none q := by
  rw [member_set]
  rfl

/-- A process that goes to sleep stays a member. -/
theorem sleep_quiet (hc : (s.procs c).state = .RUNNING) (call : Call) (arg : Nat) :
    Quiet s (s.set c fun p =>
      { p with chan := some c, state := .SLEEPING, inside := some call, arg := arg }) :=
  ⟨rfl, rfl, rfl, member_set_same (by simp [Proc.member, hc]), Nat.le_refl _, Nat.le_refl _⟩

theorem member_of_zombie (h : (s.procs i).state = .ZOMBIE) : s.owners.member i = some
      { boss := (s.procs i).parent, rank := (s.procs i).pid, res := (s.procs i).pgdir,
        done := true } := by
  simp [Sys.owners, Proc.member, h]

theorem wait_keeps (hc : (s.procs c).state = .RUNNING) (hcar : Careful s (.wait c)) :
    Call.Keeps (wait c) s := by
  unfold Call.Keeps wait
  rw [spec_bind, spec_get]
  simp only [Careful] at hcar
  cases hf : s.first (fun p => p.parent = some c ∧ p.state = .ZOMBIE) with
  | some i =>
    rw [hf] at hcar
    have hi := (first_eq_some hf).2
    simp only [decide_eq_true_eq] at hi
    simp only [reap, spec_bind, spec_freevm, spec_modify, spec_pure]
    refine ⟨rfl, moves_of_members (member_reap _ i) rfl ?_⟩
    exact .release i c _ _ (member_of_zombie hi.2) rfl hi.1 (member_of_running hc) (hcar i rfl).symm
  | none =>
    simp only [sleep, spec_bind, spec_ite, spec_pure, spec_modify]
    exact ⟨fun _ => ⟨trivial, .stay _ _ (Nat.le_refl _) (Nat.le_refl _)⟩,
      fun _ => ⟨rfl, (sleep_quiet hc .wait 0).moves⟩⟩

theorem join_keeps (hc : (s.procs c).state = .RUNNING) : Call.Keeps (join c) s := by
  unfold Call.Keeps join
  rw [spec_bind, spec_get]
  simp only
  cases hf : s.first
      (fun p => p.parent = some c ∧ p.pgdir = (s.procs c).pgdir ∧ p.state = .ZOMBIE) with
  | some i =>
    have hi := (first_eq_some hf).2
    simp only [decide_eq_true_eq] at hi
    simp only [reap, spec_bind, spec_modify, spec_pure]
    refine store_spec _ _ _ _ (fun sp1 st1 => ?_) rfl
    refine store_spec _ _ _ _ (fun sp2 st2 => ?_) rfl
    refine ⟨rfl, moves_of_members (member_reap _ i) rfl ?_⟩
    exact .leave i c _ _ (member_of_zombie hi.2.2) rfl hi.1 (member_of_running hc) hi.2.1.symm
  | none =>
    simp only [sleep, spec_bind, spec_ite, spec_pure, spec_modify]
    exact ⟨fun _ => ⟨trivial, .stay _ _ (Nat.le_refl _) (Nat.le_refl _)⟩,
      fun _ => ⟨rfl, (sleep_quiet hc .join _).moves⟩⟩

theorem kill_keeps (s : Sys) (pid : Int) : Call.Keeps (kill pid) s := by
  unfold Call.Keeps kill
  rw [spec_bind, spec_get]
  cases hf : s.first (fun p => p.pid = pid) with
  | some i =>
    simp only [spec_bind, spec_modify, spec_pure]
    have hq : Quiet s (s.set i fun p =>
        { p with killed := true, state := if p.state = .SLEEPING then .RUNNABLE else p.state }) :=
      ⟨rfl, rfl, rfl, member_set_same (by
        by_cases h : (s.procs i).state = .SLEEPING <;> simp [Proc.member, h]),
        Nat.le_refl _, Nat.le_refl _⟩
    exact ⟨rfl, hq.moves⟩
  | none =>
    simp only [spec_pure]
    exact ⟨trivial, .stay _ _ (Nat.le_refl _) (Nat.le_refl _)⟩

/-! ## Every run -/

theorem owners_set_same {f : Proc → Proc} (h : (f (s.procs i)).member = (s.procs i).member) :
    (s.set i f).owners = s.owners := by
  have : (fun q => ((s.set i f).procs q).member) = s.owners.member := funext (member_set_same h)
  simp only [Sys.owners] at this ⊢
  rw [this]
  rfl

theorem syscall_keeps {call : ProcM Int} (c : Nat) (h : Call.Keeps call s) :
    Call.Keeps (syscall c call) s := by
  unfold Call.Keeps syscall
  rw [spec_bind]
  refine spec_mono h (fun n t ht => ?_) (fun _ _ he => he)
  rw [spec_modify, owners_set_same rfl]
  exact ht

theorem sleepingCall_keeps {call : ProcM (Option Int)} (c : Nat) (h : Call.Keeps call s) :
    Call.Keeps (sleepingCall c call) s := by
  unfold Call.Keeps sleepingCall
  rw [spec_bind]
  refine spec_mono h (fun r t ht => ?_) (fun _ _ he => he)
  cases r with
  | none =>
    rw [spec_pure]
    exact ht
  | some n =>
    simp only [spec_modify]
    rw [owners_set_same rfl]
    exact ht

theorem act_keeps {a : Act} (he : enabled s a) (hv : Forest NPROC s.owners) (hcar : Careful s a) :
    Call.Keeps (act a) s := by
  cases a with
  | run c =>
    obtain ⟨_, hst⟩ := he
    have hq : Quiet s (s.set c fun p => { p with state := .RUNNING }) :=
      ⟨rfl, rfl, rfl, member_set_same (by simp [Proc.member, hst]), Nat.le_refl _, Nat.le_refl _⟩
    exact spec_modify _ |>.mpr ⟨rfl, hq.moves⟩
  | yield c =>
    have hq : Quiet s (s.set c fun p => { p with state := .RUNNABLE }) :=
      ⟨rfl, rfl, rfl, member_set_same (by simp [Proc.member, he.2.1]), Nat.le_refl _, Nat.le_refl _⟩
    exact spec_modify _ |>.mpr ⟨rfl, hq.moves⟩
  | user c tf mem =>
    refine spec_modify _ |>.mpr ⟨rfl, moves_of_members (f := s.owners.member) ?_ rfl ?_⟩
    · exact member_set_same (s := s) (i := c) (f := fun p => { p with tf := tf }) rfl
    · exact .stay _ _ (Nat.le_refl _) (Nat.le_refl _)
  | fork c m => exact syscall_keeps c (fork_keeps m he.2.1)
  | clone c kstack => exact syscall_keeps c (sys_clone_keeps kstack he.2.1)
  | exec c image => exact syscall_keeps c (exec_keeps he.2.1 hv hcar)
  | exit c => exact exit_keeps he.2.1 hv hcar
  | wait c => exact sleepingCall_keeps c (wait_keeps he.2.1 hcar)
  | join c => exact sleepingCall_keeps c (join_keeps he.2.1)
  | kill c pid => exact syscall_keeps c (kill_keeps s pid)

/-- A step is its action, run to its end or to its panic. -/
theorem step_spec {a : Act} {Q : Unit → Sys → Prop} (hs : step s a = some s')
    (h : spec (act a) { s with stored := [] } Q E) :
    Q () s' ∨ ∃ msg t, E msg t ∧ s' = { t with panicked := some msg } := by
  unfold step at hs
  split at hs
  · unfold spec at h
    split at hs <;> rename_i heq <;> rw [heq] at h <;> cases hs
    · exact Or.inl h
    · exact Or.inr ⟨_, _, h, rfl⟩
  · cases hs

theorem enabled_of_step {a : Act} (hs : step s a = some s') : s.panicked = none ∧ enabled s a := by
  unfold step at hs
  split at hs
  · assumption
  · cases hs

/-- What holds after every step: the history is clean, and before a panic the forest is too. -/
structure Clean (s : Sys) : Prop where
  once : (s.freed.map Prod.fst).Nodup
  alone : ∀ e ∈ s.freed, e.2 = []
  valid : s.panicked = none → Valid NPROC s.owners

theorem Clean.step {a : Act} (h : Clean s) (hcar : Careful s a) (hs : step s a = some s') :
    Clean s' := by
  obtain ⟨hp, hen⟩ := enabled_of_step hs
  have hv := h.valid hp
  have hk : Call.Keeps (act a) { s with stored := [] } := by
    refine act_keeps ?_ hv.forest ?_
    · cases a <;> exact hen
    · cases a with
      | exec c image => cases image <;> exact hcar
      | _ => exact hcar
  rcases step_spec hs hk with ⟨_, hm⟩ | ⟨msg, t, hfr, rfl⟩
  · have hv' : Valid NPROC s'.owners := hv.move hm
    exact ⟨hv'.ledger.once, hv'.ledger.alone, fun _ => hv'⟩
  · have hfr : t.freed = s.freed := hfr
    refine ⟨?_, ?_, fun hp => by cases hp⟩
    · exact hfr ▸ h.once
    · exact hfr ▸ h.alone

/-- After `userinit` the only member is init. -/
theorem member_userinit {initcode : bytes.Mem} {q : Nat} {m : Member}
    (h : (userinit initcode).owners.member q = some m) :
    q = 0 ∧ m = { boss := none, rank := 1, res := 2, done := false } := by
  obtain ⟨hu, rfl⟩ := member_eq_some.mp h
  by_cases hq : q = 0
  · subst hq
    exact ⟨rfl, by simp [userinit, unused]⟩
  · simp [userinit, unused, hq] at hu

theorem clean_userinit (initcode : bytes.Mem) : Clean (userinit initcode) := by
  refine ⟨nodup_nil, by simp [userinit], fun _ => ⟨⟨?_, ?_, ?_, ?_⟩, ?_, nodup_nil, ?_⟩⟩
  · exact ⟨{ boss := none, rank := 1, res := 2, done := false },
      member_eq_some.mpr (by simp [userinit, unused, Sys.owners]), rfl, rfl⟩
  · intro q m hq
    obtain ⟨rfl, rfl⟩ := member_userinit hq
    exact ⟨by decide, Nat.lt_succ_self 1, Nat.lt_succ_self 2⟩
  · intro q m hq hne
    exact absurd (member_userinit hq).1 hne
  · grind [member_userinit]
  · simp [Sys.owners, userinit]
  · simp [Sys.owners, userinit]

/-- In a run whose callers are careful, `freevm` is applied to a page directory once, when no
other process that is not UNUSED has it, and no process keeps a freed one. -/
theorem freevm_has_no_other_user {initcode : bytes.Mem} {as : List Act} {s : Sys}
    (hr : run step (userinit initcode) as = some s)
    (hc : Along step Careful (userinit initcode) as) :
    (s.freed.map Prod.fst).Nodup ∧ (∀ e ∈ s.freed, e.2 = []) ∧
      (s.panicked = none →
        ∀ i, (s.procs i).state ≠ .UNUSED → (s.procs i).pgdir ∉ s.freed.map Prod.fst) := by
  have h : Clean s := inv_of_along (fun s a s' h hcar hs => h.step hcar hs)
    (clean_userinit initcode) hc hr
  refine ⟨h.once, h.alone, fun hp i hu hmem => ?_⟩
  obtain ⟨e, he, hd⟩ := List.mem_map.mp hmem
  exact ((h.valid hp).ledger.gone e he).2 i _ (member_eq_some.mpr ⟨hu, rfl⟩) hd.symm

instance (s : Sys) : (a : Act) → Decidable (Careful s a)
  | .exec _ (.good _ _ _ _) => inferInstanceAs (Decidable (_ ∧ _))
  | .exit _ => inferInstanceAs (Decidable (_ ∨ _))
  | .wait c =>
    inferInstanceAs (Decidable (∀ i ∈ s.first (fun p => p.parent = some c ∧ p.state = .ZOMBIE), _))
  | .run _ | .yield _ | .user _ _ _ | .fork _ _ | .clone _ _ | .exec _ .bad | .exec _ .badLoad
  | .join _ | .kill _ _ => .isTrue trivial

/-- Registers for a system call whose arguments are on the stack at 16. -/
def callFrame : Trapframe := { esp := 16 }

/-- Process 1, a child of init, makes a thread, process 2, which exits. -/
def threadExits : List Act :=
  [.run 0, .fork 0 .enough, .run 1, .user 1 callFrame (fun _ => 0), .clone 1 true, .run 2, .exit 2]

/-- Its parent joins the thread, exits, and is waited for. -/
theorem a_joined_thread_keeps_the_directory :
    ∃ s, run step (userinit fun _ => 0) (threadExits ++ [.join 1, .exit 1, .wait 0]) = some s ∧
      s.freed = [(4, [])] ∧
      (s.freed.map Prod.fst).Nodup ∧ (∀ e ∈ s.freed, e.2 = []) ∧
      (s.panicked = none →
        ∀ i, (s.procs i).state ≠ .UNUSED → (s.procs i).pgdir ∉ s.freed.map Prod.fst) := by
  have hrun : ∃ s, run step (userinit fun _ => 0)
      (threadExits ++ [.join 1, .exit 1, .wait 0]) = some s :=
    Option.isSome_iff_exists.mp (by decide +kernel)
  obtain ⟨s, hs⟩ := hrun
  have hf : (run step (userinit fun _ => 0) (threadExits ++ [.join 1, .exit 1, .wait 0])).map
      (fun s => s.freed) = some [(4, [])] := by decide +kernel
  simp only [hs, Option.map_some, Option.some.injEq] at hf
  exact ⟨s, hs, hf, freevm_has_no_other_user hs (by decide +kernel)⟩

/-- Its parent calls `wait`, which frees the directory that the parent itself runs on. -/
theorem wait_frees_the_directory_of_its_caller :
    (run step (userinit fun _ => 0) (threadExits ++ [.wait 1])).map
      (fun s => (s.freed, (s.procs 1).state, (s.procs 1).pgdir)) =
    some ([(4, [1])], .RUNNING, 4) := by
  decide +kernel

end xv6.proc
