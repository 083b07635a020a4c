-- The counts of open files are exact. Every reference to a file is a descriptor, or in the hands of
-- a process in the middle of a call; every opening of a pipe end or an inode is borne by one file,
-- or by one process that closes it, and ends once.
import Xv6.File

open Option Finset Function places runs pool

namespace xv6.file

open proc (Procstate)

/-! ## References -/

/-- The descriptor that does not count: it is not counted yet, or its reference
is already dropped. -/
def Cont.dead : Cont → Option Nat
  | .exit_clear fd => some fd
  | _ => none

def Pc.dead : Pc → Option Nat
  | .dup _ fd | .exit_clear fd => some fd
  | .fileclose _ k | .close _ k => k.dead
  | _ => none

/-- The references that a process has in hand, apart from its descriptors. -/
def Cont.held : Cont → List Nat
  | .fileclose f => [f]
  | _ => []

def Pc.held : Pc → List Nat
  | .open_fd f .. | .pipe_file1 f => [f]
  | .fileclose f k => f :: k.held
  | .close _ k => k.held
  | .pipe_kalloc f0 f1 | .pipe_fd0 f0 f1 => [f0, f1]
  | .pipe_fd1 _ wf _ => [wf]
  | _ => []

/-- The files of a process that are not opened on anything yet. -/
def Pc.fresh : Pc → List Nat
  | .open_fd f .. | .open_set f .. | .pipe_file1 f => [f]
  | .pipe_kalloc f0 f1 => [f0, f1]
  | _ => []

/-- The files that will be descriptors as they are. -/
def Pc.ready : Pc → List Nat
  | .pipe_fd0 rf wf => [rf, wf]
  | .pipe_fd1 _ wf _ => [wf]
  | _ => []

/-- The new process that a `fork` or `clone` works on, and the descriptors that it has passed. -/
def Pc.child : Pc → Option (Nat × Nat)
  | .embryo np _ => some (np, 0)
  | .copy np i => some (np, i)
  | _ => none

/-- The opening that a process is about to end. -/
def Pc.opening : Pc → Option Opening
  | .close ff _ => ff.opening
  | _ => none

/-- How many of the descriptors are the file. -/
def slots (ofile : Nat → Option Nat) (f : Nat) : Nat :=
  ((Finset.range NOFILE).filter fun fd => ofile fd = some f).card

namespace Proc

/-- The descriptors that count. -/
def live (P : Proc) : Nat → Option Nat :=
  match P.pc.dead with
  | none => P.ofile
  | some fd => Function.update P.ofile fd none

/-- The references of a process. -/
def refs (P : Proc) (f : Nat) : Nat := slots P.live f + P.pc.held.count f

/-- The files that are a descriptor, or will be one as they are. -/
def Has (P : Proc) (f : Nat) : Prop := (∃ fd, P.live fd = some f) ∨ f ∈ P.pc.ready

def AtCont (P : Proc) : Cont → Prop
  | .exit_clear fd => fd < NOFILE ∧ ∀ i < fd, P.ofile i = none
  | _ => True

/-- What holds for a process at its place. -/
def At (P : Proc) : Pc → Prop
  | .open_set f fd .. => P.ofile fd = some f
  | .dup f fd => fd < NOFILE ∧ P.ofile fd = some f ∧ ∃ fd', fd' ≠ fd ∧ P.ofile fd' = some f
  | .fileclose _ k | .close _ k => P.AtCont k
  | .pipe_fd1 rf _ fd0 => fd0 < NOFILE ∧ P.ofile fd0 = some rf
  | .exit fd => ∀ i < fd, P.ofile i = none
  | .exit_clear fd => fd < NOFILE ∧ ∀ i < fd, P.ofile i = none
  | _ => True

structure Ok (P : Proc) : Prop where
  small : ∀ fd, NOFILE ≤ fd → P.ofile fd = none
  idle : P.state ≠ .RUNNABLE → P.pc = .user
  empty : P.state = .UNUSED ∨ P.state = .ZOMBIE → ∀ fd, P.ofile fd = none
  place : P.At P.pc

end Proc

section Slots

variable {o : Nat → Option Nat} {fd f : Nat} {v : Option Nat}

theorem slots_update (hfd : fd < NOFILE) :
      slots (update o fd v) f + (if o fd = some f then 1 else 0) =
      slots o f + (if v = some f then 1 else 0) := by
  have hmem : fd ∈ Finset.range NOFILE := mem_range.mpr hfd
  have hcount : ∀ g : Nat → Option Nat, slots g f =
      (if g fd = some f then 1 else 0) + ∑ i ∈ (Finset.range NOFILE).erase fd,
      if g i = some f then 1 else 0 := by
    intro g
    rw [slots, card_filter, add_sum_erase _ (fun i => if g i = some f then 1 else 0) hmem]
  have hrest : ∀ i ∈ (Finset.range NOFILE).erase fd,
      (if update o fd v i = some f then 1 else 0) = if o i = some f then 1 else 0 := by
    intro i hi
    rw [update_of_ne (ne_of_mem_erase hi)]
  rw [hcount, hcount o, sum_congr rfl hrest, update_self]
  omega

theorem slots_pos (hfd : fd < NOFILE) (h : o fd = some f) : 0 < slots o f :=
  card_pos.mpr ⟨fd, mem_filter.mpr ⟨mem_range.mpr hfd, h⟩⟩

theorem slots_eq_zero (h : ∀ fd, o fd ≠ some f) : slots o f = 0 := by
  rw [slots, card_eq_zero, filter_eq_empty_iff]
  exact fun fd _ => h fd

end Slots

/-! ## The invariant -/

/-- The openings that there were. -/
def Sys.Used (s : Sys) : Opening → Prop
  | .pipe i _ => 0 < i ∧ i ≤ s.kalloced
  | .inode n => n < s.opened

/-- The opening that a file in use has, or that a process is about to end. -/
def Sys.bears (s : Sys) : Nat ⊕ Nat → Option Opening
  | .inl f => if 0 < (s.ftable f).ref then (s.ftable f).opening else none
  | .inr p => (s.procs p).pc.opening

structure Counts (s : Sys) : Prop where
  ok : ∀ p, (s.procs p).Ok
  table : ∀ p, NPROC ≤ p → (s.procs p).state = .UNUSED
  refs : ∀ f, Total (fun P : Proc => P.refs f) s.procs (s.ftable f).ref
  free : ∀ f, (s.ftable f).ref = 0 → (s.ftable f).type = .FD_NONE
  child : ∀ p np i, (s.procs p).pc.child = some (np, i) →
    (s.procs np).state = .EMBRYO ∧ ∀ j, i ≤ j → (s.procs np).ofile j = none
  one : ∀ p q np i j, (s.procs p).pc.child = some (np, i) →
    (s.procs q).pc.child = some (np, j) → p = q
  fresh : ∀ p, ∀ f ∈ (s.procs p).pc.fresh, (s.ftable f).ref = 1 ∧ (s.ftable f).type = .FD_NONE
  typed : ∀ p f, (s.procs p).Has f → f ∈ (s.procs p).pc.fresh ∨ (s.ftable f).type ≠ .FD_NONE

structure Ends (s : Sys) : Prop where
  openings : Exact (fun o => s.ended o = 1) s.Used s.bears
  once : ∀ o, s.ended o ≤ 1
  readopen : ∀ i, 0 < i → i ≤ s.kalloced →
    ((s.pipes i).readopen = true ↔ s.ended (.pipe i false) = 0)
  writeopen : ∀ i, 0 < i → i ≤ s.kalloced →
    ((s.pipes i).writeopen = true ↔ s.ended (.pipe i true) = 0)
  kfreed : ∀ i, s.kfreed i = if s.ended (.pipe i false) = 1 ∧
    s.ended (.pipe i true) = 1 then 1 else 0

structure Inv (s : Sys) : Prop extends Counts s, Ends s where
  calm : s.panicked ≠ some "filedup" ∧ s.panicked ≠ some "fileclose"

theorem inv_userinit (pipes : Nat → Pipe) : Inv (userinit pipes) := by
  have hofile : ∀ p fd, ((userinit pipes).procs p).ofile fd = none := by
    intro p fd
    exact forall_move (P := fun P : Proc => P.ofile fd = none) (fun _ => rfl) rfl p
  have hpc : ∀ p, ((userinit pipes).procs p).pc = .user :=
    forall_move (P := fun P : Proc => P.pc = .user) (fun _ => rfl) rfl
  have hlive : ∀ p fd, ((userinit pipes).procs p).live fd = none := by
    intro p fd
    rw [Proc.live, hpc]
    exact hofile p fd
  have hbears : ∀ x, (userinit pipes).bears x = none := by
    rintro (f | p)
    · rfl
    · change ((userinit pipes).procs p).pc.opening = none
      rw [hpc]
      rfl
  have hused : ∀ o, ¬ (userinit pipes).Used o := by
    rintro (⟨i, w⟩ | n)
    · exact fun h => absurd (Nat.lt_of_lt_of_le h.1 h.2) (Nat.lt_irrefl 0)
    · exact Nat.not_lt_zero n
  constructor
  · refine ⟨fun p => ⟨fun fd _ => hofile p fd, fun _ => hpc p,
      fun _ => hofile p, by rw [hpc]; trivial⟩,
      fun p hp => ?_, fun f => Total.zero fun p => ?_, fun _ _ => rfl, fun p np i hc => ?_,
      fun p q np i j hc => ?_, fun p f hf => ?_, fun p f hf => ?_⟩
    · have hne : p ≠ 0 := by grind
      simp [userinit, hne]
    · rw [Proc.refs, hpc, slots_eq_zero fun fd => by rw [hlive]; simp]
      rfl
    · rw [hpc] at hc
      cases hc
    · rw [hpc] at hc
      cases hc
    · rw [hpc] at hf
      cases hf
    · rcases hf with ⟨fd, hfd⟩ | hf
      · grind
      · rw [hpc] at hf
        cases hf
  · refine ⟨⟨fun o => iff_of_false (hused o) ?_, fun x o hx => ?_, fun x y o hx => ?_⟩,
      fun o => Nat.zero_le 1, fun i h0 hi => absurd (Nat.lt_of_lt_of_le h0 hi) (Nat.lt_irrefl 0),
      fun i h0 hi => absurd (Nat.lt_of_lt_of_le h0 hi) (Nat.lt_irrefl 0), fun i => rfl⟩
    · rintro (ho | ⟨x, hx⟩)
      · cases ho
      · rw [hbears] at hx
        cases hx
    · rw [hbears] at hx
      cases hx
    · rw [hbears] at hx
      cases hx
  · exact ⟨fun h => (by cases h), fun h => (by cases h)⟩

/-! ## Who has a reference -/

section Refs

variable {s s' : Sys} {p q f g : Nat} {P : Proc} {x : Pc}

/-- A descriptor that counts is a descriptor. -/
theorem Proc.ofile_of_live {fd : Nat} (hfd : P.live fd = some f) : P.ofile fd = some f := by
  cases hd : P.pc.dead with
  | none => rwa [Proc.live, hd] at hfd
  | some fd' =>
    rw [Proc.live, hd] at hfd
    change update P.ofile fd' none fd = some f at hfd
    by_cases he : fd = fd'
    · grind
    · grind

theorem Proc.Ok.live_small (h : P.Ok) {fd : Nat} (hfd : P.live fd = some f) : fd < NOFILE := by
  by_contra hge
  have hnone := h.small fd (Nat.le_of_not_lt hge)
  rw [Proc.ofile_of_live hfd] at hnone
  cases hnone

theorem Proc.Ok.refs_of_live (h : P.Ok) {i : Nat} (hfd : P.live i = some f) : 0 < P.refs f :=
  Nat.add_pos_left (slots_pos (h.live_small hfd) hfd) _

theorem refs_of_held (h : f ∈ P.pc.held) : 0 < P.refs f :=
  Nat.add_pos_right _ (List.count_pos_iff.mpr h)

theorem Proc.Ok.refs_of_has (h : P.Ok) (hf : P.Has f) : 0 < P.refs f := by
  rcases hf with ⟨fd, hfd⟩ | hf
  · exact h.refs_of_live hfd
  · refine refs_of_held ?_
    cases hpc : P.pc with
    | pipe_fd0 rf wf | pipe_fd1 rf wf fd0 =>
      rw [hpc] at hf
      exact hf
    | _ =>
      rw [hpc] at hf
      cases hf

theorem Proc.Ok.refs_of_fresh (h : P.Ok) (hf : f ∈ P.pc.fresh) : 0 < P.refs f := by
  have hplace := h.place
  cases hpc : P.pc with
  | open_set f' fd ip omode =>
    rw [hpc] at hf hplace
    refine h.refs_of_live (i := fd) ?_
    rw [Proc.live, hpc, List.mem_singleton.mp hf]
    exact hplace
  | open_fd | pipe_file1 | pipe_kalloc =>
    rw [hpc] at hf
    refine refs_of_held ?_
    rw [hpc]
    exact hf
  | _ =>
    rw [hpc] at hf
    cases hf

theorem Counts.ref_pos (h : Counts s) (hp : 0 < (s.procs p).refs f) : 0 < (s.ftable f).ref :=
  Nat.lt_of_lt_of_le hp ((h.refs f).le p)

/-- Nobody else has a reference to a file with one reference. -/
theorem Counts.sole (h : Counts s) (hf : (s.ftable f).ref = 1) (hp : 0 < (s.procs p).refs f)
    (hq : 0 < (s.procs q).refs f) : q = p := by
  by_contra hne
  have := (h.refs f).add_le hne
  omega

/-- Process `p` changes, and files that nobody else counts on. -/
theorem Counts.update (h : Counts s) (hprocs : s'.procs = update s.procs p P) (hp : p < NPROC)
    (hok : P.Ok) (hrefs : ∀ g, (s'.ftable g).ref + (s.procs p).refs g = (s.ftable g).ref + P.refs g)
    (hfree : ∀ g, (s'.ftable g).ref = 0 → (s'.ftable g).type = .FD_NONE)
    (hkept : ∀ q j, (s.procs q).pc.child = some (p, j) → P.state = .EMBRYO ∧ ∀ k, j ≤ k →
      P.ofile k = none)
    (hchild : ∀ np i, P.pc.child = some (np, i) → np ≠ p ∧ (s.procs np).state = .EMBRYO ∧
      (∀ k, i ≤ k → (s.procs np).ofile k = none) ∧
      ∀ q j, (s.procs q).pc.child = some (np, j) → q = p)
    (hfresh : ∀ g ∈ P.pc.fresh, (s'.ftable g).ref = 1 ∧ (s'.ftable g).type = .FD_NONE)
    (hfresh' : ∀ q g, q ≠ p → g ∈ (s.procs q).pc.fresh →
      (s'.ftable g).ref = (s.ftable g).ref ∧ (s'.ftable g).type = (s.ftable g).type)
    (htyped : ∀ g, P.Has g → g ∈ P.pc.fresh ∨ (s'.ftable g).type ≠ .FD_NONE)
    (htyped' : ∀ q g, q ≠ p → (s.procs q).Has g → (s.ftable g).type ≠ .FD_NONE →
      (s'.ftable g).type ≠ .FD_NONE) : Counts s' := by
  have hself : s'.procs p = P := by rw [hprocs, update_self]
  have hother : ∀ q, q ≠ p → s'.procs q = s.procs q := fun q hq => by
    rw [hprocs, update_of_ne hq]
  refine ⟨fun q => ?_, fun q hq => ?_, fun g => ?_, hfree, fun q np i hc => ?_,
    fun q r np i j hq hr => ?_, fun q g hg => ?_, fun q g hg => ?_⟩
  · by_cases hqp : q = p
    · rw [hqp, hself]
      exact hok
    · rw [hother q hqp]
      exact h.ok q
  · have hqp : q ≠ p := by omega
    rw [hother q hqp]
    exact h.table q hq
  · rw [hprocs]
    exact (h.refs g).move (hrefs g)
  · by_cases hqp : q = p
    · grind
    · grind [h.child]
  · by_cases hqp : q = p <;> by_cases hrp : r = p
    · rw [hqp, hrp]
    · rw [hqp, hself] at hq
      rw [hother r hrp] at hr
      exact absurd ((hchild np i hq).2.2.2 r j hr) hrp
    · rw [hrp, hself] at hr
      rw [hother q hqp] at hq
      exact absurd ((hchild np j hr).2.2.2 q i hq) hqp
    · rw [hother q hqp] at hq
      rw [hother r hrp] at hr
      exact h.one q r np i j hq hr
  · grind [h.fresh]
  · grind [h.typed]

/-- The openings go to other bearers. -/
theorem Ends.rebear (h : Ends s) (hopenings : Exact (fun o => s.ended o = 1) s.Used s'.bears)
    (hended : s'.ended = s.ended) (hopened : s'.opened = s.opened)
    (hkalloced : s'.kalloced = s.kalloced) (hpipes : s'.pipes = s.pipes)
    (hkfreed : s'.kfreed = s.kfreed) : Ends s' := by
  have hused : s'.Used = s.Used := by
    funext o
    cases o with
    | pipe i w => rw [Sys.Used, Sys.Used, hkalloced]
    | inode n => rw [Sys.Used, Sys.Used, hopened]
  refine ⟨?_, ?_, ?_, ?_, ?_⟩
  · grind
  · rw [hended]
    exact h.once
  · rw [hended, hkalloced, hpipes]
    exact h.readopen
  · rw [hended, hkalloced, hpipes]
    exact h.writeopen
  · rw [hended, hkfreed]
    exact h.kfreed

theorem Ends.congr (h : Ends s) (hbears : ∀ x, s'.bears x = s.bears x) (hended : s'.ended = s.ended)
    (hopened : s'.opened = s.opened) (hkalloced : s'.kalloced = s.kalloced)
    (hpipes : s'.pipes = s.pipes) (hkfreed : s'.kfreed = s.kfreed) : Ends s' := by
  refine h.rebear ?_ hended hopened hkalloced hpipes hkfreed
  rw [funext hbears]
  exact h.openings

end Refs

/-! ## What one process does -/

section Moves

variable {s s' : Sys} {p q f g n fd : Nat} {o o' : Nat → Option Nat} {x x' : Pc}

theorem ok_runnable (hsmall : ∀ fd, NOFILE ≤ fd → o fd = none)
    (hplace : Proc.At ⟨.RUNNABLE, o, x⟩ x) :
    Proc.Ok ⟨.RUNNABLE, o, x⟩ :=
  ⟨hsmall, fun hne => absurd rfl hne,
    fun hst => (by rcases hst with hst | hst <;> cases hst), hplace⟩

theorem bears_set {P : Proc} (hopen : P.pc.opening = (s.procs p).pc.opening) (y : Nat ⊕ Nat) :
    (s.set p P).bears y = s.bears y := by
  rcases y with f | q
  · rfl
  · change (update s.procs p P q).pc.opening = (s.procs q).pc.opening
    by_cases hq : q = p
    · grind
    · rw [update_of_ne hq]

theorem Counts.not_child (h : Counts s) (hp : (s.procs p).state ≠ .EMBRYO) (q j : Nat) :
    (s.procs q).pc.child ≠ some (p, j) :=
  fun hq => hp (h.child q p j hq).1

/-- A process goes on, with the references that it had. -/
theorem Inv.move (h : Inv s) (hp : p < NPROC) (hP : s.procs p = ⟨.RUNNABLE, o, x⟩)
    (hok : Proc.Ok ⟨.RUNNABLE, o', x'⟩)
    (hrefs : ∀ g, Proc.refs ⟨.RUNNABLE, o', x'⟩ g = Proc.refs ⟨.RUNNABLE, o, x⟩ g)
    (hchild : ∀ np i, x'.child = some (np, i) → ∃ j ≤ i, x.child = some (np, j))
    (hfresh : ∀ g ∈ x'.fresh, g ∈ x.fresh)
    (htyped : ∀ g, Proc.Has ⟨.RUNNABLE, o', x'⟩ g → g ∈ x'.fresh ∨ Proc.Has ⟨.RUNNABLE, o, x⟩ g ∧
      g ∉ x.fresh) (hopen : x'.opening = x.opening) : Inv (s.set p ⟨.RUNNABLE, o', x'⟩) := by
  have hnotchild := h.not_child (p := p) (by rw [hP]; exact fun hst => by cases hst)
  refine ⟨h.toCounts.update rfl hp hok (fun g => ?_) h.free
    (fun q j hq => absurd hq (hnotchild q j)) (fun np i hc => ?_) (fun g hg => ?_)
    (fun _ _ _ _ => ⟨rfl, rfl⟩) (fun g hg => ?_) (fun _ _ _ _ ht => ht),
    h.toEnds.congr (bears_set (by rw [hP]; exact hopen)) rfl rfl rfl rfl rfl, h.calm⟩
  · rw [hP, hrefs g]
    rfl
  · obtain ⟨j, hj, hx⟩ := hchild np i hc
    have hpc : (s.procs p).pc.child = some (np, j) := by rw [hP]; exact hx
    obtain ⟨hstate, hnone⟩ := h.child p np j hpc
    refine ⟨?_, hstate, fun k hk => hnone k (hj.trans hk), fun q k hq => h.one q p np k j hq hpc⟩
    rintro rfl
    exact hnotchild np j hpc
  · have := h.fresh p g
    rw [hP] at this
    exact this (hfresh g hg)
  · refine (htyped g hg).imp_right fun ⟨hhas, hnot⟩ => ?_
    have := h.typed p g
    rw [hP] at this
    exact (this hhas).resolve_left hnot

/-- The references of a process to a file change, and the file stays in use. -/
theorem Inv.refile (h : Inv s) (hp : p < NPROC) {P : Proc} (hn : 0 < n)
    (hothers : ∀ q, q ≠ p → f ∉ (s.procs q).pc.fresh) (hok : P.Ok)
    (hf : n + (s.procs p).refs f = (s.ftable f).ref + P.refs f)
    (hrefs : ∀ g, g ≠ f → P.refs g = (s.procs p).refs g)
    (hkept : ∀ q j, (s.procs q).pc.child = some (p, j) →
      P.state = .EMBRYO ∧ ∀ k, j ≤ k → P.ofile k = none) (hchild : P.pc.child = none)
    (hfresh : ∀ g ∈ P.pc.fresh, g ≠ f ∧ g ∈ (s.procs p).pc.fresh ∨
      g = f ∧ n = 1 ∧ (s.ftable f).ref = 0)
    (htyped : ∀ g, P.Has g → g ∈ P.pc.fresh ∨ (s.ftable g).type ≠ .FD_NONE)
    (hopen : P.pc.opening = (s.procs p).pc.opening) :
    Inv ((s.setFile f { s.ftable f with ref := n }).set p P) := by
  have htype : ∀ g, (update s.ftable f { s.ftable f with ref := n } g).type =
      (s.ftable g).type := by
    grind
  refine ⟨h.toCounts.update rfl hp hok (fun g => ?_) (fun g hg => ?_) hkept (fun np i hc => ?_)
    (fun g hg => ?_) (fun q g hq hg => ?_) (fun g hg => ?_)
    (fun q g _ _ ht => (htype g).trans_ne ht),
    h.toEnds.congr (fun y => ?_) rfl rfl rfl rfl rfl, h.calm⟩
  · change (update s.ftable f _ g).ref + _ = _
    by_cases hg : g = f
    · rw [hg, update_self]
      exact hf
    · rw [update_of_ne hg, hrefs g hg]
  · change (update s.ftable f _ g).ref = 0 at hg
    refine (htype g).trans (h.free g ?_)
    by_cases hgf : g = f
    · grind
    · rwa [update_of_ne hgf] at hg
  · rw [hc] at hchild
    cases hchild
  · change (update s.ftable f _ g).ref = 1 ∧ (update s.ftable f _ g).type = _
    rw [htype]
    rcases hfresh g hg with ⟨hgf, hgx⟩ | ⟨rfl, hn1, h0⟩
    · rw [update_of_ne hgf]
      exact h.fresh p g hgx
    · rw [update_self]
      exact ⟨hn1, h.free g h0⟩
  · refine ⟨?_, htype g⟩
    change (update s.ftable f _ g).ref = _
    rw [update_of_ne]
    rintro rfl
    exact hothers q hq hg
  · exact (htyped g hg).imp_right (htype g).trans_ne
  · refine (bears_set (s := s.setFile f _) hopen y).trans ?_
    rcases y with g | q
    · change (if 0 < (update s.ftable f _ g).ref then (update s.ftable f _ g).opening else none) = _
      by_cases hgf : g = f
      · rw [hgf, update_self, if_pos hn]
        change (s.ftable f).opening = if 0 < (s.ftable f).ref then (s.ftable f).opening else none
        split
        · rfl
        · rename_i hpos
          rw [File.opening, h.free f (Nat.eq_zero_of_not_pos hpos)]
      · rw [update_of_ne hgf]
        rfl
    · rfl

/-- A process takes or drops a reference to a file that stays in use. -/
theorem Inv.recount (h : Inv s) (hp : p < NPROC) (hP : s.procs p = ⟨.RUNNABLE, o, x⟩) (hn : 0 < n)
    (hmine : (s.ftable f).ref = 0 ∨ 0 < Proc.refs ⟨.RUNNABLE, o, x⟩ f)
    (hok : Proc.Ok ⟨.RUNNABLE, o', x'⟩)
    (hf : n + Proc.refs ⟨.RUNNABLE, o, x⟩ f = (s.ftable f).ref + Proc.refs ⟨.RUNNABLE, o', x'⟩ f)
    (hrefs : ∀ g, g ≠ f → Proc.refs ⟨.RUNNABLE, o', x'⟩ g = Proc.refs ⟨.RUNNABLE, o, x⟩ g)
    (hchild : x'.child = none)
    (hfresh : ∀ g ∈ x'.fresh, g ≠ f ∧ g ∈ x.fresh ∨ g = f ∧ n = 1 ∧ (s.ftable f).ref = 0)
    (htyped : ∀ g, Proc.Has ⟨.RUNNABLE, o', x'⟩ g → g ∈ x'.fresh ∨ Proc.Has ⟨.RUNNABLE, o, x⟩ g ∧
      g ∉ x.fresh) (hopen : x'.opening = x.opening) :
    Inv ((s.setFile f { s.ftable f with ref := n }).set p ⟨.RUNNABLE, o', x'⟩) := by
  have hne : (s.procs p).state ≠ .EMBRYO := by grind
  rw [← hP] at hmine hf hrefs
  refine h.refile hp hn (fun q hq hfresh => ?_) hok hf hrefs
    (fun q j hq => absurd hq (h.not_child hne q j))
    hchild (by rw [hP]; exact hfresh) (fun g hg => ?_) (by rw [hP]; exact hopen)
  · have hone := (h.fresh q f hfresh).1
    rcases hmine with h0 | hpos
    · omega
    · exact hq (h.sole hone hpos ((h.ok q).refs_of_fresh hfresh))
  · refine (htyped g hg).imp_right fun ⟨hhas, hnot⟩ => ?_
    have := h.typed p g
    rw [hP] at this
    exact (this hhas).resolve_left hnot

/-- The state of a process changes that no `fork` or `clone` works on. -/
theorem Inv.restate (h : Inv s) (hp : p < NPROC) {st : Procstate}
    (hok : Proc.Ok { s.procs p with state := st })
    (hnotchild : ∀ q j, (s.procs q).pc.child ≠ some (p, j)) :
    Inv (s.setState p st) := by
  refine ⟨h.toCounts.update rfl hp hok (fun g => rfl) h.free
    (fun q j hq => absurd hq (hnotchild q j))
    (fun np i hc => ?_) (h.fresh p) (fun _ _ _ _ => ⟨rfl, rfl⟩) (h.typed p) (fun _ _ _ _ ht => ht),
    h.toEnds.congr (bears_set rfl) rfl rfl rfl rfl rfl, h.calm⟩
  obtain ⟨hstate, hnone⟩ := h.child p np i hc
  refine ⟨?_, hstate, hnone, fun q j hq => h.one q p np j i hq hc⟩
  rintro rfl
  exact hnotchild np i hc

/-- A process starts to work on a new process. -/
theorem Inv.adopt (h : Inv s) (hp : p < NPROC) (hP : s.procs p = ⟨.RUNNABLE, o, .user⟩) {np : Nat}
    (hnp : (s.procs np).state = .EMBRYO) (hnone : ∀ k, (s.procs np).ofile k = none)
    (hone : ∀ q j, (s.procs q).pc.child ≠ some (np, j)) (thread : Bool) :
    Inv (s.goto p (.embryo np thread)) := by
  have hne : (s.procs p).state ≠ .EMBRYO := by grind
  have hrun := h.ok p
  rw [hP] at hrun
  have hset : s.goto p (.embryo np thread) = s.set p ⟨.RUNNABLE, o, .embryo np thread⟩ := by
    rw [Sys.goto, hP]
  rw [hset]
  refine ⟨h.toCounts.update rfl hp (ok_runnable hrun.small trivial) (fun g => ?_) h.free
    (fun q j hq => absurd hq (h.not_child hne q j)) (fun np' i hc => ?_) (fun g hg => (by cases hg))
    (fun _ _ _ _ => ⟨rfl, rfl⟩) (fun g hg => ?_) (fun _ _ _ _ ht => ht),
    h.toEnds.congr (bears_set (by rw [hP]; rfl)) rfl rfl rfl rfl rfl, h.calm⟩
  · rw [hP]
    rfl
  · cases hc
    refine ⟨?_, hnp, fun k _ => hnone k, fun q j hq => absurd hq (hone q j)⟩
    rintro rfl
    exact hne hnp
  · have := h.typed p g
    rw [hP] at this
    exact this hg

/-- `np->ofile[i] = filedup(proc->ofile[i])`. -/
theorem Inv.copy (h : Inv s) (hp : p < NPROC) {np i : Nat}
    (hP : s.procs p = ⟨.RUNNABLE, o, .copy np i⟩) (hi : i < NOFILE) (hf : o i = some f) :
    Inv (((s.setFile f { s.ftable f with ref := (s.ftable f).ref + 1 }).set np
      ((s.procs np).setOfile i (some f))).goto p (.copy np (i + 1))) := by
  have hrun := h.ok p
  rw [hP] at hrun
  have hc : (s.procs p).pc.child = some (np, i) := by rw [hP]; rfl
  obtain ⟨hstate, hnone⟩ := h.child p np i hc
  have hne : p ≠ np := by grind
  have hnp : np < NPROC := by grind [h.table]
  -- the parent goes on first: the descriptor that it fills is then one that it has passed
  have h1 : Inv (s.set p ⟨.RUNNABLE, o, .copy np (i + 1)⟩) := by
    refine h.move hp hP (ok_runnable hrun.small trivial) (fun g => rfl) (fun np' j hj => ?_)
      (fun g hg => (by cases hg)) (fun g hg => Or.inr ⟨hg, List.not_mem_nil⟩) rfl
    cases hj
    exact ⟨i, Nat.le_succ i, rfl⟩
  have hprocs : (s.set p ⟨.RUNNABLE, o, .copy np (i + 1)⟩).procs np = s.procs np :=
    update_of_ne hne.symm _ _
  have hswap : ((s.setFile f { s.ftable f with ref := (s.ftable f).ref + 1 }).set np
      ((s.procs np).setOfile i (some f))).goto p (.copy np (i + 1)) =
      ((s.set p ⟨.RUNNABLE, o, .copy np (i + 1)⟩).setFile f
        { s.ftable f with ref := (s.ftable f).ref + 1 }).set np
        ((s.procs np).setOfile i (some f)) := by
    unfold Sys.goto Sys.set Sys.setFile
    simp only [update_of_ne hne, hP, update_comm hne]
  rw [hswap]
  have hidle : (s.procs np).pc = .user :=
    (h.ok np).idle (by rw [hstate]; exact fun hst => by cases hst)
  have hlive : (s.procs np).live = (s.procs np).ofile := by
    rw [Proc.live, hidle]
    rfl
  have hlive' : ((s.procs np).setOfile i (some f)).live = update (s.procs np).ofile i (some f) := by
    rw [Proc.live, show ((s.procs np).setOfile i (some f)).pc = (s.procs np).pc from rfl, hidle]
    rfl
  have hmine : 0 < (s.procs p).refs f := by
    rw [hP]
    exact hrun.refs_of_live (i := i) hf
  have htype : (s.ftable f).type ≠ .FD_NONE := by
    have := h.typed p f
    rw [hP] at this
    exact (this (Or.inl ⟨i, hf⟩)).resolve_left List.not_mem_nil
  have hok : ((s.procs np).setOfile i (some f)).Ok := by
    refine ⟨fun fd hfd => ?_, fun _ => hidle, fun hst => ?_, ?_⟩
    · change update (s.procs np).ofile i (some f) fd = none
      rw [update_of_ne (by omega)]
      exact (h.ok np).small fd hfd
    · change (s.procs np).state = _ ∨ (s.procs np).state = _ at hst
      rw [hstate] at hst
      rcases hst with hst | hst <;> cases hst
    · change Proc.At _ (s.procs np).pc
      rw [hidle]
      trivial
  have hrefs : ∀ g, ((s.procs np).setOfile i (some f)).refs g =
      (s.procs np).refs g + if some f = some g then 1 else 0 := by
    intro g
    have hslots := slots_update (o := (s.procs np).ofile) (v := some f) (f := g) hi
    rw [hnone i le_rfl, if_neg (by simp)] at hslots
    rw [Proc.refs, Proc.refs, hlive, hlive',
      show ((s.procs np).setOfile i (some f)).pc = (s.procs np).pc from rfl]
    omega
  refine h1.refile hnp (Nat.succ_pos _) (fun q hq hfresh => ?_) hok ?_ (fun g hg => ?_)
    (fun q j hq => ?_) ?_ (fun g hg => ?_) (fun g hg => ?_) ?_
  · by_cases hqp : q = p
    · rw [hqp, show (s.set p _).procs p = _ from update_self ..] at hfresh
      cases hfresh
    · rw [show (s.set p _).procs q = s.procs q from update_of_ne hqp _ _] at hfresh
      exact hqp (h.sole (h.fresh q f hfresh).1 hmine ((h.ok q).refs_of_fresh hfresh))
  · rw [hprocs, hrefs, if_pos rfl]
    change (s.ftable f).ref + 1 + _ = (s.ftable f).ref + _
    omega
  · grind
  · refine ⟨hstate, fun k hk => ?_⟩
    have hqp : q = p := h1.one q p np j (i + 1) hq (by
      rw [show (s.set p _).procs p = _ from update_self ..]
      rfl)
    rw [hqp, show (s.set p _).procs p = _ from update_self ..] at hq
    cases hq
    change update (s.procs np).ofile i (some f) k = none
    rw [update_of_ne (by omega)]
    exact hnone k (by omega)
  · change (s.procs np).pc.child = none
    rw [hidle]
    rfl
  · change g ∈ (s.procs np).pc.fresh at hg
    rw [hidle] at hg
    cases hg
  · rcases hg with ⟨k, hk⟩ | hg
    · rw [hlive'] at hk
      by_cases hki : k = i
      · rw [hki, update_self] at hk
        cases hk
        exact Or.inr htype
      · rw [update_of_ne hki] at hk
        refine Or.inr ((h.typed np g (Or.inl ⟨k, ?_⟩)).resolve_left ?_)
        · rw [hlive]
          exact hk
        · rw [hidle]
          exact List.not_mem_nil
    · change g ∈ (s.procs np).pc.ready at hg
      rw [hidle] at hg
      cases hg
  · rw [hprocs]
    rfl

/-- The last reference to a file goes, and its opening goes with the process. -/
theorem Inv.last (h : Inv s) (hp : p < NPROC) {k : Cont}
    (hP : s.procs p = ⟨.RUNNABLE, o, .fileclose f k⟩) (hone : (s.ftable f).ref = 1) :
    Inv ((s.setFile f { s.ftable f with ref := 0, type := .FD_NONE }).set p
      ⟨.RUNNABLE, o, .close { s.ftable f with ref := n } k⟩) := by
  have hrun := h.ok p
  have htyped := h.typed p
  rw [hP] at hrun htyped
  have hmine : 0 < (s.procs p).refs f := by
    rw [hP]
    exact refs_of_held List.mem_cons_self
  have hheld : ∀ g, Proc.refs ⟨.RUNNABLE, o, .fileclose f k⟩ g =
      Proc.refs ⟨.RUNNABLE, o, .close { s.ftable f with ref := n } k⟩ g + if f = g then 1
      else 0 := by
    intro g
    let live := Proc.live ⟨.RUNNABLE, o, .fileclose f k⟩
    change slots live g + (f :: k.held).count g = slots live g + k.held.count g + _
    simp only [List.count_cons, beq_iff_eq]
    omega
  have hsole : ∀ q, 0 < (s.procs q).refs f → q = p := fun q hq => h.sole hone hmine hq
  refine ⟨h.toCounts.update rfl hp (ok_runnable hrun.small hrun.place) (fun g => ?_)
    (fun g hg => ?_)
    (fun q j hq => absurd hq (h.not_child (by rw [hP]; exact fun hst => by cases hst) q j))
    (fun np i hc => (by cases hc)) (fun g hg => (by cases hg)) (fun q g hq hg => ?_)
    (fun g hg => ?_) (fun q g hq hg ht => ?_), h.toEnds.rebear ?_ rfl rfl rfl rfl rfl, h.calm⟩
  · change (update s.ftable f _ g).ref + _ = _
    rw [hP, hheld g]
    by_cases hg : g = f
    · grind
    · grind
  · change (update s.ftable f _ g).type = _
    change (update s.ftable f _ g).ref = 0 at hg
    by_cases hgf : g = f
    · rw [hgf, update_self]
    · grind [h.free]
  · have hgf : g ≠ f := by
      rintro rfl
      exact hq (hsole q ((h.ok q).refs_of_fresh hg))
    change (update s.ftable f _ g).ref = _ ∧ (update s.ftable f _ g).type = _
    rw [update_of_ne hgf]
    exact ⟨rfl, rfl⟩
  · right
    change (update s.ftable f _ g).type ≠ _
    have hpos :=
      (ok_runnable hrun.small hrun.place : Proc.Ok ⟨.RUNNABLE, o,
        .close { s.ftable f with ref := n } k⟩).refs_of_has hg
    have hgf : g ≠ f := by
      rintro rfl
      have hle := (h.refs g).le p
      rw [hP, hheld g, if_pos rfl] at hle
      omega
    rw [update_of_ne hgf]
    exact (htyped g hg).resolve_left List.not_mem_nil
  · change (update s.ftable f _ g).type ≠ _
    have hgf : g ≠ f := by
      rintro rfl
      exact hq (hsole q ((h.ok q).refs_of_has hg))
    rwa [update_of_ne hgf]
  · have hinl : s.bears (.inl f) = (s.ftable f).opening := if_pos (by omega)
    have hinr : s.bears (.inr p) = none := by
      change (s.procs p).pc.opening = none
      rw [hP]
      rfl
    have hbears : ((s.setFile f { s.ftable f with ref := 0, type := .FD_NONE }).set p
        ⟨.RUNNABLE, o, .close { s.ftable f with ref := n } k⟩).bears =
        update (update s.bears (.inl f) none) (.inr p) (s.ftable f).opening := by
      funext y
      rcases y with g | q
      · rw [update_of_ne (by simp)]
        change (if 0 < (update s.ftable f _ g).ref then _ else _) = _
        by_cases hgf : g = f
        · grind
        · rw [update_of_ne hgf, update_of_ne (by simpa using hgf)]
          change (if _ then (update s.ftable f _ g).opening else _) = _
          rw [update_of_ne hgf]
          rfl
      · change (update s.procs p _ q).pc.opening = _
        by_cases hqp : q = p
        · rw [hqp, update_self, update_self]
          rfl
        · rw [update_of_ne hqp, update_of_ne (by simpa using hqp),
            update_of_ne (by simp)]
          rfl
    rw [hbears]
    cases hop : (s.ftable f).opening with
    | none =>
      have hsame : update s.bears (.inl f) none = s.bears :=
        update_eq_self_iff.mpr (hinl.trans hop).symm
      rw [hsame, update_eq_self_iff.mpr hinr.symm]
      exact h.openings
    | some op => exact h.openings.move (hinl.trans hop) hinr

/-- What `closeLast` leaves alone. -/
theorem closeLast_frame (s : Sys) (ff : File) :
    (closeLast s ff).procs = s.procs ∧ (closeLast s ff).ftable = s.ftable ∧
    (closeLast s ff).opened = s.opened ∧ (closeLast s ff).kalloced = s.kalloced ∧
    (closeLast s ff).panicked = s.panicked ∧ (closeLast s ff).initproc = s.initproc := by
  unfold closeLast
  split
  · simp
  · split
    · exact ⟨rfl, rfl, rfl, rfl, rfl, rfl⟩
    · simp

/-- The opening that `closeLast` ends, and no other, has ended once more. -/
theorem closeLast_ended {ff : File} {op : Opening} (hop : ff.opening = some op) :
    (closeLast s ff).ended = update s.ended op (s.ended op + 1) := by
  unfold closeLast
  rw [hop]
  cases op with
  | pipe i w => rfl
  | inode n => rfl

/-- A pipe whose end is closed the first time. -/
theorem Ends.pipeclose (h : Ends s) {i : Nat} {w : Bool} (h0 : s.ended (.pipe i w) = 0) (hi : 0 < i)
    (hle : i ≤ s.kalloced) (j : Nat) :
    (0 < j → j ≤ s.kalloced → (((pipeclose s i w).pipes j).readopen = true ↔
      update s.ended (.pipe i w) 1 (.pipe j false) = 0)) ∧
    (0 < j → j ≤ s.kalloced → (((pipeclose s i w).pipes j).writeopen = true ↔
      update s.ended (.pipe i w) 1 (.pipe j true) = 0)) ∧
    (pipeclose s i w).kfreed j = if update s.ended (.pipe i w) 1 (.pipe j false) = 1 ∧
      update s.ended (.pipe i w) 1 (.pipe j true) = 1 then 1 else 0 := by
  have hread := h.readopen j
  have hwrite := h.writeopen j
  have hfreed := h.kfreed j
  have honce := h.once (.pipe j false)
  have honce' := h.once (.pipe j true)
  by_cases hj : j = i
  · subst hj
    have hread := hread hi hle
    have hwrite := hwrite hi hle
    cases w with
    | false =>
      have hother : update s.ended (.pipe j false) 1 (.pipe j true) = s.ended (.pipe j true) :=
        update_of_ne (by simp) _ _
      rw [h0] at hfreed
      simp only [file.pipeclose, Pipe.close, update_self, hother]
      refine ⟨by simp, fun _ _ => hwrite, ?_⟩
      by_cases hw : (s.pipes j).writeopen = true
      · simp [hw, hwrite.mp hw, hfreed]
      · grind
    | true =>
      have hother : update s.ended (.pipe j true) 1 (.pipe j false) = s.ended (.pipe j false) :=
        update_of_ne (by simp) _ _
      rw [h0] at hfreed
      simp only [file.pipeclose, Pipe.close, update_self, hother]
      refine ⟨fun _ _ => hread, by simp, ?_⟩
      by_cases hr : (s.pipes j).readopen = true
      · simp [hr, hread.mp hr, hfreed]
      · grind
  · have hne : ∀ b, update s.ended (.pipe i w) 1 (.pipe j b) = s.ended (.pipe j b) := fun b =>
      update_of_ne (by simp [hj]) _ _
    rw [hne, hne]
    refine ⟨?_, ?_, ?_⟩
    · change _ → _ → ((update s.pipes i _ j).readopen = true ↔ _)
      rwa [update_of_ne hj]
    · change _ → _ → ((update s.pipes i _ j).writeopen = true ↔ _)
      rwa [update_of_ne hj]
    · rw [← hfreed]
      change (if _ then update s.kfreed i _ else s.kfreed) j = s.kfreed j
      split
      · exact update_of_ne hj _ _
      · rfl

/-- The opening that a process bears ends. -/
theorem Ends.finish (h : Ends s) {P : Proc} {ff : File} {op : Opening} (hop : ff.opening = some op)
    (hinr : s.bears (.inr p) = some op)
    (hbears : ((closeLast s ff).set p P).bears = update s.bears (.inr p) none) :
    Ends ((closeLast s ff).set p P) := by
  obtain ⟨-, -, hopened, hkalloced, -, -⟩ := closeLast_frame s ff
  have hzero : s.ended op = 0 := by
    have h1 := h.openings.apart _ _ hinr
    have h2 := h.once op
    omega
  have hended : ((closeLast s ff).set p P).ended = update s.ended op 1 := by
    change (closeLast s ff).ended = _
    rw [closeLast_ended hop, hzero]
  have hreserved : (fun o => update s.ended op 1 o = 1) = fun o => o = op ∨ s.ended o = 1 := by
    grind
  have hused : ((closeLast s ff).set p P).Used = s.Used := by
    funext o
    cases o with
    | pipe i w => exact congrArg (fun n => 0 < i ∧ i ≤ n) hkalloced
    | inode n => exact congrArg (fun m => n < m) hopened
  have hpipes : ∀ j, (0 < j → j ≤ s.kalloced → (((closeLast s ff).pipes j).readopen = true ↔
        update s.ended op 1 (.pipe j false) = 0)) ∧
      (0 < j → j ≤ s.kalloced → (((closeLast s ff).pipes j).writeopen = true ↔
        update s.ended op 1 (.pipe j true) = 0)) ∧
      (closeLast s ff).kfreed j = if update s.ended op 1 (.pipe j false) = 1 ∧
        update s.ended op 1 (.pipe j true) = 1 then 1 else 0 := by
    intro j
    cases op with
    | pipe i w =>
      have hlive := h.openings.used_of_held hinr
      have hlast := h.pipeclose hzero hlive.1 hlive.2 j
      have hsame : (closeLast s ff).pipes = (file.pipeclose s i w).pipes ∧
          (closeLast s ff).kfreed = (file.pipeclose s i w).kfreed := by
        unfold closeLast
        rw [hop]
        exact ⟨rfl, rfl⟩
      rw [hsame.1, hsame.2]
      exact hlast
    | inode n =>
      have hsame : (closeLast s ff).pipes = s.pipes ∧ (closeLast s ff).kfreed = s.kfreed := by
        unfold closeLast
        rw [hop]
        exact ⟨rfl, rfl⟩
      rw [hsame.1, hsame.2, update_of_ne (by simp), update_of_ne (by simp)]
      exact ⟨h.readopen j, h.writeopen j, h.kfreed j⟩
  refine ⟨?_, fun o => ?_, fun j h0 hj => ?_, fun j h0 hj => ?_, fun j => ?_⟩
  · rw [hended, hreserved, hused, hbears]
    exact h.openings.retire hinr
  · rw [hended]
    by_cases ho : o = op
    · rw [ho, update_self]
    · rw [update_of_ne ho]
      exact h.once o
  · rw [hended]
    exact (hpipes j).1 h0 (hkalloced ▸ hj)
  · rw [hended]
    exact (hpipes j).2.1 h0 (hkalloced ▸ hj)
  · rw [hended]
    exact (hpipes j).2.2

/-- `pipeclose` or `iput`, for the last reference. -/
theorem Inv.finish (h : Inv s) (hp : p < NPROC) {ff : File} {k : Cont}
    (hP : s.procs p = ⟨.RUNNABLE, o, .close ff k⟩) : Inv ((closeLast s ff).goto p k.pc) := by
  have hrun := h.ok p
  have htyped := h.typed p
  rw [hP] at hrun htyped
  obtain ⟨hprocs, hftable, -, -, hpanic, -⟩ := closeLast_frame s ff
  have hset : (closeLast s ff).goto p k.pc = (closeLast s ff).set p ⟨.RUNNABLE, o, k.pc⟩ := by
    rw [Sys.goto, hprocs, hP]
  have hok : Proc.Ok ⟨.RUNNABLE, o, k.pc⟩ := by
    refine ok_runnable hrun.small ?_
    cases k with
    | done => trivial
    | fileclose f => trivial
    | exit_clear fd => exact hrun.place
  have hcounts : Counts ((closeLast s ff).set p ⟨.RUNNABLE, o, k.pc⟩) := by
    refine h.toCounts.update (by rw [Sys.set, hprocs]) hp hok (fun g => ?_) (fun g => ?_)
      (fun q j hq => absurd hq (h.not_child (by rw [hP]; exact fun hst => by cases hst) q j))
      (fun np i hc => ?_) (fun g hg => ?_) (fun q g _ _ => ?_) (fun g hg => ?_)
      (fun q g _ _ ht => ?_)
    · change ((closeLast s ff).ftable g).ref + _ = _
      rw [hftable, hP]
      cases k <;> rfl
    · change ((closeLast s ff).ftable g).ref = 0 → ((closeLast s ff).ftable g).type = _
      rw [hftable]
      exact h.free g
    · cases k <;> cases hc
    · cases k <;> cases hg
    · change ((closeLast s ff).ftable g).ref = _ ∧ ((closeLast s ff).ftable g).type = _
      rw [hftable]
      exact ⟨rfl, rfl⟩
    · right
      change ((closeLast s ff).ftable g).type ≠ _
      rw [hftable]
      refine (htyped g (hg.imp ?_ fun hr => ?_)).resolve_left List.not_mem_nil
      · cases k <;> exact id
      · cases k <;> cases hr
    · change ((closeLast s ff).ftable g).type ≠ _
      rwa [hftable]
  have hinr : s.bears (.inr p) = ff.opening := by
    change (s.procs p).pc.opening = _
    rw [hP]
    rfl
  have hbears : ((closeLast s ff).set p ⟨.RUNNABLE, o, k.pc⟩).bears =
      update s.bears (.inr p) none := by
    funext y
    rcases y with g | q
    · rw [update_of_ne (by simp)]
      change (if 0 < ((closeLast s ff).ftable g).ref then ((closeLast s ff).ftable g).opening
        else none) = _
      rw [hftable]
      rfl
    · change (update (closeLast s ff).procs p _ q).pc.opening = _
      rw [hprocs]
      by_cases hqp : q = p
      · rw [hqp, update_self, update_self]
        cases k <;> rfl
      · rw [update_of_ne hqp, update_of_ne (by simpa using hqp)]
        rfl
  rw [hset]
  refine ⟨hcounts, ?_, ?_⟩
  · cases hop : ff.opening with
    | none =>
      have hlast : closeLast s ff = s := by
        unfold closeLast
        rw [hop]
      rw [hlast] at hbears ⊢
      refine h.toEnds.congr (fun y => ?_) rfl rfl rfl rfl rfl
      rw [hbears, update_eq_self_iff.mpr (hinr.trans hop).symm]
    | some op => exact h.toEnds.finish hop (hinr.trans hop) hbears
  · change (closeLast s ff).panicked ≠ _ ∧ (closeLast s ff).panicked ≠ _
    rw [hpanic]
    exact h.calm

/-- Files that only process `p` has, and that were not opened, are opened. -/
theorem Counts.opens (h : Counts s) (hp : p < NPROC) (hP : s.procs p = ⟨.RUNNABLE, o, x⟩)
    (hok : Proc.Ok ⟨.RUNNABLE, o, x'⟩)
    (hprocs : s'.procs = Function.update s.procs p ⟨.RUNNABLE, o, x'⟩)
    (hrefs : ∀ g, Proc.refs ⟨.RUNNABLE, o, x'⟩ g = Proc.refs ⟨.RUNNABLE, o, x⟩ g)
    (hchild : x'.child = none) (hnofresh : x'.fresh = [])
    (hhas : ∀ g, Proc.Has ⟨.RUNNABLE, o, x'⟩ g → Proc.Has ⟨.RUNNABLE, o, x⟩ g ∨ g ∈ x.fresh)
    (href : ∀ g, (s'.ftable g).ref = (s.ftable g).ref)
    (hin : ∀ g ∈ x.fresh, (s'.ftable g).type ≠ .FD_NONE)
    (hout : ∀ g, g ∉ x.fresh → (s'.ftable g).type = (s.ftable g).type) : Counts s' := by
  have hfresh := h.fresh p
  have htyped := h.typed p
  have hold := h.ok p
  rw [hP] at hfresh htyped hold
  refine h.update hprocs hp hok (fun g => ?_) (fun g hg => ?_)
    (fun q j hq => absurd hq (h.not_child (by rw [hP]; exact fun hst => by cases hst) q j))
    (fun np i hc => ?_) (fun g hg => ?_) (fun q g hq hg => ?_) (fun g hg => ?_)
    (fun q g _ _ ht => ?_)
  · rw [href, hP, hrefs]
  · grind [h.free]
  · grind
  · grind
  · have hx : g ∉ x.fresh := by
      intro hx
      refine hq (h.sole (hfresh g hx).1 (p := p) ?_ ((h.ok q).refs_of_fresh hg))
      rw [hP]
      exact hold.refs_of_fresh hx
    exact ⟨href g, hout g hx⟩
  · grind
  · grind

/-- `f->type = FD_INODE` at the end of `sys_open`. -/
theorem Inv.openinit (h : Inv s) (hp : p < NPROC) {ip omode : Nat}
    (hP : s.procs p = ⟨.RUNNABLE, o, .open_set f fd ip omode⟩) :
    Inv ((openinit s f ip omode).goto p .user) := by
  have hrun := h.ok p
  have hfresh := h.fresh p f
  rw [hP] at hrun hfresh
  obtain ⟨hone, hnone⟩ := hfresh List.mem_cons_self
  have hset : (file.openinit s f ip omode).goto p .user =
      (file.openinit s f ip omode).set p ⟨.RUNNABLE, o, .user⟩ := by
    rw [Sys.goto, show (file.openinit s f ip omode).procs p = _ from hP]
  have hself : (file.openinit s f ip omode).ftable f = { s.ftable f with
      type := .FD_INODE, ip := ip, off := 0, readable := omode &&& 1 = 0
      writable := omode &&& 1 ≠ 0 || omode &&& 2 ≠ 0, nth := s.opened } := update_self ..
  have hother : ∀ g, g ≠ f → (file.openinit s f ip omode).ftable g = s.ftable g := fun g hg =>
    update_of_ne hg _ _
  have hok : Proc.Ok ⟨.RUNNABLE, o, .user⟩ := ok_runnable hrun.small trivial
  rw [hset]
  refine ⟨h.toCounts.opens hp hP hok rfl (fun g => rfl) rfl rfl
    (fun g hg => Or.inl hg) (fun g => ?_) (fun g hg => ?_) (fun g hg => ?_), ?_, h.calm⟩
  · change ((file.openinit s f ip omode).ftable g).ref = _
    by_cases hg : g = f
    · rw [hg, hself]
    · rw [hother g hg]
  · change ((file.openinit s f ip omode).ftable g).type ≠ _
    rw [List.mem_singleton.mp hg, hself]
    exact fun ht => by cases ht
  · change ((file.openinit s f ip omode).ftable g).type = _
    rw [hother g fun he => hg (List.mem_singleton.mpr he)]
  · have hbare : s.bears (.inl f) = none := by
      change (if 0 < (s.ftable f).ref then (s.ftable f).opening else none) = none
      rw [File.opening, hnone]
      exact ite_self _
    have hbears : ((file.openinit s f ip omode).set p ⟨.RUNNABLE, o, .user⟩).bears =
        update s.bears (.inl f) (some (.inode s.opened)) := by
      funext y
      refine (bears_set (s := file.openinit s f ip omode) ?_ y).trans ?_
      · change _ = (s.procs p).pc.opening
        rw [hP]
        rfl
      rcases y with g | q
      · change (if 0 < ((file.openinit s f ip omode).ftable g).ref then
          ((file.openinit s f ip omode).ftable g).opening else none) = _
        by_cases hg : g = f
        · rw [hg, hself, update_self, if_pos (hone ▸ Nat.one_pos)]
          rfl
        · rw [hother g hg, update_of_ne (by simpa using hg)]
          rfl
      · rw [update_of_ne (by simp)]
        rfl
    have hused : ((file.openinit s f ip omode).set p ⟨.RUNNABLE, o, .user⟩).Used =
        fun op => op = .inode s.opened ∨ s.Used op := by
      funext op
      cases op with
      | pipe i w => simp [Sys.Used, Sys.set, file.openinit, Sys.setFile]
      | inode n =>
        grind [Sys.Used, Sys.set, file.openinit, Opening.inode.injEq]
    have hnew : ¬ s.Used (.inode s.opened) := Nat.lt_irrefl _
    refine ⟨?_, h.once, h.readopen, h.writeopen, h.kfreed⟩
    rw [hbears, hused]
    exact h.openings.take hnew hbare

/-- `pipealloc`, with two files and a page. -/
theorem Inv.pipeinit (h : Inv s) (hp : p < NPROC) {f0 f1 : Nat}
    (hP : s.procs p = ⟨.RUNNABLE, o, .pipe_kalloc f0 f1⟩) :
    Inv ((pipeinit s f0 f1).goto p (.pipe_fd0 f0 f1)) := by
  have hrun := h.ok p
  have hfresh := h.fresh p
  rw [hP] at hrun hfresh
  obtain ⟨hone0, hnone0⟩ := hfresh f0 List.mem_cons_self
  obtain ⟨hone1, hnone1⟩ := hfresh f1 (List.mem_cons_of_mem _ List.mem_cons_self)
  have hne : f0 ≠ f1 := by
    rintro rfl
    have hle := (h.refs f0).le p
    have hcount : Proc.refs ⟨.RUNNABLE, o, .pipe_kalloc f0 f0⟩ f0 = slots o f0 + 2 := by
      simp [Proc.refs, Proc.live, Pc.dead, Pc.held]
    rw [hP, hcount] at hle
    omega
  have hset : (file.pipeinit s f0 f1).goto p (.pipe_fd0 f0 f1) =
      (file.pipeinit s f0 f1).set p ⟨.RUNNABLE, o, .pipe_fd0 f0 f1⟩ := by
    rw [Sys.goto, show (file.pipeinit s f0 f1).procs p = _ from hP]
  have hself1 : (file.pipeinit s f0 f1).ftable f1 = { s.ftable f1 with
      type := .FD_PIPE, readable := false, writable := true, pipe := s.kalloced + 1 } := by
    refine (update_self ..).trans ?_
    change File.mk _ (update s.ftable f0 _ f1).ref _ _ _ (update s.ftable f0 _ f1).ip
      (update s.ftable f0 _ f1).off (update s.ftable f0 _ f1).nth = _
    rw [update_of_ne hne.symm]
  have hself0 : (file.pipeinit s f0 f1).ftable f0 = { s.ftable f0 with
      type := .FD_PIPE, readable := true, writable := false, pipe := s.kalloced + 1 } :=
    (update_of_ne hne _ _).trans (update_self ..)
  have hother : ∀ g, g ≠ f0 → g ≠ f1 → (file.pipeinit s f0 f1).ftable g = s.ftable g :=
    fun g h0 h1 => (update_of_ne h1 _ _).trans (update_of_ne h0 _ _)
  have hcases : ∀ g, g = f0 ∨ g = f1 ∨ g ≠ f0 ∧ g ≠ f1 := fun g => by tauto
  have hok : Proc.Ok ⟨.RUNNABLE, o, .pipe_fd0 f0 f1⟩ := ok_runnable hrun.small trivial
  rw [hset]
  refine ⟨h.toCounts.opens hp hP hok rfl (fun g => rfl) rfl rfl
    (fun g hg => ?_) (fun g => ?_) (fun g hg => ?_) (fun g hg => ?_), ?_, h.calm⟩
  · exact hg.imp Or.inl id
  · change ((file.pipeinit s f0 f1).ftable g).ref = _
    rcases hcases g with rfl | rfl | ⟨h0, h1⟩
    · rw [hself0]
    · rw [hself1]
    · rw [hother g h0 h1]
  · change ((file.pipeinit s f0 f1).ftable g).type ≠ _
    rcases hcases g with rfl | rfl | ⟨h0, h1⟩
    · grind
    · grind
    · exact absurd hg (by simp [Pc.fresh, h0, h1])
  · change ((file.pipeinit s f0 f1).ftable g).type = _
    rw [hother g (fun he => hg (by simp [Pc.fresh, he])) (fun he => hg (by simp [Pc.fresh, he]))]
  · have hbare : ∀ g, (s.ftable g).type = .FD_NONE → s.bears (.inl g) = none := by
      intro g hg
      change (if 0 < (s.ftable g).ref then (s.ftable g).opening else none) = none
      rw [File.opening, hg]
      exact ite_self _
    let i := s.kalloced + 1
    have hbears : ((file.pipeinit s f0 f1).set p ⟨.RUNNABLE, o, .pipe_fd0 f0 f1⟩).bears =
        update (update s.bears (.inl f0) (some (.pipe i false))) (.inl f1)
        (some (.pipe i true)) := by
      funext y
      refine (bears_set (s := file.pipeinit s f0 f1) ?_ y).trans ?_
      · change _ = (s.procs p).pc.opening
        rw [hP]
        rfl
      rcases y with g | q
      · change (if 0 < ((file.pipeinit s f0 f1).ftable g).ref then
          ((file.pipeinit s f0 f1).ftable g).opening else none) = _
        rcases hcases g with rfl | rfl | ⟨h0, h1⟩
        · rw [hself0, update_of_ne (by simpa using hne), update_self, if_pos (hone0 ▸ Nat.one_pos)]
          rfl
        · rw [hself1, update_self, if_pos (hone1 ▸ Nat.one_pos)]
          rfl
        · rw [hother g h0 h1, update_of_ne (by simpa using h1),
            update_of_ne (by simpa using h0)]
          rfl
      · rw [update_of_ne (by simp), update_of_ne (by simp)]
        rfl
    have hused : ((file.pipeinit s f0 f1).set p ⟨.RUNNABLE, o, .pipe_fd0 f0 f1⟩).Used =
        fun op => op = .pipe i true ∨ op = .pipe i false ∨ s.Used op := by
      funext op
      cases op with
      | pipe j w =>
        have hkalloced : ((file.pipeinit s f0 f1).set p ⟨.RUNNABLE, o, .pipe_fd0 f0 f1⟩).kalloced =
          s.kalloced + 1 := rfl
        cases w <;> simp only [Sys.Used, Opening.pipe.injEq, hkalloced, eq_iff_iff,
          i] <;> simp <;> omega
      | inode n => simp [Sys.Used, Sys.set, file.pipeinit, Sys.setFile]
    have hnew : ∀ w, ¬ s.Used (.pipe i w) := fun w hu => absurd hu.2 (Nat.not_succ_le_self _)
    have hunended : ∀ w, s.ended (.pipe i w) = 0 := by
      intro w
      have hnot : s.ended (.pipe i w) ≠ 1 := fun h1 =>
        hnew w ((h.openings.used_iff _).mpr (Or.inl h1))
      have := h.once (.pipe i w)
      omega
    have hpipe : ((file.pipeinit s f0 f1).pipes i) = ⟨true, true⟩ := update_self ..
    have hpipes : ∀ j, j ≠ i → (file.pipeinit s f0 f1).pipes j = s.pipes j := fun j hj =>
      update_of_ne hj _ _
    refine ⟨?_, h.once, fun j h0 hj => ?_, fun j h0 hj => ?_, h.kfreed⟩
    · rw [hbears, hused]
      refine (h.openings.take (hnew false) (hbare f0 hnone0)).take ?_ ?_
      · grind
      · grind
    · change ((file.pipeinit s f0 f1).pipes j).readopen = true ↔ s.ended (.pipe j false) = 0
      by_cases hji : j = i
      · rw [hji, hpipe, hunended]
        exact iff_of_true rfl rfl
      · rw [hpipes j hji]
        exact h.readopen j h0 (by change j ≤ s.kalloced + 1 at hj; omega)
    · change ((file.pipeinit s f0 f1).pipes j).writeopen = true ↔ s.ended (.pipe j true) = 0
      by_cases hji : j = i
      · rw [hji, hpipe, hunended]
        exact iff_of_true rfl rfl
      · rw [hpipes j hji]
        exact h.writeopen j h0 (by change j ≤ s.kalloced + 1 at hj; omega)

end Moves

/-! ## The steps -/

section Steps

variable {s s' : Sys} {p q f g fd : Nat} {o : Nat → Option Nat} {x : Pc} {P P' : Proc}

theorem filealloc_spec (h : filealloc s = some (f, s')) :
    (s.ftable f).ref = 0 ∧ s' = s.setFile f { s.ftable f with ref := 1 } := by
  obtain ⟨f', hfind, heq⟩ := map_eq_some_iff.mp h
  cases heq
  exact ⟨by simpa using List.find?_some hfind, rfl⟩

theorem fdalloc_spec (h : fdalloc P f = some (fd, P')) :
    fd < NOFILE ∧ P.ofile fd = none ∧ P' = P.setOfile fd (some f) := by
  obtain ⟨fd', hfind, heq⟩ := map_eq_some_iff.mp h
  cases heq
  obtain ⟨hlt, hfree⟩ := bytes.scan_eq_some hfind
  exact ⟨hlt, of_decide_eq_true hfree, rfl⟩

/-- An empty descriptor becomes the file. -/
theorem slots_put (hfd : fd < NOFILE) (hnone : o fd = none) (g : Nat) :
    slots (update o fd (some f)) g = slots o g + if f = g then 1 else 0 := by
  have := slots_update (o := o) (v := some f) (f := g) hfd
  rw [hnone, if_neg (by simp)] at this
  simpa using this

/-- A descriptor is cleared. -/
theorem slots_clear (hfd : fd < NOFILE) (hsome : o fd = some f) (g : Nat) :
    slots o g = slots (update o fd none) g + if f = g then 1 else 0 := by
  have := slots_update (o := o) (v := none) (f := g) hfd
  rw [hsome, if_neg (show (none : Option Nat) ≠ some g by simp)] at this
  simpa using this.symm

theorem small_update (hsmall : ∀ fd, NOFILE ≤ fd → o fd = none) (hfd : fd < NOFILE)
    (v : Option Nat) (i : Nat) (hi : NOFILE ≤ i) : update o fd v i = none := by
  rw [update_of_ne (by omega)]
  exact hsmall i hi

theorem put_cases {i : Nat} (h : update o fd (some f) i = some g) : g = f ∨ o i = some g := by
  by_cases hi : i = fd
  · grind
  · grind

theorem clear_cases {i : Nat} (h : update o fd none i = some g) : i ≠ fd ∧ o i = some g := by
  by_cases hi : i = fd
  · grind
  · grind

/-- The process with a file more. -/
theorem Inv.alloc (h : Inv s) (hp : p < NPROC) (hP : s.procs p = ⟨.RUNNABLE, o, x⟩) {y : Pc}
    (hf : filealloc s = some (f, s')) (hat : Proc.At ⟨.RUNNABLE, o, y⟩ y) (hdead : y.dead = x.dead)
    (hheld : ∀ g, y.held.count g = x.held.count g + if f = g then 1 else 0)
    (hchild : y.child = none) (hfresh : ∀ g ∈ y.fresh, g = f ∨ g ∈ x.fresh)
    (hsub : ∀ g ∈ x.fresh, g ∈ y.fresh) (hready : y.ready = x.ready)
    (hopen : y.opening = x.opening) : Inv (s'.goto p y) := by
  obtain ⟨hzero, rfl⟩ := filealloc_spec hf
  have hrun := h.ok p
  have hfree := h.fresh p
  rw [hP] at hrun hfree
  have hlive : Proc.live ⟨.RUNNABLE, o, y⟩ = Proc.live ⟨.RUNNABLE, o, x⟩ := by
    rw [Proc.live, Proc.live, hdead]
  have hrefs : ∀ g, Proc.refs ⟨.RUNNABLE, o, y⟩ g = Proc.refs ⟨.RUNNABLE, o, x⟩ g + if f = g then 1
      else 0 := by
    grind [Proc.refs, Nat.add_assoc]
  have hset : (s.setFile f { s.ftable f with ref := 1 }).goto p y =
      (s.setFile f { s.ftable f with ref := 1 }).set p ⟨.RUNNABLE, o, y⟩ := by
    rw [Sys.goto, show (s.setFile f _).procs p = _ from hP]
  rw [hset]
  refine h.recount hp hP Nat.one_pos (Or.inl hzero) (ok_runnable hrun.small hat) ?_
    (fun g hg => ?_) hchild (fun g hg => ?_) (fun g hg => ?_) hopen
  · rw [hrefs, if_pos rfl]
    omega
  · grind
  · grind
  · by_cases hgy : g ∈ y.fresh
    · exact Or.inl hgy
    · refine Or.inr ⟨?_, fun hx => hgy (hsub g hx)⟩
      rw [Proc.Has, hlive] at hg
      exact hg.imp_right fun hr => hready ▸ hr

/-- A fresh file in hand is no descriptor. -/
theorem Counts.not_live (h : Counts s) (hP : s.procs p = ⟨.RUNNABLE, o, x⟩) (hfresh : f ∈ x.fresh)
    (hheld : f ∈ x.held) (fd : Nat) : Proc.live ⟨.RUNNABLE, o, x⟩ fd ≠ some f := by
  intro hfd
  have hrun := h.ok p
  have hone := h.fresh p f
  have hle := (h.refs f).le p
  rw [hP] at hrun hone hle
  have h1 := slots_pos (hrun.live_small hfd) hfd
  have h2 := List.count_pos_iff.mpr hheld
  rw [(hone hfresh).1, Proc.refs] at hle
  change slots _ f + x.held.count f ≤ 1 at hle
  omega

/-- The descriptors and the place of a process change, and nothing else. -/
theorem Inv.pass (h : Inv s) (hp : p < NPROC) (hP : s.procs p = ⟨.RUNNABLE, o, x⟩)
    {o' : Nat → Option Nat} {y : Pc} (hsmall : ∀ fd, NOFILE ≤ fd → o' fd = none)
    (hat : Proc.At ⟨.RUNNABLE, o', y⟩ y)
    (hrefs : ∀ g, Proc.refs ⟨.RUNNABLE, o', y⟩ g = Proc.refs ⟨.RUNNABLE, o, x⟩ g)
    (hchild : y.child = none) (hfresh : y.fresh = [] ∨ y.fresh = x.fresh)
    (hhas : ∀ g, Proc.Has ⟨.RUNNABLE, o', y⟩ g → g ∈ y.fresh ∨ Proc.Has ⟨.RUNNABLE, o, x⟩ g ∧
      g ∉ x.fresh) (hopen : y.opening = x.opening) : Inv (s.set p ⟨.RUNNABLE, o', y⟩) := by
  refine h.move hp hP (ok_runnable hsmall hat) hrefs (fun np i hc => ?_) (fun g hg => ?_) hhas hopen
  · rw [hchild] at hc
    cases hc
  · grind

/-- `fork` or `clone` is done with its new process. -/
theorem Inv.leave (h : Inv s) (hp : p < NPROC) (hP : s.procs p = ⟨.RUNNABLE, o, x⟩) {np i : Nat}
    (hc : x.child = some (np, i)) (hx : x.dead = none ∧ x.held = [] ∧ x.fresh = [] ∧ x.ready = [] ∧
      x.opening = none) {st : Procstate} (hok : Proc.Ok { s.procs np with state := st }) :
    Inv ((s.setState np st).goto p .user) := by
  have hrun := h.ok p
  rw [hP] at hrun
  have hc : (s.procs p).pc.child = some (np, i) := by rw [hP]; exact hc
  have hstate := (h.child p np i hc).1
  have hne : p ≠ np := by grind
  have hnp : np < NPROC := by grind [h.table]
  have hlive : Proc.live ⟨.RUNNABLE, o, .user⟩ = Proc.live ⟨.RUNNABLE, o, x⟩ := by
    rw [Proc.live, Proc.live, hx.1]
    rfl
  have h1 : Inv (s.set p ⟨.RUNNABLE, o, .user⟩) := by
    refine h.pass hp hP hrun.small trivial (fun g => ?_) rfl (Or.inl rfl)
      (fun g hg => Or.inr ⟨?_, ?_⟩) hx.2.2.2.2.symm
    · rw [Proc.refs, Proc.refs, hlive, hx.2.1]
      rfl
    · exact hg.imp (fun hl => by rwa [← hlive]) fun hr => by cases hr
    · grind
  have hprocs : (s.set p ⟨.RUNNABLE, o, .user⟩).procs np = s.procs np := update_of_ne hne.symm _ _
  have hswap : (s.setState np st).goto p .user =
      (s.set p ⟨.RUNNABLE, o, .user⟩).setState np st := by
    unfold Sys.goto Sys.setState Sys.set
    simp only [update_of_ne hne, update_of_ne hne.symm, hP, update_comm hne]
  rw [hswap]
  refine h1.restate hnp (hprocs ▸ hok) fun q j hq => ?_
  by_cases hqp : q = p
  · rw [hqp, show (s.set p _).procs p = _ from update_self ..] at hq
    cases hq
  · rw [show (s.set p _).procs q = s.procs q from update_of_ne hqp _ _] at hq
    exact hqp (h.one q p np j i hq hc)

theorem Inv.go {mem : Bool} (h : Inv s) (hp : p < NPROC) (hs : go s p mem = some s') : Inv s' := by
  rcases hP : s.procs p with ⟨st, o, x⟩
  have hrun := h.ok p
  rw [hP] at hrun
  unfold file.go at hs
  simp only [hP] at hs
  by_cases hx : x = .user
  · rw [hx] at hs
    cases hs
  obtain rfl : st = .RUNNABLE := by
    by_contra hne
    exact hx (hrun.idle hne)
  have hgoto : ∀ y, s.goto p y = s.set p ⟨.RUNNABLE, o, y⟩ := fun y => by rw [Sys.goto, hP]
  have hgotoFile : ∀ f F y, (s.setFile f F).goto p y = (s.setFile f F).set p ⟨.RUNNABLE, o, y⟩ :=
    fun f F y => by rw [Sys.goto, show (s.setFile f F).procs p = _ from hP]
  cases x with
  | user => exact absurd rfl hx
  | open_file ip omode | pipe_file0 =>
    simp only at hs
    split at hs
    · cases hs
      rw [hgoto]
      exact h.pass hp hP hrun.small trivial (fun g => rfl) rfl (Or.inl rfl)
        (fun g hg => Or.inr ⟨hg, List.not_mem_nil⟩) rfl
    · rename_i f s1 hf
      cases hs
      refine h.alloc hp hP hf trivial rfl (fun g => ?_) rfl
        (fun g hg => Or.inl (List.mem_singleton.mp hg)) (fun g hg => (by cases hg)) rfl rfl
      simp [Pc.held, List.count_cons]
  | open_fd f ip omode =>
    have hnot := h.not_live hP (f := f) List.mem_cons_self List.mem_cons_self
    simp only at hs
    split at hs
    · cases hs
      rw [hgoto]
      refine h.pass hp hP hrun.small trivial (fun g => rfl) rfl (Or.inl rfl)
        (fun g hg => Or.inr ⟨hg, ?_⟩) rfl
      rintro hgf
      rw [List.mem_singleton.mp hgf] at hg
      rcases hg with ⟨fd, hfd⟩ | hg
      · exact hnot fd hfd
      · cases hg
    · rename_i fd P' hfd
      cases hs
      obtain ⟨hlt, hnone, rfl⟩ := fdalloc_spec hfd
      refine h.pass hp hP (small_update hrun.small hlt _) (update_self ..) (fun g => ?_) rfl
        (Or.inr rfl) (fun g hg => ?_) rfl
      · change slots (update o fd (some f)) g + _ = slots o g + [f].count g
        rw [slots_put hlt hnone]
        simp [List.count_cons, Pc.held]
      · by_cases hgf : g = f
        · exact Or.inl (List.mem_singleton.mpr hgf)
        · refine Or.inr ⟨?_, fun hm => hgf (List.mem_singleton.mp hm)⟩
          rcases hg with ⟨i, hi⟩ | hg
          · exact Or.inl ⟨i, (put_cases hi).resolve_left hgf⟩
          · cases hg
  | open_set f fd ip omode =>
    cases hs
    exact h.openinit hp hP
  | dup f fd =>
    obtain ⟨hlt, hsome, fd', hne, hsome'⟩ :
      fd < NOFILE ∧ o fd = some f ∧ ∃ fd', fd' ≠ fd ∧ o fd' = some f := hrun.place
    have hlive : Proc.live ⟨.RUNNABLE, o, .dup f fd⟩ fd' = some f :=
      (update_of_ne hne _ _).trans hsome'
    have hpos := hrun.refs_of_live hlive
    have href := h.ref_pos (p := p) (f := f) (by rw [hP]; exact hpos)
    have hrefs : ∀ g, Proc.refs ⟨.RUNNABLE, o, .user⟩ g =
        Proc.refs ⟨.RUNNABLE, o, .dup f fd⟩ g + if f = g then 1 else 0 :=
        fun g => slots_clear hlt hsome g
    simp only [filedup, if_neg (Nat.not_lt.mpr href)] at hs
    cases hs
    rw [hgotoFile]
    refine h.recount hp hP (Nat.succ_pos _) (Or.inr hpos) (ok_runnable hrun.small trivial) ?_
      (fun g hg => ?_)
      rfl (fun g hg => (by cases hg)) (fun g hg => Or.inr ⟨?_, List.not_mem_nil⟩) rfl
    · rw [hrefs, if_pos rfl]
      omega
    · grind
    · rcases hg with ⟨i, hi⟩ | hg
      · by_cases hifd : i = fd
        · have hi : o fd = some g := hifd ▸ hi
          rw [hsome] at hi
          cases hi
          exact Or.inl ⟨fd', hlive⟩
        · exact Or.inl ⟨i, (update_of_ne hifd _ _).trans hi⟩
      · cases hg
  | fileclose f k =>
    have hpos : 0 < Proc.refs ⟨.RUNNABLE, o, .fileclose f k⟩ f := refs_of_held List.mem_cons_self
    have href := h.ref_pos (p := p) (f := f) (by rw [hP]; exact hpos)
    by_cases hmore : (s.ftable f).ref - 1 > 0
    · simp only [file.fileclose, if_neg (Nat.not_lt.mpr href), if_pos hmore] at hs
      cases hs
      rw [hgotoFile]
      have hrefs : ∀ g, Proc.refs ⟨.RUNNABLE, o, .fileclose f k⟩ g =
          Proc.refs ⟨.RUNNABLE, o, k.pc⟩ g + if f = g then 1 else 0 := by
        intro g
        cases k <;> simp [Proc.refs, Proc.live, Cont.pc, Pc.held, Pc.dead, Cont.held, Cont.dead,
          List.count_cons, Nat.add_assoc]
      refine h.recount hp hP hmore (Or.inr hpos) (ok_runnable hrun.small ?_) ?_ (fun g hg => ?_) ?_
        (fun g hg => ?_) (fun g hg => Or.inr ⟨?_, List.not_mem_nil⟩) ?_
      · cases k with
        | done => trivial
        | fileclose f' => trivial
        | exit_clear fd => exact hrun.place
      · grind
      · grind
      · cases k <;> rfl
      · cases k <;> cases hg
      · refine hg.imp (fun hl => ?_) fun hr => ?_
        · cases k <;> exact hl
        · cases k <;> cases hr
      · cases k <;> rfl
    · simp only [file.fileclose, if_neg (Nat.not_lt.mpr href), if_neg hmore] at hs
      cases hs
      rw [hgotoFile]
      exact h.last hp hP (by omega)
  | close ff k =>
    cases hs
    exact h.finish hp hP
  | pipe_file1 f0 =>
    have hnot := h.not_live hP (f := f0) List.mem_cons_self List.mem_cons_self
    simp only at hs
    split at hs
    · cases hs
      rw [hgoto]
      refine h.pass hp hP hrun.small trivial (fun g => rfl) rfl (Or.inl rfl)
        (fun g hg => Or.inr ⟨hg, ?_⟩) rfl
      intro hgf
      rw [List.mem_singleton.mp hgf] at hg
      rcases hg with ⟨fd, hfd⟩ | hg
      · exact hnot fd hfd
      · cases hg
    · rename_i f1 s1 hf
      cases hs
      refine h.alloc hp hP hf trivial rfl (fun g => ?_) rfl (fun g hg => ?_)
        (fun g hg => (List.mem_singleton.mp hg) ▸ List.mem_cons_self) rfl rfl
      · simp only [Pc.held, List.count_cons, List.count_nil, beq_iff_eq]
        omega
      · simp only [Pc.fresh, List.mem_cons, List.not_mem_nil, or_false] at hg ⊢
        exact hg.symm
  | pipe_kalloc f0 f1 =>
    simp only at hs
    split at hs
    · cases hs
      exact h.pipeinit hp hP
    · cases hs
      rw [hgoto]
      refine h.pass hp hP hrun.small trivial (fun g => rfl) rfl (Or.inl rfl)
        (fun g hg => Or.inr ⟨?_, ?_⟩) rfl
      · exact hg.imp id fun hr => by cases hr
      · intro hfresh
        rcases hg with ⟨fd, hfd⟩ | hg
        · exact h.not_live hP hfresh hfresh fd hfd
        · cases hg
  | pipe_fd0 rf wf =>
    simp only at hs
    split at hs
    · cases hs
      rw [hgoto]
      refine h.pass hp hP hrun.small trivial (fun g => rfl) rfl (Or.inl rfl)
        (fun g hg => Or.inr ⟨?_, List.not_mem_nil⟩) rfl
      exact hg.imp id fun hr => by cases hr
    · rename_i fd0 P' hfd
      cases hs
      obtain ⟨hlt, hnone, rfl⟩ := fdalloc_spec hfd
      refine h.pass hp hP (small_update hrun.small hlt _) ⟨hlt, update_self ..⟩ (fun g => ?_) rfl
        (Or.inl rfl) (fun g hg => Or.inr ⟨?_, List.not_mem_nil⟩) rfl
      · change slots (update o fd0 (some rf)) g + [wf].count g = slots o g + [rf, wf].count g
        rw [slots_put hlt hnone]
        simp only [List.count_cons, List.count_nil, beq_iff_eq]
        omega
      · rcases hg with ⟨i, hi⟩ | hg
        · rcases put_cases hi with rfl | hi
          · exact Or.inr List.mem_cons_self
          · exact Or.inl ⟨i, hi⟩
        · exact Or.inr (List.mem_cons_of_mem _ hg)
  | pipe_fd1 rf wf fd0 =>
    obtain ⟨hlt0, hsome⟩ := hrun.place
    simp only at hs
    split at hs
    · cases hs
      refine h.pass hp hP (small_update hrun.small hlt0 _) trivial (fun g => ?_) rfl
        (Or.inl rfl) (fun g hg => Or.inr ⟨?_, List.not_mem_nil⟩) rfl
      · change slots (update o fd0 none) g + [rf, wf].count g = slots o g + [wf].count g
        rw [slots_clear hlt0 hsome]
        simp only [List.count_cons, List.count_nil, beq_iff_eq]
        omega
      · rcases hg with ⟨i, hi⟩ | hg
        · exact Or.inl ⟨i, (clear_cases hi).2⟩
        · cases hg
    · rename_i fd1 P' hfd
      cases hs
      obtain ⟨hlt, hnone, rfl⟩ := fdalloc_spec hfd
      refine h.pass hp hP (small_update hrun.small hlt _) trivial (fun g => ?_) rfl
        (Or.inl rfl) (fun g hg => Or.inr ⟨?_, List.not_mem_nil⟩) rfl
      · change slots (update o fd1 (some wf)) g + [].count g = slots o g + [wf].count g
        rw [slots_put hlt hnone]
        simp only [List.count_cons, List.count_nil, beq_iff_eq]
        omega
      · rcases hg with ⟨i, hi⟩ | hg
        · rcases put_cases hi with rfl | hi
          · exact Or.inr List.mem_cons_self
          · exact Or.inl ⟨i, hi⟩
        · cases hg
  | embryo np thread =>
    have hc := h.child p np 0 (by rw [hP]; rfl)
    simp only at hs
    split at hs
    · cases hs
      rw [hgoto]
      refine h.move hp hP (ok_runnable hrun.small trivial) (fun g => rfl) (fun np' i hi => ?_)
        (fun g hg => (by cases hg)) (fun g hg => Or.inr ⟨hg, List.not_mem_nil⟩) rfl
      cases hi
      exact ⟨0, le_rfl, rfl⟩
    · cases hs
      refine h.leave hp hP rfl ⟨rfl, rfl, rfl, rfl, rfl⟩ ⟨(h.ok np).small, fun _ => ?_,
        fun _ fd => ?_, ?_⟩
      · exact (h.ok np).idle (by rw [hc.1]; exact fun hst => by cases hst)
      · exact hc.2 fd (Nat.zero_le fd)
      · exact (h.ok np).place
  | copy np i =>
    simp only at hs
    split at hs
    · rename_i hi
      split at hs
      · cases hs
        rw [hgoto]
        refine h.move hp hP (ok_runnable hrun.small trivial) (fun g => rfl) (fun np' j hj => ?_)
          (fun g hg => (by cases hg)) (fun g hg => Or.inr ⟨hg, List.not_mem_nil⟩) rfl
        cases hj
        exact ⟨i, Nat.le_succ i, rfl⟩
      · rename_i f hf
        have href := h.ref_pos (p := p) (f := f) (by rw [hP]; exact hrun.refs_of_live (i := i) hf)
        simp only [filedup, if_neg (Nat.not_lt.mpr href)] at hs
        cases hs
        exact h.copy hp hP hi hf
    · cases hs
      refine h.leave hp hP rfl ⟨rfl, rfl, rfl, rfl, rfl⟩ ⟨(h.ok np).small,
        fun hne => absurd rfl hne, fun hst => ?_, (h.ok np).place⟩
      rcases hst with hst | hst <;> cases hst
  | exit fd =>
    have hplace : ∀ i < fd, o i = none := hrun.place
    simp only at hs
    split at hs
    · rename_i hlt
      split at hs
      · rename_i hnone
        cases hs
        rw [hgoto]
        refine h.pass hp hP hrun.small (fun i hi => ?_) (fun g => rfl) rfl (Or.inl rfl)
          (fun g hg => Or.inr ⟨hg, List.not_mem_nil⟩) rfl
        rcases Nat.lt_succ_iff_lt_or_eq.mp hi with hi | rfl
        · exact hplace i hi
        · exact hnone
      · rename_i f hf
        cases hs
        rw [hgoto]
        refine h.pass hp hP hrun.small ⟨hlt, hplace⟩ (fun g => ?_) rfl (Or.inl rfl)
          (fun g hg => Or.inr ⟨?_, List.not_mem_nil⟩) rfl
        · change slots (update o fd none) g + [f].count g = slots o g + [].count g
          rw [slots_clear hlt hf]
          simp only [List.count_cons, List.count_nil, beq_iff_eq]
          omega
        · exact hg.imp (fun ⟨i, hi⟩ => ⟨i, (clear_cases hi).2⟩) id
    · rename_i hge
      cases hs
      have hnone : ∀ i, o i = none := fun i => by
        grind [hrun.small]
      have h1 : Inv (s.set p ⟨.RUNNABLE, o, .user⟩) :=
        h.pass hp hP hrun.small trivial (fun g => rfl) rfl (Or.inl rfl)
          (fun g hg => Or.inr ⟨hg, List.not_mem_nil⟩) rfl
      have hself : (s.set p ⟨.RUNNABLE, o, .user⟩).procs p = ⟨.RUNNABLE, o, .user⟩ := update_self ..
      have hzombie : s.set p ⟨.ZOMBIE, o, .user⟩ =
          (s.set p ⟨.RUNNABLE, o, .user⟩).setState p .ZOMBIE := by
        unfold Sys.setState
        rw [hself]
        unfold Sys.set
        simp only [update_idem]
      rw [hzombie]
      refine h1.restate hp ?_ (h1.not_child ?_)
      · rw [hself]
        exact ⟨hrun.small, fun _ => rfl, fun _ => hnone, trivial⟩
      · grind
  | exit_clear fd =>
    obtain ⟨hlt, hplace⟩ := hrun.place
    cases hs
    refine h.pass hp hP (small_update hrun.small hlt _) (fun i hi => ?_) (fun g => rfl) rfl
      (Or.inl rfl) (fun g hg => Or.inr ⟨hg, List.not_mem_nil⟩) rfl
    rcases Nat.lt_succ_iff_lt_or_eq.mp hi with hi | rfl
    · exact (update_of_ne (Nat.ne_of_lt hi) _ _).trans (hplace i hi)
    · exact update_self ..

theorem Inv.stop (h : Inv s) {msg : String} (h1 : msg ≠ "filedup") (h2 : msg ≠ "fileclose") :
    Inv (s.stop msg) := by
  refine ⟨⟨h.ok, h.table, h.refs, h.free, h.child, h.one, h.fresh, h.typed⟩,
    h.toEnds.congr (fun y => ?_) rfl rfl rfl rfl rfl, by simpa [Sys.stop] using ⟨h1, h2⟩⟩
  cases y <;> rfl

theorem Inv.call {a : Act} (h : Inv s) (hp : p < NPROC) (hP : s.procs p = ⟨.RUNNABLE, o, .user⟩) :
    Inv (call s p a) := by
  have hrun := h.ok p
  rw [hP] at hrun
  have hgoto : ∀ y, s.goto p y = s.set p ⟨.RUNNABLE, o, y⟩ := fun y => by rw [Sys.goto, hP]
  -- `fork` and `clone` take an UNUSED process
  have hembryo : ∀ np thread, allocproc s = some np →
      Inv ((s.setState np .EMBRYO).goto p (.embryo np thread)) := by
    intro np thread hnp
    obtain ⟨hlt, hunused⟩ := bytes.scan_eq_some hnp
    have hstate : (s.procs np).state = .UNUSED := of_decide_eq_true hunused
    have hne : p ≠ np := by grind
    have hnotchild := h.not_child (p := np) (by rw [hstate]; exact fun hst => by cases hst)
    have hidle := (h.ok np).idle (by rw [hstate]; exact fun hst => by cases hst)
    have h1 : Inv (s.setState np .EMBRYO) := by
      refine h.restate hlt ⟨(h.ok np).small, fun _ => hidle, fun hst => ?_,
        (h.ok np).place⟩ hnotchild
      rcases hst with hst | hst <;> cases hst
    have hself : (s.setState np .EMBRYO).procs np = { s.procs np with state := .EMBRYO } :=
      update_self ..
    have hother : ∀ q, q ≠ np → (s.setState np .EMBRYO).procs q = s.procs q := fun q hq =>
      update_of_ne hq _ _
    refine h1.adopt hp ((hother p hne).trans hP) (by rw [hself]) (fun k => ?_)
      (fun q j => ?_) thread
    · rw [hself]
      exact (h.ok np).empty (Or.inl hstate) k
    · grind
  cases a with
  | «open» p' ip omode =>
    cases ip with
    | none => exact h
    | some ip =>
      change Inv (s.goto p _)
      rw [hgoto]
      exact h.pass hp hP hrun.small trivial (fun g => rfl) rfl (Or.inl rfl)
        (fun g hg => Or.inr ⟨hg, List.not_mem_nil⟩) rfl
  | dup p' fd =>
    unfold file.call
    simp only
    split
    · exact h
    · rename_i f hf
      split
      · exact h
      · rename_i fd' P' hfd
        obtain ⟨hlt, hnone, rfl⟩ := fdalloc_spec hfd
        rw [hP] at hf hnone ⊢
        obtain ⟨-, hf⟩ := ite_none_right_eq_some.mp hf
        have hne : fd ≠ fd' := by grind
        refine h.pass hp hP (small_update hrun.small hlt _)
          ⟨hlt, update_self .., fd, hne, (update_of_ne hne _ _).trans hf⟩ (fun g => ?_) rfl
          (Or.inl rfl) (fun g hg => Or.inr ⟨?_, List.not_mem_nil⟩) rfl
        · change slots (update (update o fd' (some f)) fd' none) g + _ = slots o g + _
          rw [update_idem, update_eq_self_iff.mpr (Eq.symm hnone)]
          rfl
        · rcases hg with ⟨i, hi⟩ | hg
          · have hi : update (update o fd' (some f)) fd' none i = some g := hi
            rw [update_idem, update_eq_self_iff.mpr (Eq.symm hnone)] at hi
            exact Or.inl ⟨i, hi⟩
          · cases hg
  | close p' fd =>
    unfold file.call
    simp only
    split
    · exact h
    · rename_i f hf
      rw [hP] at hf ⊢
      obtain ⟨hlt, hf⟩ := ite_none_right_eq_some.mp hf
      refine h.pass hp hP (small_update hrun.small hlt _) trivial (fun g => ?_) rfl (Or.inl rfl)
        (fun g hg => Or.inr ⟨?_, List.not_mem_nil⟩) rfl
      · change slots (update o fd none) g + [f].count g = slots o g + [].count g
        rw [slots_clear hlt hf]
        simp only [List.count_cons, List.count_nil, beq_iff_eq]
        omega
      · exact hg.imp (fun ⟨i, hi⟩ => ⟨i, (clear_cases hi).2⟩) id
  | pipe p' =>
    change Inv (s.goto p _)
    rw [hgoto]
    exact h.pass hp hP hrun.small trivial (fun g => rfl) rfl (Or.inl rfl)
      (fun g hg => Or.inr ⟨hg, List.not_mem_nil⟩) rfl
  | fork p' =>
    grind [file.call]
  | clone p' =>
    grind [file.call]
  | exit p' =>
    unfold file.call
    simp only
    split
    · exact h.stop (by decide) (by decide)
    · rw [hgoto]
      exact h.pass hp hP hrun.small (fun i hi => absurd hi (Nat.not_lt_zero i)) (fun g => rfl) rfl
        (Or.inl rfl) (fun g hg => Or.inr ⟨hg, List.not_mem_nil⟩) rfl
  | reap | go | trap => exact h

theorem Inv.step {a : Act} (h : Inv s) (hs : step s a = some s') : Inv s' := by
  unfold file.step at hs
  split at hs
  · cases hs
  rename_i hguard
  have hp : a.proc < NPROC := by omega
  have hcall : (if (s.procs a.proc).state = .RUNNABLE ∧ (s.procs a.proc).pc = .user then
      some (file.call s a.proc a) else none) = some s' → Inv s' := by
    intro hs
    obtain ⟨⟨hstate, hpc⟩, hs⟩ := ite_none_right_eq_some.mp hs
    cases hs
    refine h.call (o := (s.procs a.proc).ofile) hp ?_
    rw [← hstate, ← hpc]
  cases a with
  | go p mem => exact h.go hp hs
  | reap q =>
    obtain ⟨hstate, hs⟩ := ite_none_right_eq_some.mp hs
    cases hs
    have hne : (s.procs q).state ≠ .EMBRYO := by grind
    refine h.restate hp ⟨(h.ok q).small, fun _ => (h.ok q).idle ?_,
      fun _ => (h.ok q).empty (Or.inr hstate), (h.ok q).place⟩ (h.not_child hne)
    rw [hstate]
    exact fun hst => by cases hst
  | trap p =>
    grind [h.stop]
  | «open» | dup | close | pipe | fork | clone | exit => exact hcall hs

end Steps

/-! ## The law -/

/-- No process is in the middle of a call. -/
def Sys.Quiet (s : Sys) : Prop := ∀ p < NPROC, (s.procs p).pc = .user

instance (s : Sys) : Decidable s.Quiet := inferInstanceAs (Decidable (∀ p < NPROC, _))

/-- How many descriptors of all processes are the file. -/
def Sys.descriptors (s : Sys) (f : Nat) : Nat :=
  ((Finset.range NPROC ×ˢ Finset.range NOFILE).filter fun x => (s.procs x.1).ofile x.2 =
  some f).card

/-- Some process has a descriptor on the opening. -/
def Sys.Open (s : Sys) (op : Opening) : Prop :=
  ∃ p fd f, (s.procs p).ofile fd = some f ∧ (s.ftable f).opening = some op

section Law

variable {s : Sys} {p f : Nat}

theorem live_of_user (hp : (s.procs p).pc = .user) : (s.procs p).live = (s.procs p).ofile := by
  rw [Proc.live, hp]
  rfl

theorem Inv.quiet (h : Inv s) (hq : s.Quiet) (p : Nat) : (s.procs p).pc = .user := by
  by_cases hp : p < NPROC
  · exact hq p hp
  · refine (h.ok p).idle ?_
    rw [h.table p (Nat.le_of_not_lt hp)]
    exact fun hst => by cases hst

/-- Between calls the references are the descriptors. -/
theorem Inv.ref_eq (h : Inv s) (hq : s.Quiet) (f : Nat) : (s.ftable f).ref = s.descriptors f := by
  have hrefs : ∀ p, (s.procs p).refs f = slots (s.procs p).ofile f := by
    intro p
    rw [Proc.refs, live_of_user (h.quiet hq p), h.quiet hq p]
    rfl
  refine (h.refs f).unique ⟨Finset.range NPROC, fun p hp => ?_, ?_⟩
  · refine (hrefs p).trans (slots_eq_zero fun fd => ?_)
    rw [(h.ok p).empty (Or.inl (h.table p (by simpa using hp))) fd]
    simp
  · rw [Sys.descriptors, card_filter, sum_product]
    refine sum_congr rfl fun p _ => (hrefs p).trans ?_
    rw [slots, card_filter]

theorem descriptors_eq_zero (h : ∀ p fd, (s.procs p).ofile fd ≠ some f) : s.descriptors f = 0 := by
  rw [Sys.descriptors, card_eq_zero, filter_eq_empty_iff]
  exact fun y _ => h y.1 y.2

/-- The opening of a descriptor has not ended. -/
theorem Inv.not_ended (h : Inv s) {fd : Nat} {op : Opening} (hp : (s.procs p).pc = .user)
    (hfd : (s.procs p).ofile fd = some f) (hop : (s.ftable f).opening = some op) :
    s.ended op = 0 := by
  have hpos : 0 < (s.ftable f).ref :=
    h.ref_pos ((h.ok p).refs_of_live (by rw [live_of_user hp]; exact hfd))
  have hbears : s.bears (.inl f) = some op := (if_pos hpos).trans hop
  have h1 := h.openings.apart _ _ hbears
  have h2 := h.once op
  omega

theorem Inv.ended_iff (h : Inv s) (hq : s.Quiet) {op : Opening} (hused : s.Used op) :
    s.ended op = 1 ↔ ¬ s.Open op := by
  constructor
  · rintro h1 ⟨p, fd, f, hfd, hop⟩
    rw [h.not_ended (h.quiet hq p) hfd hop] at h1
    cases h1
  · intro hnot
    by_contra h1
    obtain ⟨f | p, hx⟩ := ((h.openings.used_iff op).mp hused).resolve_left h1
    · obtain ⟨hpos, hop⟩ := ite_none_right_eq_some.mp hx
      rw [h.ref_eq hq f, descriptors_eq_zero fun p fd hfd => hnot ⟨p, fd, f, hfd, hop⟩] at hpos
      cases hpos
    · have hx : (s.procs p).pc.opening = some op := hx
      rw [h.quiet hq p] at hx
      cases hx

end Law

/-- The counts of open files are exact. In every state of every run, `filedup` and `fileclose` have
not panicked, an UNUSED process has no descriptor, no opening has ended twice or while a process
between calls has a descriptor on it, and a pipe is freed once, when both its ends are closed. When
no call is in progress, the count of a file is the number of its descriptors, every descriptor is on
an opening, and the openings that have ended are those without a descriptor. -/
theorem open_files_are_counted (pipes : Nat → Pipe) (as : List Act) (s : Sys)
    (hrun : run step (userinit pipes) as = some s) :
    (s.panicked ≠ some "filedup" ∧ s.panicked ≠ some "fileclose") ∧
    (∀ p fd, (s.procs p).state = .UNUSED → (s.procs p).ofile fd = none) ∧
    (∀ op, s.ended op ≤ 1) ∧
    (∀ p fd f op, (s.procs p).pc = .user → (s.procs p).ofile fd = some f →
      (s.ftable f).opening = some op → s.ended op = 0) ∧
    (∀ i, s.kfreed i ≤ 1 ∧
      (s.kfreed i = 1 ↔ s.ended (.pipe i false) = 1 ∧ s.ended (.pipe i true) = 1)) ∧
    (s.Quiet →
      (∀ f, (s.ftable f).ref = s.descriptors f) ∧
      (∀ p fd f, (s.procs p).ofile fd = some f → (s.ftable f).opening ≠ none) ∧
      ∀ op, s.Used op → (s.ended op = 1 ↔ ¬ s.Open op)) := by
  have h : Inv s := inv_of_run (fun _ _ _ h hs => h.step hs) (inv_userinit pipes) hrun
  refine ⟨h.calm, fun p fd hst => (h.ok p).empty (Or.inl hst) fd, h.once,
    fun p fd f op hp hfd hop => h.not_ended hp hfd hop, fun i => ?_,
    fun hq => ⟨h.ref_eq hq, fun p fd f hfd => ?_, fun op hused => h.ended_iff hq hused⟩⟩
  · rw [h.kfreed i]
    split
    · omega
    · omega
  · have hpc := h.quiet hq p
    have hlive : (s.procs p).live fd = some f := by
      rw [live_of_user hpc]
      exact hfd
    have htype := (h.typed p f (Or.inl ⟨fd, hlive⟩)).resolve_left
      (by rw [hpc]; exact List.not_mem_nil)
    cases hf : (s.ftable f).type with
    | FD_NONE => exact absurd hf htype
    | FD_PIPE => simp [File.opening, hf]
    | FD_INODE => simp [File.opening, hf]

/-- The first process makes a pipe and a child, and closes its two descriptors. The child exits. -/
def pipeAndChild : List Act :=
  .pipe 0 :: List.replicate 5 (.go 0 true) ++ .fork 0 :: List.replicate 18 (.go 0 true) ++
    [.close 0 0, .go 0 true, .close 0 1, .go 0 true] ++ .exit 1 :: List.replicate 23 (.go 1 true)

theorem the_pipe_of_the_child_is_freed :
    ∃ s, run step (userinit fun _ => ⟨false, false⟩) pipeAndChild = some s ∧
      s.kfreed 1 = 1 ∧ s.descriptors 0 = 0 ∧ ¬ s.Open (.pipe 1 true) := by
  obtain ⟨s, hs, hq, hfreed, href, hkalloced⟩ :
      ∃ s, run step (userinit fun _ => ⟨false, false⟩) pipeAndChild = some s ∧ s.Quiet ∧
        s.kfreed 1 = 1 ∧ (s.ftable 0).ref = 0 ∧ s.kalloced = 1 := by decide +kernel
  obtain ⟨-, -, -, -, hpipe, hquiet⟩ := open_files_are_counted _ _ s hs
  obtain ⟨hcount, -, hends⟩ := hquiet hq
  refine ⟨s, hs, hfreed, (hcount 0).symm.trans href, ?_⟩
  exact (hends (.pipe 1 true) ⟨Nat.one_pos, hkalloced.ge⟩).mp ((hpipe 1).2.mp hfreed).2

end xv6.file
