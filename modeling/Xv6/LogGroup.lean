-- The group-commit law of log.c: who may commit, what a commit holds, and who may sleep,
-- in every interleaving of any number of processes.
import Xv6.LogMoves

open List runs places

namespace xv6.log

/-! ## The committer and the operations -/

/-- Who has set `log.committing`, and what `log.outstanding` counts. -/
structure Counts (s : Sys) : Prop where
  committer : ∃ c, Owns Pc.commits c s.pc ∧ (s.committing = true ↔ c ≠ none)
  count : ∃ n : Nat, Total Pc.counted s.pc n ∧ s.outstanding = n
  quiet : s.committing = true → s.outstanding = 0

variable {s s' : Sys} {size maxop p : Nat}

/-- A process that stays in or out of its operation, and in or out of its commit. -/
theorem Counts.goto {y : Pc} (h : Counts s) (h1 : y.commits ↔ (s.pc p).commits)
    (h2 : y.op = none ↔ (s.pc p).op = none) : Counts (s.goto p y) := by
  obtain ⟨c, hc, hcc⟩ := h.committer
  obtain ⟨n, hn, hno⟩ := h.count
  refine ⟨⟨c, hc.move h1, hcc⟩, ⟨n, hn.move ?_, hno⟩, h.quiet⟩
  rw [Pc.counted, Pc.counted, if_congr h2 rfl rfl]

/-- Only these fields matter. -/
theorem Counts.congr (h : Counts s) (h1 : s'.pc = s.pc) (h2 : s'.committing = s.committing)
    (h3 : s'.outstanding = s.outstanding) : Counts s' := by
  obtain ⟨hc, hn, hq⟩ := h
  exact ⟨by rw [h1, h2]; exact hc, by rw [h1, h3]; exact hn, by rw [h2, h3]; exact hq⟩

theorem Counts.pos (h : Counts s) (hp : (s.pc p).op ≠ none) :
    1 ≤ s.outstanding ∧ s.committing = false := by
  obtain ⟨n, hn, hno⟩ := h.count
  have hle := hn.le p
  simp only [Pc.counted, if_neg hp] at hle
  refine ⟨by omega, ?_⟩
  by_contra hc
  have := h.quiet (by simpa using hc)
  omega

theorem Counts.move (h : Counts s) (hm : Moves size maxop s s') (hs : s'.panicked = none) :
    Counts s' := by
  cases hm with
  | begins p hpc | waits p hpc _ | killed p hpc | returns p hpc | fits p o b hpc _ _ _
      | ends p o hpc
  | erases p hpc => exact h.goto (by simp [hpc]) (by simp [hpc])
  | tests p hpc _ | takes_pt p hpc _ | drops_log p hpc | sleeps p hpc | opens p o b hpc _
  | appends p o b hpc | closes p o hpc _ | installs p hpc | reopens p hpc _
      | takes_pt_to_wake p hpc _
  | leaves p hpc => exact (h.goto (by simp [hpc]) (by simp [hpc])).congr rfl rfl rfl
  | admits p hpc hc _ =>
    obtain ⟨c, hc1, hc2⟩ := h.committer
    obtain ⟨n, hn, hno⟩ := h.count
    refine ⟨⟨c, hc1.move (by simp [hpc]), hc2⟩, ⟨n + 1, hn.move (by simp [hpc]), ?_⟩, ?_⟩
    · simp [hno]
    · intro hcc
      simp [Sys.goto, hc] at hcc
  | last p o hpc hc hz =>
    obtain ⟨c, hc1, hc2⟩ := h.committer
    obtain ⟨n, hn, hno⟩ := h.count
    have hcn : c = none := by grind
    subst hcn
    refine ⟨⟨some p, hc1.acquire trivial, by simp⟩, ⟨0, hn.move ?_, ?_⟩, fun _ => hz⟩
    · simp [hpc]
      omega
    · simpa using hz
  | notLast p o hpc hc hz =>
    obtain ⟨c, hc1, hc2⟩ := h.committer
    obtain ⟨n, hn, hno⟩ := h.count
    have hpos := (h.pos (p := p) (by simp [hpc])).1
    refine ⟨⟨c, hc1.move (by simp [hpc]), hc2⟩, ⟨n - 1, hn.move ?_, ?_⟩, ?_⟩
    · simp [hpc]
      omega
    · simp only
      omega
    · intro hcc
      simp [Sys.goto, hc] at hcc
  | clears p hpc =>
    obtain ⟨c, hc1, hc2⟩ := h.committer
    obtain ⟨n, hn, hno⟩ := h.count
    refine ⟨⟨none, hc1.release (by simp [hpc]) id, by simp⟩, ⟨n, hn.move (by simp [hpc]), hno⟩, ?_⟩
    intro hcc
    cases hcc
  | wakes p hpc =>
    obtain ⟨c, hc1, hc2⟩ := h.committer
    obtain ⟨n, hn, hno⟩ := h.count
    have hw1 : Owns Pc.commits c (wakeup1 s.pc) := hc1.congr (wakeup1_commits s.pc)
    have hw2 : Total Pc.counted (wakeup1 s.pc) n := hn.congr (fun q => by
      rw [Pc.counted, Pc.counted, wakeup1_op])
    have hp : wakeup1 s.pc p = .waking := by simp [wakeup1, hpc]
    exact ⟨⟨c, hw1.move (by simp [hp]), hc2⟩, ⟨n, hw2.move (by simp [hp]), hno⟩, h.quiet⟩
  | overflows p o b _ _ _ => cases hs
  | outside p o _ _ => cases hs
  | collides p o _ _ => cases hs

/-! ## The blocks in the header -/

/-- The process is in operation `i`. -/
def Pc.inOp (i : Nat) (x : Pc) : Prop := x.op.map Op.id = some i

/-- The process has blocks in the header, or is writing them to the disk. -/
def Pc.fills (x : Pc) : Prop := x.op ≠ none ∨ x = .commit

/-- What the header holds, and who put it there. -/
structure Blocks (s : Sys) : Prop where
  nodup : s.lh.Nodup
  written : ∀ b, b ∈ s.lh ↔ ∃ i, (i, b) ∈ s.wrote
  writers : ∀ i b, (i, b) ∈ s.wrote → i ∈ s.ended ∨ ∃ p, (s.pc p).inOp i
  filled : s.lh ≠ [] → ∃ p, (s.pc p).fills

/-- A process that stays in its operation, if any, and not at the start of a commit. -/
theorem Blocks.goto {y : Pc} (h : Blocks s) (h1 : y.op.map Op.id = (s.pc p).op.map Op.id)
    (h2 : s.pc p ≠ .commit) : Blocks (s.goto p y) := by
  refine ⟨h.nodup, h.written, fun i b hb => ?_, fun hne => ?_⟩
  · rcases h.writers i b hb with he | he
    · exact Or.inl he
    · exact Or.inr (exists_move he (fun hi => h1.trans hi))
  · refine exists_move (h.filled hne) (fun hf => ?_)
    rcases hf with hf | hf
    · refine Or.inl (fun hn => hf ?_)
      rw [hn] at h1
      simpa using h1.symm
    · exact absurd hf h2

theorem Blocks.congr (h : Blocks s) (h1 : s'.pc = s.pc) (h2 : s'.lh = s.lh)
    (h3 : s'.wrote = s.wrote) (h4 : s'.ended = s.ended) : Blocks s' := by
  obtain ⟨ha, hb, hc, hd⟩ := h
  refine ⟨by rw [h2]; exact ha, ?_, ?_, ?_⟩
  · rw [h2, h3]; exact hb
  · rw [h1, h3, h4]; exact hc
  · rw [h1, h2]; exact hd

/-- An operation that ends, where others go on or this process commits. -/
theorem Blocks.ended {o : Op} {y : Pc} (h : Blocks s) (hpc : s.pc p = .ending o)
    (hy : y.fills ∨ ∃ q, q ≠ p ∧ (s.pc q).fills) :
    Blocks { s.goto p y with ended := o.id :: s.ended } := by
  refine ⟨h.nodup, h.written, fun i b hb => ?_, fun _ => ?_⟩
  · rcases h.writers i b hb with he | ⟨q, hq⟩
    · grind
    · by_cases hqp : q = p
      · subst hqp
        left
        simp only [Pc.inOp, hpc, Pc.op, Option.map_some, Option.some.injEq] at hq
        simp [hq]
      · exact Or.inr ⟨q, by simpa [Sys.goto, hqp] using hq⟩
  · rcases hy with hy | ⟨q, hqp, hq⟩
    · exact ⟨p, by simpa [Sys.goto] using hy⟩
    · exact ⟨q, by simpa [Sys.goto, hqp] using hq⟩

/-- With two operations outstanding, there is another one. -/
theorem Counts.exists_other (h : Counts s) (hp : (s.pc p).op ≠ none) (h2 : 2 ≤ s.outstanding) :
    ∃ q, q ≠ p ∧ (s.pc q).op ≠ none := by
  obtain ⟨n, hn, hno⟩ := h.count
  have hm : Total Pc.counted (Function.update s.pc p .idle) (n - 1) := hn.move (by
    rw [Pc.counted, if_neg hp]
    simp
    omega)
  obtain ⟨q, hq⟩ := hm.exists_pos (by omega)
  by_cases hqp : q = p
  · subst hqp
    simp at hq
  · refine ⟨q, hqp, fun hnone => ?_⟩
    rw [Function.update_of_ne hqp, Pc.counted, if_pos hnone] at hq
    exact absurd hq (Nat.lt_irrefl 0)

theorem Blocks.move (h : Blocks s) (hc : Counts s) (hm : Moves size maxop s s')
    (hs : s'.panicked = none) : Blocks s' := by
  cases hm with
  | begins p hpc | waits p hpc _ | killed p hpc | returns p hpc | fits p o b hpc _ _ _
      | ends p o hpc
  | erases p hpc => exact h.goto (by simp [hpc]) (by simp [hpc])
  | tests p hpc _ | takes_pt p hpc _ | drops_log p hpc | sleeps p hpc | opens p o b hpc _
  | closes p o hpc _ | reopens p hpc _ | clears p hpc | leaves p hpc =>
    exact (h.goto (by simp [hpc]) (by simp [hpc])).congr rfl rfl rfl rfl
  | admits p hpc _ _ =>
    refine ⟨h.nodup, h.written, fun i b hb => ?_, fun _ => ?_⟩
    · rcases h.writers i b hb with he | he
      · exact Or.inl he
      · exact Or.inr (exists_move he (fun hi => by simp [Pc.inOp, hpc] at hi))
    · exact ⟨p, Or.inl (by simp [Sys.goto])⟩
  | appends p o b hpc =>
    refine ⟨nodup_absorb b h.nodup, fun c => ?_, fun i c hic => ?_, fun _ => ?_⟩
    · simp only [mem_absorb, h.written, mem_append, mem_singleton, Prod.mk.injEq,
        exists_or, exists_eq_left]
    · rcases mem_append.mp hic with hi | hi
      · rcases h.writers i c hi with he | he
        · exact Or.inl he
        · exact Or.inr (exists_move he (fun hi => by simpa [Pc.inOp, hpc] using hi))
      · obtain ⟨rfl, rfl⟩ : i = o.id ∧ c = b := by simpa using hi
        exact Or.inr ⟨p, by simp [Sys.goto, Pc.inOp]⟩
    · exact ⟨p, Or.inl (by simp [Sys.goto])⟩
  | last p o hpc _ _ => exact (h.ended hpc (Or.inl (Or.inr rfl))).congr rfl rfl rfl rfl
  | notLast p o hpc _ hz =>
    have hop : (s.pc p).op ≠ none := by simp [hpc]
    have hpos := (hc.pos hop).1
    obtain ⟨q, hqp, hq⟩ := hc.exists_other hop (by omega)
    exact (h.ended hpc (Or.inr ⟨q, hqp, Or.inl hq⟩)).congr rfl rfl rfl rfl
  | installs p hpc =>
    exact ⟨nodup_nil, by simp, by simp, fun hne => absurd rfl hne⟩
  | takes_pt_to_wake p hpc _ =>
    exact (h.goto (by simp [hpc]) (by simp [hpc])).congr rfl rfl rfl rfl
  | wakes p hpc =>
    have hp : wakeup1 s.pc p = .waking := by simp [wakeup1, hpc]
    have hw : Blocks { s with pc := wakeup1 s.pc } := by
      refine ⟨h.nodup, h.written, fun i b hb => ?_, fun hne => ?_⟩
      · rcases h.writers i b hb with he | ⟨q, hq⟩
        · exact Or.inl he
        · exact Or.inr ⟨q, by simpa only [Pc.inOp, wakeup1_op] using hq⟩
      · obtain ⟨q, hq⟩ := h.filled hne
        rcases wakeup1_eq s.pc q with ⟨hsl, _⟩ | ⟨_, he⟩
        · simp [Pc.fills, hsl] at hq
        · grind
    exact (hw.goto (p := p) (y := .leaving) (by simp [hp]) (by simp [hp])).congr rfl rfl rfl rfl
  | overflows p o b _ _ _ => cases hs
  | outside p o _ _ => cases hs
  | collides p o _ _ => cases hs

/-! ## The sleepers -/

/-- Whoever waits will be woken: by a commit, by an operation that ends, or right now. -/
def Sleepers (s : Sys) : Prop :=
  ∀ p, (s.pc p).drowsy → s.committing = true ∨ 0 < s.outstanding ∨ ∃ q, (s.pc q).wakes

theorem Sleepers.goto {y : Pc} (h : Sleepers s) (h1 : y.drowsy → (s.pc p).drowsy)
    (h2 : (s.pc p).wakes → y.wakes) : Sleepers (s.goto p y) := by
  intro q hq
  have hd : (s.pc q).drowsy := by
    by_cases hqp : q = p
    · subst hqp
      exact h1 (by simpa [Sys.goto] using hq)
    · simpa [Sys.goto, hqp] using hq
  rcases h q hd with hc | ho | hw
  · exact Or.inl hc
  · exact Or.inr (Or.inl ho)
  · exact Or.inr (Or.inr (exists_move hw h2))

theorem Sleepers.congr (h : Sleepers s) (h1 : s'.pc = s.pc) (h2 : s'.committing = s.committing)
    (h3 : s'.outstanding = s.outstanding) : Sleepers s' := by
  unfold Sleepers
  rw [h1, h2, h3]
  exact h

/-- A full log has a reason to be full. -/
theorem busy_of_full (hb : Blocks s) (hc : Counts s) (hf : s.full) :
    s.committing = true ∨ 0 < s.outstanding := by
  by_cases ho : 0 < s.outstanding
  · exact Or.inr ho
  have hne : s.lh ≠ [] := by grind [Sys.full, length_nil]
  obtain ⟨p, hp | hp⟩ := hb.filled hne
  · grind [hc.pos]
  · obtain ⟨c, hcc, hcm⟩ := hc.committer
    exact Or.inl (hcm.mpr (by simp [(hcc p).mpr (by simp [hp])]))

theorem Sleepers.move (h : Sleepers s) (hl : Locks s) (hb : Blocks s) (hc : Counts s)
    (hm : Moves size maxop s s') (hs : s'.panicked = none) : Sleepers s' := by
  cases hm with
  | begins p hpc | killed p hpc | returns p hpc | fits p o b hpc _ _ _ | ends p o hpc
      | erases p hpc =>
    exact h.goto (by simp) (by simp [hpc])
  | tests p hpc _ | opens p o b hpc _ | appends p o b hpc | closes p o hpc _ | installs p hpc
  | reopens p hpc _ | leaves p hpc => exact (h.goto (by simp) (by simp [hpc])).congr rfl rfl rfl
  | waits p hpc hw =>
    intro q _
    have hbusy : s.committing = true ∨ 0 < s.outstanding :=
      hw.elim Or.inl (busy_of_full hb hc)
    rcases hbusy with h1 | h1
    · exact Or.inl h1
    · exact Or.inr (Or.inl h1)
  | admits p hpc _ _ =>
    intro q _
    obtain ⟨n, _, hno⟩ := hc.count
    exact Or.inr (Or.inl (by simp only; omega))
  | takes_pt p hpc _ | drops_log p hpc | sleeps p hpc =>
    exact (h.goto (by simp [hpc]) (by simp [hpc])).congr rfl rfl rfl
  | last p o hpc _ _ => exact fun q _ => Or.inl rfl
  | notLast p o hpc _ _ =>
    exact fun q _ => Or.inr (Or.inr ⟨p, by simp [Sys.goto]⟩)
  | clears p hpc => exact fun q _ => Or.inr (Or.inr ⟨p, by simp [Sys.goto]⟩)
  | takes_pt_to_wake p hpc _ =>
    exact (h.goto (by simp) (by simp)).congr rfl rfl rfl
  | wakes p hpc =>
    -- the waker holds both locks, so nobody is between its test and its sleep
    intro q hq
    exfalso
    by_cases hqp : q = p
    · subst hqp
      simp at hq
    · simp only [Function.update_of_ne hqp] at hq
      have hlog : ¬ (s.pc q).holdsLog := fun hh => hqp (hl.log_lock.unique hh (by simp [hpc]))
      have hpt : ¬ (s.pc q).holdsPt := fun hh => hqp (hl.pt_lock.unique hh (by simp [hpc]))
      rcases wakeup1_eq s.pc q with ⟨_, he⟩ | ⟨hne, he⟩
      · simp [he] at hq
      · rw [he] at hq
        cases hx : s.pc q <;> simp_all
  | overflows p o b _ _ _ => cases hs
  | outside p o _ _ => cases hs
  | collides p o _ _ => cases hs

/-! ## Every run -/

/-- What holds of the log and of the processes in it before any panic. -/
structure Inv (s : Sys) : Prop where
  locks : Locks s
  counts : Counts s
  blocks : Blocks s
  sleepers : Sleepers s

theorem Inv.init : Inv init := by
  refine ⟨⟨?_, ?_⟩, ⟨⟨none, ?_, ?_⟩, ⟨0, ?_, rfl⟩, ?_⟩, ⟨nodup_nil, ?_, ?_, ?_⟩, ?_⟩
  · intro p
    simp [log.init]
  · intro p
    simp [log.init]
  · intro p
    simp [log.init]
  · simp [log.init]
  · exact Total.zero (fun p => by simp [log.init])
  · simp [log.init]
  · simp [log.init]
  · simp [log.init]
  · simp [log.init]
  · intro p hp
    simp [log.init] at hp

theorem Inv.move (h : Inv s) (hm : Moves size maxop s s') (hs : s'.panicked = none) : Inv s' :=
  ⟨h.locks.move hm, h.counts.move hm hs, h.blocks.move h.counts hm hs,
    h.sleepers.move h.locks h.blocks h.counts hm hs⟩

/-- The panic of `end_op` is never reached. -/
theorem Inv.no_collision (h : Inv s) (hp : s.panicked = none) (hm : Moves size maxop s s') :
    s'.panicked ≠ some "log.committing" := by
  cases hm with
  | collides p o hpc hc =>
    have := (h.counts.pos (p := p) (by simp [hpc])).2
    rw [hc] at this
    cases this
  | overflows p o b _ _ _ => simp
  | outside p o _ _ => simp
  | _ => simp [Sys.goto, hp]

/-- The state after any run, up to its panic if it has one. -/
theorem inv_of_run {as : List Act} (h : run (step size maxop) init as = some s) :
    s.panicked ≠ some "log.committing" ∧ (s.panicked = none → Inv s) := by
  refine runs.inv_of_run (I := fun s => s.panicked ≠ some "log.committing" ∧
    (s.panicked = none → Inv s)) ?_ ⟨by simp [init], fun _ => Inv.init⟩ h
  intro s a s' hs hstep
  obtain ⟨hp, hm⟩ := step_moves hstep
  exact ⟨(hs.2 hp).no_collision hp hm, (hs.2 hp).move hm⟩

/-! ## The law -/

/-- No two processes are in `commit`, and the one that is has set `log.committing`. -/
def OneCommitter (s : Sys) : Prop :=
  (∀ p q, (s.pc p).commits → (s.pc q).commits → p = q) ∧
    (∀ p, (s.pc p).commits → s.committing = true)

/-- During a commit no operation is outstanding, the next step admits none, and only the commit
itself changes the header. -/
def QuietCommit (size maxop : Nat) (s : Sys) : Prop :=
  s.committing = true → s.outstanding = 0 ∧ (∀ p, (s.pc p).op = none) ∧
    ∀ a s', step size maxop s a = some s' →
      s'.outstanding = 0 ∧ (s'.lh = s.lh ∨ ∃ p, s.pc p = .commit ∧ s'.pc p = .erase)

/-- A process that commits has in the header exactly the blocks written since the last commit,
once each, and every operation that wrote one of them has ended. -/
def CommitsGroup (s : Sys) : Prop :=
  ∀ p, s.pc p = .commit →
    s.lh.Nodup ∧ (∀ b, b ∈ s.lh ↔ ∃ i, (i, b) ∈ s.wrote) ∧
      ∀ i b, (i, b) ∈ s.wrote → i ∈ s.ended

/-- A log at rest is empty and nobody sleeps on it. -/
def RestsEmpty (s : Sys) : Prop :=
  s.lock = none → s.ptlock = none → s.committing = false → s.outstanding = 0 →
    s.lh = [] ∧ ∀ p, s.pc p ≠ .SLEEPING

theorem Counts.none_in_op (h : Counts s) (hz : s.outstanding = 0) (p : Nat) :
    (s.pc p).op = none := by
  by_contra hp
  have := (h.pos hp).1
  omega

theorem Counts.committing (h : Counts s) (hp : (s.pc p).commits) : s.committing = true := by
  obtain ⟨c, hc, hcm⟩ := h.committer
  exact hcm.mpr (by simp [(hc p).mpr hp])

theorem Inv.oneCommitter (h : Inv s) : OneCommitter s := by
  obtain ⟨c, hc, _⟩ := h.counts.committer
  exact ⟨fun p q hp hq => hc.unique hp hq, fun p => h.counts.committing⟩

/-- While a process commits, a step outside the operations cannot begin one or log a block. -/
theorem Moves.quiet (hm : Moves size maxop s s') (hc : s.committing = true)
    (hop : ∀ p, (s.pc p).op = none) :
    s'.outstanding = s.outstanding ∧ (s'.lh = s.lh ∨ ∃ p, s.pc p = .commit ∧ s'.pc p = .erase) := by
  cases hm with
  | admits p hpc hf _ => rw [hc] at hf; cases hf
  | appends p o b hpc | last p o hpc _ _ | notLast p o hpc _ _ | collides p o hpc _ =>
    have := hop p; simp [hpc] at this
  | installs p hpc => exact ⟨rfl, Or.inr ⟨p, hpc, by simp [Sys.goto]⟩⟩
  | _ => exact ⟨rfl, Or.inl rfl⟩

theorem Inv.quietCommit (h : Inv s) (size maxop : Nat) : QuietCommit size maxop s := by
  intro hc
  have hz := h.counts.quiet hc
  have hop := h.counts.none_in_op hz
  refine ⟨hz, hop, fun a s' hstep => ?_⟩
  have hq := (step_moves hstep).2.quiet hc hop
  exact ⟨hq.1.trans hz, hq.2⟩

theorem Inv.commitsGroup (h : Inv s) : CommitsGroup s := by
  intro p hp
  have hz := h.counts.quiet (h.counts.committing (p := p) (by simp [hp]))
  refine ⟨h.blocks.nodup, h.blocks.written, fun i b hib => ?_⟩
  rcases h.blocks.writers i b hib with he | ⟨q, hq⟩
  · exact he
  · rw [Pc.inOp, h.counts.none_in_op hz q] at hq
    cases hq

theorem Inv.restsEmpty (h : Inv s) : RestsEmpty s := by
  intro hlock _ hc hz
  constructor
  · by_contra hne
    obtain ⟨p, hp | hp⟩ := h.blocks.filled hne
    · exact hp (h.counts.none_in_op hz p)
    · have := h.counts.committing (p := p) (by simp [hp])
      rw [hc] at this
      cases this
  · intro p hp
    rcases h.sleepers p (by simp [hp]) with h1 | h1 | ⟨q, hq⟩
    · rw [hc] at h1
      cases h1
    · omega
    · have hfree := h.locks.log_lock.none_iff.mp hlock q
      cases hx : s.pc q <;> simp_all

/-- The group-commit law: any number of processes, any interleaving, any size of the log. -/
theorem operations_commit_in_groups {size : Nat} {as : List Act} {s : Sys}
    (h : run (step size MAXOPBLOCKS) init as = some s) : s.panicked ≠ some "log.committing" ∧
      (s.panicked = none →
        OneCommitter s ∧ QuietCommit size MAXOPBLOCKS s ∧ CommitsGroup s ∧ RestsEmpty s) := by
  obtain ⟨hp, hi⟩ := inv_of_run h
  exact ⟨hp, fun hn => ⟨(hi hn).oneCommitter, (hi hn).quietCommit size MAXOPBLOCKS,
    (hi hn).commitsGroup, (hi hn).restsEmpty⟩⟩

/-- Process 0 logs block 40 twice and commits, while process 1 goes to sleep in `begin_op`. -/
def commitWithSleeper : List Act :=
  [.begin_op 0, .go 0, .go 0, .log_write 0 40, .go 0, .go 0, .log_write 0 40, .go 0, .go 0,
    .end_op 0, .go 0, .go 0, .begin_op 1, .go 1, .go 1, .go 1, .go 1, .go 1]

set_option maxRecDepth 20000 in
theorem a_commit_with_a_sleeper : ∃ s, run (step nlog MAXOPBLOCKS) init commitWithSleeper = some s ∧
      s.panicked = none ∧ s.pc 0 = .commit ∧ s.pc 1 = .SLEEPING ∧ s.lh = [40] ∧
      OneCommitter s ∧ QuietCommit nlog MAXOPBLOCKS s ∧ CommitsGroup s ∧ RestsEmpty s := by
  have hsome : ∃ s, run (step nlog MAXOPBLOCKS) init commitWithSleeper = some s :=
    Option.isSome_iff_exists.mp (by decide +kernel)
  obtain ⟨s, hs⟩ := hsome
  have hp : (run (step nlog MAXOPBLOCKS) init commitWithSleeper).map
      (fun s => (s.panicked, s.pc 0, s.pc 1, s.lh)) = some (none, .commit, .SLEEPING, [40]) := by
    decide +kernel
  simp only [hs, Option.map_some, Option.some.injEq, Prod.mk.injEq] at hp
  obtain ⟨h0, h1, h2, h3⟩ := hp
  exact ⟨s, hs, h0, h1, h2, h3, (operations_commit_in_groups hs).2 h0⟩

end xv6.log
