-- The space law of log.c: what begin_op reserves, when log_write can find the log full, and
-- when a commit can run past its last block.
import Xv6.LogCrash
import Xv6.LogGroup

open List runs places WP

namespace xv6.log

/-! ## What the operations have reserved -/

/-- The blocks that the operation of a process may still add to the log. -/
def Pc.reserve (maxop : Nat) (x : Pc) : Nat :=
  match x.op with
  | some o => maxop - o.mine.length
  | none => 0

/-- The operation stays within its blocks. -/
def Pc.fits (maxop : Nat) : Pc → Prop
  | .log_write o b | .appending o b => (absorb o.mine b).length ≤ maxop
  | _ => True

/-- The operation's own blocks are in the header. -/
def Pc.logged (lh : List Nat) (x : Pc) : Prop := ∀ o, x.op = some o → ∀ b ∈ o.mine, b ∈ lh

/-- The header and all that the operations may still add take at most `cap` blocks. -/
structure Space (maxop cap : Nat) (s : Sys) : Prop where
  fits : ∀ p, (s.pc p).fits maxop
  logged : ∀ p, (s.pc p).logged s.lh
  reserved : ∃ r, Total (Pc.reserve maxop) s.pc r ∧ s.lh.length + r ≤ cap

/-- What the test of `begin_op` leaves to `maxop` blocks for each operation. -/
def Admits (maxop cap : Nat) : Prop :=
  ∀ n k : Nat, (k = 0 → n = 0) → n + (k + 1) * MAXOPBLOCKS ≤ LOGSIZE → n + (k + 1) * maxop ≤ cap

theorem admits_full : Admits MAXOPBLOCKS LOGSIZE := fun _ _ _ h => h

theorem admits_less : Admits (MAXOPBLOCKS - 1) (nlog - 2) := by
  intro n k hk h
  simp only [MAXOPBLOCKS, nlog, LOGSIZE] at *
  omega

variable {maxop cap : Nat}

theorem Pc.reserve_of_op {x y : Pc} (h : y.op = x.op) : y.reserve maxop = x.reserve maxop := by
  rw [Pc.reserve, Pc.reserve, h]

theorem Pc.reserve_none {x : Pc} (h : x.op = none) : x.reserve maxop = 0 := by
  rw [Pc.reserve, h]

variable {s s' : Sys} {as : List Act} {size p : Nat}

theorem Space.goto {y : Pc} (h : Space maxop cap s) (h1 : y.op = (s.pc p).op) (h2 : y.fits maxop) :
    Space maxop cap (s.goto p y) := by
  obtain ⟨r, hr, hle⟩ := h.reserved
  refine ⟨forall_move h.fits h2, forall_move h.logged ?_, r, hr.move ?_, hle⟩
  · intro o ho
    exact h.logged p o (h1 ▸ ho)
  · rw [Pc.reserve_of_op h1]

theorem Space.congr (h : Space maxop cap s) (h1 : s'.pc = s.pc) (h2 : s'.lh = s.lh) :
    Space maxop cap s' := by
  obtain ⟨ha, hb, hc⟩ := h
  exact ⟨by rw [h1]; exact ha, by rw [h1, h2]; exact hb, by rw [h1, h2]; exact hc⟩

/-- An operation that ends gives back what it had reserved. -/
theorem Space.ends {y : Pc} (h : Space maxop cap s) (h1 : y.op = none) (h2 : y.fits maxop) :
    Space maxop cap (s.goto p y) := by
  obtain ⟨r, hr, hle⟩ := h.reserved
  have hw := hr.le p
  refine ⟨forall_move h.fits h2, forall_move h.logged ?_, r - (s.pc p).reserve maxop,
    hr.move ?_, ?_⟩
  · intro o ho
    rw [h1] at ho
    cases ho
  · rw [Pc.reserve_none h1]
    omega
  · simp only [Sys.goto]
    omega

theorem Space.admitted (h : Space maxop cap s) (hi : Inv s) (hcap : Admits maxop cap)
    (hpc : s.pc p = .testing) (hc : s.committing = false) (hf : ¬ s.full) (i : Nat) :
    Space maxop cap (s.goto p (.running ⟨i, []⟩)) := by
  obtain ⟨r, hr, _⟩ := h.reserved
  obtain ⟨n, hn, hno⟩ := hi.counts.count
  have hrn : r ≤ maxop * n := hn.bound hr (fun q => by
    rw [Pc.counted, Pc.reserve]
    rcases (s.pc q).op with _ | o <;> simp)
  have hempty : n = 0 → s.lh.length = 0 := by
    intro hz
    by_contra hne
    obtain ⟨q, hq | hq⟩ := hi.blocks.filled (fun e => hne (by simp [e]))
    · exact hq (hi.counts.none_in_op (by omega) q)
    · have := hi.counts.committing (p := q) (by simp [hq])
      rw [hc] at this
      cases this
  have hroom := hcap s.lh.length n hempty (by
    simp only [Sys.full, hno, not_lt, gt_iff_lt] at hf
    exact_mod_cast hf)
  refine ⟨forall_move h.fits trivial, forall_move h.logged ?_, r + maxop, hr.move ?_, ?_⟩
  · intro o ho
    obtain rfl : ⟨i, []⟩ = o := by simpa using ho
    simp
  · simp [Pc.reserve, hpc]
  · grind [Nat.succ_mul, Nat.mul_comm, Sys.goto]

theorem length_absorb_le (lh : List Nat) (b : Nat) : (absorb lh b).length ≤ lh.length + 1 := by
  by_cases h : b ∈ lh
  · rw [absorb_of_mem h]
    omega
  · simp [absorb_of_notMem h]

theorem Space.appended {o : Op} {b : Nat} (h : Space maxop cap s) (hpc : s.pc p = .appending o b) :
    Space maxop cap { s.goto p (.running { o with mine := absorb o.mine b }) with
      lh := absorb s.lh b } := by
  obtain ⟨r, hr, hle⟩ := h.reserved
  have hw := hr.le p
  have hfit := h.fits p
  have hlog := h.logged p o (by simp [hpc])
  simp only [hpc, Pc.fits, Pc.reserve, Pc.op] at hw hfit
  refine ⟨forall_move h.fits trivial, forall_move (fun q o' ho' c hc => ?_) ?_, ?_⟩
  · exact (mem_absorb s.lh b c).mpr (Or.inl (h.logged q o' ho' c hc))
  · intro o' ho' c hc
    obtain rfl : { o with mine := absorb o.mine b } = o' := by simpa using ho'
    rcases (mem_absorb o.mine b c).mp hc with hc | rfl
    · grind [mem_absorb]
    · exact (mem_absorb s.lh c c).mpr (Or.inr rfl)
  by_cases hb : b ∈ o.mine
  · -- the operation has this block already, so it is in the header
    refine ⟨r, hr.move ?_, ?_⟩
    · simp [hpc, Pc.reserve, absorb_of_mem hb]
    · simpa only [absorb_of_mem (hlog b hb)] using hle
  · rw [absorb_of_notMem hb] at hfit ⊢
    simp only [length_append, length_singleton] at hfit
    refine ⟨r - 1, hr.move ?_, ?_⟩
    · simp only [hpc, Pc.reserve, Pc.op, length_append, length_singleton]
      omega
    · grind [length_absorb_le]

/-- A commit that empties the header finds no operation. -/
theorem Space.emptied (h : Space maxop cap s) (hi : Inv s) (hpc : s.pc p = .commit) :
    Space maxop cap { s.goto p .erase with lh := [] } := by
  have hg : Space maxop cap (s.goto p .erase) := h.goto (by simp [hpc]) trivial
  obtain ⟨r, hr, hle⟩ := hg.reserved
  have hz := hi.counts.quiet (hi.counts.committing (p := p) (by simp [hpc]))
  refine ⟨hg.fits, forall_move (fun q o ho => ?_) (fun o ho => by cases ho), r, hr, ?_⟩
  · rw [hi.counts.none_in_op hz q] at ho
    cases ho
  · grind

theorem Space.move (h : Space maxop cap s) (hi : Inv s) (hcap : Admits maxop cap)
    (hm : Moves size maxop s s') : Space maxop cap s' := by
  cases hm with
  | begins p hpc | waits p hpc _ | killed p hpc | returns p hpc | ends p o hpc | erases p hpc =>
    exact h.goto (by simp [hpc]) trivial
  | tests p hpc _ => exact (h.goto (y := .testing) (by simp [hpc]) trivial).congr rfl rfl
  | admits p hpc hc hf => exact (h.admitted hi hcap hpc hc hf s.nextop).congr rfl rfl
  | takes_pt p hpc _ =>
    exact (h.goto (y := .sleep_release) (by simp [hpc]) trivial).congr rfl rfl
  | drops_log p hpc => exact (h.goto (y := .sched) (by simp [hpc]) trivial).congr rfl rfl
  | sleeps p hpc => exact (h.goto (y := .SLEEPING) (by simp [hpc]) trivial).congr rfl rfl
  | fits p o b hpc hb _ _ => exact h.goto (by simp [hpc]) hb
  | opens p o b hpc _ =>
    have hb := h.fits p
    rw [hpc] at hb
    exact (h.goto (y := .appending o b) (by simp [hpc]) hb).congr rfl rfl
  | appends p o b hpc => exact (h.appended hpc).congr rfl rfl
  | closes p o hpc _ => exact (h.goto (y := .ending o) (by simp [hpc]) trivial).congr rfl rfl
  | last p o hpc _ _ => exact (h.ends (p := p) (y := .commit) rfl trivial).congr rfl rfl
  | notLast p o hpc _ _ =>
    exact (h.ends (p := p) (y := .wakeup_acquire) rfl trivial).congr rfl rfl
  | installs p hpc => exact (h.emptied hi hpc).congr rfl rfl
  | reopens p hpc _ => exact (h.goto (y := .clearing) (by simp [hpc]) trivial).congr rfl rfl
  | clears p hpc => exact (h.goto (y := .wakeup_acquire) (by simp [hpc]) trivial).congr rfl rfl
  | takes_pt_to_wake p hpc _ =>
    exact (h.goto (y := .waking) (by simp [hpc]) trivial).congr rfl rfl
  | wakes p hpc =>
    have hp : wakeup1 s.pc p = .waking := by simp [wakeup1, hpc]
    obtain ⟨r, hr, hle⟩ := h.reserved
    have hw : Space maxop cap { s with pc := wakeup1 s.pc } := by
      refine ⟨fun q => ?_, fun q o ho => ?_, r, ?_, hle⟩
      · rcases wakeup1_eq s.pc q with ⟨_, he⟩ | ⟨_, he⟩ <;> simp only [he]
        · trivial
        · exact h.fits q
      · exact h.logged q o (by rwa [wakeup1_op] at ho)
      · exact hr.congr (fun q => Pc.reserve_of_op (wakeup1_op s.pc q))
    exact (hw.goto (p := p) (y := .leaving) (by simp [hp]) trivial).congr rfl rfl
  | leaves p hpc => exact (h.goto (y := .idle) (by simp [hpc]) trivial).congr rfl rfl
  | overflows p o b _ _ _ | outside p o _ _ | collides p o _ _ => exact h.congr rfl rfl

theorem Space.init : Space maxop cap init := by
  refine ⟨fun p => trivial, fun p o ho => ?_, 0, Total.zero (fun p => rfl), Nat.zero_le cap⟩
  cases ho

theorem space_of_run (hcap : Admits maxop cap) (h : run (step size maxop) init as = some s) :
    Space maxop cap s := by
  have key : (s.panicked = none → Inv s) ∧ Space maxop cap s := by
    refine runs.inv_of_run (I := fun s => (s.panicked = none → Inv s) ∧ Space maxop cap s) ?_
      ⟨fun _ => Inv.init, Space.init⟩ h
    intro s a s' ⟨hi, hs⟩ hstep
    obtain ⟨hp, hm⟩ := step_moves hstep
    exact ⟨(hi hp).move hm, hs.move (hi hp) hcap hm⟩
  exact key.2

/-- `log.lh.block` has LOGSIZE entries, and they are enough. -/
theorem header_fits_its_array (h : run (step size MAXOPBLOCKS) init as = some s) :
    s.lh.length ≤ LOGSIZE := by
  obtain ⟨r, _, hle⟩ := (space_of_run admits_full h).reserved
  omega

/-- Process `p` is admitted by `begin_op`. -/
def begins (p : Nat) : List Act := [.begin_op p, .go p, .go p]

/-- Process `p` logs `n` blocks from block `b` on. -/
def logs (p b n : Nat) : List Act :=
  (List.range n).flatMap fun i => [.log_write p (b + i), .go p, .go p]

/-- Three operations log 28 blocks. Processes 1 and 2 both pass the test of `log_write` with one
slot left, and both append. -/
def thirtyBlocks : List Act :=
  begins 0 ++ begins 1 ++ begins 2 ++ logs 0 100 10 ++ logs 1 200 9 ++ logs 2 300 9 ++
    [.log_write 1 209, .log_write 2 309, .go 1, .go 1, .go 2, .go 2]

set_option maxRecDepth 20000 in
theorem header_fits_thirty_blocks : ∃ s, run (step nlog MAXOPBLOCKS) init thirtyBlocks = some s ∧
    s.lh.length = 30 ∧ s.lh.length ≤ LOGSIZE := by
  obtain ⟨s, hs, hlen⟩ : ∃ s, run (step nlog MAXOPBLOCKS) init thirtyBlocks = some s ∧
      s.lh.length = 30 := by
    decide +kernel
  exact ⟨s, hs, hlen, header_fits_its_array hs⟩

/-! ## The panic of log_write -/

/-- The number of distinct blocks logged since the last commit. -/
def Sys.blocks (s : Sys) : Nat := (s.wrote.map Prod.snd).toFinset.card

/-- A `log_write` is called only while the log has room for one more block. -/
def RoomLeft (size : Nat) (s : Sys) : Act → Prop
  | .log_write _ _ => s.blocks < size - 1
  | _ => True

instance (size : Nat) (s : Sys) : ∀ a, Decidable (RoomLeft size s a)
  | .log_write _ _ => inferInstanceAs (Decidable (_ < _))
  | .begin_op _ | .end_op _ | .go _ | .kill _ => isTrue trivial

theorem Blocks.card (h : Blocks s) : s.blocks = s.lh.length := by
  have he : (s.wrote.map Prod.snd).toFinset = s.lh.toFinset := by
    ext b
    simp [h.written b]
  rw [Sys.blocks, he, toFinset_card_of_nodup h.nodup]

theorem step_of_panicked (h : s.panicked ≠ none) (a : Act) : step size maxop s a = none := by
  unfold step
  rw [if_pos h]

theorem run_of_panicked (h : s.panicked ≠ none) (hr : run (step size maxop) s as = some s') :
    as = [] ∧ s' = s := by
  rcases as with _ | ⟨a, as⟩
  · exact ⟨rfl, (Option.some.inj hr).symm⟩
  · obtain ⟨t, ht, _⟩ := run_cons.mp hr
    rw [step_of_panicked h] at ht
    cases ht

theorem go_panicked (h : go s p = some s') :
    s'.panicked = s.panicked ∨ s'.panicked = some "log.committing" := by
  unfold go at h
  split at h <;> (try split at h) <;> (try split at h) <;> cases h <;>
    first | exact Or.inl rfl | exact Or.inr rfl

/-- On a log no larger than its header, `log_write` panics exactly when it is called with no
room left. -/
theorem overflows_iff {a : Act} (hsize : size ≤ LOGSIZE + 1) (hb : Blocks s)
    (hstep : step size maxop s a = some s') :
    s'.panicked = some "too big a transaction" ↔ ¬ RoomLeft size s a := by
  have hp := (step_moves hstep).1
  unfold step at hstep
  rw [if_neg (by simp [hp])] at hstep
  rcases a with p | ⟨p, b⟩ | p | p | p
  case log_write =>
    have hroom : RoomLeft size s (.log_write p b) ↔ s.lh.length < size - 1 := by
      rw [RoomLeft, hb.card]
    have hbig : tooBig s.lh size ↔ ¬ s.lh.length < size - 1 := by
      rw [LOGSIZE_eq] at hsize
      rw [tooBig, LOGSIZE_eq]
      omega
    rw [hroom, ← hbig]
    simp only at hstep
    split at hstep
    · grind [Sys.goto]
    · cases hstep
  case go =>
    refine iff_of_false ?_ (fun h => h trivial)
    rcases go_panicked hstep with h | h <;> simp [h, hp]
  all_goals
    refine iff_of_false ?_ (fun h => h trivial)
    simp only at hstep
    split at hstep <;> cases hstep
    simp [Sys.goto, hp]

theorem overflows_along (hsize : size ≤ LOGSIZE + 1) (hp : s.panicked = none) (hi : Inv s)
    (hr : run (step size maxop) s as = some s') :
    s'.panicked ≠ some "too big a transaction" ↔ Along (step size maxop) (RoomLeft size) s as := by
  induction as generalizing s with
  | nil =>
    cases hr
    simp [Along, hp]
  | cons a as ih =>
    obtain ⟨t, ht, hr⟩ := run_cons.mp hr
    have hiff := overflows_iff hsize hi.blocks ht
    by_cases htp : t.panicked = none
    · have hroom : RoomLeft size s a := by grind
      rw [ih htp (hi.move (step_moves ht).2 htp) hr, along_cons ht]
      exact (and_iff_right hroom).symm
    · obtain ⟨rfl, rfl⟩ := run_of_panicked htp hr
      rw [ne_eq, hiff, not_not, along_cons ht]
      exact (and_iff_left trivial).symm

/-- With one block less for each operation, the reservations leave the last slot free. -/
theorem room_with_less (h : run (step nlog (MAXOPBLOCKS - 1)) init as = some s) :
    ¬ tooBig s.lh nlog := by
  obtain ⟨r, _, hle⟩ := (space_of_run admits_less h).reserved
  simp only [tooBig, nlog, LOGSIZE_eq] at *
  omega

theorem no_overflow_with_less (h : run (step nlog (MAXOPBLOCKS - 1)) init as = some s) :
    s.panicked ≠ some "too big a transaction" := by
  rcases eq_nil_or_concat as with rfl | ⟨as, a, rfl⟩
  · cases h
    simp [init]
  · rw [concat_eq_append] at h
    obtain ⟨t, ht, hstep⟩ := run_snoc.mp h
    have hroom := room_with_less ht
    obtain ⟨hp, hm⟩ := step_moves hstep
    cases hm with
    | overflows p o b _ _ hbig => exact absurd hbig hroom
    | outside p o _ _ => simp
    | collides p o _ _ => simp
    | _ => simp [Sys.goto, hp]

/-- On the log of a mkfs image, a run is free of the panic exactly when every `log_write` in it
is called while fewer than `nlog - 1` distinct blocks are logged. A run in which every operation
logs at most one block less than MAXOPBLOCKS is free of it. -/
theorem log_write_panics_without_room {as : List Act} {s : Sys}
    (h : run (step nlog MAXOPBLOCKS) init as = some s) :
    (s.panicked ≠ some "too big a transaction" ↔
      Along (step nlog MAXOPBLOCKS) (RoomLeft nlog) init as) ∧
    (run (step nlog (MAXOPBLOCKS - 1)) init as = some s →
      s.panicked ≠ some "too big a transaction") :=
  ⟨overflows_along (Nat.le_succ LOGSIZE) rfl Inv.init h, no_overflow_with_less⟩

/-- Three operations of ten blocks each, up to the last `log_write`. -/
def threeOperations : List Act :=
  begins 0 ++ begins 1 ++ begins 2 ++ logs 0 100 10 ++ logs 1 200 10 ++ logs 2 300 9 ++
    [.log_write 2 309]

set_option maxRecDepth 20000 in
theorem three_operations_overflow_the_log :
    (run (step nlog MAXOPBLOCKS) init threeOperations).map (fun s => s.panicked) =
      some (some "too big a transaction") := by
  decide +kernel

set_option maxRecDepth 20000 in
theorem one_operation_has_room :
    ∃ s, run (step nlog MAXOPBLOCKS) init (begins 0 ++ logs 0 100 10) = some s ∧
      s.panicked ≠ some "too big a transaction" ∧
      Along (step nlog MAXOPBLOCKS) (RoomLeft nlog) init (begins 0 ++ logs 0 100 10) := by
  have hrun : ∃ s, run (step nlog MAXOPBLOCKS) init (begins 0 ++ logs 0 100 10) = some s :=
    Option.isSome_iff_exists.mp (by decide +kernel)
  obtain ⟨s, hs⟩ := hrun
  have hp : (run (step nlog MAXOPBLOCKS) init (begins 0 ++ logs 0 100 10)).map
      (fun s => s.panicked) = some none := by decide +kernel
  have hno : s.panicked ≠ some "too big a transaction" := by
    grind
  exact ⟨s, hs, hno, (log_write_panics_without_room hs).1.mp hno⟩

/-! ## The slots that a commit writes -/

/-- The process is in `log_write`, between its test and its append. -/
def Pc.tested : Pc → Bool
  | .log_write _ _ | .appending _ _ => true
  | _ => false

/-- No process makes the test of `log_write` while another is between its test and its append. -/
def OneAtATime (s : Sys) : Act → Prop
  | .log_write p _ => ∀ q ≠ p, (s.pc q).tested = false
  | _ => True

/-- Only a turn of a process that is appending makes the header longer. -/
theorem lh_of_step {a : Act} (h : step size maxop s a = some s') : s'.lh.length ≤ s.lh.length ∨
      ∃ p o b, a = .go p ∧ s.pc p = .appending o b ∧ s'.lh = absorb s.lh b ∧
        (s'.pc p).tested = false := by
  unfold step at h
  split at h
  · cases h
  rcases a with p | ⟨p, b⟩ | p | p | p
  case go =>
    simp only at h
    unfold go at h
    split at h <;> (try split at h) <;> (try split at h) <;> cases h <;>
      first
      | exact Or.inl (Nat.le_refl _)
      | exact Or.inl (Nat.zero_le _)
      | exact Or.inr ⟨p, _, _, rfl, ‹_›, rfl, by simp [Sys.goto, Pc.tested]⟩
  all_goals
    left
    simp only at h
    split at h <;> (try split at h) <;> (try split at h) <;> (try split at h) <;> cases h <;>
      exact Nat.le_refl _

/-- A process that has just made its test found room. -/
theorem tested_of_step {a : Act} {q : Nat} (h : step size maxop s a = some s')
    (hq : (s'.pc q).tested = true) : (s.pc q).tested = true ∨
      ∃ b, a = .log_write q b ∧ s.lh.length < size - 1 ∧ s'.lh = s.lh := by
  have hgoto : ∀ {p : Nat} {x : Pc}, x.tested = false ∨ (s.pc p).tested = true →
      ((s.goto p x).pc q).tested = true → (s.pc q).tested = true := by
    intro p x hx hq
    by_cases hqp : q = p
    · subst hqp
      simp only [Sys.goto, Function.update_self] at hq
      grind
    · simpa [Sys.goto, hqp] using hq
  unfold step at h
  split at h
  · cases h
  rcases a with p | ⟨p, b⟩ | p | p | p
  case log_write =>
    simp only at h
    split at h
    · split at h
      · cases h
      · split at h
        · cases h
          exact Or.inl hq
        · rename_i hbig
          split at h <;> cases h
          · exact Or.inl hq
          · by_cases hqp : q = p
            · subst hqp
              simp only [tooBig, not_or] at hbig
              exact Or.inr ⟨b, rfl, by omega, rfl⟩
            · exact Or.inl (by simpa [Sys.goto, hqp] using hq)
    · cases h
  case go =>
    left
    simp only at h
    unfold go at h
    split at h <;> rename_i hpc <;> (try split at h) <;> (try split at h) <;> cases h <;>
      first
      | exact hq
      | exact hgoto (Or.inl rfl) hq
      | exact hgoto (Or.inr (by rw [hpc]; rfl)) hq
      | skip
    -- a process that is woken is not in `log_write`
    by_cases hqp : q = p
    · subst hqp
      simp [Pc.tested] at hq
    · simp only [Function.update_of_ne hqp, wakeup1] at hq
      split at hq
      · cases hq
      · exact hq
  all_goals
    left
    simp only at h
    split at h <;> cases h
    exact hgoto (Or.inl rfl) hq

/-- The header has at most a block for each slot, and one process at most is to append another. -/
structure Slots (size : Nat) (s : Sys) : Prop where
  le : s.lh.length ≤ size - 1
  room : ∀ p, (s.pc p).tested = true → s.lh.length < size - 1
  one : ∀ p q, (s.pc p).tested = true → (s.pc q).tested = true → p = q

theorem Slots.step {a : Act} (h : Slots size s) (hone : OneAtATime s a)
    (hstep : step size maxop s a = some s') : Slots size s' := by
  rcases lh_of_step hstep with hle | ⟨p, o, b, rfl, hpc, hlh, hout⟩
  · refine ⟨hle.trans h.le, fun p hp => ?_, fun p q hp hq => ?_⟩
    · rcases tested_of_step hstep hp with hp | ⟨_, _, hlt, hlh⟩
      · exact hle.trans_lt (h.room p hp)
      · rwa [hlh]
    · rcases tested_of_step hstep hp with hp | ⟨b, rfl, -, -⟩
      · rcases tested_of_step hstep hq with hq | ⟨b, rfl, -, -⟩
        · exact h.one p q hp hq
        · grind [OneAtATime]
      · rcases tested_of_step hstep hq with hq | ⟨b', hb', -, -⟩
        · grind [OneAtATime]
        · exact (Act.log_write.inj hb').1
  · -- the process that appends was the only one
    have hp : (s.pc p).tested = true := by rw [hpc]; rfl
    have hnone : ∀ q, (s'.pc q).tested ≠ true := by
      intro q hq
      rcases tested_of_step hstep hq with hq' | ⟨_, hact, -, -⟩
      · rw [h.one q p hq' hp, hout] at hq
        cases hq
      · cases hact
    refine ⟨?_, fun q hq => absurd hq (hnone q), fun q _ hq => absurd hq (hnone q)⟩
    rw [hlh]
    exact (length_absorb_le s.lh b).trans (h.room p hp)

/-- Between two machines, only the first slots of the log were written, one for each block of
the header. -/
def WroteSlots (m m' : Machine) : Prop :=
  ∀ w ∈ m'.writes, w ∈ m.writes ∨ m.start < w.1 ∧ w.1 ≤ m.start + m.lh.length

theorem write_log_slots (m : Machine) :
    spec write_log m (fun _ m' => WroteSlots m m') (fun _ m' => WroteSlots m m') := by
  unfold write_log
  rw [spec_bind, spec_get]
  refine spec_loop (I := fun _ m' => WroteSlots m m') ?_ (fun w hw => Or.inl hw)
  intro j t hj ht
  simp only [spec_bind]
  refine spec_bread (spec_bread (spec_bwrite ?_ fun _ => ht) ht) ht
  intro w hw
  rcases mem_append.mp hw with hw | hw
  · exact ht w hw
  · grind

theorem stopped_write_log (m : Machine) : WroteSlots m (stopped (write_log m)) := by
  have h := write_log_slots m
  unfold spec at h
  cases hr : write_log m <;> rw [hr] at h <;> exact h

/-- The header never has more blocks than the log has slots, and a commit writes only slots of the
log, in every run where no process makes the test of `log_write` while another is between its test
and its append. So it is in every run, on a log as large as that of mkfs, whose operations log one
block less than MAXOPBLOCKS. -/
theorem commits_stay_in_the_log (g : Geometry) {as : List Act} {s : Sys}
    (hr : run (step g.size MAXOPBLOCKS) init as = some s)
    (hone : Along (step g.size MAXOPBLOCKS) OneAtATime init as ∨
      nlog ≤ g.size ∧ run (step g.size (MAXOPBLOCKS - 1)) init as = some s) :
    s.lh.length ≤ g.size - 1 ∧
      ∀ m : Machine, m.start = g.start → m.lh = s.lh → m.writes = [] →
        ∀ w ∈ (stopped (write_log m)).writes,
          g.start + 1 ≤ w.1 ∧ w.1 < g.start + g.size ∧ (g = mkfsLog → w.1 ≠ inodestart) := by
  have hle : s.lh.length ≤ g.size - 1 := by
    rcases hone with hone | ⟨hsize, hless⟩
    · have hinit : Slots g.size init :=
        ⟨Nat.zero_le _, (fun _ hp => by cases hp), (fun _ _ hp => by cases hp)⟩
      exact (inv_of_along (fun s a s' h ho hstep => h.step ho hstep) hinit hone hr).le
    · obtain ⟨r, _, hle⟩ := (space_of_run admits_less hless).reserved
      omega
  refine ⟨hle, fun m hstart hlh hws w hw => ?_⟩
  have hslot : m.start < w.1 ∧ w.1 ≤ m.start + m.lh.length := by
    rcases stopped_write_log m w hw with h | h
    · rw [hws] at h
      cases h
    · exact h
  rw [hstart, hlh] at hslot
  refine ⟨by omega, by omega, ?_⟩
  rintro rfl
  simp only [mkfsLog, inodestart] at *
  omega

/-- The same among the first `n` processes, which are the only ones that act. -/
def OneBelow (n : Nat) (s : Sys) : Act → Prop
  | .log_write p _ => p < n ∧ ∀ q < n, q ≠ p → (s.pc q).tested = false
  | _ => True

instance (n : Nat) (s : Sys) : ∀ a, Decidable (OneBelow n s a)
  | .log_write _ _ => inferInstanceAs (Decidable (_ ∧ _))
  | .begin_op _ | .end_op _ | .go _ | .kill _ => isTrue trivial

theorem oneAtATime_of_below {n : Nat} (hs : ∀ q ≥ n, (s.pc q).tested = false)
    (h : Along (step size maxop) (OneBelow n) s as) : Along (step size maxop) OneAtATime s as := by
  induction as generalizing s with
  | nil => trivial
  | cons a as ih =>
    refine ⟨?_, fun t ht => ih (fun q hq => ?_) (h.2 t ht)⟩
    · have hbelow := h.1
      cases a with
      | log_write p b =>
        intro q hqp
        rcases Nat.lt_or_ge q n with hq | hq
        · exact hbelow.2 q hq hqp
        · exact hs q hq
      | _ => trivial
    · by_contra hne
      rcases tested_of_step ht (eq_true_of_ne_false hne) with hq' | ⟨b, rfl, -⟩
      · rw [hs q hq] at hq'
        cases hq'
      · exact absurd h.1.1 (Nat.not_lt.mpr hq)

/-- Two operations whose calls of `log_write` alternate, up to their commit. -/
def plainCommit : List Act :=
  begins 0 ++ begins 1 ++ logs 0 100 1 ++ logs 1 200 1 ++ logs 0 101 1 ++
    [.end_op 1, .go 1, .go 1, .go 1, .go 1, .go 1, .end_op 0, .go 0, .go 0]

set_option maxRecDepth 20000 in
theorem a_plain_commit_stays_in_the_log :
    ∃ s, run (step mkfsLog.size MAXOPBLOCKS) init plainCommit = some s ∧ s.pc 0 = .commit ∧
      s.lh = [100, 200, 101] ∧ s.lh.length ≤ mkfsLog.size - 1 ∧
      ∀ m : Machine, m.start = mkfsLog.start → m.lh = s.lh → m.writes = [] →
        ∀ w ∈ (stopped (write_log m)).writes,
          mkfsLog.start + 1 ≤ w.1 ∧ w.1 < mkfsLog.start + mkfsLog.size ∧
            (mkfsLog = mkfsLog → w.1 ≠ inodestart) := by
  obtain ⟨s, hs, hpc, hlh⟩ : ∃ s, run (step mkfsLog.size MAXOPBLOCKS) init plainCommit = some s ∧
      s.pc 0 = .commit ∧ s.lh = [100, 200, 101] := by
    decide +kernel
  have hone : Along (step mkfsLog.size MAXOPBLOCKS) OneAtATime init plainCommit :=
    oneAtATime_of_below (n := 2) (fun _ _ => rfl) (by decide +kernel)
  exact ⟨s, hs, hpc, hlh, commits_stay_in_the_log mkfsLog hs (Or.inl hone)⟩

/-- The three operations end, and the last one commits. -/
def racedCommit : List Act :=
  thirtyBlocks ++ [.end_op 0, .go 0, .go 0, .go 0, .go 0, .go 0, .end_op 1, .go 1, .go 1, .go 1,
    .go 1, .go 1, .end_op 2, .go 2, .go 2]

set_option maxRecDepth 20000 in
/-- The commit has one block more than the log has slots. -/
theorem a_raced_commit_has_no_slot : (run (step nlog MAXOPBLOCKS) init racedCommit).map
    (fun s => (s.panicked, s.pc 2, s.lh.length)) = some (none, .commit, nlog) := by
  decide +kernel

/-- A commit whose blocks have taken every buffer finds none for the first slot of the log. -/
theorem write_log_without_buffers {m : Machine} (hfull : NBUF ≤ m.pinned)
    (hslot : m.dirty (m.start + 0 + 1) = none) : spec write_log m (fun _ _ => False)
      (fun e m' => e = .panic "bget: no buffers" ∧ m' = m) := by
  have hle : m.pinned ≤ m.lh.length := countP_le_length
  have hpos : 0 < NBUF := by decide
  obtain ⟨n, hn⟩ : ∃ n, m.lh.length = n + 1 := Nat.exists_eq_succ_of_ne_zero (by omega)
  unfold write_log bread
  simp only [spec_bind, spec_get, hn, loop, forFrom, spec_ite, spec_throw]
  exact ⟨fun _ => ⟨trivial, trivial⟩, fun h => absurd ⟨by rw [hslot]; rfl, hfull⟩ h⟩

end xv6.log
