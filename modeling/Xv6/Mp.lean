-- mp.c: the search for the MP tables and the scan of their entries. An entry of unknown type does
-- not move the cursor of the scan, and nothing bounds the number of processors.
import Xv6.Bytes
import Xv6.Params

open bytes

namespace xv6.mp

/-! ## The code

The memory is given by physical addresses. -/

abbrev NCPU : Nat := 8

abbrev MPPROC : UInt8 := 0

abbrev MPBUS : UInt8 := 1

abbrev MPIOAPIC : UInt8 := 2

abbrev MPIOINTR : UInt8 := 3

abbrev MPLINTR : UInt8 := 4

abbrev MPBOOT : UInt8 := 2

def sum (m : Mem) (addr len : Nat) : UInt8 := (slice m addr len).foldl (· + ·) 0

/-- Look for an MP structure in the `len` bytes at `a`. -/
def mpsearch1 (m : Mem) (a len : Nat) : Option Nat :=
  ((List.range ((len + 15) / 16)).map (a + 16 * ·)).find? fun p =>
    -- `_MP_`
    slice m p 4 = [95, 77, 80, 95] ∧ sum m p 16 = 0

/-- Search for the MP floating pointer structure. -/
def mpsearch (m : Mem) : Option Nat :=
  let p := le m 0x40E 2 * 16
  (if p ≠ 0 then mpsearch1 m p 1024
    else mpsearch1 m (uint (le m 0x413 2 * 1024 + (2 ^ 32 - 1024))) 1024).or
    (mpsearch1 m 0xF0000 0x10000)

/-- Search for an MP configuration table: the addresses of the structure and of the table. -/
def mpconfig (m : Mem) : Option (Nat × Nat) :=
  match mpsearch m with
  | none => none
  | some mp =>
    let conf := le m (mp + 4) 4
    if conf = 0 then none
    -- `PCMP`
    else if slice m conf 4 ≠ [80, 67, 77, 80] then none
    else if m (conf + 6) ≠ 1 ∧ m (conf + 6) ≠ 4 then none
    else if sum m conf (le m (conf + 4) 2) ≠ 0 then none
    else some (mp, conf)

/-- What `cprintf` prints. -/
inductive Msg where
  /-- `mpinit: ncpu=%d apicid=%d` -/
  | apicid (ncpu : Nat) (apicid : UInt8)
  /-- `mpinit: unknown config type %x` -/
  | unknown (type : UInt8)

structure Mp where
  ncpu : Nat
  ismp : Bool
  bcpu : Nat
  lapic : Nat
  ioapicid : UInt8
  /-- the stores `cpus[i].id = ncpu` -/
  cpus : List (Nat × Nat)
  printed : List Msg
  /-- the IMCR is selected and masks external interrupts -/
  imcr : Bool

def Mp.boot : Mp := ⟨0, false, 0, 0, 0, [], [], false⟩

/-- The entry of a processor. -/
def Mp.proc (s : Mp) (apicid flags : UInt8) : Mp :=
  { s with
    ismp := s.ismp && s.ncpu == apicid.toNat
    printed := if s.ncpu ≠ apicid.toNat then s.printed ++ [.apicid s.ncpu apicid] else s.printed
    bcpu := if flags &&& MPBOOT ≠ 0 then s.ncpu else s.bcpu
    cpus := s.cpus ++ [(s.ncpu, s.ncpu)]
    ncpu := s.ncpu + 1 }

/-- The loop over the entries from `p` to `e`, with at most `n` turns. -/
def scan (m : Mem) (e : Nat) : Nat → Nat → Mp → Option Mp
  | 0, _, _ => none
  | n + 1, p, s =>
    if p < e then
      if m p = MPPROC then scan m e n (p + 20) (s.proc (m (p + 1)) (m (p + 3)))
      else if m p = MPIOAPIC then scan m e n (p + 8) { s with ioapicid := m (p + 1) }
      else if m p = MPBUS ∨ m p = MPIOINTR ∨ m p = MPLINTR then scan m e n (p + 8) s
      else scan m e n p { s with ismp := false, printed := s.printed ++ [.unknown (m p)] }
    else some s

/-- The end of the table. -/
def tableEnd (m : Mem) (conf : Nat) : Nat := conf + le m (conf + 4) 2

/-- The end of `mpinit`. -/
def settle (m : Mem) (mp : Nat) (s : Mp) : Mp :=
  -- fall back to no MP
  if s.ismp = false then { s with ncpu := 1, lapic := 0, ioapicid := 0 }
  else if m (mp + 12) ≠ 0 then { s with imcr := true }
  else s

/-- `mpinit`, where the loop makes at most `n` turns. -/
def mpinit (m : Mem) (n : Nat) (s : Mp) : Option Mp :=
  match mpconfig m with
  | none => some { s with bcpu := 0 }
  | some (mp, conf) =>
    (scan m (tableEnd m conf) n (conf + 44)
      { s with bcpu := 0, ismp := true, lapic := le m (conf + 36) 4 }).map (settle m mp)

/-! ## The entries of a table -/

/-- The size of an entry of a known type. -/
def size (type : UInt8) : Option Nat :=
  if type = MPPROC then some 20
  else if type = MPIOAPIC ∨ type = MPBUS ∨ type = MPIOINTR ∨ type = MPLINTR then some 8
  else none

/-- The entries from `p` to `q` begin before `e` and are of known types, `c` of
them for processors. -/
inductive Entries (m : Mem) (e p : Nat) : Nat → Nat → Prop where
  | nil : Entries m e p 0 p
  | snoc {c q k : Nat} : Entries m e p c q → q < e → size (m q) = some k →
      Entries m e p (c + if m q = MPPROC then 1 else 0) (q + k)

section Scan

variable {m : Mem} {e p q c n k : Nat} {s s' : Mp}

/-- An entry of known type: the cursor moves, and a processor is stored. -/
theorem scan_known (hq : q < e) (hk : size (m q) = some k) (s : Mp) :
    ∃ s', (∀ n, scan m e (n + 1) q s = scan m e n (q + k) s') ∧
      s'.ncpu = s.ncpu + (if m q = MPPROC then 1 else 0) ∧
      s'.cpus = s.cpus ++ if m q = MPPROC then [(s.ncpu, s.ncpu)] else [] := by
  by_cases hproc : m q = MPPROC
  · simp only [size, hproc, if_true, Option.some.injEq] at hk
    subst hk
    refine ⟨s.proc (m (q + 1)) (m (q + 3)),
      fun n => ?_, by simp [hproc, Mp.proc], by simp [hproc, Mp.proc]⟩
    rw [scan, if_pos hq, if_pos hproc]
  · simp only [size, hproc, if_false, Option.ite_none_right_eq_some, Option.some.injEq] at hk
    obtain ⟨htype, rfl⟩ := hk
    by_cases hio : m q = MPIOAPIC
    · refine ⟨{ s with ioapicid := m (q + 1) }, fun n => ?_, by simp [hproc], by simp [hproc]⟩
      rw [scan, if_pos hq, if_neg hproc, if_pos hio]
    · refine ⟨s, fun n => ?_, by simp [hproc], by simp [hproc]⟩
      rw [scan, if_pos hq, if_neg hproc, if_neg hio, if_pos (htype.resolve_left hio)]

/-- An entry of unknown type: the scan never ends. -/
theorem scan_unknown (hq : q < e) (hk : size (m q) = none) (n : Nat) (s : Mp) :
    scan m e n q s = none := by
  have hproc : m q ≠ MPPROC := by
    intro h
    simp [size, h] at hk
  have hrest : ¬ (m q = MPIOAPIC ∨ m q = MPBUS ∨ m q = MPIOINTR ∨ m q = MPLINTR) := by
    intro h
    simp [size, hproc, h] at hk
  rw [not_or] at hrest
  induction n generalizing s with
  | zero => rfl
  | succ n ih =>
    rw [scan, if_pos hq, if_neg hproc, if_neg hrest.1, if_neg hrest.2]
    exact ih _

theorem scan_mono (h : scan m e n p s = some s') : scan m e (n + 1) p s = some s' := by
  induction n generalizing p s with
  | zero => cases h
  | succ n ih =>
    rw [scan] at h ⊢
    split_ifs at h ⊢ <;> first | exact ih h | exact h

theorem scan_mono' (k : Nat) (h : scan m e n p s = some s') : scan m e (n + k) p s = some s' := by
  induction k with
  | zero => exact h
  | succ k ih => exact scan_mono ih

/-- The scan comes past entries of known types. -/
theorem Entries.reach (h : Entries m e p c q) (s : Mp) :
    ∃ k s', (∀ n, scan m e (n + k) p s = scan m e n q s') ∧ s'.ncpu = s.ncpu + c ∧
      s'.cpus = s.cpus ++ (List.range c).map fun i => (s.ncpu + i, s.ncpu + i) := by
  induction h with
  | nil => exact ⟨0, s, fun _ => rfl, rfl, by simp⟩
  | snoc h hq hk ih =>
    obtain ⟨k, s1, hscan, hncpu, hcpus⟩ := ih
    obtain ⟨s2, hscan', hncpu', hcpus'⟩ := scan_known hq hk s1
    refine ⟨k + 1, s2, fun n => ?_, by rw [hncpu', hncpu, Nat.add_assoc], ?_⟩
    · rw [Nat.add_comm k 1, ← Nat.add_assoc, hscan, hscan']
    · rw [hcpus', hcpus, hncpu]
      split
      · rw [List.range_succ, List.map_append, List.append_assoc]
        rfl
      · simp

/-- The entries go on to the end, or to an entry of unknown type. -/
theorem exists_entries (m : Mem) (e p : Nat) :
    ∃ c q, Entries m e p c q ∧ (e ≤ q ∨ q < e ∧ size (m q) = none) := by
  have hgo : ∀ d c q, Entries m e p c q → e ≤ q + d →
      ∃ c q, Entries m e p c q ∧ (e ≤ q ∨ q < e ∧ size (m q) = none) := by
    intro d
    induction d with
    | zero => exact fun c q h hd => ⟨c, q, h, Or.inl hd⟩
    | succ d ih =>
      intro c q h hd
      by_cases hq : q < e
      · cases hk : size (m q) with
        | none => exact ⟨c, q, h, Or.inr ⟨hq, hk⟩⟩
        | some k =>
          have hpos : 0 < k := by
            simp only [size] at hk
            split_ifs at hk <;> simp at hk <;> omega
          exact ih _ _ (h.snoc hq hk) (by omega)
      · exact ⟨c, q, h, Or.inl (Nat.le_of_not_lt hq)⟩
  exact hgo e 0 p .nil (Nat.le_add_left e p)

/-- After an entry of unknown type there is no end. -/
theorem Entries.stuck (h : Entries m e p c q) (hq : q < e) (hk : size (m q) = none) :
    scan m e n p s = none := by
  obtain ⟨k, s1, hscan, -, -⟩ := h.reach s
  rw [Option.eq_none_iff_forall_ne_some]
  intro s' hsome
  have hlong := scan_mono' k hsome
  rw [hscan, scan_unknown hq hk] at hlong
  cases hlong

/-- At the end of the table the scan ends, with the processors stored. -/
theorem Entries.ends (h : Entries m e p c q) (hq : e ≤ q) (hs : s.ncpu = 0 ∧ s.cpus = []) :
    ∃ n s', scan m e n p s = some s' ∧ s'.cpus = (List.range c).map fun i => (i, i) := by
  obtain ⟨k, s', hscan, -, hcpus⟩ := h.reach s
  refine ⟨1 + k, s', ?_, ?_⟩
  · rw [hscan, scan, if_neg (Nat.not_lt.mpr hq)]
  · simpa [hs.1, hs.2] using hcpus

end Scan

/-! ## The law -/

/-- The scan is robust: it ends, it only writes elements of `cpus`, and on an entry of unknown type
it ends in the fallback. -/
def Robust (m : Mem) (conf : Nat) : Prop :=
  ∃ n s, mpinit m n Mp.boot = some s ∧ (∀ w ∈ s.cpus, w.1 < NCPU) ∧
    ((∃ c q, Entries m (tableEnd m conf) (conf + 44) c q ∧ q < tableEnd m conf ∧
      size (m q) = none) → s.ncpu = 1 ∧ s.ismp = false)

section Law

variable {m : Mem} {mp conf : Nat}

theorem settle_cpus (m : Mem) (mp : Nat) (s : Mp) : (settle m mp s).cpus = s.cpus := by
  unfold settle
  split_ifs <;> rfl

/-- The scan of an accepted table is robust exactly if its entries are of known types to its end,
and at most `NCPU` of them are for processors. -/
theorem scan_is_robust_iff (h : mpconfig m = some (mp, conf)) : Robust m conf ↔
      ∃ c q, Entries m (tableEnd m conf) (conf + 44) c q ∧ tableEnd m conf ≤ q ∧ c ≤ NCPU := by
  have hinit : ∀ n, mpinit m n Mp.boot = (scan m (tableEnd m conf) n (conf + 44)
      { Mp.boot with ismp := true, lapic := le m (conf + 36) 4 }).map (settle m mp) := by
    intro n
    rw [mpinit, h]
    rfl
  constructor
  · rintro ⟨n, s, hrun, hcpus, -⟩
    rw [hinit, Option.map_eq_some_iff] at hrun
    obtain ⟨s, hscan, rfl⟩ := hrun
    obtain ⟨c, q, hent, hq | ⟨hq, hk⟩⟩ := exists_entries m (tableEnd m conf) (conf + 44)
    · refine ⟨c, q, hent, hq, ?_⟩
      obtain ⟨n', s', hscan', hcpus'⟩ := hent.ends
        (s := { Mp.boot with ismp := true, lapic := le m (conf + 36) 4 }) hq ⟨rfl, rfl⟩
      have hsame := (scan_mono' n' hscan).symm.trans (Nat.add_comm n' n ▸ scan_mono' n hscan')
      obtain rfl := Option.some.inj hsame
      by_contra hc
      rw [settle_cpus, hcpus'] at hcpus
      exact absurd (hcpus (NCPU, NCPU) (by simpa using Nat.lt_of_not_le hc)) (Nat.lt_irrefl _)
    · rw [hent.stuck hq hk] at hscan
      cases hscan
  · rintro ⟨c, q, hent, hq, hc⟩
    obtain ⟨n, s, hscan, hcpus⟩ := hent.ends
        (s := { Mp.boot with ismp := true, lapic := le m (conf + 36) 4 }) hq ⟨rfl, rfl⟩
    refine ⟨n, settle m mp s, ?_, fun w hw => ?_, ?_⟩
    · rw [hinit, hscan]
      rfl
    · rw [settle_cpus, hcpus] at hw
      obtain ⟨i, hi, rfl⟩ := List.mem_map.mp hw
      exact Nat.lt_of_lt_of_le (List.mem_range.mp hi) hc
    · rintro ⟨c', q', hent', hq', hk⟩
      rw [hent'.stuck hq' hk] at hscan
      cases hscan

end Law

/-- A table at 0x510 with one entry, whose type is given. -/
def oneEntry (length checksum type : UInt8) : Mem := fun a =>
  if a = 0x40E then 0x50
  else if a < 0x500 then 0
  else ([95, 77, 80, 95, 0x10, 5, 0, 0, 1, 4, 139, 0, 0, 0, 0, 0, 80, 67, 77, 80, length, 0, 4,
    checksum] ++ List.replicate 36 0 ++ [type]).getD (a - 0x500) 0

theorem oneEntry_accepted : mpconfig (oneEntry 64 140 0) = some (0x500, 0x510) ∧
    mpconfig (oneEntry 45 150 9) = some (0x500, 0x510) := by
  decide +kernel

/-- With one processor, the scan is robust. -/
theorem one_processor_is_scanned : mpconfig (oneEntry 64 140 0) = some (0x500, 0x510) ∧
    Robust (oneEntry 64 140 0) 0x510 := by
  refine ⟨oneEntry_accepted.1, (scan_is_robust_iff oneEntry_accepted.1).mpr
    ⟨1, 0x510 + 44 + 20, ?_, ?_, ?_⟩⟩
  · exact .snoc .nil (by decide +kernel) (by decide +kernel)
  · decide +kernel
  · decide

/-- On an entry of type 9, `mpinit` never ends. -/
theorem an_unknown_entry_is_scanned_forever : mpconfig (oneEntry 45 150 9) = some (0x500, 0x510) ∧
    ∀ n, mpinit (oneEntry 45 150 9) n Mp.boot = none := by
  refine ⟨oneEntry_accepted.2, fun n => ?_⟩
  rw [mpinit, oneEntry_accepted.2]
  dsimp only
  rw [scan_unknown (by decide +kernel) (by decide +kernel)]
  rfl

end xv6.mp
