-- The console of console.c: characters that arrive at `consoleintr`, and processes that read
-- lines with `consoleread`, in any interleaving. The ring of bytes between them is compared
-- with a line editor over lists. What is echoed on the screen, and the process listing of
-- control-P, are left out.
import Xv6.Fifo
import Xv6.Params
import Xv6.Runs

open Option List fifo runs

namespace xv6.console

/-! ## The input buffer -/

abbrev INPUT_BUF : Nat := 128

structure Input where
  buf : Nat → UInt8
  /-- read index -/
  r : Nat
  /-- write index -/
  w : Nat
  /-- edit index -/
  e : Nat

/-- Control-x. -/
def C (x : Char) : UInt8 := UInt8.ofNat (x.toNat - '@'.toNat)

def LF : UInt8 := 10

/-- The loop of control-U, which has at most `e - w` turns. -/
def killLine : Nat → Input → Input
  | 0, x => x
  | k + 1, x =>
    if x.e ≠ x.w ∧ x.buf (uint (x.e + 2 ^ 32 - 1) % INPUT_BUF) ≠ LF then
      killLine k { x with e := uint (x.e + 2 ^ 32 - 1) }
    else x

/-- One turn of `consoleintr`, and whether it wakes up the readers. -/
def consoleintr (x : Input) (c : UInt8) : Input × Bool :=
  if c = C 'P' then (x, false)
  else if c = C 'U' then (killLine (uint (x.e + 2 ^ 32 - x.w)) x, false)
  else if c = C 'H' ∨ c = 0x7f then
    (if x.e ≠ x.w then { x with e := uint (x.e + 2 ^ 32 - 1) } else x, false)
  else if c ≠ 0 ∧ uint (x.e + 2 ^ 32 - x.r) < INPUT_BUF then
    let c := if c = 13 then LF else c
    let x := { x with buf := Function.update x.buf (x.e % INPUT_BUF) c, e := uint (x.e + 1) }
    if c = LF ∨ c = C 'D' ∨ x.e = uint (x.r + INPUT_BUF) then ({ x with w := x.e }, true)
    else (x, false)
  else (x, false)

/-- What a reader gets before it sleeps or returns. -/
structure Took where
  input : Input
  /-- what is left of `n` -/
  n : Nat
  /-- the bytes that it took from the buffer -/
  taken : List UInt8
  /-- those that it put at `dst` -/
  dst : List UInt8
  sleeps : Bool

/-- The outer loop of `consoleread`, while there is something to read. -/
def readLoop (target : Nat) : Nat → Input → Took
  | 0, x => { input := x, n := 0, taken := [], dst := [], sleeps := false }
  | n + 1, x =>
    if x.r = x.w then { input := x, n := n + 1, taken := [], dst := [], sleeps := true }
    else
      let c := x.buf (x.r % INPUT_BUF)
      let y := { x with r := uint (x.r + 1) }
      if c = C 'D' then
        if n + 1 < target then
          -- save it for next time
          { input := { y with r := uint (y.r + 2 ^ 32 - 1) }, n := n + 1, taken := [], dst := []
            sleeps := false }
        else { input := y, n := n + 1, taken := [c], dst := [], sleeps := false }
      else if c = LF then { input := y, n := n, taken := [c], dst := [c], sleeps := false }
      else
        let t := readLoop target n y
        { t with taken := c :: t.taken, dst := c :: t.dst }

/-! ## Processes -/

/-- Where a process is, with `n` and `target` of its call. -/
inductive Place where
  | idle
  | asleep (n target : Nat)
  /-- woken up, before it has `cons.lock` again -/
  | awake (n target : Nat)
  deriving DecidableEq

def Place.wakeup : Place → Place
  | .asleep n target => .awake n target
  | x => x

/-- What happened to the input buffer: a character came, or a reader took bytes. -/
inductive Event where
  | key (c : UInt8)
  | take (k : Nat)

structure State where
  input : Input
  pc : Nat → Place
  killed : Nat → Bool
  /-- what the last `consoleread` of a process returned -/
  ret : Nat → Option Int
  /-- the bytes that readers have taken -/
  taken : List UInt8
  /-- the bytes that readers have put at their `dst` -/
  delivered : List UInt8
  events : List Event

/-- `consoleread` of process `p` goes on, until it sleeps or returns. -/
def reads (s : State) (p n target : Nat) : State :=
  let t := readLoop target n s.input
  let s := { s with
    input := t.input
    taken := s.taken ++ t.taken
    delivered := s.delivered ++ t.dst
    events := s.events ++ [Event.take t.taken.length] }
  if t.sleeps then
    if s.killed p then
      { s with ret := Function.update s.ret p (some (-1)), pc := Function.update s.pc p .idle }
    else { s with pc := Function.update s.pc p (.asleep t.n target) }
  else
    { s with
      ret := Function.update s.ret p (some ((target : Int) - t.n)), pc :=
        Function.update s.pc p .idle }

/-- `consoleintr` for one character. -/
def key (s : State) (c : UInt8) : State :=
  let (x, wakes) := consoleintr s.input c
  { s with
    input := x
    pc := if wakes then fun p => (s.pc p).wakeup else s.pc
    events := s.events ++ [Event.key c] }

inductive Act where
  /-- `consoleintr` gets these characters -/
  | intr (cs : List UInt8)
  /-- process `p` calls `consoleread` -/
  | read (p n : Nat)
  /-- process `p` goes on after `sleep` -/
  | resume (p : Nat)
  /-- process `p` is killed, and woken up -/
  | kill (p : Nat)

def step (s : State) : Act → Option State
  | .intr cs => some (cs.foldl key s)
  | .read p n => if s.pc p = .idle then some (reads s p n n) else none
  | .resume p =>
    match s.pc p with
    | .awake n target => some (reads s p n target)
    | _ => none
  | .kill p =>
    some { s with
      killed := Function.update s.killed p true, pc := Function.update s.pc p (s.pc p).wakeup }

/-- Nothing was typed, and the indices are anywhere. -/
def start (buf : Nat → UInt8) (i : Nat) : State :=
  { input := ⟨buf, uint i, uint i, uint i⟩, pc := fun _ => .idle, killed := fun _ => false
    ret := fun _ => none, taken := [], delivered := [], events := [] }

/-! ## The line editor -/

/-- What was committed, the line that is typed, and how many bytes of the former were read. -/
structure Editor where
  out : List UInt8
  line : List UInt8
  read : Nat

/-- The bytes that take up room. -/
def Editor.size (d : Editor) : Nat := d.out.length - d.read + d.line.length

/-- A character that is no command goes to the end of the line, if there is room. A line is
committed when it ends, or when there is no more room. -/
def Editor.insert (d : Editor) (c : UInt8) : Editor :=
  if d.size < INPUT_BUF then
    if c = LF ∨ c = C 'D' ∨ d.size + 1 = INPUT_BUF
      then { d with out := d.out ++ d.line ++ [c], line := [] }
    else { d with line := d.line ++ [c] }
  else d

def Editor.key (d : Editor) (c : UInt8) : Editor :=
  if c = C 'P' ∨ c = 0 then d
  else if c = C 'U' then { d with line := [] }
  else if c = C 'H' ∨ c = 0x7f then { d with line := d.line.dropLast }
  else d.insert (if c = 13 then LF else c)

def Editor.next (d : Editor) : Event → Editor
  | .take k => { d with read := d.read + k }
  | .key c => d.key c

def edit (events : List Event) : Editor := events.foldl Editor.next ⟨[], [], 0⟩

/-! ## The buffer is the editor's -/

theorem sizes : Sizes INPUT_BUF (2 ^ 32) := ⟨by decide, by decide, ⟨2 ^ 25, rfl⟩⟩

/-- The bytes that are committed or in the line, as a ring. -/
def Input.ring (x : Input) : Queue UInt8 := ⟨x.buf, x.r, x.e⟩

/-- The bytes from `r` up to `w`. -/
def Input.unread (x : Input) : List UInt8 := Queue.contents INPUT_BUF (2 ^ 32) ⟨x.buf, x.r, x.w⟩

structure Fits (x : Input) (d : Editor) : Prop where
  valid : x.ring.Valid INPUT_BUF (2 ^ 32)
  contents : x.ring.contents INPUT_BUF (2 ^ 32) = d.out.drop d.read ++ d.line
  mark : x.w = uint (x.r + (d.out.length - d.read))
  le : d.read ≤ d.out.length
  open_line : LF ∉ d.line

section

variable {x : Input} {d : Editor} {s s' : State} {c : UInt8}

theorem Fits.count (h : Fits x d) : x.ring.count (2 ^ 32) = d.size := by
  rw [← Queue.length_contents INPUT_BUF, h.contents, length_append, length_drop]
  rfl

theorem Fits.size_le (h : Fits x d) : d.size ≤ 128 := h.count ▸ h.valid.count

/-- The edit index is the write index and the length of the line. -/
theorem Fits.edit_eq (h : Fits x d) : x.e = uint (x.w + d.line.length) := by
  have he : x.e = uint (x.r + x.ring.count (2 ^ 32)) := h.valid.nwrite_eq
  rw [he, h.count, h.mark, uint, uint, uint, Nat.mod_add_mod, Editor.size, Nat.add_assoc]

theorem Fits.unread (h : Fits x d) : x.unread = d.out.drop d.read := by
  have hle : d.out.length - d.read ≤ x.ring.count (2 ^ 32) := by
    rw [h.count, Editor.size]
    omega
  have htake := h.valid.contents_take hle
  have hw : (x.ring.nread + (d.out.length - d.read)) % 2 ^ 32 = x.w := h.mark.symm
  rw [hw, h.contents, take_left' (length_drop ..)] at htake
  exact htake

theorem Fits.line_length (h : Fits x d) : uint (x.e + 2 ^ 32 - x.w) = d.line.length := by
  have hsize := h.size_le
  have he := h.edit_eq
  have hw : x.w < 2 ^ 32 := by
    rw [h.mark]
    exact Nat.mod_lt _ (by decide)
  unfold Editor.size at hsize
  unfold uint at *
  omega

theorem Fits.line_empty (h : Fits x d) : x.e = x.w ↔ d.line = [] := by
  have hlen := h.line_length
  have hw : x.w < 2 ^ 32 := by
    rw [h.mark]
    exact Nat.mod_lt _ (by decide)
  have he : x.e < 2 ^ 32 := h.valid.nwrite
  have hsize := h.size_le
  unfold Editor.size at hsize
  rw [← length_eq_zero_iff, ← hlen]
  unfold uint
  omega

/-- The last character of the line is erased. -/
theorem Fits.erase (h : Fits x d) (hne : x.e ≠ x.w) :
      x.buf (uint (x.e + 2 ^ 32 - 1) % INPUT_BUF) ∈ d.line ∧
      Fits { x with e := uint (x.e + 2 ^ 32 - 1) } { d with line := d.line.dropLast } := by
  have hline : d.line ≠ [] := fun he => hne (h.line_empty.mpr he)
  have hcount : x.ring.count (2 ^ 32) ≠ 0 := by
    have := length_pos_iff.mpr hline
    rw [h.count, Editor.size]
    omega
  have hcontents := h.valid.contents_unpush sizes hcount
  rw [h.contents, ← dropLast_append_getLast hline, ← append_assoc] at hcontents
  obtain ⟨hfront, hlast⟩ := append_inj' hcontents rfl
  refine ⟨?_, (h.valid.unpush hcount).1, hfront.symm, h.mark, h.le, fun hm => ?_⟩
  · have : x.buf (uint (x.e + 2 ^ 32 - 1) % INPUT_BUF) = d.line.getLast hline :=
      (singleton_inj.mp hlast).symm
    rw [this]
    exact getLast_mem hline
  · exact h.open_line ((dropLast_sublist _).subset hm)

theorem Fits.killLine {k : Nat} (h : Fits x d) (hk : d.line.length = k) :
    Fits (killLine k x) { d with line := [] } := by
  induction k generalizing x d with
  | zero =>
    rw [length_eq_zero_iff] at hk
    rw [console.killLine, ← hk]
    exact h
  | succ k ih =>
    have hne : x.e ≠ x.w := fun he => by
      rw [h.line_empty.mp he] at hk
      cases hk
    obtain ⟨hmem, herase⟩ := h.erase hne
    -- a line that is open has no line feed to stop at
    have hnot : x.buf (uint (x.e + 2 ^ 32 - 1) % INPUT_BUF) ≠
        LF := fun he => h.open_line (he ▸ hmem)
    rw [console.killLine, if_pos ⟨hne, hnot⟩]
    refine ih (d := { d with line := d.line.dropLast }) herase ?_
    rw [length_dropLast, hk]
    rfl

theorem Fits.insert (h : Fits x d) (hroom : uint (x.e + 2 ^ 32 - x.r) < INPUT_BUF) :
    let y := { x with buf := Function.update x.buf (x.e % INPUT_BUF) c, e := uint (x.e + 1) }
    Fits (if c = LF ∨ c = C 'D' ∨ y.e = uint (y.r + INPUT_BUF) then { y with w := y.e } else y)
      (d.insert c) := by
  intro y
  have hcount : x.ring.count (2 ^ 32) < INPUT_BUF := hroom
  obtain ⟨hvalid, hpush⟩ := h.valid.push sizes hcount c
  have hcontents : y.ring.contents INPUT_BUF (2 ^ 32) = d.out.drop d.read ++ d.line ++ [c] := by
    rw [← h.contents]
    exact h.valid.contents_push sizes hcount c
  have hfull : y.e = uint (y.r + INPUT_BUF) ↔ d.size + 1 = INPUT_BUF := by
    rw [← h.count, ← hpush]
    exact hvalid.full_iff sizes
  have hsize : d.size < INPUT_BUF := h.count ▸ hcount
  unfold Editor.insert
  rw [if_pos hsize]
  simp only [hfull]
  have hle := h.le
  split
  · refine ⟨hvalid, ?_, ?_, ?_, not_mem_nil⟩
    · rw [append_nil, append_assoc, drop_append_of_le_length hle, ← append_assoc]
      exact hcontents
    · have he : y.e = uint (y.r + y.ring.count (2 ^ 32)) := hvalid.nwrite_eq
      have hlen : (d.out ++ d.line ++ [c]).length - d.read = y.ring.count (2 ^ 32) := by
        rw [show y.ring.count (2 ^ 32) = d.size + 1 from hpush.trans (by rw [h.count])]
        simp only [length_append, length_singleton, Editor.size]
        omega
      change y.e = uint (y.r + _)
      rw [hlen]
      exact he
    · grind
  · rename_i hcommit
    refine ⟨hvalid, by rw [hcontents, append_assoc], h.mark, hle, fun hm => ?_⟩
    rcases mem_append.mp hm with hm | hm
    · exact h.open_line hm
    · grind

/-- A character does to the buffer what it does to the editor. -/
theorem Fits.consoleintr (h : Fits x d) (c : UInt8) : Fits (consoleintr x c).1 (d.key c) := by
  unfold console.consoleintr Editor.key
  by_cases hp : c = C 'P'
  · grind
  rw [if_neg hp]
  by_cases h0 : c = 0
  · subst h0
    exact h
  rw [if_neg (not_or.mpr ⟨hp, h0⟩)]
  by_cases hu : c = C 'U'
  · rw [if_pos hu, if_pos hu]
    exact h.killLine h.line_length.symm
  rw [if_neg hu, if_neg hu]
  by_cases hh : c = C 'H' ∨ c = 0x7f
  · rw [if_pos hh, if_pos hh]
    by_cases hne : x.e ≠ x.w
    · rw [if_pos hne]
      exact (h.erase hne).2
    · rw [if_neg hne]
      have hline := h.line_empty.mp (not_not.mp hne)
      have : { d with line := d.line.dropLast } = d := by
        rw [hline, dropLast_nil, ← hline]
      rw [this]
      exact h
  rw [if_neg hh, if_neg hh]
  by_cases hroom : uint (x.e + 2 ^ 32 - x.r) < INPUT_BUF
  · rw [if_pos ⟨h0, hroom⟩]
    generalize (if c = 13 then LF else c) = c
    have := h.insert (c := c) hroom
    dsimp only at this ⊢
    rw [apply_ite Prod.fst]
    exact this
  · rw [if_neg fun hc => hroom hc.2]
    have hfull : ¬ d.size < INPUT_BUF := by
      rw [← h.count]
      exact hroom
    unfold Editor.insert
    rw [if_neg hfull]
    exact h

/-! ## Readers -/

theorem Fits.r_lt (h : Fits x d) : x.r < 2 ^ 32 := h.valid.nread

/-- The oldest byte is taken. -/
theorem Fits.pop (h : Fits x d) (hne : x.r ≠ x.w) :
    d.out.drop d.read = x.buf (x.r % INPUT_BUF) :: d.out.drop (d.read + 1) ∧
      Fits { x with r := uint (x.r + 1) } { d with read := d.read + 1 } := by
  have hlt : d.read < d.out.length := by
    by_contra hge
    refine hne ?_
    have hr := h.r_lt
    rw [h.mark, show d.out.length - d.read = 0 by omega, Nat.add_zero, uint, Nat.mod_eq_of_lt hr]
  have hdrop : d.out.drop d.read = d.out[d.read] :: d.out.drop (d.read + 1) :=
    drop_eq_getElem_cons hlt
  have hcount : x.ring.count (2 ^ 32) ≠ 0 := by
    rw [h.count, Editor.size]
    omega
  have hcontents := h.valid.contents_pop sizes hcount
  rw [h.contents, hdrop, cons_append] at hcontents
  obtain ⟨hhead, htail⟩ := List.cons.inj hcontents
  refine ⟨by rw [hdrop, hhead]; rfl, (h.valid.pop hcount).1, htail.symm, ?_, hlt, h.open_line⟩
  change x.w = uint (uint (x.r + 1) + (d.out.length - (d.read + 1)))
  rw [h.mark, uint, uint, uint, Nat.mod_add_mod,
    show x.r + 1 + (d.out.length - (d.read + 1)) = x.r + (d.out.length - d.read) by omega]

/-- What a reader gets: bytes from the front, control-D only if it is the first byte of its call. -/
structure Takes (d : Editor) (target n : Nat) (t : Took) : Prop where
  fits : Fits t.input { d with read := d.read + t.taken.length }
  front : d.out.drop d.read = t.taken ++ d.out.drop (d.read + t.taken.length)
  dst : t.dst = t.taken.filter (· ≠ C 'D')
  left : t.n ≤ n
  eof : C 'D' ∈ t.taken → t.taken = [C 'D'] ∧ t.n = n ∧ n = target ∧ t.sleeps = false

theorem takes_none {n target m : Nat} {sleeps : Bool} (h : Fits x d) (hm : m ≤ n) :
    Takes d target n { input := x, n := m, taken := [], dst := [], sleeps := sleeps } :=
  ⟨h, rfl, rfl, hm, fun hd => absurd hd not_mem_nil⟩

theorem readLoop_takes {n target : Nat} (h : Fits x d) (hn : n ≤ target) :
    Takes d target n (readLoop target n x) := by
  induction n generalizing x d with
  | zero => exact takes_none h le_rfl
  | succ n ih =>
    unfold readLoop
    split
    · exact takes_none h le_rfl
    rename_i hne
    obtain ⟨hfront, hpop⟩ := h.pop hne
    dsimp only
    split
    · rename_i hd
      split
      · -- the byte is put back, which leaves the buffer as it was
        have hback : uint (uint (x.r + 1) + 2 ^ 32 - 1) = x.r := by grind [h.r_lt]
        rw [hback]
        exact takes_none h le_rfl
      · refine ⟨hpop, hfront, ?_, le_rfl, fun _ => ⟨by rw [hd], rfl, by omega, rfl⟩⟩
        rw [hd]
        rfl
    · rename_i hd
      split
      · refine ⟨hpop, hfront, ?_, Nat.le_succ n, fun hmem => absurd (mem_singleton.mp hmem).symm hd⟩
        simp [hd]
      · -- by the time of another byte there is less to read than was asked for
        obtain ⟨hfits, hrest, hdst, hleft, heof⟩ := ih hpop (by omega)
        have hadd : d.read + (x.buf (x.r % INPUT_BUF) :: (readLoop target n
            { x with r := uint (x.r + 1) }).taken).length = d.read + 1 + (readLoop target n
            { x with r := uint (x.r + 1) }).taken.length := by
          rw [length_cons]
          omega
        refine ⟨?_, ?_, ?_, Nat.le_succ_of_le hleft, fun hmem => ?_⟩
        · rw [hadd]
          exact hfits
        · rw [hadd, hfront]
          exact congrArg _ hrest
        · simp [hd, hdst]
        · grind

/-! ## Runs -/

structure Inv (s : State) : Prop where
  fits : Fits s.input (edit s.events)
  taken : s.taken = (edit s.events).out.take (edit s.events).read
  delivered : s.delivered = s.taken.filter (· ≠ C 'D')
  places : ∀ p n target, s.pc p = .asleep n target ∨ s.pc p = .awake n target → n ≤ target

theorem edit_snoc (events : List Event) (e : Event) :
    edit (events ++ [e]) = (edit events).next e := by
  unfold edit
  rw [foldl_append]
  rfl

theorem start_inv (buf : Nat → UInt8) (i : Nat) : Inv (start buf i) := by
  have hlt : uint i < 2 ^ 32 := Nat.mod_lt _ (by decide)
  have hcount : (start buf i).input.ring.count (2 ^ 32) = 0 :=
    count_eq hlt (by decide) (Nat.mod_eq_of_lt hlt).symm
  refine ⟨⟨⟨hlt, hlt, by rw [hcount]; decide⟩, ?_, ?_, le_rfl, not_mem_nil⟩, rfl, rfl, ?_⟩
  · rw [Queue.contents, hcount]
    rfl
  · exact (Nat.mod_eq_of_lt hlt).symm
  · rintro p n target (h | h)
    · cases h
    · cases h

theorem wakeup_places {x : Place} {n target : Nat}
    (h : x.wakeup = .asleep n target ∨ x.wakeup = .awake n target) :
    x = .asleep n target ∨ x = .awake n target := by
  cases x with
  | idle => exact h
  | asleep m t =>
    rcases h with h | h
    · cases h
    · cases h
      exact Or.inl rfl
  | awake m t => exact h

/-- A character leaves what was committed as it is. -/
theorem Editor.key_out (d : Editor) (c : UInt8) : d.out <+: (d.key c).out ∧
    (d.key c).read = d.read := by
  have hinsert : ∀ c, d.out <+: (d.insert c).out ∧ (d.insert c).read = d.read := by
    intro c
    unfold Editor.insert
    split
    · split
      · rw [append_assoc]
        exact ⟨prefix_append _ _, rfl⟩
      · exact ⟨prefix_rfl, rfl⟩
    · exact ⟨prefix_rfl, rfl⟩
  unfold Editor.key
  split
  · exact ⟨prefix_rfl, rfl⟩
  split
  · exact ⟨prefix_rfl, rfl⟩
  split
  · exact ⟨prefix_rfl, rfl⟩
  · exact hinsert _

theorem edit_key (s : State) (c : UInt8) : edit (key s c).events = (edit s.events).key c :=
  edit_snoc s.events (.key c)

theorem key_inv (h : Inv s) (c : UInt8) : Inv (key s c) := by
  obtain ⟨⟨bs, hbs⟩, hread⟩ := (edit s.events).key_out c
  refine ⟨?_, ?_, h.delivered, fun p n target hpc => ?_⟩
  · rw [edit_key]
    exact h.fits.consoleintr c
  · rw [edit_key, hread, ← hbs, take_append_of_le_length h.fits.le]
    exact h.taken
  · refine h.places p n target ?_
    by_cases hw : (consoleintr s.input c).2 = true
    · grind [key, wakeup_places]
    · grind [key]

/-- What one reader does until it sleeps or returns. -/
theorem reads_inv {p n target : Nat} (h : Inv s) (hn : n ≤ target) :
    Inv (reads s p n target) ∧ s.taken <+: (reads s p n target).taken ∧
      (edit (reads s p n target).events).out = (edit s.events).out ∧
      (C 'D' ∈ (reads s p n target).taken.drop s.taken.length →
        (reads s p n target).taken = s.taken ++ [C 'D'] ∧ (reads s p n target).ret p = some 0) := by
  obtain ⟨hfits, hfront, hdst, hleft, heof⟩ := readLoop_takes h.fits hn
  generalize ht : readLoop target n s.input = t at hfits hfront hdst hleft heof
  have hedit : edit (s.events ++ [Event.take t.taken.length]) =
      { edit s.events with read := (edit s.events).read + t.taken.length } := edit_snoc _ _
  have htaken : s.taken ++ t.taken =
      (edit s.events).out.take ((edit s.events).read + t.taken.length) := by
    rw [take_add, ← h.taken, hfront, take_left]
  have hdelivered : s.delivered ++ t.dst = (s.taken ++ t.taken).filter (· ≠ C 'D') := by
    rw [filter_append, ← h.delivered, hdst]
  have hpc : ∀ x : Place, (∀ m k, x = .asleep m k ∨ x = .awake m k → m ≤ k) → ∀ q m k,
      Function.update s.pc p x q = .asleep m k ∨ Function.update s.pc p x q = .awake m k →
      m ≤ k := by
    intro x hx q m k hq
    by_cases hqp : q = p
    · grind
    · rw [Function.update_of_ne hqp] at hq
      exact h.places q m k hq
  have hidle : ∀ m k, Place.idle = .asleep m k ∨ Place.idle = .awake m k → m ≤ k := by simp
  unfold reads
  rw [ht]
  dsimp only
  have hmem : C 'D' ∈ (s.taken ++ t.taken).drop s.taken.length → t.taken = [C 'D'] ∧ t.n = target ∧
      t.sleeps = false := by
    rw [drop_left]
    intro hd
    obtain ⟨h1, h2, h3, h4⟩ := heof hd
    exact ⟨h1, h2.trans h3, h4⟩
  split
  · rename_i hsleeps
    have hno : C 'D' ∈ (s.taken ++ t.taken).drop s.taken.length → False := fun hd => by
      grind
    split
    · refine ⟨⟨by rw [hedit]; exact hfits, by rw [hedit]; exact htaken, hdelivered, hpc _ hidle⟩,
        prefix_append _ _, by rw [hedit], fun hd => (hno hd).elim⟩
    · refine ⟨⟨by rw [hedit]; exact hfits, by rw [hedit]; exact htaken, hdelivered, hpc _ ?_⟩,
        prefix_append _ _, by rw [hedit], fun hd => (hno hd).elim⟩
      rintro m k (hc | hc)
      · cases hc
        omega
      · cases hc
  · refine ⟨⟨by rw [hedit]; exact hfits, by rw [hedit]; exact htaken, hdelivered, hpc _ hidle⟩,
      prefix_append _ _, by rw [hedit], fun hd => ?_⟩
    obtain ⟨h1, h2, -⟩ := hmem hd
    refine ⟨by rw [h1], (Function.update_self ..).trans ?_⟩
    rw [h2, Int.sub_self]

/-- The process that an action is of. -/
def Act.proc : Act → Option Nat
  | .intr _ => none
  | .read p _ | .resume p | .kill p => some p

/-- A step keeps what was committed and what was taken, and takes a control-D only for a call that
returns 0. -/
structure Grows (a : Act) (s s' : State) : Prop where
  committed : (edit s.events).out <+: (edit s'.events).out
  taken : s.taken <+: s'.taken
  eof : C 'D' ∈ s'.taken.drop s.taken.length →
    s'.taken = s.taken ++ [C 'D'] ∧ ∃ p, a.proc = some p ∧ s'.ret p = some 0

theorem grows_same {a : Act} (hout : (edit s.events).out <+: (edit s'.events).out)
    (htaken : s'.taken = s.taken) : Grows a s s' := by
  refine ⟨hout, htaken ▸ prefix_rfl, fun hd => ?_⟩
  rw [htaken, drop_length] at hd
  exact absurd hd not_mem_nil

theorem step_inv {a : Act} (h : Inv s) (hs : step s a = some s') : Inv s' ∧ Grows a s s' := by
  cases a with
  | intr cs =>
    obtain rfl := some.inj hs
    induction cs generalizing s with
    | nil => exact ⟨h, grows_same prefix_rfl rfl⟩
    | cons c cs ih =>
      obtain ⟨hinv, hgrows⟩ := ih (s := key s c) (key_inv h c) rfl
      refine ⟨hinv, ?_, hgrows.taken, hgrows.eof⟩
      have hfirst := ((edit s.events).key_out c).1
      rw [← edit_key] at hfirst
      exact hfirst.trans hgrows.committed
  | read p n =>
    obtain ⟨-, hs⟩ := ite_none_right_eq_some.mp hs
    obtain rfl := some.inj hs
    obtain ⟨hinv, htaken, hout, heof⟩ := reads_inv (p := p) h (le_refl n)
    exact ⟨hinv, hout ▸ prefix_rfl, htaken, fun hd => ⟨(heof hd).1, p, rfl, (heof hd).2⟩⟩
  | resume p =>
    simp only [step] at hs
    split at hs
    · rename_i n target hpc
      obtain rfl := some.inj hs
      obtain ⟨hinv, htaken, hout, heof⟩ := reads_inv (p := p) h (h.places p n target (Or.inr hpc))
      exact ⟨hinv, hout ▸ prefix_rfl, htaken, fun hd => ⟨(heof hd).1, p, rfl, (heof hd).2⟩⟩
    · cases hs
  | kill p =>
    obtain rfl := some.inj hs
    refine ⟨⟨h.fits, h.taken, h.delivered, fun q n target hpc => ?_⟩, grows_same prefix_rfl rfl⟩
    by_cases hqp : q = p
    · subst hqp
      simp only [Function.update_self] at hpc
      exact h.places q n target (wakeup_places hpc)
    · simp only [Function.update_of_ne hqp] at hpc
      exact h.places q n target hpc

/-- A control-D that is next makes the next read return 0. -/
theorem read_eof {p n : Nat} (h : Inv s) (hp : s.pc p = .idle) (hn : 0 < n)
    (hd : s.input.unread.head? = some (C 'D')) :
    ∃ s', step s (.read p n) = some s' ∧ s'.ret p = some 0 ∧ s'.taken = s.taken ++ [C 'D'] := by
  refine ⟨reads s p n n, by rw [step, if_pos hp], ?_⟩
  have hne : s.input.r ≠ s.input.w := by
    intro he
    have hcount : Queue.count (2 ^ 32) ⟨s.input.buf, s.input.r, s.input.w⟩ = 0 :=
      count_eq h.fits.r_lt (by decide) (by rw [Nat.add_zero, Nat.mod_eq_of_lt h.fits.r_lt, he])
    rw [Input.unread, Queue.contents, hcount] at hd
    cases hd
  have hfirst : s.input.buf (s.input.r % INPUT_BUF) = C 'D' := by
    rw [h.fits.unread, (h.fits.pop hne).1] at hd
    exact some.inj hd
  obtain ⟨n, rfl⟩ := Nat.exists_eq_succ_of_ne_zero (Nat.ne_of_gt hn)
  have hread : readLoop (n + 1) (n + 1) s.input =
      { input := { s.input with r := uint (s.input.r + 1) }, n := n + 1, taken := [C 'D'], dst := []
        sleeps := false } := by
    rw [readLoop, if_neg hne]
    simp only [hfirst, if_true, lt_irrefl, if_false]
  unfold reads
  rw [Nat.succ_eq_add_one, hread]
  simp

/-- The indices stay in order, also where they wrap; the bytes that readers took and the committed
ones that are unread are the output of the line editor; readers get what they take but for
control-D; and a control-D that is met after other bytes stays, and makes the next read return 0. -/
theorem console_keeps_the_lines {buf : Nat → UInt8} {i : Nat} {acts : List Act}
    (hrun : run step (start buf i) acts = some s) :
    uint (s.input.w + 2 ^ 32 - s.input.r) ≤ uint (s.input.e + 2 ^ 32 - s.input.r) ∧
    uint (s.input.e + 2 ^ 32 - s.input.r) ≤ INPUT_BUF ∧
    s.taken ++ s.input.unread = (edit s.events).out ∧
    s.delivered = s.taken.filter (· ≠ C 'D') ∧
    (∀ a s', step s a = some s' → Grows a s s') ∧
    (∀ p n, s.pc p = .idle → 0 < n → s.input.unread.head? = some (C 'D') →
      ∃ s', step s (.read p n) = some s' ∧ s'.ret p = some 0 ∧ s'.taken = s.taken ++ [C 'D']) := by
  have h : Inv s := inv_of_run (fun _ _ _ hi hs => (step_inv hi hs).1) (start_inv buf i) hrun
  have hcount : uint (s.input.e + 2 ^ 32 - s.input.r) = (edit s.events).size := h.fits.count
  have hunread : uint (s.input.w + 2 ^ 32 - s.input.r) =
      (edit s.events).out.length - (edit s.events).read := by
    have hsize := h.fits.size_le
    refine count_eq (q := ⟨s.input.buf, s.input.r, s.input.w⟩) h.fits.r_lt ?_ h.fits.mark
    unfold Editor.size at hsize
    omega
  refine ⟨?_, ?_, ?_, h.delivered, fun a s' hs => (step_inv h hs).2, fun p n => read_eof h⟩
  · rw [hunread, hcount, Editor.size]
    omega
  · rw [hcount]
    exact h.fits.size_le
  · rw [h.fits.unread, h.taken, List.take_append_drop]

end

/-- A reader sleeps, and "ab" and control-D are typed with a correction. -/
def ab : Option State :=
  run step (start (fun _ => 0) (2 ^ 32 - 1)) [.read 0 10, .intr [97, 99, 8, 98],
  .intr [4], .resume 0]

/-- The reader keeps the control-D for the next read. -/
theorem console_keeps_ab : ∃ s, ab = some s ∧ s.delivered = [97, 98] ∧ s.ret 0 = some 2 ∧
    ∃ s', step s (.read 1 5) = some s' ∧ s'.ret 1 = some 0 ∧ s'.taken = s.taken ++ [C 'D'] := by
  have hab : ab.map (fun s => (s.delivered, s.ret 0, s.pc 1, s.input.unread.head?)) =
      some ([97, 98], some 2, .idle, some (C 'D')) := by decide +kernel
  obtain ⟨s, hs, heq⟩ := Option.map_eq_some_iff.mp hab
  simp only [Prod.mk.injEq] at heq
  obtain ⟨-, -, -, -, -, heof⟩ := console_keeps_the_lines hs
  exact ⟨s, hs, heq.1, heq.2.1, heof 1 5 heq.2.2.1 (by decide) heq.2.2.2⟩

/-! ## Sleeping readers -/

section

variable {s : State} {x : Input}

theorem killLine_marks (k : Nat) : (killLine k x).r = x.r ∧ (killLine k x).w = x.w := by
  induction k generalizing x with
  | zero => exact ⟨rfl, rfl⟩
  | succ k ih => grind [killLine]

/-- A character that wakes nobody commits nothing. -/
theorem consoleintr_marks {c : UInt8} (h : (consoleintr x c).2 = false) :
    (consoleintr x c).1.r = x.r ∧ (consoleintr x c).1.w = x.w := by
  unfold consoleintr at h ⊢
  grind [killLine_marks]

theorem readLoop_sleeps {target n : Nat} (h : (readLoop target n x).sleeps = true) :
    (readLoop target n x).input.r = (readLoop target n x).input.w := by
  induction n generalizing x with
  | zero => cases h
  | succ n ih =>
    unfold readLoop at h ⊢
    grind

/-- Who sleeps has read all that is committed. -/
def Drained (s : State) : Prop := ∀ p n target, s.pc p = .asleep n target → s.input.r = s.input.w

theorem wakeup_ne_asleep (x : Place) (n target : Nat) : x.wakeup ≠ .asleep n target := by
  cases x <;> simp [Place.wakeup]

theorem Drained.key (h : Drained s) (c : UInt8) : Drained (key s c) := by
  intro p n target hp
  unfold console.key at hp ⊢
  dsimp only at hp ⊢
  split at hp
  · exact absurd hp (wakeup_ne_asleep _ n target)
  · obtain ⟨hr, hw⟩ := consoleintr_marks (Bool.eq_false_iff.mpr ‹_›)
    rw [hr, hw]
    exact h p n target hp

theorem Drained.reads (h : Drained s) (p n target : Nat) : Drained (reads s p n target) := by
  obtain ⟨y, hpc, hinput, hy⟩ : ∃ y, (console.reads s p n target).pc = Function.update s.pc p y ∧
      (console.reads s p n target).input = (readLoop target n s.input).input ∧
      ((readLoop target n s.input).sleeps = false → y = .idle) := by
    unfold console.reads
    dsimp only
    split
    · split <;> exact ⟨_, rfl, rfl, by simp_all⟩
    · exact ⟨_, rfl, rfl, fun _ => rfl⟩
  intro q m k hq
  rw [hpc] at hq
  rw [hinput]
  by_cases hqp : q = p
  · refine readLoop_sleeps (Bool.not_eq_false _ ▸ fun hs => ?_)
    simp [hqp, hy hs] at hq
  · -- while somebody else sleeps there is nothing to take
    have he := h q m k (by simpa [hqp] using hq)
    cases n <;> simp [readLoop, he]

/-- No line is slept through: while a process sleeps in `consoleread`, all that was
committed is read. -/
theorem no_line_is_slept_through {buf : Nat → UInt8} {i : Nat} {acts : List Act}
    (hrun : run step (start buf i) acts = some s) (p n target : Nat)
    (hsleep : s.pc p = .asleep n target) : s.input.r = s.input.w := by
  refine inv_of_run (I := Drained) (fun s a s' h hs => ?_)
    (fun _ _ _ h => by cases h) hrun p n target hsleep
  cases a with
  | intr cs =>
    obtain rfl := some.inj hs
    exact foldlRecOn cs key h fun _ h c _ => h.key c
  | read p n =>
    obtain ⟨-, hs⟩ := ite_none_right_eq_some.mp hs
    exact some.inj hs ▸ h.reads p n n
  | resume p =>
    simp only [step] at hs
    split at hs
    · exact some.inj hs ▸ h.reads p _ _
    · cases hs
  | kill p =>
    obtain rfl := some.inj hs
    intro q n target hq
    by_cases hqp : q = p
    · simp [hqp, wakeup_ne_asleep] at hq
    · exact h q n target (by simpa [hqp] using hq)

end

/-- A line comes, one of two sleeping readers takes it, and the other one sleeps again. -/
def twoReaders : List Act := [.read 0 10, .read 1 10, .intr [97, 10], .resume 0, .resume 1]

theorem the_second_reader_sleeps_again : ∃ s, run step (start (fun _ => 0) 0) twoReaders = some s ∧
    s.pc 1 = .asleep 10 10 ∧ s.input.r = s.input.w := by
  obtain ⟨s, hs, hp⟩ : ∃ s, run step (start (fun _ => 0) 0) twoReaders = some s ∧
      s.pc 1 = .asleep 10 10 := by decide +kernel
  exact ⟨s, hs, hp, no_line_is_slept_through hs 1 10 10 hp⟩

end xv6.console
