import Glendum.Lib.Trace
import Glendum.Lib.Count
import Mathlib.Data.Fintype.Prod

/-!
# Glendum — the meeting of the processors in mtrrop

To change the memory type registers, `mtrr` posts an operation, and every processor has to
come to `mtrrop`: the one that posted by a call, the others from their clock interrupts. Two
counters make them wait for each other, `bar1` before the registers are written and `bar2`
after.

Here are the steps of `mtrrop` between which another processor can act. The control registers
and the caches are each processor's own and are left out, and so are `microdelay` and
`wakeup`. A process that has posted can be anywhere until it is in `mtrrop`.

What two processors can know of each other is a finite table (`pair`), and so is what a step
makes of it (`pair_table`); the invariant says that the table holds of every two processors.

* `step_inv`, `run_inv` — the invariant over a run in which the clock never brings in all the
  processors before the poster;
* `mtrrop_safe` — in such a run no processor finds the operation gone, and all write the same
  operations in the same order.
-/

namespace Glendum

open Machine

/-! ## Processors -/

/-- The place of a processor in `mtrrop`: before the line that the comment has. -/
inductive Pc
  /-- not in `mtrrop` -/
  | idle
  /-- `_xinc(&bar1)` -/
  | start
  /-- `while(bar1 < conf.nmach)` -/
  | wait1
  /-- `mtrrput((*op)->reg, (*op)->slot)` -/
  | write
  /-- `_xinc(&bar2)` -/
  | sync
  /-- `while(bar2 < conf.nmach)` -/
  | wait2
  /-- `*op = nil` -/
  | clear
  /-- `_xdec(&bar1)` -/
  | leave
  /-- `while(bar1 > 0)` -/
  | wait3
  /-- `_xdec(&bar2)` -/
  | down
  /-- `*op` was nil -/
  | fault
deriving DecidableEq

instance : Fintype Pc where
  elems := {.idle, .start, .wait1, .write, .sync, .wait2, .clear, .leave, .wait3, .down, .fault}
  complete p := by
    cases p <;> decide

/-- The process that holds `mtrrlk`. -/
inductive Poster (n : Nat)
  | nobody
  /-- it has set `postedop` -/
  | ready
  | inside (i : Fin n)
deriving DecidableEq

variable {n : Nat} {α : Type*}

/-- `wrote` has what each processor has written to its registers, and `posted` all operations;
the kernel does not keep these two. -/
structure Meeting (n : Nat) (α : Type*) where
  pc       : Fin n → Pc
  bar1     : Int
  bar2     : Int
  postedop : Option α
  poster   : Poster n
  wrote    : Fin n → List α
  posted   : List α

def Meeting.boot : Meeting n α where
  pc _ := .idle
  bar1 := 0
  bar2 := 0
  postedop := none
  poster := .nobody
  wrote _ := []
  posted := []

inductive MeetOp (n : Nat) (α : Type*)
  /-- `mtrr`, up to `postedop = &op` -/
  | post (op : α)
  /-- the poster calls `mtrrop` -/
  | enter (i : Fin n)
  /-- `mtrrclock` -/
  | clock (i : Fin n)
  /-- the processor goes on in `mtrrop` -/
  | move (i : Fin n)

namespace Meeting

def goto (s : Meeting n α) (i : Fin n) (p : Pc) : Meeting n α :=
  { s with pc := Function.update s.pc i p }

/-- A processor that waits has no step until the counter lets it go. -/
def move (s : Meeting n α) (i : Fin n) : Option (Meeting n α) :=
  match s.pc i with
  | .idle | .fault => none
  | .start => some ({ s with bar1 := s.bar1 + 1 }.goto i .wait1)
  | .wait1 => if s.bar1 < n then none else some (s.goto i .write)
  | .write =>
    match s.postedop with
    | none => some (s.goto i .fault)
    | some op => some ({ s with wrote := Function.update s.wrote i (s.wrote i ++ [op]) }.goto i .sync)
  | .sync => some ({ s with bar2 := s.bar2 + 1 }.goto i .wait2)
  | .wait2 => if s.bar2 < n then none else some (s.goto i .clear)
  | .clear => some ({ s with postedop := none }.goto i .leave)
  | .leave => some ({ s with bar1 := s.bar1 - 1 }.goto i .wait3)
  | .wait3 => if 0 < s.bar1 then none else some (s.goto i .down)
  -- and `qunlock(&mtrrlk)`, if it is the poster
  | .down => some ({ s with
      bar2 := s.bar2 - 1
      poster := if s.poster = Poster.inside i then .nobody else s.poster }.goto i .idle)

def step (s : Meeting n α) : MeetOp n α → Option (Meeting n α)
  | .post op =>
    if s.poster = .nobody ∧ s.postedop.isNone then
      some { s with postedop := some op, poster := .ready, posted := s.posted ++ [op] }
    else none
  | .enter i =>
    if s.poster = .ready ∧ s.pc i = .idle then
      some ({ s with poster := .inside i }.goto i .start)
    else none
  | .clock i =>
    if s.pc i = .idle then
      some (if s.postedop.isSome then s.goto i .start else s)
    else none
  | .move i => s.move i

end Meeting

/-! ## Who can be where -/

/-- Counted in `bar1`. -/
def inBar1 : Pc → Bool
  | .wait1 | .write | .sync | .wait2 | .clear | .leave => true
  | _ => false

/-- Counted in `bar2`. -/
def inBar2 : Pc → Bool
  | .wait2 | .clear | .leave | .wait3 | .down => true
  | _ => false

/-- The processor has come for the operation that is posted. -/
def joined : Pc → Bool
  | .start => true
  | p => inBar1 p

/-- The processors gather, and some are still on the way out from the last operation. -/
def gathering : Pc → Bool
  | .idle | .start | .wait1 | .wait3 | .down => true
  | _ => false

/-- Nobody has got past the second counter. -/
def writing : Pc → Bool
  | .wait1 | .write | .sync | .wait2 => true
  | _ => false

/-- Everybody has written. -/
def leaving : Pc → Bool
  | .wait2 | .clear | .leave | .wait3 => true
  | _ => false

/-- On the way out, or not in `mtrrop`. -/
def away : Pc → Bool
  | .idle | .wait3 | .down => true
  | _ => false

/-- The poster, as a processor sees it. -/
inductive Who
  | nobody | ready | this | other
deriving DecidableEq

instance : Fintype Who where
  elems := {.nobody, .ready, .this, .other}
  complete w := by
    cases w <;> decide

/-- Those that have not written find the operation; `pending` tells whether `postedop` is set. -/
def base (pending : Bool) (p : Pc) : Bool :=
  p != .fault && (!(p ∈ [Pc.start, .wait1, .write, .sync] : Bool) || pending) &&
    (p != .leave || !pending)

/-- The poster is in `mtrrop`, and gone from there when another operation can be posted. -/
def inside (pending : Bool) (p : Pc) : Bool :=
  p != .idle && (!(p ∈ [Pc.leave, .wait3, .down] : Bool) || !pending)

/-- What is known of one processor. -/
def single (pending : Bool) (who : Who) (p : Pc) : Bool :=
  base pending p &&
  match who with
  | .nobody => !pending && away p
  | .ready => pending && gathering p
  | .this => inside pending p
  | .other => true

/-- What is known of two processors; `mine` tells whether the first is the poster. -/
def pair (pending mine : Bool) (p q : Pc) : Bool :=
  (gathering p && gathering q || writing p && writing q || leaving p && leaving q) &&
  -- when one has got out, the operation is gone
  (!(p ∈ [Pc.wait2, .clear, .leave] : Bool) || q != .wait3 || !pending) &&
  (!mine || p != .down || away q)

/-- The processor has not written the operation that is posted. -/
def behind (pending : Bool) : Pc → Bool
  | .start | .wait1 | .write => true
  | .idle | .wait3 | .down => pending
  | _ => false

namespace Meeting

def pending (s : Meeting n α) : Bool := s.postedop.isSome

def who (s : Meeting n α) (i : Fin n) : Who :=
  match s.poster with
  | .nobody => .nobody
  | .ready => .ready
  | .inside p => if p = i then .this else .other

def mine (s : Meeting n α) (i : Fin n) : Bool := s.who i == .this

structure Inv (s : Meeting n α) : Prop where
  bar1   : s.bar1 = countAt inBar1 s.pc
  bar2   : s.bar2 = countAt inBar2 s.pc
  single : ∀ i, single s.pending (s.who i) (s.pc i) = true
  pair   : ∀ i j, i ≠ j → pair s.pending (s.mine i) (s.pc i) (s.pc j) = true
  nobody : s.poster = .nobody → s.pending = false
  ready  : s.poster = .ready → s.pending = true ∧ ∃ i, joined (s.pc i) = false
  last   : ∀ op, s.postedop = some op → s.posted.getLast? = some op
  wrote  : ∀ i, s.wrote i = if behind s.pending (s.pc i) = true then s.posted.dropLast else s.posted

end Meeting

/-- While the poster is on its way, the clock does not bring in the last processor: not every
processor has come in from its clock before the poster. -/
def MeetOp.Early (s : Meeting n α) : MeetOp n α → Prop
  | .clock i => s.poster = .ready → ∃ j, j ≠ i ∧ joined (s.pc j) = false
  | _ => True

/-! ## The tables -/

/-- The next place. -/
def Pc.next : Pc → Pc
  | .idle => .start
  | .start => .wait1
  | .wait1 => .write
  | .write => .sync
  | .sync => .wait2
  | .wait2 => .clear
  | .clear => .leave
  | .leave => .wait3
  | .wait3 => .down
  | .down => .idle
  | .fault => .fault

/-- What a counter that lets a processor go on tells it about the others. -/
def Pc.opens (p q : Pc) : Bool :=
  match p with
  | .wait1 => inBar1 q
  | .wait2 => inBar2 q
  | .wait3 => !inBar1 q
  | _ => true

/-- When a processor can go on with `postedop` and the poster as they are. -/
def Pc.free (pending : Bool) (who : Who) (p : Pc) : Bool :=
  p != .clear && p != .fault && (p != .idle || pending) && (p != .wait1 || who != .ready) &&
    (p != .down || who != .this)

/-- What is known of a processor is known behind its next step, where the step is free. -/
theorem single_table : ∀ b : Bool × Who × Pc, single b.1 b.2.1 b.2.2 = true →
    b.2.2.free b.1 b.2.1 = true → single b.1 b.2.1 b.2.2.next = true := by
  decide

/-- The parts of `single` that matter to others. -/
theorem single_parts : ∀ b : Bool × Who × Pc, single b.1 b.2.1 b.2.2 = true →
    base b.1 b.2.2 = true ∧ ((b.2.1 == .this) = true → inside b.1 b.2.2 = true) := by
  decide

/-- Two processors, the first of which goes on. -/
theorem pair_table : ∀ b : Bool × (Bool × Pc) × Bool × Pc,
    pair b.1 b.2.1.1 b.2.1.2 b.2.2.2 = true → pair b.1 b.2.2.1 b.2.2.2 b.2.1.2 = true →
    b.2.1.2.opens b.2.2.2 = true →
    base b.1 b.2.1.2 = true → base b.1 b.2.2.2 = true → (b.2.1.1 = true → inside b.1 b.2.1.2 = true) →
    (b.2.2.1 = true → inside b.1 b.2.2.2 = true) →
    b.2.1.2 ≠ .clear → (b.2.1.2 = .idle → b.1 = true) → (b.2.1.1 = true → b.2.1.2 ≠ .down) →
    pair b.1 b.2.1.1 b.2.1.2.next b.2.2.2 = true ∧ pair b.1 b.2.2.1 b.2.2.2 b.2.1.2.next = true := by
  decide +kernel

/-- The processor that clears `postedop` is with others that have written. -/
theorem clear_table : ∀ b : Bool × (Who × Bool) × Who × Bool × Pc,
    single b.1 b.2.1.1 .clear = true → single b.1 b.2.2.1 b.2.2.2.2 = true →
    pair b.1 b.2.1.2 .clear b.2.2.2.2 = true → pair b.1 b.2.2.2.1 b.2.2.2.2 .clear = true →
    (b.2.2.1 ≠ .nobody → b.2.2.1 ≠ .ready → single false b.2.2.1 b.2.2.2.2 = true) ∧
      pair false b.2.1.2 .leave b.2.2.2.2 = true ∧ pair false b.2.2.2.1 b.2.2.2.2 .leave = true ∧
      (b.2.2.2.2 = .wait3 → b.1 = false) := by
  decide +kernel

/-- Who clears the operation is not before the poster. -/
theorem clear_single : ∀ b : Bool × Who, single b.1 b.2 .clear = true →
    b.2 ≠ .nobody ∧ b.2 ≠ .ready ∧ single false b.2 .leave = true := by
  decide

/-- The clearing leaves nobody behind. -/
theorem clear_behind : ∀ b : Bool × Bool × Pc, pair b.1 b.2.1 .clear b.2.2 = true →
    (b.2.2 = .wait3 → b.1 = false) → behind b.1 b.2.2 = behind false b.2.2 := by
  decide

/-- Without an operation less is asked. -/
theorem pair_cleared : ∀ b : Bool × Bool × Pc × Pc, pair b.1 b.2.1 b.2.2.1 b.2.2.2 = true →
    pair false b.2.1 b.2.2.1 b.2.2.2 = true := by
  decide +kernel

/-- The poster leaves last, or with others that are on the way out. -/
theorem down_table : ∀ b : Bool × Who × Pc, single b.1 .this .down = true →
    single b.1 b.2.1 b.2.2 = true → pair b.1 true .down b.2.2 = true →
    b.1 = false ∧ away b.2.2 = true := by
  decide

/-- The poster goes out when the operation is gone. -/
theorem down_single : ∀ pending : Bool, single pending .this .down = true → pending = false := by
  decide

/-- Processors that are away, while nobody posts and when somebody has posted. -/
theorem away_table : ∀ b : Bool × Pc × Pc, away b.2.1 = true → away b.2.2 = true →
    single false .nobody b.2.1 = true ∧ single true .ready b.2.1 = true ∧
      joined b.2.1 = false ∧ behind true b.2.1 = true ∧ behind false b.2.1 = false ∧
      pair b.1 false b.2.1 b.2.2 = true := by
  decide +kernel

/-- The poster comes in. -/
theorem enter_table : ∀ b : Bool × Bool × Pc, single b.1 .ready b.2.2 = true →
    pair b.1 false .idle b.2.2 = true → single b.1 .other b.2.2 = true ∧
      single b.1 .this .start = true ∧ pair b.1 true .start b.2.2 = true ∧
      pair b.1 false b.2.2 .start = true := by
  decide

/-- What a processor has written and whether it has come, from one place to the next. -/
theorem next_table : ∀ b : Bool × Pc, b.2 ∉ [Pc.write, .clear, .fault] →
    (b.2 = .idle → b.1 = true) → base b.1 b.2 = true →
    behind b.1 b.2.next = behind b.1 b.2 ∧ (b.2 ≠ .idle → joined b.2 = false → joined b.2.next = false) := by
  decide

/-- Without a poster everybody is out or on the way. -/
theorem away_of_nobody : ∀ p : Pc, single false .nobody p = true → away p = true := by
  decide

/-- With a processor that writes there are only others that have not got past the second counter. -/
theorem write_table : ∀ b : Bool × Bool × Pc, pair b.1 b.2.1 .write b.2.2 = true →
    b.2.2 ∈ [Pc.wait1, .write, .sync, .wait2] := by
  decide

/-- Without an operation nobody is behind. -/
theorem base_behind : ∀ p : Pc, base false p = true → behind false p = false := by
  decide

/-- Who is counted has come. -/
theorem joined_of_inBar1 : ∀ p : Pc, inBar1 p = true → joined p = true := by
  decide

/-! ## One step -/

namespace Meeting

variable {s s' t : Meeting n α} {i : Fin n}

/-- The part of the invariant on a processor that others see. -/
theorem Inv.base (h : s.Inv) (j : Fin n) : Glendum.base s.pending (s.pc j) = true :=
  (single_parts (s.pending, s.who j, s.pc j) (h.single j)).1

/-- The part on the poster. -/
theorem Inv.inside (h : s.Inv) {j : Fin n} (hMine : s.mine j = true) :
    Glendum.inside s.pending (s.pc j) = true :=
  (single_parts (s.pending, s.who j, s.pc j) (h.single j)).2 hMine

/-- What is known of each processor, when one goes on. -/
theorem Inv.next_single (h : s.Inv) (hFree : (s.pc i).free s.pending (s.who i) = true) (j : Fin n) :
    Glendum.single s.pending (s.who j) (Function.update s.pc i (s.pc i).next j) = true := by
  by_cases hj : j = i
  · subst hj
    rw [Function.update_self]
    exact single_table (s.pending, s.who j, s.pc j) (h.single j) hFree
  · rw [Function.update_of_ne hj]
    exact h.single j

/-- A processor may go on: what `free` says. -/
theorem free_parts : ∀ b : Bool × Who × Pc, b.2.2.free b.1 b.2.1 = true →
    b.2.2 ≠ .clear ∧ (b.2.2 = .idle → b.1 = true) ∧ ((b.2.1 == .this) = true → b.2.2 ≠ .down) := by
  decide

/-- What is known of two processors, when one of them goes on. -/
theorem Inv.next_pair (h : s.Inv) (hFree : (s.pc i).free s.pending (s.who i) = true)
    (hOpens : ∀ j, j ≠ i → (s.pc i).opens (s.pc j) = true) {j k : Fin n} (hjk : j ≠ k) :
    Glendum.pair s.pending (s.mine j) (Function.update s.pc i (s.pc i).next j)
      (Function.update s.pc i (s.pc i).next k) = true := by
  obtain ⟨hClear, hIdle, hDown⟩ := free_parts (s.pending, s.who i, s.pc i) hFree
  -- with another processor, behind it and before it in the pair
  have hWith : ∀ j, j ≠ i → _ := fun j hj =>
    pair_table (s.pending, (s.mine i, s.pc i), s.mine j, s.pc j) (h.pair i j (Ne.symm hj))
      (h.pair j i hj) (hOpens j hj) (h.base i) (h.base j) h.inside h.inside hClear hIdle hDown
  by_cases hj : j = i
  · subst hj
    rw [Function.update_self, Function.update_of_ne (Ne.symm hjk)]
    exact (hWith k (Ne.symm hjk)).1
  · rw [Function.update_of_ne hj]
    by_cases hk : k = i
    · subst hk
      rw [Function.update_self]
      exact (hWith j hj).2
    · rw [Function.update_of_ne hk]
      exact h.pair j k hjk

/-- A step that leaves the operation and the poster as they are. -/
structure Advances (s s' : Meeting n α) (i : Fin n) : Prop where
  pc       : s'.pc = Function.update s.pc i (s.pc i).next
  postedop : s'.postedop = s.postedop
  poster   : s'.poster = s.poster
  posted   : s'.posted = s.posted
  bar1     : s'.bar1 = countAt inBar1 s'.pc
  bar2     : s'.bar2 = countAt inBar2 s'.pc
  wrote    : ∀ j, s'.wrote j =
    if behind s.pending (s'.pc j) = true then s.posted.dropLast else s.posted
  early    : s.pc i = .idle → s.poster = .ready → ∃ j, j ≠ i ∧ joined (s.pc j) = false

/-- A step that goes to the next place keeps the invariant, where the tables let it. -/
theorem Advances.inv (hAdv : Advances s s' i) (h : s.Inv)
    (hFree : (s.pc i).free s.pending (s.who i) = true)
    (hOpens : ∀ j, j ≠ i → (s.pc i).opens (s.pc j) = true) : s'.Inv := by
  have hPending : s'.pending = s.pending := by
    unfold pending
    rw [hAdv.postedop]
  have hWho : s'.who = s.who := by
    unfold who
    rw [hAdv.poster]
  have hMine : s'.mine = s.mine := by
    unfold mine
    rw [hWho]
  obtain ⟨hClear, hIdle, -⟩ := free_parts (s.pending, s.who i, s.pc i) hFree
  constructor
  · exact hAdv.bar1
  · exact hAdv.bar2
  · intro j
    rw [hPending, hWho, hAdv.pc]
    exact h.next_single hFree j
  · intro j k hjk
    rw [hPending, hMine, hAdv.pc]
    exact h.next_pair hFree hOpens hjk
  · rw [hAdv.poster, hPending]
    exact h.nobody
  · rw [hAdv.poster, hPending]
    intro hReady
    obtain ⟨hPosted, j, hj⟩ := h.ready hReady
    refine ⟨hPosted, ?_⟩
    rw [hAdv.pc]
    by_cases hStart : s.pc i = .idle
    · -- it comes from its clock, and is not the last
      obtain ⟨k, hk, hOut⟩ := hAdv.early hStart hReady
      exact ⟨k, by rw [Function.update_of_ne hk]; exact hOut⟩
    · refine ⟨j, ?_⟩
      by_cases hji : j = i
      · -- it has not come, and does not come by this step
        rw [hji, Function.update_self]
        rw [hji] at hj
        have hNot : ∀ p : Pc, joined p = false → p ≠ .idle → joined p.next = false := by
          decide
        exact hNot _ hj hStart
      · rw [Function.update_of_ne hji]
        exact hj
  · rw [hAdv.postedop, hAdv.posted]
    exact h.last
  · rw [hPending, hAdv.posted]
    exact hAdv.wrote

/-- The counters after a step. -/
theorem countAt_goto (r : Pc → Bool) (i : Fin n) (q : Pc) :
    (countAt r (Function.update s.pc i q) : Int) =
      countAt r s.pc + (if r q = true then 1 else 0) - if r (s.pc i) = true then 1 else 0 := by
  have hCount : countAt r (Function.update s.pc i q) + _ = _ := countAt_update
  by_cases hTo : r q = true
  · by_cases hFrom : r (s.pc i) = true
    · rw [if_pos hTo, if_pos hFrom] at hCount ⊢
      omega
    · rw [if_pos hTo, if_neg hFrom] at hCount ⊢
      omega
  · by_cases hFrom : r (s.pc i) = true
    · rw [if_neg hTo, if_pos hFrom] at hCount ⊢
      omega
    · rw [if_neg hTo, if_neg hFrom] at hCount ⊢
      omega

/-- A step that changes the counters only. -/
theorem Inv.advances (h : s.Inv) (hPc : s.pc i ∉ [Pc.write, .clear, .fault])
    (hIdle : s.pc i = .idle → s.pending = true ∧
      (s.poster = .ready → ∃ j, j ≠ i ∧ joined (s.pc j) = false)) (b c : Int)
    (hBar1 : b = s.bar1 + (if inBar1 (s.pc i).next = true then 1 else 0) -
      if inBar1 (s.pc i) = true then 1 else 0)
    (hBar2 : c = s.bar2 + (if inBar2 (s.pc i).next = true then 1 else 0) -
      if inBar2 (s.pc i) = true then 1 else 0) :
    Advances s ({ s with bar1 := b, bar2 := c }.goto i (s.pc i).next) i := by
  refine ⟨rfl, rfl, rfl, rfl, ?_, ?_, fun j => ?_, fun hStart => (hIdle hStart).2⟩
  · show b = (countAt inBar1 (Function.update s.pc i (s.pc i).next) : Int)
    rw [countAt_goto, hBar1, h.bar1]
  · show c = (countAt inBar2 (Function.update s.pc i (s.pc i).next) : Int)
    rw [countAt_goto, hBar2, h.bar2]
  · show s.wrote j = if behind s.pending (Function.update s.pc i (s.pc i).next j) = true then _ else _
    rw [h.wrote j]
    by_cases hj : j = i
    · rw [hj, Function.update_self]
      have hSame := (next_table (s.pending, s.pc i) hPc (fun hStart => (hIdle hStart).1) (h.base i)).1
      rw [hSame]
    · rw [Function.update_of_ne hj]

/-- All processors are in the region that the counter counts. -/
theorem all_of_count {r : Pc → Bool} (h : ¬ (countAt r s.pc : Int) < n) (j : Fin n) :
    r (s.pc j) = true := by
  have hLe := countAt_le r s.pc
  exact countAt_eq_all.mp (by omega) j

/-- A counter that is down counts nobody. -/
theorem none_of_count {r : Pc → Bool} (h : ¬ 0 < (countAt r s.pc : Int)) (j : Fin n) :
    r (s.pc j) = false :=
  countAt_eq_none.mp (by omega) j

/-- The poster is not waiting outside when everybody has come. -/
theorem Inv.not_ready (h : s.Inv) (hAll : ∀ j, joined (s.pc j) = true) : s.poster ≠ .ready := by
  intro hReady
  obtain ⟨-, j, hj⟩ := h.ready hReady
  rw [hAll j] at hj
  cases hj

/-- How the processors see the poster: on its way, nobody, or this one. -/
theorem who_ready : s.who i = .ready ↔ s.poster = .ready := by
  unfold who
  split
  · rename_i hPoster
    rw [hPoster]
    exact iff_of_false (by decide) nofun
  · rename_i hPoster
    exact iff_of_true rfl hPoster
  · rename_i p hPoster
    rw [hPoster]
    split
    · exact iff_of_false (by decide) nofun
    · exact iff_of_false (by decide) nofun

theorem who_nobody : s.who i = .nobody ↔ s.poster = .nobody := by
  unfold who
  split
  · rename_i hPoster
    exact iff_of_true rfl hPoster
  · rename_i hPoster
    rw [hPoster]
    exact iff_of_false (by decide) nofun
  · rename_i p hPoster
    rw [hPoster]
    split
    · exact iff_of_false (by decide) nofun
    · exact iff_of_false (by decide) nofun

theorem who_this : s.who i = .this ↔ s.poster = .inside i := by
  unfold who
  split
  · rename_i hPoster
    rw [hPoster]
    exact iff_of_false (by decide) nofun
  · rename_i hPoster
    rw [hPoster]
    exact iff_of_false (by decide) nofun
  · rename_i p hPoster
    rw [hPoster]
    split
    · rename_i hp
      exact iff_of_true rfl (congrArg _ hp)
    · rename_i hp
      exact iff_of_false (by decide) fun hEq => hp (Poster.inside.inj hEq)

/-- `*op = nil`. -/
theorem clear_inv (h : s.Inv) (hPc : s.pc i = .clear) :
    ({ s with postedop := none }.goto i .leave).Inv := by
  have hSelf := h.single i
  rw [hPc] at hSelf
  obtain ⟨hNobody, hReady, hLeave⟩ := clear_single (s.pending, s.who i) hSelf
  have hOther : ∀ j, j ≠ i → _ := fun j hj =>
    clear_table (s.pending, (s.who i, s.mine i), s.who j, s.mine j, s.pc j) hSelf (h.single j)
      (hPc ▸ h.pair i j (Ne.symm hj)) (hPc ▸ h.pair j i hj)
  have hPoster : s.poster ≠ .nobody ∧ s.poster ≠ .ready :=
    ⟨fun hN => hNobody (who_nobody.mpr hN), fun hR => hReady (who_ready.mpr hR)⟩
  constructor
  · show s.bar1 = (countAt inBar1 (Function.update s.pc i .leave) : Int)
    rw [countAt_goto, hPc, h.bar1]
    show _ = (countAt inBar1 s.pc : Int) + 1 - 1
    omega
  · show s.bar2 = (countAt inBar2 (Function.update s.pc i .leave) : Int)
    rw [countAt_goto, hPc, h.bar2]
    show _ = (countAt inBar2 s.pc : Int) + 1 - 1
    omega
  · intro j
    show Glendum.single false (s.who j) (Function.update s.pc i .leave j) = true
    by_cases hj : j = i
    · rw [hj, Function.update_self]
      exact hLeave
    · rw [Function.update_of_ne hj]
      exact (hOther j hj).1 (fun hN => hPoster.1 (who_nobody.mp hN))
        fun hR => hPoster.2 (who_ready.mp hR)
  · intro j k hjk
    show Glendum.pair false (s.mine j) (Function.update s.pc i .leave j)
      (Function.update s.pc i .leave k) = true
    by_cases hj : j = i
    · subst hj
      rw [Function.update_self, Function.update_of_ne (Ne.symm hjk)]
      exact (hOther k (Ne.symm hjk)).2.1
    · rw [Function.update_of_ne hj]
      by_cases hk : k = i
      · subst hk
        rw [Function.update_self]
        exact (hOther j hj).2.2.1
      · rw [Function.update_of_ne hk]
        exact pair_cleared (s.pending, s.mine j, s.pc j, s.pc k) (h.pair j k hjk)
  · exact fun hN => absurd hN hPoster.1
  · exact fun hR => absurd hR hPoster.2
  · exact nofun
  · intro j
    show s.wrote j = if behind false (Function.update s.pc i .leave j) = true then _ else _
    have hWrote := h.wrote j
    by_cases hj : j = i
    · rw [hj, Function.update_self]
      rw [hj, hPc] at hWrote
      exact hWrote
    · rw [Function.update_of_ne hj, hWrote]
      -- the others have written, and those that are out found the operation gone
      have hSame : behind s.pending (s.pc j) = behind false (s.pc j) :=
        clear_behind (s.pending, s.mine i, s.pc j) (hPc ▸ h.pair i j (Ne.symm hj)) (hOther j hj).2.2.2
      rw [hSame]
      rfl

/-- The poster is through. -/
theorem down_inv (h : s.Inv) (hPc : s.pc i = .down) (hThis : s.poster = .inside i) :
    ({ s with bar2 := s.bar2 - 1, poster := .nobody }.goto i .idle).Inv := by
  have hSelf := h.single i
  rw [hPc, who_this.mpr hThis] at hSelf
  have hMine : s.mine i = true := by
    unfold mine
    rw [who_this.mpr hThis]
    rfl
  -- everybody is on the way out
  have hAll : s.pending = false ∧ ∀ j, away (Function.update s.pc i .idle j) = true := by
    have hEach : ∀ j, j ≠ i → s.pending = false ∧ away (s.pc j) = true := by
      intro j hj
      have hPair := h.pair i j (Ne.symm hj)
      rw [hMine, hPc] at hPair
      exact down_table (s.pending, s.who j, s.pc j) hSelf (h.single j) hPair
    have hPending : s.pending = false := down_single s.pending hSelf
    refine ⟨hPending, fun j => ?_⟩
    by_cases hj : j = i
    · rw [hj, Function.update_self]
      rfl
    · rw [Function.update_of_ne hj]
      exact (hEach j hj).2
  obtain ⟨hPending, hAway⟩ := hAll
  have hTable : ∀ j k, _ := fun j k => away_table (s.pending, Function.update s.pc i .idle j,
    Function.update s.pc i .idle k) (hAway j) (hAway k)
  constructor
  · show s.bar1 = (countAt inBar1 (Function.update s.pc i .idle) : Int)
    rw [countAt_goto, hPc, h.bar1]
    show _ = (countAt inBar1 s.pc : Int) + 0 - 0
    omega
  · show s.bar2 - 1 = (countAt inBar2 (Function.update s.pc i .idle) : Int)
    rw [countAt_goto, hPc, h.bar2]
    show _ = (countAt inBar2 s.pc : Int) + 0 - 1
    omega
  · intro j
    show Glendum.single s.pending .nobody (Function.update s.pc i .idle j) = true
    rw [hPending]
    exact (hTable j j).1
  · intro j k _
    exact (hTable j k).2.2.2.2.2
  · exact fun _ => hPending
  · exact nofun
  · exact h.last
  · intro j
    show s.wrote j = if behind s.pending (Function.update s.pc i .idle j) = true then _ else _
    rw [hPending, (hTable j j).2.2.2.2.1]
    have hWrote := h.wrote j
    rw [hPending] at hWrote
    by_cases hj : j = i
    · rw [hj] at hWrote ⊢
      rw [hPc] at hWrote
      exact hWrote
    · have hPlace := hAway j
      rw [Function.update_of_ne hj] at hPlace
      have hBehind := (away_table (false, s.pc j, s.pc j) hPlace hPlace).2.2.2.2.1
      rw [hBehind] at hWrote
      exact hWrote

/-- A processor writes its registers. -/
theorem write_inv {op : α} (h : s.Inv) (hPc : s.pc i = .write) (hOp : s.postedop = some op) :
    ({ s with wrote := Function.update s.wrote i (s.wrote i ++ [op]) }.goto i .sync).Inv := by
  have hNext : (s.pc i).next = .sync := by
    rw [hPc]
    rfl
  have hFree : (s.pc i).free s.pending (s.who i) = true := by
    rw [hPc]
    cases s.pending <;> cases s.who i <;> rfl
  have hOpens : ∀ j, j ≠ i → (s.pc i).opens (s.pc j) = true := by
    intro j _
    rw [hPc]
    rfl
  suffices hAdv : Advances s
      ({ s with wrote := Function.update s.wrote i (s.wrote i ++ [op]) }.goto i .sync) i from
    hAdv.inv h hFree hOpens
  refine ⟨?_, rfl, rfl, rfl, ?_, ?_, fun j => ?_, ?_⟩
  · rw [hNext]
    rfl
  · show s.bar1 = (countAt inBar1 (Function.update s.pc i .sync) : Int)
    rw [countAt_goto, hPc, h.bar1]
    show _ = (countAt inBar1 s.pc : Int) + 1 - 1
    omega
  · show s.bar2 = (countAt inBar2 (Function.update s.pc i .sync) : Int)
    rw [countAt_goto, hPc, h.bar2]
    show _ = (countAt inBar2 s.pc : Int) + 0 - 0
    omega
  · show Function.update s.wrote i (s.wrote i ++ [op]) j =
      if behind s.pending (Function.update s.pc i .sync j) = true then _ else _
    by_cases hj : j = i
    · subst hj
      rw [Function.update_self, Function.update_self]
      -- it has now written all that was posted
      have hBefore := h.wrote j
      rw [hPc] at hBefore
      have hDrop : s.wrote j = s.posted.dropLast := hBefore
      show s.wrote j ++ [op] = s.posted
      rw [hDrop]
      exact List.dropLast_append_getLast? op (h.last op hOp)
    · rw [Function.update_of_ne hj, Function.update_of_ne hj]
      exact h.wrote j
  · intro hIdle
    rw [hPc] at hIdle
    cases hIdle

/-- A step of a processor with the operation and the poster as they are. -/
theorem advance_inv (h : s.Inv) (hPc : s.pc i ∉ [Pc.idle, .write, .clear, .fault])
    (hReady : s.pc i = .wait1 → s.poster ≠ .ready) (hThis : s.pc i = .down → s.poster ≠ .inside i)
    (hOpens : ∀ j, j ≠ i → (s.pc i).opens (s.pc j) = true) (b c : Int)
    (hBar1 : b = s.bar1 + (if inBar1 (s.pc i).next = true then 1 else 0) -
      if inBar1 (s.pc i) = true then 1 else 0)
    (hBar2 : c = s.bar2 + (if inBar2 (s.pc i).next = true then 1 else 0) -
      if inBar2 (s.pc i) = true then 1 else 0) :
    ({ s with bar1 := b, bar2 := c }.goto i (s.pc i).next).Inv := by
  have hFree : (s.pc i).free s.pending (s.who i) = true := by
    have hTable : ∀ b : Bool × Who × Pc, b.2.2 ∉ [Pc.idle, .write, .clear, .fault] →
        (b.2.2 = .wait1 → b.2.1 ≠ .ready) → (b.2.2 = .down → b.2.1 ≠ .this) →
        b.2.2.free b.1 b.2.1 = true := by
      decide
    exact hTable (s.pending, s.who i, s.pc i) hPc (fun hW hR => hReady hW (who_ready.mp hR))
      fun hD hT => hThis hD (who_this.mp hT)
  have hPc' : s.pc i ∉ [Pc.write, .clear, .fault] := fun hMem => hPc (List.mem_cons_of_mem _ hMem)
  have hIdle : s.pc i ≠ .idle := fun hEq => hPc (by rw [hEq]; exact List.mem_cons_self)
  exact (h.advances hPc' (fun hEq => absurd hEq hIdle) b c hBar1 hBar2).inv h hFree hOpens

/-- Every step in `mtrrop` keeps the invariant. -/
theorem move_inv (h : s.Inv) (hMove : s.move i = some s') : s'.Inv := by
  unfold move at hMove
  have hAdvance := advance_inv (i := i) h
  split at hMove
  · cases hMove
  · cases hMove
  · rename_i hPc
    obtain rfl := Option.some.inj hMove
    rw [hPc] at hAdvance
    exact hAdvance (by decide) nofun nofun (fun _ _ => rfl) _ _ (by simp [inBar1, Pc.next])
      (by simp [inBar2, Pc.next])
  · rename_i hPc
    split at hMove
    · cases hMove
    · rename_i hBar
      obtain rfl := Option.some.inj hMove
      rw [h.bar1] at hBar
      have hAll := all_of_count hBar
      rw [hPc] at hAdvance
      refine hAdvance (by decide) (fun _ => h.not_ready fun j => ?_) nofun (fun j _ => hAll j) _ _
        (by simp [inBar1, Pc.next]) (by simp [inBar2, Pc.next])
      exact joined_of_inBar1 _ (hAll j)
  · rename_i hPc
    split at hMove
    · rename_i hOp
      -- whoever writes finds the operation
      have hBase := h.base i
      rw [hPc] at hBase
      unfold pending at hBase
      rw [hOp] at hBase
      cases hBase
    · rename_i op hOp
      obtain rfl := Option.some.inj hMove
      exact write_inv h hPc hOp
  · rename_i hPc
    obtain rfl := Option.some.inj hMove
    rw [hPc] at hAdvance
    exact hAdvance (by decide) nofun nofun (fun _ _ => rfl) _ _ (by simp [inBar1, Pc.next])
      (by simp [inBar2, Pc.next])
  · rename_i hPc
    split at hMove
    · cases hMove
    · rename_i hBar
      obtain rfl := Option.some.inj hMove
      rw [h.bar2] at hBar
      rw [hPc] at hAdvance
      exact hAdvance (by decide) nofun nofun (fun j _ => all_of_count hBar j) _ _
        (by simp [inBar1, Pc.next]) (by simp [inBar2, Pc.next])
  · rename_i hPc
    obtain rfl := Option.some.inj hMove
    exact clear_inv h hPc
  · rename_i hPc
    obtain rfl := Option.some.inj hMove
    rw [hPc] at hAdvance
    exact hAdvance (by decide) nofun nofun (fun _ _ => rfl) _ _ (by simp [inBar1, Pc.next])
      (by simp [inBar2, Pc.next])
  · rename_i hPc
    split at hMove
    · cases hMove
    · rename_i hBar
      obtain rfl := Option.some.inj hMove
      rw [h.bar1] at hBar
      rw [hPc] at hAdvance
      refine hAdvance (by decide) nofun nofun (fun j _ => ?_) _ _ (by simp [inBar1, Pc.next])
        (by simp [inBar2, Pc.next])
      show (!inBar1 (s.pc j)) = true
      rw [none_of_count hBar j]
      rfl
  · rename_i hPc
    obtain rfl := Option.some.inj hMove
    by_cases hThis : s.poster = .inside i
    · rw [if_pos hThis]
      exact down_inv h hPc hThis
    · rw [if_neg hThis]
      rw [hPc] at hAdvance
      exact hAdvance (by decide) nofun (fun _ => hThis) (fun _ _ => rfl) _ _
        (by simp [inBar1, Pc.next]) (by simp [inBar2, Pc.next])

/-- So does the post of an operation. -/
theorem post_inv {op : α} (hn : 0 < n) (h : s.Inv) (hNobody : s.poster = .nobody) :
    ({ s with postedop := some op, poster := .ready, posted := s.posted ++ [op] } : Meeting n α).Inv := by
  have hPending : s.pending = false := h.nobody hNobody
  -- whoever is still in `mtrrop` has the operation before behind it
  have hAway : ∀ j, away (s.pc j) = true := by
    intro j
    have hSingle := h.single j
    rw [who_nobody.mpr hNobody, hPending] at hSingle
    exact away_of_nobody _ hSingle
  have hTable : ∀ j k, _ := fun j k => away_table (true, s.pc j, s.pc k) (hAway j) (hAway k)
  constructor
  · exact h.bar1
  · exact h.bar2
  · exact fun j => (hTable j j).2.1
  · exact fun j k _ => (hTable j k).2.2.2.2.2
  · exact nofun
  · exact fun _ => ⟨rfl, ⟨0, hn⟩, (hTable _ ⟨0, hn⟩).2.2.1⟩
  · intro op' hOp
    obtain rfl := Option.some.inj hOp
    exact List.getLast?_concat
  · intro j
    show s.wrote j = if behind true (s.pc j) = true then (s.posted ++ [op]).dropLast else _
    have hWrote := h.wrote j
    rw [hPending, (hTable j j).2.2.2.2.1] at hWrote
    rw [(hTable j j).2.2.2.1, List.dropLast_concat]
    exact hWrote

/-- And the poster that comes in. -/
theorem enter_inv (h : s.Inv) (hReady : s.poster = .ready) (hPc : s.pc i = .idle) :
    ({ s with poster := .inside i }.goto i .start).Inv := by
  obtain ⟨hPending, -⟩ := h.ready hReady
  -- until now any processor could have been the poster's
  have hWho : ∀ j, s.who j = .ready := fun j => who_ready.mpr hReady
  have hMine : ∀ j, s.mine j = false := by
    intro j
    unfold mine
    rw [hWho j]
    rfl
  have hEach : ∀ j, j ≠ i → Glendum.single s.pending .other (s.pc j) = true ∧
      Glendum.single s.pending .this .start = true ∧ Glendum.pair s.pending true .start (s.pc j) = true ∧
      Glendum.pair s.pending false (s.pc j) .start = true := by
    intro j hj
    have hSingle := h.single j
    have hPair := h.pair i j (Ne.symm hj)
    rw [hWho j] at hSingle
    rw [hMine i, hPc] at hPair
    exact enter_table (s.pending, false, s.pc j) hSingle hPair
  have hNewWho : ∀ j, ({ s with poster := .inside i }.goto i .start : Meeting n α).who j =
      if i = j then .this else .other := fun _ => rfl
  constructor
  · show s.bar1 = (countAt inBar1 (Function.update s.pc i .start) : Int)
    rw [countAt_goto, hPc, h.bar1]
    show _ = (countAt inBar1 s.pc : Int) + 0 - 0
    omega
  · show s.bar2 = (countAt inBar2 (Function.update s.pc i .start) : Int)
    rw [countAt_goto, hPc, h.bar2]
    show _ = (countAt inBar2 s.pc : Int) + 0 - 0
    omega
  · intro j
    rw [hNewWho]
    show Glendum.single s.pending _ (Function.update s.pc i .start j) = true
    by_cases hj : j = i
    · rw [hj, if_pos rfl, Function.update_self, hPending]
      rfl
    · rw [if_neg (Ne.symm hj), Function.update_of_ne hj]
      exact (hEach j hj).1
  · intro j k hjk
    unfold mine
    rw [hNewWho]
    show Glendum.pair s.pending _ (Function.update s.pc i .start j) (Function.update s.pc i .start k) = true
    by_cases hj : j = i
    · subst hj
      rw [if_pos rfl, Function.update_self, Function.update_of_ne (Ne.symm hjk)]
      exact (hEach k (Ne.symm hjk)).2.2.1
    · rw [if_neg (Ne.symm hj), Function.update_of_ne hj]
      by_cases hk : k = i
      · subst hk
        rw [Function.update_self]
        exact (hEach j hj).2.2.2
      · rw [Function.update_of_ne hk]
        have hPair := h.pair j k hjk
        rw [hMine j] at hPair
        exact hPair
  · exact nofun
  · exact nofun
  · exact h.last
  · intro j
    show s.wrote j = if behind s.pending (Function.update s.pc i .start j) = true then _ else _
    have hWrote := h.wrote j
    by_cases hj : j = i
    · rw [hj, Function.update_self]
      rw [hj, hPc, hPending] at hWrote
      exact hWrote
    · rw [Function.update_of_ne hj]
      exact hWrote

/-- And a clock that is not the last one before the poster. -/
theorem clock_inv (h : s.Inv) (hPc : s.pc i = .idle) (hPending : s.pending = true)
    (hEarly : s.poster = .ready → ∃ j, j ≠ i ∧ joined (s.pc j) = false) : (s.goto i .start).Inv := by
  have hNext : (s.pc i).next = .start := by
    rw [hPc]
    rfl
  have hSingle := h.single i
  rw [hPc, hPending] at hSingle
  have hFree : (s.pc i).free s.pending (s.who i) = true := by
    rw [hPc, hPending]
    cases s.who i <;> rfl
  have hAdv := h.advances (i := i) (by rw [hPc]; decide) (fun _ => ⟨hPending, hEarly⟩) s.bar1 s.bar2
    (by rw [hPc]; simp [inBar1, Pc.next]) (by rw [hPc]; simp [inBar2, Pc.next])
  rw [hNext] at hAdv
  exact hAdv.inv h hFree fun j _ => by rw [hPc]; rfl

/-- And so every step of an early run. -/
theorem step_inv {o : MeetOp n α} (hn : 0 < n) (h : s.Inv) (hEarly : o.Early s)
    (hStep : s.step o = some s') : s'.Inv := by
  cases o with
  | post op =>
    rw [step] at hStep
    split at hStep
    · rename_i hFree
      obtain rfl := Option.some.inj hStep
      exact post_inv hn h hFree.1
    · cases hStep
  | enter i =>
    rw [step] at hStep
    split at hStep
    · rename_i hReady
      obtain rfl := Option.some.inj hStep
      exact enter_inv h hReady.1 hReady.2
    · cases hStep
  | clock i =>
    rw [step] at hStep
    split at hStep
    · rename_i hPc
      obtain rfl := Option.some.inj hStep
      split
      -- without an operation the clock only looks
      · rename_i hPending
        exact clock_inv h hPc hPending hEarly
      · exact h
    · cases hStep
  | move i => exact move_inv h hStep

/-- At boot nobody is in `mtrrop`. -/
theorem boot_inv : (boot : Meeting n α).Inv where
  bar1 := by
    show (0 : Int) = (countAt inBar1 fun _ : Fin n => Pc.idle : Int)
    rw [countAt_eq_none.mpr fun _ => rfl]
    rfl
  bar2 := by
    show (0 : Int) = (countAt inBar2 fun _ : Fin n => Pc.idle : Int)
    rw [countAt_eq_none.mpr fun _ => rfl]
    rfl
  single _ := rfl
  pair _ _ _ := rfl
  nobody _ := rfl
  ready := nofun
  last := nofun
  wrote _ := rfl

/-- The invariant holds after an early run. -/
theorem run_inv {os : List (MeetOp n α)} (hn : 0 < n) (h : s.Inv)
    (hEarly : Trace.Always step (fun s o => o.Early s) s os) (hRun : Trace.run step s os = some t) :
    t.Inv :=
  Trace.run_invariant (fun _ _ _ hs hOk hMove => step_inv hn hs hOk hMove) h hEarly hRun

/-! ## What the meeting is for -/

/-- **The meeting is safe.** When not every processor comes in from its clock before the poster,
nobody finds the operation gone; while one processor writes, all others are in `mtrrop` and
none of them has got past the second counter; and what each has written are the operations that
were posted, in their order, less the last one as long as it is there. -/
theorem mtrrop_safe {os : List (MeetOp n α)} (hn : 0 < n)
    (hEarly : Trace.Always step (fun s o => o.Early s) boot os)
    (hRun : Trace.run step boot os = some s) :
    (∀ i, s.pc i ≠ .fault) ∧
    (∀ i j, s.pc i = .write → s.pc j ∈ [Pc.wait1, .write, .sync, .wait2]) ∧
    (∀ i, s.wrote i = s.posted ∨ s.wrote i = s.posted.dropLast) ∧
    (s.postedop = none → ∀ i, s.wrote i = s.posted) := by
  have h := run_inv hn boot_inv hEarly hRun
  refine ⟨fun i hFault => ?_, fun i j hWrite => ?_, fun i => ?_, fun hNone i => ?_⟩
  · have hBase := h.base i
    rw [hFault] at hBase
    cases hBase
  · by_cases hij : i = j
    · rw [← hij, hWrite]
      decide
    · have hPair := h.pair i j hij
      rw [hWrite] at hPair
      exact write_table (s.pending, s.mine i, s.pc j) hPair
  · rw [h.wrote i]
    split
    · exact Or.inr rfl
    · exact Or.inl rfl
  -- then nobody is behind
  · have hPending : s.pending = false := by
      unfold pending
      rw [hNone]
      rfl
    have hBase := h.base i
    rw [h.wrote i]
    rw [hPending] at hBase ⊢
    rw [if_neg (by rw [base_behind _ hBase]; exact Bool.false_ne_true)]

/-- The second processor comes from its clock, and both go on to the registers. -/
theorem mtrrop_safe_pair : ∃ s : Meeting 2 Nat,
    Trace.run step boot [.post 7, .enter 0, .clock 1, .move 0, .move 1, .move 0, .move 0] = some s ∧
    (∀ i, s.pc i ≠ .fault) ∧
    (∀ i j, s.pc i = .write → s.pc j ∈ [Pc.wait1, .write, .sync, .wait2]) ∧
    (∀ i, s.wrote i = s.posted ∨ s.wrote i = s.posted.dropLast) ∧
    (s.postedop = none → ∀ i, s.wrote i = s.posted) := by
  have hRun : ∃ s : Meeting 2 Nat, Trace.run step boot
      [.post 7, .enter 0, .clock 1, .move 0, .move 1, .move 0, .move 0] = some s := ⟨_, rfl⟩
  obtain ⟨s, hs⟩ := hRun
  refine ⟨s, hs, mtrrop_safe (by decide) ?_ hs⟩
  refine ⟨trivial, fun s₁ h₁ => ⟨trivial, fun s₂ h₂ => ⟨?_, fun s₃ _ => ?_⟩⟩⟩
  · obtain rfl := Option.some.inj h₁
    obtain rfl := Option.some.inj h₂
    exact nofun
  · refine Trace.always_of_forall fun o ho s => ?_
    simp only [List.mem_cons, List.not_mem_nil, or_false] at ho
    rcases ho with rfl | rfl | rfl | rfl <;> trivial

/-- The clock of the processor that posts can be first; then `mtrrop` finds no operation. -/
example : (Trace.run step (boot : Meeting 1 Nat) ([.post 7, .clock 0] ++ List.replicate 9 (.move 0) ++
    [.enter 0] ++ List.replicate 3 (.move 0))).map (fun s => s.pc 0) = some .fault := by
  decide

end Meeting

end Glendum
