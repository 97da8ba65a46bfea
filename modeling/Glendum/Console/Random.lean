import Glendum.Lib.Bytes
import Glendum.Lib.Ring
import Glendum.Lib.Trace

/-!
# Glendum — random bytes

`randomclock` puts bytes in the circular buffer of `random.c` at clock interrupts, and
`randomread` takes them out again. No lock is held between the two: the clock may run
between any two steps of a reader. Readers hold the queue lock of `rb`, so there is one at
a time. What counts in `randomcount`, the loop of `genrandom`, is interrupted like a reader
and may leave any count.

* `rbnotfull_iff` — the two differences of the pointers that mean a full buffer;
* `RandomInv.clock` — the clock puts its byte behind those that wait;
* `RandomInv.read` — a reader takes the oldest byte, with the value that it has loaded;
* `random_once` — each byte is handed out once, in the order of production.
-/

namespace Glendum

open Machine Trace RingBuf

/-! ## The code -/

/-- `sizeof rb.buf`. -/
def RBSIZE : Nat := 1024

/-- The record `rb`; `q` has `buf`, and the pointers `wp` and `rp` as places in it. -/
structure Rb where
  q           : RingPtrs Byte RBSIZE
  randomcount : BitVec 32
  next        : BitVec 8
  wakeme      : Bool
  bits        : BitVec 16
  randn       : BitVec 32

/-- `rbnotfull`; `i` is the difference of the pointers as an `int`. -/
def rbnotfull (q : RingPtrs Byte RBSIZE) : Bool :=
  let i := BitVec.ofNat 32 q.ir - BitVec.ofNat 32 q.iw
  i ≠ 1 && i ≠ 1 - BitVec.ofNat 32 RBSIZE

/-- The place behind `p`; at `rb.ep` it is the start of the buffer. -/
def rbnext (p : Nat) : Nat := if p + 1 = RBSIZE then 0 else p + 1

/-- `*rb.wp ^= rb.bits`, and the writer goes on; with the byte that was produced. -/
def Rb.produce (rb : Rb) : Option (Rb × Byte) :=
  if h : rb.q.iw < RBSIZE then
    -- the byte that is there goes into the new one
    let b := rb.q.buf[rb.q.iw] ^^^ rb.bits.setWidth 8
    some ({ rb with q := { rb.q with buf := rb.q.buf.set rb.q.iw b h, iw := rbnext rb.q.iw } }, b)
  else none

/-- `randomclock`, with the byte that it produced; `none` is a store outside the buffer. A
reader that it wakes is left to the scheduler. -/
def randomclock (rb : Rb) : Option (Rb × Option Byte) :=
  if rb.randomcount = 0 ∨ rbnotfull rb.q = false then some (rb, none)
  else
    let rb := { rb with bits := (rb.bits <<< 2) ^^^ rb.randomcount.setWidth 16, randomcount := 0 }
    -- four counts of two bits make a byte
    let rb := { rb with next := rb.next + 1 }
    if rb.next ≠ 4 then some (rb, none)
    else ({ rb with next := 0 } : Rb).produce.map fun r => (r.1, some r.2)

/-- Where the call of `randomread` stands; `left` is `e - p`. -/
inductive ReadPc
  | idle
  /-- at `p < e` -/
  | loop (left : Nat)
  /-- at `rb.wp == rb.rp` -/
  | test (left : Nat)
  /-- in `sleep(&rb.consumer, rbnotempty, 0)` -/
  | asleep (left : Nat)
  /-- at `x = rb.randn*1103515245 ^ *rb.rp` -/
  | take (left : Nat)
  /-- at `*p++ = rb.randn = x`, the byte `b` being in `x` -/
  | taken (left : Nat) (x : BitVec 32) (b : Byte)
  /-- the reader is to go on behind the byte `b` -/
  | advance (left : Nat) (b : Byte)

/-- `produced` are the bytes that the clock has put in the buffer, `consumed` the bytes that
readers have gone behind, and `out` what was stored for the callers. -/
structure Random where
  rb       : Rb
  pc       : ReadPc := .idle
  produced : List Byte := []
  consumed : List Byte := []
  out      : List Byte := []

inductive RandomOp
  /-- `randomclock`, at an interrupt -/
  | clock
  /-- `genrandom` leaves a count -/
  | count (n : BitVec 32)
  /-- a call of `randomread`, when no other one goes on -/
  | call (n : Nat)
  /-- one step of the call -/
  | read
  /-- the sleeper wakes up -/
  | wake
  /-- the sleep ends with an error, and the call with it -/
  | error

def Random.read (s : Random) : Option Random :=
  match s.pc with
  | .idle | .asleep _ => none
  | .loop left => some { s with pc := if left = 0 then .idle else .test left }
  | .test left =>
    if s.rb.q.iw = s.rb.q.ir then some { s with rb := { s.rb with wakeme := true }, pc := .asleep left }
    else some { s with pc := .take left }
  | .take left =>
    s.rb.q.buf[s.rb.q.ir]?.map fun b =>
      { s with pc := .taken left (s.rb.randn * 1103515245 ^^^ b.setWidth 32) b }
  | .taken left x b =>
    some { s with
      rb := { s.rb with randn := x }
      pc := .advance (left - 1) b
      out := s.out ++ [x.setWidth 8] }
  | .advance left b =>
    some { s with
      rb := { s.rb with q := { s.rb.q with ir := rbnext s.rb.q.ir } }
      pc := .loop left
      consumed := s.consumed ++ [b] }

def Random.step (s : Random) : RandomOp → Option Random
  | .clock => (randomclock s.rb).map fun r =>
      { s with rb := r.1, produced := s.produced ++ r.2.toList }
  | .count n => some { s with rb := { s.rb with randomcount := n } }
  | .call n =>
    match s.pc with
    | .idle => some { s with pc := .loop n }
    | _ => none
  | .read => s.read
  | .wake =>
    match s.pc with
    | .asleep left => some { s with rb := { s.rb with wakeme := false }, pc := .loop left }
    | _ => none
  | .error =>
    match s.pc with
    | .asleep _ => some { s with pc := .idle }
    | _ => none

/-- After `randominit`. -/
def Random.start : Random where
  rb := ⟨⟨.replicate RBSIZE 0, 0, 0⟩, 0, 0, false, 0, 0⟩

/-! ## The invariant -/

/-- The reader stands at a byte that waits, and at the one that it has loaded. -/
def ReadPc.Holds (pc : ReadPc) (unread : List Byte) : Prop :=
  match pc with
  | .idle | .loop _ | .test _ | .asleep _ => True
  | .take _ => unread ≠ []
  | .taken _ _ b | .advance _ b => unread.head? = some b

/-- The ring behind the pointers: what was produced is what was consumed, and behind it what
waits in the ring. -/
structure RandomInv (s : Random) (r : RingBuf Byte RBSIZE) : Prop where
  ring  : s.rb.q = r.ptrs
  order : s.produced = s.consumed ++ r.contents
  pc    : s.pc.Holds r.contents

section

variable {s s' : Random} {r : RingBuf Byte RBSIZE} {pc : ReadPc}

theorem ReadPc.Holds.append {unread : List Byte} (h : pc.Holds unread) (bs : List Byte) :
    pc.Holds (unread ++ bs) := by
  cases pc with
  | idle | loop | test | asleep => trivial
  | take left => exact List.append_ne_nil_of_left_ne_nil h bs
  | taken left x b => exact (List.head?_append_of_ne_nil _ (by rintro rfl; cases h)).trans h
  | advance left b => exact (List.head?_append_of_ne_nil _ (by rintro rfl; cases h)).trans h

/-- The reader is one place behind the writer, or at the two ends of the buffer. -/
theorem rbnotfull_iff (r : RingBuf Byte RBSIZE) : rbnotfull r.ptrs = false ↔ next r.iw = r.ir := by
  have hir := r.ir.isLt
  have hiw := r.iw.isLt
  have hSize : RBSIZE = 1024 := rfl
  -- the difference as a word; of the two that mean a full buffer one is negative
  have hDiff : (BitVec.ofNat 32 r.ir.val - BitVec.ofNat 32 r.iw.val).toNat =
      (2 ^ 32 - r.iw.val + r.ir.val) % 2 ^ 32 := by
    rw [BitVec.toNat_sub, BitVec.toNat_ofNat, BitVec.toNat_ofNat,
      Nat.mod_eq_of_lt (a := r.iw.val) (by omega), Nat.mod_eq_of_lt (a := r.ir.val) (by omega)]
  have hOne : (1 : BitVec 32).toNat = 1 := rfl
  have hWrap : (1 - BitVec.ofNat 32 RBSIZE).toNat = 2 ^ 32 - 1023 := rfl
  rw [rbnotfull, ptrs_iw, ptrs_ir, Fin.ext_iff, val_next]
  simp only [Bool.and_eq_false_iff, decide_eq_false_iff_not, ne_eq, not_not]
  rw [← BitVec.toNat_inj, ← BitVec.toNat_inj, hDiff, hOne, hWrap]
  split
  · omega
  · omega

theorem rbnext_eq (i : Fin RBSIZE) : rbnext i = next i := by
  have hi := i.isLt
  rw [rbnext, val_next]
  split
  · rw [if_neg (by omega)]
  · rw [if_pos (by omega)]

theorem random_start : RandomInv .start ⟨.replicate RBSIZE 0, ⟨0, by decide⟩, ⟨0, by decide⟩⟩ where
  ring := rfl
  order := by
    rw [contents_eq_nil.mpr rfl]
    rfl
  pc := trivial

/-- The byte goes into the ring, which is not full. -/
theorem produce_put (rb : Rb) (hRing : rb.q = r.ptrs) (hRoom : next r.iw ≠ r.ir) :
    ∃ rb' b, rb.produce = some (rb', b) ∧ rb'.q = (r.put b).ptrs := by
  have hIn : rb.q.iw < RBSIZE := by
    rw [hRing]
    exact r.iw.isLt
  refine ⟨_, _, by rw [Rb.produce, dif_pos hIn], ?_⟩
  simp only [hRing, put, if_neg hRoom, ptrs, rbnext_eq]

/-- What changes neither the ring nor the bytes keeps the invariant, if the reader stands well
where it has come to. -/
theorem RandomInv.same (h : RandomInv s r) (hRing : s'.rb.q = s.rb.q)
    (hProduced : s'.produced = s.produced) (hConsumed : s'.consumed = s.consumed)
    (hPc : s'.pc.Holds r.contents) : RandomInv s' r where
  ring := hRing.trans h.ring
  order := by rw [hProduced, hConsumed, h.order]
  pc := hPc

/-- The clock produces nothing, or a byte that comes behind the ones that wait. -/
theorem RandomInv.clock (h : RandomInv s r) : ∃ s' r' bs, s.step .clock = some s' ∧ RandomInv s' r' ∧
    s'.pc = s.pc ∧ s'.consumed = s.consumed ∧ r'.contents = r.contents ++ bs := by
  -- what the clock does when it produces nothing
  have hQuiet : ∀ rb : Rb, rb.q = s.rb.q → randomclock s.rb = some (rb, none) →
      ∃ s' r' bs, s.step .clock = some s' ∧ RandomInv s' r' ∧ s'.pc = s.pc ∧
        s'.consumed = s.consumed ∧ r'.contents = r.contents ++ bs := by
    intro rb hSame hClock
    refine ⟨{ s with rb := rb }, r, [], ?_, h.same hSame rfl rfl h.pc, rfl, rfl, ?_⟩
    · rw [Random.step, hClock, Option.map_some, Option.toList_none, List.append_nil]
    · rw [List.append_nil]
  by_cases hStop : s.rb.randomcount = 0 ∨ rbnotfull s.rb.q = false
  · exact hQuiet s.rb rfl (if_pos hStop)
  obtain ⟨-, hFull⟩ := not_or.mp hStop
  rw [h.ring, rbnotfull_iff] at hFull
  by_cases hCount : s.rb.next + 1 = 4
  · -- the byte is complete
    obtain ⟨rb', b, hPut, hQ⟩ := produce_put
      { s.rb with
        bits := (s.rb.bits <<< 2) ^^^ s.rb.randomcount.setWidth 16
        randomcount := 0
        next := 0 } h.ring hFull
    have hClock : randomclock s.rb = some (rb', some b) := by
      unfold randomclock
      rw [if_neg hStop]
      simp only [hCount, ne_eq, not_true, if_false, hPut, Option.map_some]
    have hContents : (r.put b).contents = r.contents ++ [b] := by
      rw [contents_put, if_neg hFull]
    refine ⟨{ s with rb := rb', produced := s.produced ++ [b] }, r.put b, [b], ?_,
      ⟨hQ, ?_, ?_⟩, rfl, rfl, hContents⟩
    · rw [Random.step, hClock, Option.map_some, Option.toList_some]
    · rw [hContents, ← List.append_assoc, ← h.order]
    · rw [hContents]
      exact h.pc.append [b]
  -- two bits more of a byte
  · refine hQuiet { s.rb with
      bits := (s.rb.bits <<< 2) ^^^ s.rb.randomcount.setWidth 16
      randomcount := 0
      next := s.rb.next + 1 } rfl ?_
    unfold randomclock
    rw [if_neg hStop]
    exact if_pos hCount

/-- The reader goes on behind the byte that it has loaded. -/
theorem RandomInv.advance (h : RandomInv s r) {b : Byte} (hHead : r.contents.head? = some b) :
    (∀ left, RandomInv { s with
      rb := { s.rb with q := { s.rb.q with ir := rbnext s.rb.q.ir } }
      pc := .loop left
      consumed := s.consumed ++ [b] } (r.readTo (next r.ir))) ∧
    r.contents = [b] ++ (r.readTo (next r.ir)).contents := by
  have hNe : r.contents ≠ [] := by
    intro hNil
    rw [hNil] at hHead
    cases hHead
  have hSplit : r.contents = [b] ++ (r.readTo (next r.ir)).contents := by
    rw [contents_readTo_next hNe]
    exact (List.cons_head?_tail hHead).symm
  refine ⟨fun left => ⟨?_, ?_, trivial⟩, hSplit⟩
  · simp only [h.ring, ptrs, readTo, rbnext_eq]
  · show s.produced = (s.consumed ++ [b]) ++ _
    rw [List.append_assoc, ← hSplit, h.order]

/-- A step of a reader consumes nothing, or the oldest byte. -/
theorem RandomInv.read (h : RandomInv s r) (hStep : s.step .read = some s') :
    ∃ r' bs, RandomInv s' r' ∧ s'.produced = s.produced ∧ s'.consumed = s.consumed ++ bs ∧
      r.contents = bs ++ r'.contents := by
  have hPc := h.pc
  -- every step but the last one of a byte
  have hNothing : s'.rb.q = s.rb.q → s'.produced = s.produced → s'.consumed = s.consumed →
      s'.pc.Holds r.contents → ∃ r' bs, RandomInv s' r' ∧ s'.produced = s.produced ∧
        s'.consumed = s.consumed ++ bs ∧ r.contents = bs ++ r'.contents := by
    intro hRing hProduced hConsumed hHolds
    refine ⟨r, [], h.same hRing hProduced hConsumed hHolds, hProduced, ?_, rfl⟩
    rw [hConsumed, List.append_nil]
  simp only [Random.step, Random.read] at hStep
  split at hStep
  · cases hStep
  · cases hStep
  · obtain rfl := Option.some.inj hStep
    refine hNothing rfl rfl rfl ?_
    simp only
    split <;> trivial
  · -- the pointers meet in an empty ring only
    split at hStep
    · obtain rfl := Option.some.inj hStep
      exact hNothing rfl rfl rfl trivial
    · rename_i hNe
      obtain rfl := Option.some.inj hStep
      refine hNothing rfl rfl rfl fun hNil => hNe ?_
      rw [h.ring, ptrs_iw, ptrs_ir, contents_eq_nil.mp hNil]
  · -- the byte that is loaded is the oldest one
    rename_i left hAt
    rw [hAt] at hPc
    rw [h.ring] at hStep
    have hLoad : r.ptrs.buf[r.ptrs.ir]? = r.contents.head? := getElem?_ir hPc
    rw [hLoad, Option.map_eq_some_iff] at hStep
    obtain ⟨b, hHead, rfl⟩ := hStep
    exact hNothing rfl rfl rfl hHead
  · rename_i left x b hAt
    rw [hAt] at hPc
    obtain rfl := Option.some.inj hStep
    exact hNothing rfl rfl rfl hPc
  · -- and it is still the oldest when the reader goes on behind it
    rename_i left b hAt
    rw [hAt] at hPc
    obtain rfl := Option.some.inj hStep
    obtain ⟨hNext, hSplit⟩ := h.advance hPc
    exact ⟨r.readTo (next r.ir), [b], hNext left, rfl, rfl, hSplit⟩

theorem RandomInv.step {o : RandomOp} (h : RandomInv s r) (hStep : s.step o = some s') :
    ∃ r', RandomInv s' r' := by
  cases o with
  | clock =>
    obtain ⟨t, r', -, hMove, hNext, -⟩ := h.clock
    obtain rfl : t = s' := Option.some.inj (hMove.symm.trans hStep)
    exact ⟨r', hNext⟩
  | count n =>
    obtain rfl := Option.some.inj hStep
    exact ⟨r, h.same rfl rfl rfl h.pc⟩
  | call n =>
    simp only [Random.step] at hStep
    split at hStep
    · obtain rfl := Option.some.inj hStep
      exact ⟨r, h.same rfl rfl rfl trivial⟩
    · cases hStep
  | read =>
    obtain ⟨r', -, hNext, -⟩ := h.read hStep
    exact ⟨r', hNext⟩
  | wake =>
    simp only [Random.step] at hStep
    split at hStep
    · obtain rfl := Option.some.inj hStep
      exact ⟨r, h.same rfl rfl rfl trivial⟩
    · cases hStep
  | error =>
    -- the call is given up between two bytes
    simp only [Random.step] at hStep
    split at hStep
    · obtain rfl := Option.some.inj hStep
      exact ⟨r, h.same rfl rfl rfl trivial⟩
    · cases hStep

/-- A call that is not asleep goes on: the byte that it loads lies in the buffer. -/
theorem RandomInv.goes_on (h : RandomInv s r) (hIdle : s.pc ≠ .idle) (hAwake : ∀ n, s.pc ≠ .asleep n) :
    ∃ s', s.step .read = some s' := by
  have hIn : s.rb.q.ir < RBSIZE := by
    rw [h.ring]
    exact r.ir.isLt
  simp only [Random.step, Random.read]
  split
  · exact absurd ‹_› hIdle
  · exact absurd ‹_› (hAwake _)
  · exact ⟨_, rfl⟩
  · split
    · exact ⟨_, rfl⟩
    · exact ⟨_, rfl⟩
  · rw [Vector.getElem?_eq_getElem hIn]
    exact ⟨_, rfl⟩
  · exact ⟨_, rfl⟩
  · exact ⟨_, rfl⟩

end

/-! ## Every order of the steps -/

/-- The pointers are inside the buffer, and what was produced is what was consumed and then
what waits in the buffer. The clock adds behind what waits, and a reader takes from its
front; neither touches the buffer outside. -/
structure Random.Once (s : Random) : Prop where
  wp      : s.rb.q.iw < RBSIZE
  rp      : s.rb.q.ir < RBSIZE
  order   : s.produced = s.consumed ++ s.rb.q.contents
  clock   : ∃ s' bs, s.step .clock = some s' ∧ s'.consumed = s.consumed ∧
    s'.produced = s.produced ++ bs ∧ s'.rb.q.contents = s.rb.q.contents ++ bs
  read    : ∀ s', s.step .read = some s' → s'.produced = s.produced ∧
    ∃ bs, s'.consumed = s.consumed ++ bs ∧ s.rb.q.contents = bs ++ s'.rb.q.contents
  goes_on : s.pc ≠ .idle → (∀ n, s.pc ≠ .asleep n) → ∃ s', s.step .read = some s'

theorem RandomInv.once {s : Random} {r : RingBuf Byte RBSIZE} (h : RandomInv s r) : s.Once := by
  have hContents : s.rb.q.contents = r.contents := by rw [h.ring, ptrs_contents]
  refine ⟨?_, ?_, ?_, ?_, ?_, h.goes_on⟩
  · rw [h.ring]
    exact r.iw.isLt
  · rw [h.ring]
    exact r.ir.isLt
  · rw [hContents, h.order]
  · obtain ⟨s', r', bs, hMove, hNext, -, hConsumed, hBehind⟩ := h.clock
    refine ⟨s', bs, hMove, hConsumed, ?_, ?_⟩
    · rw [hNext.order, hConsumed, hBehind, h.order, List.append_assoc]
    · rw [hNext.ring, ptrs_contents, hBehind, hContents]
  · intro s' hStep
    -- the bytes that were consumed come from the front
    obtain ⟨r', bs, hNext, hProduced, hConsumed, hFront⟩ := h.read hStep
    refine ⟨hProduced, bs, hConsumed, ?_⟩
    rw [hContents, hFront, hNext.ring, ptrs_contents]

/-- Whatever the order of the steps, each byte that the clock produced is consumed at most
once, in the order of production, and none is written over before. -/
theorem random_once {os : List RandomOp} {s : Random} (h : run Random.step .start os = some s) :
    s.Once := by
  obtain ⟨r, hInv⟩ := run_keeps (I := fun s => ∃ r, RandomInv s r)
    (fun _ _ _ hInv hStep => hInv.elim fun _ hInv => hInv.step hStep) ⟨_, random_start⟩ h
  exact hInv.once

/-- A reader sleeps until the clock has its byte, and takes it; a second call is given up. -/
theorem random_once_byte : ∃ s,
    run Random.step .start [.call 1, .read, .read, .count 3, .clock, .count 1, .clock, .count 2, .clock,
      .count 3, .clock, .wake, .read, .read, .read, .read, .read, .read, .call 1, .read, .read,
      .error] = some s ∧
    s.consumed = s.produced ∧ s.out.length = 1 ∧ s.Once := by
  have hRun : ∃ s, run Random.step .start [.call 1, .read, .read, .count 3, .clock, .count 1, .clock,
      .count 2, .clock, .count 3, .clock, .wake, .read, .read, .read, .read, .read, .read, .call 1,
      .read, .read, .error] = some s ∧ s.consumed = s.produced ∧ s.out.length = 1 := ⟨_, rfl, rfl, rfl⟩
  obtain ⟨s, hS, hSame, hOut⟩ := hRun
  exact ⟨s, hS, hSame, hOut, random_once hS⟩

end Glendum
