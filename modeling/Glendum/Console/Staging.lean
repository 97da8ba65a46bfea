import Glendum.Console.Keys
import Glendum.Lib.Trace

/-!
# Glendum — interrupts within a clock tick

`kbdputc` and `kbdcr2nl` hold a lock and run whole, but `kbdputcclock` takes none: an
interrupt may put bytes on the ring between any two of its steps. It works with a copy
of `kbd.iw`, and moves `kbd.ir` behind each buffer only after `echo` has come back.
Here the tick is cut at every place where it reads or moves a pointer, or is inside
`echo`, and the pointers are those of the source: nothing holds them inside `istage`,
and a store or a buffer outside it stops the run. They are never nil, so that `kbdputc`
does not come back early.

* `StageInv` — the ring behind the pointers, and what of it the tick has handed on;
* `StageInv.step` — kept by every step of the two sides;
* `producer_calls`, `clock_alone` — the calls of a producer, and a tick that nothing
  interrupts, are the operations of the whole console;
* `staging_fifo` — no byte is lost, repeated or overwritten in any order of the steps.
-/

namespace Glendum

open Machine Trace RingBuf

/-! ## The steps -/

/-- Where `kbdputcclock` stands; `iw` is its variable, `buf` the buffer in `echo`. -/
inductive ClockPc
  | idle
  /-- the pointers were found to differ -/
  | differ
  | copied (iw : Nat)
  /-- in `echo(kbd.ir, kbd.ie-kbd.ir)` -/
  | toEnd (iw : Nat) (buf : List Byte)
  /-- at the second test -/
  | flat (iw : Nat)
  /-- in `echo(kbd.ir, iw-kbd.ir)` -/
  | toCopy (iw : Nat) (buf : List Byte)

/-- The buffer that `echo` is looking at. -/
def ClockPc.buffer : ClockPc → Option (List Byte)
  | .toEnd _ buf | .toCopy _ buf => some buf
  | .idle | .differ | .copied _ | .flat _ => none

/-- `accepted` and `handed` are the bytes stored in the ring and those passed to `echo`
so far. -/
structure Staging where
  q        : RingPtrs Byte LINESIZE
  raw      : Bool
  pc       : ClockPc
  accepted : List Byte
  handed   : List Byte

inductive StageOp
  | kbdputc (r : Rune)
  | kbdcr2nl (c : Byte)
  /-- a write of `rawon` or `rawoff` -/
  | raw (on : Bool)
  /-- one step of `kbdputcclock`, called anew when it is idle -/
  | clock

/-- The bytes that a call has for the ring. -/
def StageOp.bytes (raw : Bool) : StageOp → List Byte
  | .kbdputc r => runetochar r
  | .kbdcr2nl c => [if c = ch '\r' ∧ raw = false then ch '\n' else c]
  | .raw _ | .clock => []

/-- The loop of a producer, which ends at the first byte that finds the ring full. -/
def Staging.puts (s : Staging) : List Byte → Option Staging
  | [] => some s
  | c :: cs =>
    if s.q.next = s.q.ir then some s
    else (s.q.store c).bind fun q => puts { s with q := q, accepted := s.accepted ++ [c] } cs

/-- The call `echo(kbd.ir, e-kbd.ir)`. -/
def Staging.echo (s : Staging) (e : Nat) (pc : List Byte → ClockPc) : Option Staging :=
  (s.q.load s.q.ir e).map fun buf => { s with pc := pc buf, handed := s.handed ++ buf }

def Staging.clock (s : Staging) : Option Staging :=
  match s.pc with
  -- `if(kbd.iw != kbd.ir)`
  | .idle => some (if s.q.iw = s.q.ir then s else { s with pc := .differ })
  -- `iw = kbd.iw`
  | .differ => some { s with pc := .copied s.q.iw }
  -- `if(iw < kbd.ir)`
  | .copied iw => if iw < s.q.ir then s.echo LINESIZE (.toEnd iw) else some { s with pc := .flat iw }
  -- `kbd.ir = kbd.istage`
  | .toEnd iw _ => some { s with q := { s.q with ir := 0 }, pc := .flat iw }
  -- `if(kbd.ir != iw)`
  | .flat iw => if s.q.ir = iw then some { s with pc := .idle } else s.echo iw (.toCopy iw)
  -- `kbd.ir = iw`
  | .toCopy iw _ => some { s with q := { s.q with ir := iw }, pc := .idle }

def Staging.step (s : Staging) : StageOp → Option Staging
  | .raw on => some { s with raw := on }
  | .clock => s.clock
  | .kbdputc r => s.puts ((StageOp.kbdputc r).bytes s.raw)
  | .kbdcr2nl c => s.puts ((StageOp.kbdcr2nl c).bytes s.raw)

/-- Before the first interrupt; both pointers are at the start of `istage`. -/
def Staging.start : Staging where
  q := ⟨.replicate LINESIZE 0, 0, 0⟩
  raw := false
  pc := .idle
  accepted := []
  handed := []

/-! ## The invariant -/

/-- The start of `istage`. -/
def istage0 : Fin LINESIZE := ⟨0, by decide⟩

/-- The reader may go on to the place `iw` and is still not behind the writer. -/
def Reaches (r : RingBuf Byte LINESIZE) (iw : Nat) (t : Fin LINESIZE) : Prop :=
  iw = t.val ∧ ahead r.ir t ≤ r.contents.length

/-- The bytes of the ring that lie between its reader and `e`. -/
structure Buffered (r : RingBuf Byte LINESIZE) (e : Nat) (buf : List Byte) : Prop where
  start  : r.ir.val ≤ e
  inside : e ≤ LINESIZE
  held   : e - r.ir.val ≤ r.contents.length
  bytes  : buf = r.contents.take (e - r.ir.val)

/-- What the tick knows of the ring, and what it has handed on of it beyond the bytes
that the reader has passed. -/
def ClockInv (r : RingBuf Byte LINESIZE) : ClockPc → List Byte → Prop
  | .idle, ahd | .differ, ahd => ahd = []
  | .copied iw, ahd => ahd = [] ∧ ∃ t, Reaches r iw t
  | .toEnd iw buf, ahd => ahd = buf ∧ Buffered r LINESIZE buf ∧ ∃ t, Reaches r iw t ∧ t < r.ir
  | .flat iw, ahd => ahd = [] ∧ ∃ t, Reaches r iw t ∧ r.ir ≤ t
  | .toCopy iw buf, ahd => ahd = buf ∧ Buffered r iw buf ∧ ∃ t, Reaches r iw t ∧ r.ir ≤ t

/-- `r` is the ring behind the pointers, and the reader has passed the bytes `passed`. -/
structure StageInv (s : Staging) (r : RingBuf Byte LINESIZE) (passed : List Byte) : Prop where
  ring     : s.q = r.ptrs
  accepted : s.accepted = passed ++ r.contents
  clock    : ∃ ahd, s.handed = passed ++ ahd ∧ ClockInv r s.pc ahd

section

variable {s : Staging} {r r' : RingBuf Byte LINESIZE} {passed ahd buf : List Byte} {pc : ClockPc}
  {iw e : Nat} {t : Fin LINESIZE}

theorem staging_start : StageInv .start ⟨.replicate LINESIZE 0, istage0, istage0⟩ [] where
  ring := rfl
  accepted := by simp [Staging.start, contents]
  clock := ⟨[], rfl, rfl⟩

theorem Reaches.grow (h : Reaches r iw t) (hIr : r'.ir = r.ir) (hMore : r.contents <+: r'.contents) :
    Reaches r' iw t := by
  refine ⟨h.1, ?_⟩
  rw [hIr]
  exact Nat.le_trans h.2 hMore.length_le

theorem Buffered.grow (h : Buffered r e buf) (hIr : r'.ir = r.ir)
    (hMore : r.contents <+: r'.contents) : Buffered r' e buf := by
  obtain ⟨more, hEq⟩ := hMore
  refine ⟨hIr ▸ h.start, h.inside, ?_, ?_⟩
  · have hHeld := h.held
    rw [hIr, ← hEq, List.length_append]
    omega
  · rw [h.bytes, hIr, ← hEq, List.take_append_of_le_length h.held]

/-- What the tick knows stays true while the producers put more bytes on the ring. -/
theorem ClockInv.grow (h : ClockInv r pc ahd) (hIr : r'.ir = r.ir)
    (hMore : r.contents <+: r'.contents) : ClockInv r' pc ahd := by
  cases pc with
  | idle => exact h
  | differ => exact h
  | copied iw =>
    obtain ⟨hAhd, t, hAt⟩ := h
    exact ⟨hAhd, t, hAt.grow hIr hMore⟩
  | toEnd iw buf =>
    obtain ⟨hAhd, hBuf, t, hAt, hLt⟩ := h
    exact ⟨hAhd, hBuf.grow hIr hMore, t, hAt.grow hIr hMore, by rwa [hIr]⟩
  | flat iw =>
    obtain ⟨hAhd, t, hAt, hLe⟩ := h
    exact ⟨hAhd, t, hAt.grow hIr hMore, by rwa [hIr]⟩
  | toCopy iw buf =>
    obtain ⟨hAhd, hBuf, t, hAt, hLe⟩ := h
    exact ⟨hAhd, hBuf.grow hIr hMore, t, hAt.grow hIr hMore, by rwa [hIr]⟩

/-- The buffer in `echo` is what the tick has handed on beyond the reader. -/
theorem ClockInv.buffered (h : ClockInv r pc ahd) (hBuf : pc.buffer = some buf) :
    ∃ e, ahd = buf ∧ Buffered r e buf := by
  cases pc with
  | idle => cases hBuf
  | differ => cases hBuf
  | copied iw => cases hBuf
  | toEnd iw b =>
    obtain rfl : b = buf := Option.some.inj hBuf
    exact ⟨_, h.1, h.2.1⟩
  | flat iw => cases hBuf
  | toCopy iw b =>
    obtain rfl : b = buf := Option.some.inj hBuf
    exact ⟨_, h.1, h.2.1⟩

theorem ClockInv.unbuffered (h : ClockInv r pc ahd) (hNone : pc.buffer = none) : ahd = [] := by
  cases pc with
  | idle => exact h
  | differ => exact h
  | copied iw => exact h.1
  | toEnd iw b => cases hNone
  | flat iw => exact h.1
  | toCopy iw b => cases hNone

/-- What was handed on beyond the reader is the start of the ring. -/
theorem ClockInv.ahead (h : ClockInv r pc ahd) : ahd <+: r.contents := by
  cases hBuf : pc.buffer with
  | none =>
    rw [h.unbuffered hBuf]
    exact List.nil_prefix
  | some buf =>
    obtain ⟨e, rfl, hIn⟩ := h.buffered hBuf
    rw [hIn.bytes]
    exact List.take_prefix _ _

/-! ## Producers -/

/-- A producer stores the first of its bytes, and all of them unless the ring is full then. -/
theorem StageInv.puts (h : StageInv s r passed) (cs : List Byte) :
    ∃ s' n, s.puts cs = some s' ∧ StageInv s' (cs.foldl put r) passed ∧ s'.raw = s.raw ∧
      s'.accepted = s.accepted ++ cs.take n ∧
      (n < cs.length → next (cs.foldl put r).iw = (cs.foldl put r).ir) := by
  -- on the bytes; each store moves the ring, and the tick's knowledge grows with it
  induction cs generalizing s r with
  | nil => exact ⟨s, 0, rfl, h, rfl, by simp, by simp⟩
  | cons c cs ih =>
    by_cases hFull : next r.iw = r.ir
    · -- the ring takes none of the bytes
      refine ⟨s, 0, ?_, ?_, rfl, by simp, fun _ => ?_⟩
      · rw [Staging.puts, h.ring, if_pos (ptrs_full.mpr hFull)]
      · rw [puts_full hFull]
        exact h
      · rw [puts_full hFull]
        exact hFull
    · have hPut : (r.put c).contents = r.contents ++ [c] := by rw [contents_put, if_neg hFull]
      have hNext : StageInv { s with q := (r.put c).ptrs, accepted := s.accepted ++ [c] } (r.put c) passed := by
        obtain ⟨ahd, hHanded, hClock⟩ := h.clock
        refine ⟨rfl, ?_, ahd, hHanded, hClock.grow (ir_put r c) (hPut ▸ List.prefix_append ..)⟩
        rw [h.accepted, hPut, List.append_assoc]
      obtain ⟨s', n, hRest, hInv, hRaw, hAccepted, hStop⟩ := ih hNext
      refine ⟨s', n + 1, ?_, hInv, hRaw, ?_, fun hn => hStop (Nat.lt_of_succ_lt_succ hn)⟩
      · rw [Staging.puts, h.ring, if_neg fun hEq => hFull (ptrs_full.mp hEq), ptrs_store hFull]
        exact hRest
      · rw [hAccepted, List.take_succ_cons, List.append_assoc]
        rfl

/-! ## The tick -/

/-- `echo` gets its buffer, the first bytes of the ring. -/
theorem StageInv.echo (h : StageInv s r passed) (f : List Byte → ClockPc) (hHanded : s.handed = passed)
    (hIr : r.ir.val ≤ e) (hEnd : e ≤ LINESIZE) (hLen : e - r.ir.val ≤ r.contents.length)
    (hClock : ∀ buf, Buffered r e buf → ClockInv r (f buf) buf) :
    ∃ s', s.echo e f = some s' ∧ StageInv s' r passed ∧ s'.raw = s.raw ∧ s'.accepted = s.accepted := by
  let buf := r.contents.take (e - r.ir.val)
  have hLoad : r.ptrs.load r.ptrs.ir e = some buf := ptrs_load hIr hEnd hLen
  have hBuf : Buffered r e buf := ⟨hIr, hEnd, hLen, rfl⟩
  refine ⟨{ s with pc := f buf, handed := s.handed ++ buf }, ?_, ?_, rfl, rfl⟩
  · rw [Staging.echo, h.ring, hLoad, Option.map_some, ← h.ring]
  · exact ⟨h.ring, h.accepted, buf, by rw [hHanded], hClock buf hBuf⟩

/-- `echo` has come back, and the reader goes on behind the buffer. -/
theorem StageInv.readTo (h : StageInv s r passed) (hHanded : s.handed = passed ++ buf)
    (hBuf : Buffered r e buf) (ht : ahead r.ir t = e - r.ir.val) (hClock : ClockInv (r.readTo t) pc []) :
    StageInv { s with q := { s.q with ir := t }, pc := pc } (r.readTo t) (passed ++ buf) where
  ring := by
    rw [h.ring]
    rfl
  accepted := by
    -- the buffer is what the reader leaves of the contents
    have hRest : (r.readTo t).contents = r.contents.drop (e - r.ir.val) := by
      rw [← ht]
      exact contents_readTo (ht ▸ hBuf.held)
    show s.accepted = _
    rw [h.accepted, hRest, hBuf.bytes, List.append_assoc, List.take_append_drop]
  clock := ⟨[], by rw [List.append_nil]; exact hHanded, hClock⟩

/-- Seen from the start of `istage`, the copy of `iw` is where it was. -/
theorem Reaches.turn (h : Reaches r iw t) (hLt : t < r.ir) : Reaches (r.readTo istage0) iw t := by
  obtain ⟨hEq, hLen⟩ := h
  have hStart : istage0 < r.ir := lt_of_le_of_lt (Fin.le_def.mpr (Nat.zero_le _)) hLt
  have hTo : ahead r.ir istage0 = LINESIZE - r.ir.val := ahead_of_lt hStart
  have hOn : ahead istage0 t = t.val := ahead_of_le (Fin.le_def.mpr (Nat.zero_le _))
  rw [ahead_of_lt hLt] at hLen
  refine ⟨hEq, ?_⟩
  rw [contents_readTo (by omega), List.length_drop, hTo]
  show ahead istage0 t ≤ _
  omega

/-- A step of the tick stores nothing, and what it hands on is the start of the ring. -/
theorem StageInv.clock_step (h : StageInv s r passed) :
    ∃ s' r' passed', s.clock = some s' ∧ StageInv s' r' passed' ∧ s'.raw = s.raw ∧
      s'.accepted = s.accepted := by
  obtain ⟨ahd, hHanded, hClock⟩ := h.clock
  unfold Staging.clock
  cases hPc : s.pc with
  | idle =>
    rw [hPc] at hClock
    simp only
    split
    · exact ⟨s, r, passed, rfl, h, rfl, rfl⟩
    · exact ⟨_, r, passed, rfl, ⟨h.ring, h.accepted, ahd, hHanded, hClock⟩, rfl, rfl⟩
  | differ =>
    rw [hPc] at hClock
    -- the copy is the writer's own place: the reader may go on through all of the ring
    refine ⟨_, r, passed, rfl, ⟨h.ring, h.accepted, ahd, hHanded, hClock, r.iw, ?_, ?_⟩, rfl, rfl⟩
    · rw [h.ring, ptrs_iw]
    · exact Nat.le_of_eq (length_contents_ahead r).symm
  | copied iw =>
    rw [hPc] at hClock
    obtain ⟨rfl, t, ⟨rfl, hLen⟩, hLt | hLe⟩ : ahd = [] ∧ ∃ t, Reaches r iw t ∧ (t < r.ir ∨ r.ir ≤ t) := by
      obtain ⟨hAhd, t, hAt⟩ := hClock
      exact ⟨hAhd, t, hAt, lt_or_ge t r.ir⟩
    · -- the copy is behind the reader, so the ring has bytes up to its end
      have hEnd : LINESIZE - r.ir.val ≤ r.contents.length := by
        rw [ahead_of_lt hLt] at hLen
        omega
      simp only
      rw [if_pos (show t.val < s.q.ir by rw [h.ring]; exact hLt)]
      obtain ⟨s', hEcho, hRest⟩ := h.echo (.toEnd t.val) (by rw [hHanded, List.append_nil])
        (Nat.le_of_lt r.ir.isLt) (Nat.le_refl _) hEnd
        fun buf hBuf => ⟨rfl, hBuf, t, ⟨rfl, hLen⟩, hLt⟩
      exact ⟨s', r, passed, hEcho, hRest⟩
    · -- nothing lies beyond the end of the array up to the copy
      simp only
      rw [if_neg (show ¬ t.val < s.q.ir by rw [h.ring]; exact not_lt.mpr hLe)]
      exact ⟨_, r, passed, rfl, ⟨h.ring, h.accepted, [], hHanded, rfl, t, ⟨rfl, hLen⟩, hLe⟩, rfl, rfl⟩
  | toEnd iw buf =>
    rw [hPc] at hClock
    obtain ⟨rfl, hBuf, t, hAt, hLt⟩ := hClock
    have hStart : istage0 < r.ir := lt_of_le_of_lt (Fin.le_def.mpr (Nat.zero_le _)) hLt
    have hClock' : ClockInv (r.readTo istage0) (.flat iw) [] :=
      ⟨rfl, t, hAt.turn hLt, Fin.le_def.mpr (Nat.zero_le _)⟩
    exact ⟨_, _, _, rfl, h.readTo hHanded hBuf (ahead_of_lt hStart) hClock', rfl, rfl⟩
  | flat iw =>
    rw [hPc] at hClock
    obtain ⟨rfl, t, ⟨rfl, hLen⟩, hLe⟩ := hClock
    simp only
    split
    · exact ⟨_, r, passed, rfl, ⟨h.ring, h.accepted, [], hHanded, rfl⟩, rfl, rfl⟩
    · have hCopy : t.val - r.ir.val ≤ r.contents.length := by rwa [← ahead_of_le hLe]
      obtain ⟨s', hEcho, hRest⟩ := h.echo (.toCopy t.val) (by rw [hHanded, List.append_nil])
        (Fin.le_def.mp hLe) (Nat.le_of_lt t.isLt) hCopy
        fun buf hBuf => ⟨rfl, hBuf, t, ⟨rfl, hLen⟩, hLe⟩
      exact ⟨s', r, passed, hEcho, hRest⟩
  | toCopy iw buf =>
    rw [hPc] at hClock
    obtain ⟨rfl, hBuf, t, ⟨rfl, hLen⟩, hLe⟩ := hClock
    exact ⟨_, _, _, rfl, h.readTo hHanded hBuf (ahead_of_le hLe) rfl, rfl, rfl⟩

/-! ## Runs -/

/-- One step of either side: it can happen, it keeps the invariant, and what it accepts is
the first of its bytes, all of them unless the ring is full. -/
theorem StageInv.step (h : StageInv s r passed) (o : StageOp) :
    ∃ s' r' passed' n, s.step o = some s' ∧ StageInv s' r' passed' ∧
      s'.accepted = s.accepted ++ (o.bytes s.raw).take n ∧
      (n < (o.bytes s.raw).length → next r'.iw = r'.ir) := by
  -- the two producers
  have hPuts : ∀ cs, ∃ s' r' passed' n, s.puts cs = some s' ∧ StageInv s' r' passed' ∧
      s'.accepted = s.accepted ++ cs.take n ∧ (n < cs.length → next r'.iw = r'.ir) := by
    intro cs
    obtain ⟨s', n, hMove, hInv, -, hAccepted, hFull⟩ := h.puts cs
    exact ⟨s', _, passed, n, hMove, hInv, hAccepted, hFull⟩
  cases o with
  | kbdputc c => exact hPuts _
  | kbdcr2nl c => exact hPuts _
  | raw on =>
    refine ⟨_, r, passed, 0, rfl, ⟨h.ring, h.accepted, h.clock⟩, ?_, ?_⟩
    · rw [List.take_zero, List.append_nil]
    · exact fun hn => absurd hn (Nat.not_lt_zero _)
  | clock =>
    obtain ⟨s', r', passed', hMove, hInv, -, hAccepted⟩ := h.clock_step
    refine ⟨s', r', passed', 0, hMove, hInv, ?_, ?_⟩
    · rw [List.take_zero, List.append_nil, hAccepted]
    · exact fun hn => absurd hn (Nat.not_lt_zero _)

end

/-! ## The console's operations -/

/-- Steps of the tick alone lead from one state to the other. -/
def Ticks (s t : Staging) : Prop := ∃ n, run Staging.step s (List.replicate n .clock) = some t

section

variable {s : Staging} {r : RingBuf Byte LINESIZE} {raw : Bool} {passed accepted handed : List Byte}

/-- The calls of a producer do to the pointers what they do to the ring of the console. -/
theorem producer_calls {c : Cons} (h : StageInv s c.kbd.istage passed) (hRaw : s.raw = c.kbd.raw) :
    (∀ r, ∃ s', s.step (.kbdputc r) = some s' ∧ StageInv s' (kbdputc c r).kbd.istage passed) ∧
      ∀ ch, ∃ s', s.step (.kbdcr2nl ch) = some s' ∧ StageInv s' (kbdcr2nl c ch).kbd.istage passed := by
  constructor
  · intro r
    obtain ⟨s', -, hMove, hInv, -⟩ := h.puts (runetochar r)
    have hRing : (kbdputc c r).kbd.istage = (runetochar r).foldl put c.kbd.istage := by
      have hOne := kbdputcs_eq [r] c
      rw [List.foldl_cons, List.foldl_nil, List.flatMap_singleton] at hOne
      rw [hOne]
    exact ⟨s', hMove, hRing ▸ hInv⟩
  · intro ch
    obtain ⟨s', -, hMove, hInv, -⟩ := h.puts ((StageOp.kbdcr2nl ch).bytes s.raw)
    refine ⟨s', hMove, ?_⟩
    rw [StageOp.bytes, hRaw] at hInv
    exact hInv

theorem Ticks.refl (s : Staging) : Ticks s s := ⟨0, rfl⟩

theorem Ticks.step {t u : Staging} (h : s.clock = some t) (hRest : Ticks t u) : Ticks s u := by
  obtain ⟨n, hRun⟩ := hRest
  refine ⟨n + 1, ?_⟩
  rw [List.replicate_succ, run, Staging.step, h, Option.bind_some, hRun]

/-- From the second test on, with no bytes beyond the end of `istage`. -/
theorem Ticks.flat (h : r.ir ≤ r.iw) :
    Ticks ⟨r.ptrs, raw, .flat r.iw, accepted, handed⟩
      ⟨r.drain.ptrs, raw, .idle, accepted, handed ++ r.contents⟩ := by
  by_cases hEmpty : r.iw = r.ir
  · refine Ticks.step (t := ⟨r.ptrs, raw, .idle, accepted, handed⟩) ?_ ?_
    · simp only [Staging.clock]
      rw [ptrs_ir, hEmpty, if_pos rfl]
    · rw [contents_eq_nil.mpr hEmpty, List.append_nil, drain_of_empty hEmpty]
      exact Ticks.refl _
  · have hNe : r.ptrs.ir ≠ r.iw.val := fun hEq => hEmpty (Fin.ext hEq.symm)
    have hLoad : r.ptrs.load r.ptrs.ir r.iw = some r.contents := by
      rw [contents_of_le h, RingPtrs.load, if_pos ⟨h, Nat.le_of_lt r.iw.isLt⟩]
      rfl
    refine Ticks.step (t := ⟨r.ptrs, raw, .toCopy r.iw r.contents, accepted, handed ++ r.contents⟩) ?_ ?_
    · simp only [Staging.clock]
      rw [if_neg hNe, Staging.echo, hLoad, Option.map_some]
    · exact Ticks.step rfl (Ticks.refl _)

/-- A tick without an interrupt in it hands on all of the ring. -/
theorem Ticks.whole (r : RingBuf Byte LINESIZE) :
    Ticks ⟨r.ptrs, raw, .idle, accepted, handed⟩
      ⟨r.drain.ptrs, raw, .idle, accepted, handed ++ r.contents⟩ := by
  by_cases hEmpty : r.iw = r.ir
  · rw [contents_eq_nil.mpr hEmpty, List.append_nil, drain_of_empty hEmpty]
    exact Ticks.refl _
  have hNe : r.ptrs.iw ≠ r.ptrs.ir := fun hEq => hEmpty (Fin.ext hEq)
  refine Ticks.step (t := ⟨r.ptrs, raw, .differ, accepted, handed⟩) ?_ ?_
  · simp only [Staging.clock]
    rw [if_neg hNe]
  refine Ticks.step (t := ⟨r.ptrs, raw, .copied r.iw, accepted, handed⟩) rfl ?_
  rcases lt_or_ge r.iw r.ir with hWrap | hOrder
  · -- the bytes up to the end first, then those of a ring read from its start
    have hLoad : r.ptrs.load r.ptrs.ir LINESIZE = some (seg r.buf r.ir LINESIZE) := by
      rw [RingPtrs.load, if_pos ⟨Nat.le_of_lt r.ir.isLt, Nat.le_refl _⟩]
      rfl
    have hRest : istage0 ≤ r.iw := Fin.le_def.mpr (Nat.zero_le _)
    have hContents : r.contents = seg r.buf r.ir LINESIZE ++ (r.readTo istage0).contents := by
      rw [contents_of_lt hWrap, contents_of_le (r := r.readTo istage0) hRest]
      rfl
    refine Ticks.step (t := ⟨r.ptrs, raw, .toEnd r.iw (seg r.buf r.ir LINESIZE), accepted,
      handed ++ seg r.buf r.ir LINESIZE⟩) ?_ (Ticks.step rfl ?_)
    · simp only [Staging.clock]
      rw [if_pos (show r.iw.val < r.ptrs.ir from hWrap), Staging.echo, hLoad, Option.map_some]
    · rw [hContents, ← List.append_assoc]
      exact Ticks.flat (r := r.readTo istage0) hRest
  · refine Ticks.step (t := ⟨r.ptrs, raw, .flat r.iw, accepted, handed⟩) ?_ (Ticks.flat hOrder)
    simp only [Staging.clock]
    rw [if_neg (show ¬ r.iw.val < r.ptrs.ir from not_lt.mpr hOrder)]

/-- Such a tick is `kbdputcclock` of the console, whose `echo` gets the bytes in the
pieces of the ring. -/
theorem clock_alone (cpuserver room room' : Bool) (c : Cons) (accepted handed : List Byte) :
    Ticks ⟨c.kbd.istage.ptrs, c.kbd.raw, .idle, accepted, handed⟩
      ⟨(kbdputcclock cpuserver room room' c).1.kbd.istage.ptrs, c.kbd.raw, .idle, accepted,
        handed ++ c.kbd.istage.pieces.flatten⟩ := by
  rw [(kbdputcclock_moves cpuserver room room' c).1, flatten_pieces]
  exact Ticks.whole c.kbd.istage

end

/-! ## No byte is lost -/

/-- Nothing is lost in the ring: `iw` and `ir` are inside `istage`; the bytes handed on are
the first ones accepted, in order; those that the reader has not passed, the unread ones among
them, are all still in the ring; `echo` still finds its buffer; and a call that does not get
all its bytes accepted leaves the ring full. -/
structure Staging.Lossless (s : Staging) : Prop where
  iw_inside : s.q.iw < LINESIZE
  ir_inside : s.q.ir < LINESIZE
  order     : s.handed <+: s.accepted
  kept      : ∃ passed, passed <+: s.handed ∧ s.accepted = passed ++ s.q.contents
  reading   : ∀ buf, s.pc.buffer = some buf → s.q.load s.q.ir (s.q.ir + buf.length) = some buf
  refused   : ∀ o, ∃ s' n, s.step o = some s' ∧ s'.accepted = s.accepted ++ (o.bytes s.raw).take n ∧
    (n < (o.bytes s.raw).length → s'.q.contents.length = LINESIZE - 1)

theorem StageInv.lossless {s : Staging} {r : RingBuf Byte LINESIZE} {passed : List Byte}
    (h : StageInv s r passed) : s.Lossless := by
  obtain ⟨ahd, hHanded, hClock⟩ := h.clock
  refine ⟨?_, ?_, ?_, ⟨passed, ?_, ?_⟩, ?_, ?_⟩
  · rw [h.ring]
    exact r.iw.isLt
  · rw [h.ring]
    exact r.ir.isLt
  · rw [hHanded, h.accepted]
    exact (List.prefix_append_right_inj passed).mpr hClock.ahead
  · rw [hHanded]
    exact List.prefix_append _ _
  · rw [h.accepted, h.ring, ptrs_contents]
  · intro buf hBuf
    -- the clock's copy ends where the bytes it has counted end
    obtain ⟨e, -, hIn⟩ := hClock.buffered hBuf
    have hLen : r.ir.val + buf.length = e := by
      have hStart := hIn.start
      rw [hIn.bytes, List.length_take, Nat.min_eq_left hIn.held]
      omega
    rw [h.ring, ptrs_ir, hLen, hIn.bytes]
    exact ptrs_load hIn.start hIn.inside hIn.held
  · intro o
    obtain ⟨s', r', passed', n, hMove, hInv, hAccepted, hFull⟩ := h.step o
    refine ⟨s', n, hMove, hAccepted, fun hn => ?_⟩
    rw [hInv.ring, ptrs_contents]
    exact length_contents_of_full (hFull hn)

/-- Every run from the start on can happen. -/
theorem staging_run {O : Type*} (f : O → StageOp) (os : List O) :
    ∃ s, run (fun s o => Staging.step s (f o)) .start os = some s ∧ ∃ r passed, StageInv s r passed := by
  refine run_defined (fun s o hInv => ?_) ⟨_, _, staging_start⟩ os
  obtain ⟨r, passed, h⟩ := hInv
  obtain ⟨s', r', passed', -, hMove, hNext, -⟩ := h.step (f o)
  exact ⟨s', hMove, r', passed', hNext⟩

/-- From the start on, whatever the order of the steps. -/
theorem staging_fifo (os : List StageOp) :
    ∃ s, run Staging.step .start os = some s ∧ s.Lossless := by
  obtain ⟨s, hRun, r, passed, h⟩ := staging_run id os
  exact ⟨s, hRun, h.lossless⟩

end Glendum
