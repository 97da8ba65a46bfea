import Glendum.Console.Kmesg

/-!
# Glendum — from the interrupt to the queue

Input bytes wait in the ring `kbd.istage`. At a clock tick `kbdputcclock` hands them to
`echo`, in one buffer or in two when the ring wraps. `echo` looks through a buffer for
`^P` and for the letters behind `^T ^T`; a command ends the whole call. Otherwise the
buffer is queued and, when the console is not raw, logged.

Whether `qproduce` takes the bytes or drops them, because the queue is full, is an
argument here (`room`). `echo` also answers the bytes that it passed to `qproduce`.

The ways on which `echo` shows a buffer (`screenputs`, `serialoq`) and the commands
themselves are left out; `exit` marks the kernel as exiting and comes back, the `reset`
of the generic architecture being empty.
-/

namespace Glendum

open Machine

/-! ## Staging -/

def Cons.stage (s : Cons) (ch : Byte) : Cons :=
  { s with kbd := { s.kbd with istage := s.kbd.istage.put ch } }

/-- Called by a uart interrupt: `\r` is turned into `\n`. -/
def kbdcr2nl (s : Cons) (c : Byte) : Cons :=
  s.stage (if c = ch '\r' ∧ s.kbd.raw = false then ch '\n' else c)

/-! ## Echo -/

def CtrlP : Byte := 0x10
def CtrlT : Byte := 0x14

/-- `ctrlt++`, at most 2. -/
def bump (ctrlt : Nat) : Nat := if 2 < ctrlt + 1 then 2 else ctrlt + 1

/-- The letters that `echo` obeys behind `^T ^T`. -/
def isCommand (c : Byte) : Bool := (ascii "SsxdDpqkr").contains c

/-- How the look through a buffer ends. -/
inductive ScanEnd
  | through
  | exiting
  | command (c : Byte)
deriving DecidableEq

/-- The loop of `echo`, with the counter `ctrlt`. `stop` is `cpuserver && !kbd.ctlpoff`. -/
def scan (stop : Bool) (ctrlt : Nat) : List Byte → Nat × ScanEnd
  | [] => (ctrlt, .through)
  | c :: buf =>
    if c = CtrlP ∧ stop then (ctrlt, .exiting)
    else if c = CtrlT then scan stop (bump ctrlt) buf
    -- one `^T` is remembered over any bytes between
    else if ctrlt ≠ 2 then scan stop ctrlt buf
    else if isCommand c then (0, .command c)
    else scan stop 0 buf

def echo (cpuserver room : Bool) (s : Cons) (buf : List Byte) : Cons × List Byte :=
  if buf = [] then (s, [])
  else
    let r := scan (cpuserver && !s.kbd.ctlpoff) s.ctrlt buf
    let s := { s with ctrlt := r.1 }
    match r.2 with
    | .exiting => ({ s with exiting := true }, [])
    | .command c => ({ s with exiting := s.exiting || c = ch 'r' }, [])
    | .through =>
      let s := { s with kbdq := if room then s.kbdq ++ buf else s.kbdq }
      if s.kbd.raw then (s, buf) else ({ s with kmesg := kmesgputs s.kmesg buf }, buf)

/-- `room` and `room'` are for the first and the second buffer. -/
def kbdputcclock (cpuserver room room' : Bool) (s : Cons) : Cons × List Byte :=
  let q := s.kbd.istage
  let emptied (s : Cons) : Cons := { s with kbd := { s.kbd with istage := q.drain } }
  if q.iw = q.ir then (s, [])
  else if q.iw < q.ir then
    -- the bytes up to the end of the ring, then those from its start
    let r := echo cpuserver room s (RingBuf.seg q.buf q.ir LINESIZE)
    if q.iw.val = 0 then (emptied r.1, r.2)
    else
      let r' := echo cpuserver room' r.1 (RingBuf.seg q.buf 0 q.iw)
      (emptied r'.1, r.2 ++ r'.2)
  else
    let r := echo cpuserver room s (RingBuf.seg q.buf q.ir q.iw)
    (emptied r.1, r.2)

/-! ## What a call does to its buffer -/

/-- The counter behind a buffer, and what of the buffer is passed on; without
`cpuserver` these depend on the counter alone. -/
def passBuf (ctrlt : Nat) (buf : List Byte) : Nat × List Byte :=
  ((scan false ctrlt buf).1, if (scan false ctrlt buf).2 = .through then buf else [])

/-- The same for buffers one behind the other. -/
def passes (ctrlt : Nat) : List (List Byte) → Nat × List Byte
  | [] => (ctrlt, [])
  | buf :: bufs =>
    ((passes (passBuf ctrlt buf).1 bufs).1,
      (passBuf ctrlt buf).2 ++ (passes (passBuf ctrlt buf).1 bufs).2)

section

variable {room room' : Bool} {s : Cons} {buf : List Byte}

/-- `echo` does not touch the keyboard's record. -/
theorem echo_kbd (cpuserver : Bool) :
    (echo cpuserver room s buf).1.kbd = s.kbd := by
  unfold echo
  split
  · rfl
  · simp only
    split
    · rfl
    · rfl
    · split
      · rfl
      · rfl

theorem echo_eq_passBuf (room : Bool) (s : Cons) (buf : List Byte) :
    ((echo false room s buf).1.ctrlt, (echo false room s buf).2) = passBuf s.ctrlt buf := by
  unfold echo passBuf
  by_cases hNil : buf = []
  · simp [hNil, scan]
  · simp only [if_neg hNil, Bool.false_and]
    cases hEnd : (scan false s.ctrlt buf).2 with
    | exiting => simp
    | command c => simp
    | through => by_cases hRaw : s.kbd.raw = true <;> simp [hRaw]

theorem passes_append (ctrlt : Nat) (bufs bufs' : List (List Byte)) :
    passes ctrlt (bufs ++ bufs') =
      ((passes (passes ctrlt bufs).1 bufs').1,
        (passes ctrlt bufs).2 ++ (passes (passes ctrlt bufs).1 bufs').2) := by
  induction bufs generalizing ctrlt with
  | nil => rfl
  | cons buf bufs ih =>
    rw [List.cons_append, passes, passes, ih, List.append_assoc]

/-- Calls of `echo`, each with the answer of `qproduce`. -/
def echoes (cpuserver : Bool) : Cons → List (Bool × List Byte) → Cons × List Byte
  | s, [] => (s, [])
  | s, (room, buf) :: calls =>
    let r := echo cpuserver room s buf
    let r' := echoes cpuserver r.1 calls
    (r'.1, r.2 ++ r'.2)

theorem echoes_kbd (cpuserver : Bool) (calls : List (Bool × List Byte)) (s : Cons) :
    (echoes cpuserver s calls).1.kbd = s.kbd := by
  induction calls generalizing s with
  | nil => rfl
  | cons call calls ih => rw [echoes, ih, echo_kbd]

theorem echoes_eq_passes (calls : List (Bool × List Byte)) (s : Cons) :
    ((echoes false s calls).1.ctrlt, (echoes false s calls).2) =
      passes s.ctrlt (calls.map Prod.snd) := by
  induction calls generalizing s with
  | nil => rfl
  | cons call calls ih =>
    -- the next call starts from the counter that this one has left
    have hFirst := echo_eq_passBuf call.1 s call.2
    have hRest := ih (echo false call.1 s call.2).1
    simp only [Prod.ext_iff] at hFirst hRest
    rw [List.map_cons, passes, echoes, ← hFirst.1, ← hFirst.2, ← hRest.1, ← hRest.2]

/-- A tick empties the ring, and `echo` gets its pieces. -/
theorem kbdputcclock_echoes (cpuserver room room' : Bool) (s : Cons) :
    kbdputcclock cpuserver room room' s =
      let r := echoes cpuserver s ([room, room'].zip s.kbd.istage.pieces)
      ({ r.1 with kbd := { r.1.kbd with istage := s.kbd.istage.drain } }, r.2) := by
  unfold kbdputcclock RingBuf.pieces
  by_cases hEmpty : s.kbd.istage.iw = s.kbd.istage.ir
  · rw [RingBuf.drain_of_empty hEmpty]
    simp only [if_pos hEmpty]
    rfl
  simp only [if_neg hEmpty]
  by_cases hWrap : s.kbd.istage.iw < s.kbd.istage.ir
  · simp only [if_pos hWrap]
    by_cases hZero : s.kbd.istage.iw.val = 0
    · simp [hZero, echoes]
    · simp [hZero, echoes]
  · simp [hWrap, echoes]

theorem kbdputcclock_eq (room room' : Bool) (s : Cons) :
    (kbdputcclock false room room' s).1.kbd.istage = s.kbd.istage.drain ∧
      ((kbdputcclock false room room' s).1.ctrlt, (kbdputcclock false room room' s).2) =
        passes s.ctrlt s.kbd.istage.pieces := by
  rw [kbdputcclock_echoes]
  refine ⟨rfl, ?_⟩
  have hPieces : ([room, room'].zip s.kbd.istage.pieces).map Prod.snd = s.kbd.istage.pieces :=
    List.map_snd_zip (RingBuf.length_pieces _)
  have hCalls := echoes_eq_passes ([room, room'].zip s.kbd.istage.pieces) s
  rwa [hPieces] at hCalls

end

end Glendum
