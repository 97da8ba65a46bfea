import Glendum.Console.Types
import Glendum.Lib.Trace

/-!
# Glendum — the cooked line discipline

The `Qcons` case of `consread`. While nothing waits in `lineq`, the loop takes a byte
from `kbdq` and edits `kbd.line` with it; a line that is complete goes to `lineq` as
one block. The call then returns the front of the first block. A whole call holds
`kbd`'s lock, so calls do not overlap.

The purpose of the loop is `edit`: pending bytes, and the bytes that a key commits.

* `consturn_edit` — one pass of the loop is `edit`, and stores inside the line;
* `consread_exact` — the bytes that reads return are the committed text.
-/

namespace Glendum

open Machine Trace

/-! ## `consread` -/

/-- `'\b'` and `'\n'`. -/
def Backspace : Byte := 0x08
def Newline : Byte := 0x0a
def CtrlU : Byte := 0x15
def CtrlD : Byte := 0x04

/-- `kbd.line[kbd.x++] = ch`; `none` when that is outside the line. -/
def Kbd.store (k : Kbd) (ch : Byte) : Option Kbd :=
  if h : k.x < LINESIZE then some { k with line := k.line.set k.x ch h, x := k.x + 1 } else none

/-- What `ch` does to the line, and `send`. `more` is `qcanread(kbdq)`. -/
def Kbd.key (k : Kbd) (more : Bool) (ch : Byte) : Option (Kbd × Bool) :=
  if ch = 0 then
    -- flush output on rawoff -> rawon
    some (k, decide (0 < k.x) && !more)
  else if k.raw then (k.store ch).map fun k => (k, !more)
  else if ch = Backspace then some (if 0 < k.x then { k with x := k.x - 1 } else k, false)
  else if ch = CtrlU then some ({ k with x := 0 }, false)
  else
    let send := decide (ch = Newline ∨ ch = CtrlD)
    if ch ≠ CtrlD then (k.store ch).map fun k => (k, send) else some (k, send)

/-- The pending bytes. -/
def Kbd.pending (k : Kbd) : List Byte := k.line.toList.take k.x

/-- One pass of the loop, `ch` being taken from `kbdq`. -/
def consturn (s : Cons) (ch : Byte) : Option Cons :=
  (s.kbd.key (!s.kbdq.isEmpty) ch).map fun r =>
    if r.2 = true ∨ r.1.x = LINESIZE then
      { s with kbd := { r.1 with x := 0 }, lineq := s.lineq ++ [r.1.pending] }
    else { s with kbd := r.1 }

/-- `qread(lineq, buf, n)` on a queue that is not empty: the front of the first block;
the rest of it is put back. -/
def qreadLine (n : Nat) : List (List Byte) → Option (List Byte × List (List Byte))
  | [] => none
  | b :: q => some (b.take n, if b.length ≤ n then q else b.drop n :: q)

/-! ## The purpose -/

/-- What a byte makes of the pending ones, and what it commits. -/
def edit (pending : List Byte) (c : Byte) : List Byte × List Byte :=
  if c = Backspace then (pending.dropLast, [])
  else if c = CtrlU then ([], [])
  else
    let pending := if c = CtrlD then pending else pending ++ [c]
    if c = Newline ∨ c = CtrlD ∨ pending.length = LINESIZE then ([], pending) else (pending, [])

def edits (pending : List Byte) : List Byte → List Byte × List Byte
  | [] => (pending, [])
  | c :: s => ((edits (edit pending c).1 s).1, (edit pending c).2 ++ (edits (edit pending c).1 s).2)

/-- The committed text of a stream. -/
def committed (s : List Byte) : List Byte := (edits [] s).2

theorem edits_append (pending s s' : List Byte) :
    edits pending (s ++ s') =
      ((edits (edits pending s).1 s').1, (edits pending s).2 ++ (edits (edits pending s).1 s').2) := by
  induction s generalizing pending with
  | nil => rfl
  | cons c s ih => rw [List.cons_append, edits, edits, ih, List.append_assoc]

/-! ## One pass -/

section

variable {k : Kbd} {s : Cons} {ch : Byte}

theorem Kbd.length_pending (h : k.x ≤ LINESIZE) : k.pending.length = k.x := by
  rw [pending, List.length_take, Vector.length_toList]
  exact Nat.min_eq_left h

theorem Kbd.store_eq (h : k.x < LINESIZE) (ch : Byte) : ∃ k', k.store ch = some k' ∧
    k'.x = k.x + 1 ∧ k'.pending = k.pending ++ [ch] ∧ k'.raw = k.raw := by
  refine ⟨{ k with line := k.line.set k.x ch h, x := k.x + 1 }, by rw [store, dif_pos h], rfl, ?_, rfl⟩
  have hLen : k.x < (k.line.toList.set k.x ch).length := by simpa using h
  simp only [pending, Vector.toList_set]
  rw [List.take_add_one, List.getElem?_eq_getElem hLen, List.getElem_set_self, Option.toList_some,
    List.take_set_of_le (Nat.le_refl _)]

theorem Kbd.pending_backspace (h : k.x < LINESIZE) :
    ({ k with x := k.x - 1 } : Kbd).pending = k.pending.dropLast := by
  simp only [pending]
  rw [List.dropLast_take]
  simpa using h

/-- One pass on a byte other than NUL edits the line as it should, inside the line. -/
theorem consturn_edit (hRaw : s.kbd.raw = false) (hFits : s.kbd.x < LINESIZE) (hCh : ch ≠ 0) :
    ∃ s', consturn s ch = some s' ∧ s'.kbd.raw = false ∧ s'.kbd.x < LINESIZE ∧
      s'.kbdq = s.kbdq ∧ s'.kbd.pending = (edit s.kbd.pending ch).1 ∧
      s'.lineq.flatten = s.lineq.flatten ++ (edit s.kbd.pending ch).2 := by
  have hPending := Kbd.length_pending (Nat.le_of_lt hFits)
  unfold consturn Kbd.key edit
  rw [if_neg hCh, if_neg (by simp [hRaw])]
  by_cases hBack : ch = Backspace
  · simp only [if_pos hBack, Option.map_some, Bool.false_eq_true, false_or, List.append_nil]
    by_cases hSome : 0 < s.kbd.x
    · simp only [if_pos hSome]
      rw [if_neg (by omega)]
      exact ⟨_, rfl, hRaw, by simp only; omega, rfl, Kbd.pending_backspace hFits, rfl⟩
    · -- there is nothing to take back
      simp only [if_neg hSome]
      rw [if_neg (by omega)]
      refine ⟨_, rfl, hRaw, hFits, rfl, ?_, rfl⟩
      have hNil : s.kbd.pending = [] := List.length_eq_zero_iff.mp (by omega)
      rw [hNil]
      rfl
  simp only [if_neg hBack]
  by_cases hKill : ch = CtrlU
  · simp only [if_pos hKill, Option.map_some, Bool.false_eq_true, false_or, List.append_nil]
    rw [if_neg (by decide)]
    exact ⟨_, rfl, hRaw, by simp only; unfold LINESIZE; omega, rfl, rfl, rfl⟩
  simp only [if_neg hKill]
  by_cases hEof : ch = CtrlD
  · -- committed without being stored
    simp only [hEof, ne_eq, not_true, if_false, or_true, true_or, decide_true, Option.map_some,
      if_true]
    refine ⟨_, rfl, hRaw, by simp only; unfold LINESIZE; omega, rfl, rfl, ?_⟩
    simp
  simp only [ne_eq, hEof, not_false_iff, if_true, or_false, if_false, false_or]
  obtain ⟨k', hStore, hX, hAdd, hRaw'⟩ := Kbd.store_eq hFits ch
  -- the line is full when the pending text is
  have hRoom : k'.x = LINESIZE ↔ (s.kbd.pending ++ [ch]).length = LINESIZE := by
    rw [List.length_append, hPending, List.length_singleton, hX]
  rw [hStore]
  simp only [Option.map_some, decide_eq_true_eq]
  by_cases hSend : ch = Newline ∨ (s.kbd.pending ++ [ch]).length = LINESIZE
  · rw [if_pos (by rwa [hRoom]), if_pos hSend]
    refine ⟨_, rfl, hRaw'.trans hRaw, by simp only; unfold LINESIZE; omega, rfl, rfl, ?_⟩
    simp [hAdd]
  · rw [if_neg (by rwa [hRoom]), if_neg hSend]
    refine ⟨_, rfl, hRaw'.trans hRaw, ?_, rfl, hAdd, (List.append_nil _).symm⟩
    have hShort : k'.x ≠ LINESIZE := fun h => hSend (Or.inr (hRoom.mp h))
    simp only
    omega

end

/-! ## Reads in any order -/

/-- The console and its readers. `call` is the count of the read that goes on, `wild`
tells of a store outside the line; `inp` are the bytes that arrived in `kbdq` and
`out` the ones that reads returned. -/
structure Reader where
  cons : Cons
  call : Option Nat := none
  wild : Bool := false
  inp  : List Byte := []
  out  : List Byte := []

inductive ReadOp
  /-- a byte other than NUL arrives in `kbdq` -/
  | arrive (c : Byte)
  /-- a read of any count -/
  | call (n : Int)
  /-- one pass of the loop -/
  | turn
  /-- the loop has ended, and the read returns -/
  | done
  /-- the reader is interrupted while it waits -/
  | interrupt

def Reader.step (r : Reader) : ReadOp → Option Reader
  | .arrive c =>
    if c = 0 then none
    else some { r with cons := { r.cons with kbdq := r.cons.kbdq ++ [c] }, inp := r.inp ++ [c] }
  | .call n =>
    if r.call.isSome then none
    -- a count that is not positive is returned at once
    else if n ≤ 0 then some r
    else some { r with call := some n.toNat }
  | .turn =>
    if r.call.isNone ∨ r.cons.lineq ≠ [] then none
    else
      match r.cons.kbdq with
      | [] => none
      | c :: q =>
        match consturn { r.cons with kbdq := q } c with
        | none => some { r with wild := true }
        | some cons => some { r with cons := cons }
  | .done =>
    match r.call, qreadLine (r.call.getD 0) r.cons.lineq with
    | some _, some (bs, q) =>
      some { r with cons := { r.cons with lineq := q }, call := none, out := r.out ++ bs }
    | _, _ => none
  | .interrupt => if r.call.isSome then some { r with call := none } else none

/-- A read goes on, and can neither take a byte nor return. -/
def Reader.Waiting (r : Reader) : Prop :=
  r.call.isSome = true ∧ r.step .turn = none ∧ r.step .done = none

/-- A cooked console in which no input waits. -/
structure Cons.Idle (s : Cons) : Prop where
  raw   : s.kbd.raw = false
  x     : s.kbd.x = 0
  kbdq  : s.kbdq = []
  lineq : s.lineq = []

/-- The text of the bytes that were taken from `kbdq` is in the line, in `lineq` and
with the readers. -/
structure ReaderInv (r : Reader) : Prop where
  tame  : r.wild = false
  clean : (0 : Byte) ∉ r.cons.kbdq
  raw   : r.cons.kbd.raw = false
  fits  : r.cons.kbd.x < LINESIZE
  text  : ∃ taken, r.inp = taken ++ r.cons.kbdq ∧
    edits [] taken = (r.cons.kbd.pending, r.out ++ r.cons.lineq.flatten)

section

variable {r r' : Reader} {n : Nat} {bs : List Byte} {q q' : List (List Byte)}

/-- A read of a queue takes bytes from its front. -/
theorem qreadLine_flatten (h : qreadLine n q = some (bs, q')) : bs ++ q'.flatten = q.flatten := by
  cases q with
  | nil => cases h
  | cons b q =>
    simp only [qreadLine, Option.some.injEq, Prod.mk.injEq] at h
    obtain ⟨rfl, rfl⟩ := h
    by_cases hAll : b.length ≤ n
    · rw [if_pos hAll, List.take_of_length_le hAll, List.flatten_cons]
    · rw [if_neg hAll, List.flatten_cons, List.flatten_cons, ← List.append_assoc,
        List.take_append_drop]

theorem readerInv_start {cons : Cons} (h : cons.Idle) : ReaderInv { cons := cons } where
  tame := rfl
  clean := by simp [h.kbdq]
  raw := h.raw
  fits := by
    rw [h.x]
    decide
  text := by
    refine ⟨[], ?_, ?_⟩
    · rw [h.kbdq]
      rfl
    · rw [h.lineq, Kbd.pending, h.x]
      rfl

theorem ReaderInv.turn (h : ReaderInv r) (hStep : r.step .turn = some r') : ReaderInv r' := by
  obtain ⟨taken, hInp, hText⟩ := h.text
  simp only [Reader.step, Option.ite_none_left_eq_some] at hStep
  obtain ⟨-, hStep⟩ := hStep
  have hClean := h.clean
  cases hKbdq : r.cons.kbdq with
  | nil => simp [hKbdq] at hStep
  | cons c q =>
    rw [hKbdq] at hStep hInp hClean
    rw [List.mem_cons, not_or] at hClean
    obtain ⟨s', hTurn, hRaw, hFits, hQueue, hPending, hLineq⟩ :=
      consturn_edit (s := { r.cons with kbdq := q }) h.raw h.fits (Ne.symm hClean.1)
    simp only [hTurn, Option.some.injEq] at hStep
    subst hStep
    -- the byte goes from the queue to the ones that were taken
    refine ⟨h.tame, ?_, hRaw, hFits, taken ++ [c], ?_, ?_⟩
    · rw [hQueue]
      exact hClean.2
    · rw [hInp, hQueue, List.append_assoc]
      rfl
    · rw [edits_append, hText, edits, edits, List.append_nil, List.append_assoc]
      exact Prod.ext hPending.symm (congrArg (r.out ++ ·) hLineq.symm)

theorem ReaderInv.step {o : ReadOp} (h : ReaderInv r) (hStep : r.step o = some r') :
    ReaderInv r' := by
  obtain ⟨taken, hInp, hText⟩ := h.text
  cases o with
  | arrive c =>
    simp only [Reader.step, Option.ite_none_left_eq_some, Option.some.injEq] at hStep
    obtain ⟨hCh, rfl⟩ := hStep
    refine ⟨h.tame, ?_, h.raw, h.fits, taken, ?_, hText⟩
    · simp only [List.mem_append, List.mem_singleton, not_or]
      exact ⟨h.clean, Ne.symm hCh⟩
    · simp only [hInp, List.append_assoc]
  | call n =>
    simp only [Reader.step, Option.ite_none_left_eq_some] at hStep
    obtain ⟨-, hStep⟩ := hStep
    by_cases hZero : n ≤ 0
    · rw [if_pos hZero] at hStep
      obtain rfl := Option.some.inj hStep
      exact h
    · rw [if_neg hZero] at hStep
      obtain rfl := Option.some.inj hStep
      exact ⟨h.tame, h.clean, h.raw, h.fits, taken, hInp, hText⟩
  | turn => exact h.turn hStep
  | done =>
    simp only [Reader.step] at hStep
    cases hCall : r.call with
    | none => simp [hCall] at hStep
    | some n =>
      cases hRead : qreadLine n r.cons.lineq with
      | none => simp [hCall, hRead] at hStep
      | some b =>
        simp only [hCall, Option.getD_some, hRead, Option.some.injEq] at hStep
        subst hStep
        -- what the read returns leaves `lineq` at its front
        refine ⟨h.tame, h.clean, h.raw, h.fits, taken, hInp, ?_⟩
        rw [List.append_assoc, qreadLine_flatten hRead]
        exact hText
  | interrupt =>
    simp only [Reader.step, Option.ite_none_right_eq_some, Option.some.injEq] at hStep
    obtain ⟨-, rfl⟩ := hStep
    exact ⟨h.tame, h.clean, h.raw, h.fits, taken, hInp, hText⟩

/-- A read waits only for input. -/
theorem Reader.Waiting.empty (h : r.Waiting) : r.cons.kbdq = [] ∧ r.cons.lineq = [] := by
  obtain ⟨hCall, hTurn, hDone⟩ := h
  obtain ⟨n, hN⟩ := Option.isSome_iff_exists.mp hCall
  have hLineq : r.cons.lineq = [] := by
    cases hLineq : r.cons.lineq with
    | nil => rfl
    | cons b q => simp [Reader.step, hN, hLineq, qreadLine] at hDone
  refine ⟨?_, hLineq⟩
  cases hKbdq : r.cons.kbdq with
  | nil => rfl
  | cons c q =>
    -- there is a byte to take
    simp only [Reader.step, hN, hLineq, hKbdq, Option.isNone_some, Bool.false_eq_true, ne_eq,
      not_true, or_self, if_false] at hTurn
    split at hTurn <;> cases hTurn

end

/-- Whatever arrives and however it is read: no store falls outside the line, the reads
return the committed text from its beginning on, and a read waits only when they have
returned all of it. -/
theorem consread_exact {cons : Cons} {os : List ReadOp} {r : Reader} (hIdle : cons.Idle)
    (h : run Reader.step { cons := cons } os = some r) :
    r.wild = false ∧ r.cons.kbd.x ≤ LINESIZE ∧ r.out <+: committed r.inp ∧
      (r.Waiting → r.out = committed r.inp) := by
  have hInv := run_keeps (I := ReaderInv) (fun _ _ _ hInv hStep => hInv.step hStep)
    (readerInv_start hIdle) h
  obtain ⟨taken, hInp, hText⟩ := hInv.text
  -- behind what was returned comes what waits in `lineq`, then what `kbdq` commits
  have hCommitted : committed r.inp = r.out ++ r.cons.lineq.flatten ++
      (edits r.cons.kbd.pending r.cons.kbdq).2 := by
    rw [committed, hInp, edits_append, hText]
  refine ⟨hInv.tame, Nat.le_of_lt hInv.fits, ?_, ?_⟩
  · rw [hCommitted, List.append_assoc]
    exact List.prefix_append ..
  · intro hWait
    obtain ⟨hKbdq, hLineq⟩ := hWait.empty
    rw [hCommitted, hKbdq, hLineq]
    simp [edits]

/-- A line with a key taken back, read in two parts, and a third read that waits. -/
theorem consread_exact_line : ∃ r : Reader,
    run Reader.step { cons := {} } [.arrive (ch 'a'), .arrive (ch 'x'), .call 1, .turn, .turn,
      .arrive Backspace, .turn, .arrive Newline, .turn, .done, .call 9, .done, .call 9] = some r ∧
    r.out = [ch 'a', Newline] ∧ r.out = committed r.inp := by
  have hRun : ∃ r : Reader, run Reader.step { cons := {} } [.arrive (ch 'a'), .arrive (ch 'x'),
      .call 1, .turn, .turn, .arrive Backspace, .turn, .arrive Newline, .turn, .done, .call 9,
      .done, .call 9] = some r ∧ r.out = [ch 'a', Newline] ∧ r.Waiting :=
    ⟨_, rfl, rfl, rfl, rfl, rfl⟩
  obtain ⟨r, hR, hOut, hWait⟩ := hRun
  have hIdle : Cons.Idle {} := ⟨rfl, rfl, rfl, rfl⟩
  have hExact := consread_exact hIdle hR
  exact ⟨r, hR, hOut, hExact.2.2.2 hWait⟩

end Glendum
