import Glendum.Console.Cooked
import Glendum.Console.Runes

/-!
# Glendum — runes in the line

Runes come to `consread` as bytes, and the line is edited byte by byte: an erase takes
one byte back, whatever rune it is of, and a line that is full is sent off in the middle
of a rune if that is where it is full.

* `edits_plain` — the bytes of a rune are put in the line, up to where it is full;
* `erase_whole` — when an erase takes the last rune back, and not a part of it;
* `ReaderInv.drains` — reads that go on get all that was committed;
* `line_editing_exact` — the streams of which reads deliver UTF-8.
-/

namespace Glendum

open Machine Trace Codes

/-! ## Runes that are typed -/

/-- The stream of some runes. -/
def utf (ks : List Rune) : List Byte := ks.flatMap runetochar

/-- The pending line, and the text that was committed so far. -/
structure Typed where
  pending : List Byte := []
  text    : List Byte := []

/-- What the bytes of a rune do. -/
def Typed.step (t : Typed) (r : Rune) : Option Typed :=
  some ⟨(edits t.pending (runetochar r)).1, t.text ++ (edits t.pending (runetochar r)).2⟩

/-- The committed text consists of whole runes, and so does the pending line. -/
structure Typed.Utf (t : Typed) : Prop where
  text    : Spelled runetochar t.text
  pending : Spelled runetochar t.pending

/-- The key does not cut a rune: an erase finds nothing or a rune of one byte at the end of
the line, and any other rune has room in the line. -/
def KeyWhole (t : Typed) (r : Rune) : Prop :=
  if runetochar r = [Backspace] then ∀ b ∈ t.pending.getLast?, b.toNat < 0x80
  else t.pending.length + (runetochar r).length ≤ LINESIZE

instance (t : Typed) (r : Rune) : Decidable (KeyWhole t r) :=
  inferInstanceAs (Decidable (if runetochar r = [Backspace] then _ else _))

/-- The line is not full between two keys. -/
structure TypedInv (t : Typed) : Prop where
  fits : t.pending.length < LINESIZE
  utf  : t.Utf

/-- The state after all of a stream. -/
theorem typed_run (t : Typed) (ks : List Rune) : run Typed.step t ks =
    some ⟨(edits t.pending (utf ks)).1, t.text ++ (edits t.pending (utf ks)).2⟩ := by
  induction ks generalizing t with
  | nil => simp [run, utf, edits]
  | cons r ks ih =>
    rw [run, Typed.step, Option.bind_some, ih, utf, utf, List.flatMap_cons, edits_append,
      List.append_assoc]

/-! ## Bytes of a rune -/

/-- A byte that the line discipline only stores. -/
structure Plain (b : Byte) : Prop where
  backspace : b ≠ Backspace
  kill      : b ≠ CtrlU
  eof       : b ≠ CtrlD
  newline   : b ≠ Newline

section

variable {r : Rune} {b : Byte} {p cs : List Byte}

theorem edit_plain (h : Plain b) : edit p b =
    if (p ++ [b]).length = LINESIZE then ([], p ++ [b]) else (p ++ [b], []) := by
  simp only [edit, if_neg h.backspace, if_neg h.kill, h.newline, h.eof, if_false, false_or]

theorem edits_short (hPlain : ∀ b ∈ cs, Plain b) (hFits : p.length + cs.length < LINESIZE) :
    edits p cs = (p ++ cs, []) := by
  induction cs generalizing p with
  | nil => rw [edits, List.append_nil]
  | cons c cs ih =>
    rw [List.length_cons] at hFits
    have hRoom : (p ++ [c]).length ≠ LINESIZE := by
      rw [List.length_append, List.length_singleton]
      omega
    have hRest := ih (p := p ++ [c]) (fun b hb => hPlain b (List.mem_cons_of_mem c hb)) (by
      rw [List.length_append, List.length_singleton]
      omega)
    rw [edits, edit_plain (hPlain c List.mem_cons_self), if_neg hRoom, hRest, List.append_assoc]
    rfl

/-- What fills the line is sent off, and the rest begins a new one. -/
theorem edits_plain (hPlain : ∀ b ∈ cs, Plain b) (hFits : p.length < LINESIZE)
    (hFull : LINESIZE ≤ p.length + cs.length) (hOnce : cs.length ≤ LINESIZE) :
    edits p cs = (cs.drop (LINESIZE - p.length), p ++ cs.take (LINESIZE - p.length)) := by
  induction cs generalizing p with
  | nil => exact absurd hFull (by simpa using hFits)
  | cons c cs ih =>
    rw [List.length_cons] at hFull hOnce
    have hLater : ∀ b ∈ cs, Plain b := fun b hb => hPlain b (List.mem_cons_of_mem c hb)
    have hLen : (p ++ [c]).length = p.length + 1 := by
      rw [List.length_append, List.length_singleton]
    obtain ⟨k, hk⟩ : ∃ k, LINESIZE - p.length = k + 1 := ⟨LINESIZE - p.length - 1, by omega⟩
    rw [edits, edit_plain (hPlain c List.mem_cons_self), hk, List.drop_succ_cons,
      List.take_succ_cons]
    by_cases hLast : (p ++ [c]).length = LINESIZE
    · -- this byte is the last one of the line
      obtain rfl : k = 0 := by omega
      rw [if_pos hLast, edits_short hLater (by simpa using Nat.lt_of_succ_le hOnce)]
      simp
    · have hRest := ih (p := p ++ [c]) hLater (by omega) (by omega) (by omega)
      have hLeft : LINESIZE - (p ++ [c]).length = k := by omega
      rw [if_neg hLast, hRest, hLeft, List.append_assoc]
      rfl

theorem mem_runetochar_high (h : ¬ r.toNat < 0x80) (hb : b ∈ runetochar r) : 0x80 ≤ b.toNat := by
  have hMem : b.toNat ∈ (runetochar r).map BitVec.toNat := List.mem_map_of_mem hb
  rw [runetochar_toNat, if_neg h] at hMem
  split at hMem
  · simp only [List.mem_cons, List.not_mem_nil, or_false] at hMem
    omega
  · simp only [List.mem_cons, List.not_mem_nil, or_false] at hMem
    omega

/-- A rune below 0x80 is its own byte. -/
theorem runetochar_low (h : r.toNat < 0x80) : ∃ c : Byte, runetochar r = [c] ∧ c.toNat < 0x80 := by
  have hLen := length_runetochar r
  rw [if_pos h] at hLen
  obtain ⟨c, hc⟩ := List.length_eq_one_iff.mp hLen
  refine ⟨c, hc, ?_⟩
  have hNat := runetochar_toNat r
  rw [if_pos h, hc, List.map_singleton, List.cons.injEq] at hNat
  omega

/-- The last byte of a rune tells whether it is the only one. -/
theorem getLast_runetochar (r : Rune) :
    (∀ b ∈ (runetochar r).getLast?, b.toNat < 0x80) ↔ (runetochar r).length = 1 := by
  by_cases h : r.toNat < 0x80
  · obtain ⟨c, hc, hLow⟩ := runetochar_low h
    simp [hc, hLow]
  · have hLen := length_runetochar r
    rw [if_neg h] at hLen
    refine iff_of_false (fun hAll => ?_) (by split at hLen <;> omega)
    have hNe := runetochar_code.ne_nil r
    have hLast := hAll _ (List.getLast?_eq_some_getLast hNe)
    have hHigh := mem_runetochar_high h (List.getLast_mem hNe)
    omega

theorem length_runetochar_le (r : Rune) : (runetochar r).length ≤ 3 := by
  rw [length_runetochar]
  split
  · omega
  · split <;> omega

/-- The keys: an erase, three that empty the line, and runes that are stored. -/
theorem runetochar_cases (r : Rune) : runetochar r = [Backspace] ∨ runetochar r = [CtrlU] ∨
    runetochar r = [CtrlD] ∨ runetochar r = [Newline] ∨ ∀ b ∈ runetochar r, Plain b := by
  by_cases h : r.toNat < 0x80
  · obtain ⟨c, hc, -⟩ := runetochar_low h
    simp only [hc, List.cons.injEq, and_true, List.mem_singleton, forall_eq]
    by_cases hPlain : c = Backspace ∨ c = CtrlU ∨ c = CtrlD ∨ c = Newline
    · rcases hPlain with h | h | h | h <;> simp [h]
    · simp only [not_or] at hPlain
      obtain ⟨hBack, hKill, hEof, hLine⟩ := hPlain
      exact Or.inr (Or.inr (Or.inr (Or.inr ⟨hBack, hKill, hEof, hLine⟩)))
  · refine Or.inr (Or.inr (Or.inr (Or.inr fun b hb => ?_)))
    have hHigh := mem_runetochar_high h hb
    refine ⟨?_, ?_, ?_, ?_⟩ <;> rintro rfl <;> revert hHigh <;> decide

end

/-! ## One key -/

section

variable {t t' : Typed} {r : Rune}

/-- An erase leaves whole runes exactly when the last one has one byte. -/
theorem spelled_erase {p : List Byte} (h : Spelled runetochar p) :
    Spelled runetochar p.dropLast ↔ ∀ b ∈ p.getLast?, b.toNat < 0x80 := by
  by_cases hNil : p = []
  · simp [hNil, Spelled.nil]
  obtain ⟨q, a, rfl, hq⟩ := h.eq_append hNil
  rw [runetochar_code.spelled_dropLast hq,
    List.getLast?_append_of_ne_nil _ (runetochar_code.ne_nil a), getLast_runetochar]

/-- Of a line of whole runes, an erase takes the last one back exactly when that has one
byte. -/
theorem erase_whole (rs : List Rune) : (edit (utf rs) Backspace).1 = utf rs.dropLast ↔
    ∀ b ∈ (utf rs).getLast?, b.toNat < 0x80 := by
  have hErase : (edit (utf rs) Backspace).1 = (utf rs).dropLast := by rw [edit, if_pos rfl]
  have hText : Spelled runetochar (utf rs) := ⟨rs, rfl⟩
  rw [hErase, ← spelled_erase hText]
  refine ⟨fun h => h ▸ ⟨rs.dropLast, rfl⟩, fun h => ?_⟩
  rcases List.eq_nil_or_concat' rs with rfl | ⟨init, a, rfl⟩
  · rfl
  · have hEnd : utf (init ++ [a]) = utf init ++ runetochar a := by simp [utf]
    rw [hEnd] at h ⊢
    have hOne := (runetochar_code.spelled_dropLast ⟨init, rfl⟩).mp h
    rw [List.dropLast_append_of_ne_nil (runetochar_code.ne_nil a), List.dropLast_concat,
      List.eq_nil_of_length_eq_zero (l := (runetochar a).dropLast) (by
        rw [List.length_dropLast, hOne]), List.append_nil]

theorem typed_start : TypedInv {} := ⟨by decide, Spelled.nil, Spelled.nil⟩

/-- A stored rune: the line takes it whole, or ends in the middle of it. -/
theorem TypedInv.plain (h : TypedInv t) (hPlain : ∀ b ∈ runetochar r, Plain b)
    (hStep : t.step r = some t') :
    t'.pending.length < LINESIZE ∧
      (t'.Utf ↔ t.pending.length + (runetochar r).length ≤ LINESIZE) := by
  obtain ⟨hFits, hText, hPending⟩ := h
  obtain rfl := Option.some.inj hStep
  have hPos := List.length_pos_of_ne_nil (runetochar_code.ne_nil r)
  have hSmall := length_runetochar_le r
  have hLine : LINESIZE = 1024 := rfl
  by_cases hShort : t.pending.length + (runetochar r).length < LINESIZE
  · rw [edits_short hPlain hShort]
    refine ⟨by rwa [List.length_append], iff_of_true ⟨?_, ?_⟩ (Nat.le_of_lt hShort)⟩
    · rwa [List.append_nil]
    · exact hPending.append (Spelled.word r)
  · have hEdits := edits_plain hPlain hFits (by omega) (by omega)
    rw [hEdits]
    simp only
    refine ⟨by rw [List.length_drop]; omega, ?_⟩
    -- the committed part of the rune
    have hPart : Spelled runetochar (t.text ++ (t.pending ++
        (runetochar r).take (LINESIZE - t.pending.length))) ↔
        (runetochar r).length ≤ LINESIZE - t.pending.length := by
      rw [← List.append_assoc]
      exact runetochar_code.spelled_cut (hText.append hPending) (by omega)
    constructor
    · intro hUtf
      have hAll := hPart.mp hUtf.text
      omega
    · intro hAll
      refine ⟨hPart.mpr (by omega), ?_⟩
      rw [List.drop_of_length_le (by omega)]
      exact Spelled.nil

theorem TypedInv.key (h : TypedInv t) (hStep : t.step r = some t') :
    t'.pending.length < LINESIZE ∧ (t'.Utf ↔ KeyWhole t r) := by
  have hUtf := h.utf
  have hEmpty : (0 : Nat) < LINESIZE := by decide
  -- a key that empties the line has room in it
  have hRoom : t.pending.length + 1 ≤ LINESIZE := h.fits
  rcases runetochar_cases r with hBack | hKill | hEof | hLine | hPlain
  · obtain rfl := Option.some.inj hStep
    -- an erase leaves the committed text alone
    rw [hBack]
    simp only [KeyWhole, hBack, if_true, edits, edit, List.append_nil]
    refine ⟨by rw [List.length_dropLast]; omega, ?_⟩
    rw [← spelled_erase hUtf.pending]
    exact ⟨fun hUtf' => hUtf'.pending, fun hWhole => ⟨hUtf.text, hWhole⟩⟩
  · obtain rfl := Option.some.inj hStep
    rw [hKill]
    refine ⟨hEmpty, iff_of_true ⟨?_, Spelled.nil⟩ ?_⟩
    · exact (List.append_nil t.text).symm ▸ hUtf.text
    · rw [KeyWhole, hKill, if_neg (by decide)]
      exact hRoom
  · obtain rfl := Option.some.inj hStep
    rw [hEof]
    refine ⟨hEmpty, iff_of_true ⟨?_, Spelled.nil⟩ ?_⟩
    · exact hUtf.text.append (hUtf.pending.append Spelled.nil)
    · rw [KeyWhole, hEof, if_neg (by decide)]
      exact hRoom
  · -- the newline is committed with the line
    have hNewline : runetochar (0x0a : Rune) = [Newline] := rfl
    obtain rfl := Option.some.inj hStep
    rw [hLine]
    refine ⟨hEmpty, iff_of_true ⟨?_, Spelled.nil⟩ ?_⟩
    · exact hUtf.text.append ((hUtf.pending.append (hNewline ▸ Spelled.word _)).append Spelled.nil)
    · rw [KeyWhole, hLine, if_neg (by decide)]
      exact hRoom
  · have hNot : runetochar r ≠ [Backspace] := by
      intro hBack
      exact (hPlain Backspace (hBack ▸ List.mem_singleton_self _)).backspace rfl
    rw [KeyWhole, if_neg hNot]
    exact h.plain hPlain hStep

end

/-! ## What reads deliver -/

/-- How much there is to read in `lineq`: its bytes and its blocks. -/
def lineqWeight (q : List (List Byte)) : Nat := q.flatten.length + q.length

/-- A read of one byte leaves less. -/
theorem lineqWeight_lt (b : List Byte) (q : List (List Byte)) :
    lineqWeight (if b.length ≤ 1 then q else b.drop 1 :: q) < lineqWeight (b :: q) := by
  unfold lineqWeight
  split
  · simp only [List.flatten_cons, List.length_append, List.length_cons]
    omega
  · simp only [List.flatten_cons, List.length_append, List.length_cons, List.length_drop]
    omega

/-- Reads have delivered all that the bytes make them deliver. -/
structure Delivered (cons : Cons) (bs : List Byte) (r : Reader) : Prop where
  reached : ∃ os, run Reader.step { cons := cons } os = some r
  inp     : r.inp = bs
  waiting : r.Waiting

section

variable {r : Reader} {cons : Cons} {bs : List Byte}

/-- A reader that takes one byte at a time comes to wait for input. -/
theorem ReaderInv.drains_one {r : Reader} (h : ReaderInv r) (hCall : r.call = some 1) :
    ∃ os r', run Reader.step r os = some r' ∧ r'.inp = r.inp ∧ r'.Waiting := by
  cases hLineq : r.cons.lineq with
  | cons b q =>
    -- it returns with the first byte, and is called again
    have hDone : r.step .done = some { r with
        cons := { r.cons with lineq := if b.length ≤ 1 then q else b.drop 1 :: q }, call := none,
        out := r.out ++ b.take 1 } := by
      simp only [Reader.step, hCall, hLineq, Option.getD_some, qreadLine]
    have hNext := (h.step hDone).step (o := .call 1) rfl
    have hLess : lineqWeight (if b.length ≤ 1 then q else b.drop 1 :: q) <
        lineqWeight r.cons.lineq := by
      rw [hLineq]
      exact lineqWeight_lt b q
    -- as much input waits as before, and less is left of the line
    obtain ⟨os, r', hRun, hInp, hWait⟩ := hNext.drains_one rfl
    refine ⟨.done :: .call 1 :: os, r', ?_, hInp, hWait⟩
    rw [run, hDone, Option.bind_some]
    exact hRun
  | nil =>
    cases hKbdq : r.cons.kbdq with
    | nil =>
      refine ⟨[], r, rfl, rfl, by rw [hCall]; rfl, ?_, ?_⟩
      · simp [Reader.step, hKbdq]
      · simp [Reader.step, hLineq, qreadLine]
    | cons c q =>
      -- the loop takes the byte
      have hCh : c ≠ 0 := by
        rintro rfl
        exact h.clean (hKbdq ▸ List.mem_cons_self)
      obtain ⟨s', hTurn, -, -, hQueue, -⟩ :=
        consturn_edit (s := { r.cons with kbdq := q }) h.raw h.fits hCh
      have hStep : r.step .turn = some { r with cons := s' } := by
        simp only [Reader.step, hCall, hKbdq, Option.isNone_some, ne_eq, not_true,
          Bool.false_eq_true, or_self, if_false, hLineq] at hTurn ⊢
        rw [hTurn]
      -- the line may have grown, but less input waits
      have hLess : s'.kbdq.length < r.cons.kbdq.length := by
        rw [hQueue, hKbdq]
        exact Nat.lt_succ_self _
      obtain ⟨os, r', hRun, hInp, hWait⟩ := (h.step hStep).drains_one hCall
      exact ⟨.turn :: os, r', by rw [run, hStep, Option.bind_some, hRun], hInp, hWait⟩
termination_by (r.cons.kbdq.length, lineqWeight r.cons.lineq)
decreasing_by
  · exact Prod.Lex.left _ _ hLess
  · exact Prod.Lex.right _ hLess

/-- From any state, reads that go on get all there is. -/
theorem ReaderInv.drains (h : ReaderInv r) :
    ∃ os r', run Reader.step r os = some r' ∧ r'.inp = r.inp ∧ r'.Waiting := by
  cases hCall : r.call with
  | none =>
    have hStep : r.step (.call 1) = some { r with call := some 1 } := by
      simp [Reader.step, hCall]
    obtain ⟨os, r', hRun, hInp, hWait⟩ := (h.step hStep).drains_one rfl
    exact ⟨.call 1 :: os, r', by rw [run, hStep, Option.bind_some, hRun], hInp, hWait⟩
  | some n =>
    -- the read that goes on is interrupted first
    have hStop : r.step .interrupt = some { r with call := none } := by
      simp [Reader.step, hCall]
    have hStep : ({ r with call := none } : Reader).step (.call 1) =
        some { r with call := some 1 } := rfl
    obtain ⟨os, r', hRun, hInp, hWait⟩ := ((h.step hStop).step hStep).drains_one rfl
    refine ⟨.interrupt :: .call 1 :: os, r', ?_, hInp, hWait⟩
    rw [run, hStop, Option.bind_some, run, hStep, Option.bind_some, hRun]

theorem run_arrive (bs : List Byte) (hNul : (0 : Byte) ∉ bs) (r : Reader) :
    run Reader.step r (bs.map .arrive) = some { r with
      cons := { r.cons with kbdq := r.cons.kbdq ++ bs }, inp := r.inp ++ bs } := by
  induction bs generalizing r with
  | nil => simp [run]
  | cons c bs ih =>
    rw [List.mem_cons, not_or] at hNul
    have hStep : r.step (.arrive c) = some { r with
        cons := { r.cons with kbdq := r.cons.kbdq ++ [c] }, inp := r.inp ++ [c] } := by
      rw [Reader.step, if_neg (Ne.symm hNul.1)]
    rw [List.map_cons, run, hStep, Option.bind_some, ih hNul.2]
    simp

/-- Every stream without NUL can be read to its end. -/
theorem delivered_exists (hIdle : cons.Idle) (bs : List Byte) (hNul : (0 : Byte) ∉ bs) :
    ∃ r, Delivered cons bs r := by
  have hArrive := run_arrive bs hNul { cons := cons }
  have hInv := run_keeps (I := ReaderInv) (fun _ _ _ hInv hStep => hInv.step hStep)
    (readerInv_start hIdle) hArrive
  obtain ⟨os, r', hRun, hInp, hWait⟩ := hInv.drains
  exact ⟨r', ⟨bs.map .arrive ++ os, by rw [run_append, hArrive, Option.bind_some, hRun]⟩, hInp,
    hWait⟩

/-- What was delivered is what the edits commit, and the line is what they leave. -/
theorem Delivered.edits (h : Delivered cons bs r) (hIdle : cons.Idle) :
    Glendum.edits [] bs = (r.cons.kbd.pending, r.out) := by
  -- nothing is left in the two queues, so all of the input has been edited
  obtain ⟨os, hRun⟩ := h.reached
  have hInv := run_keeps (I := ReaderInv) (fun _ _ _ hInv hStep => hInv.step hStep)
    (readerInv_start hIdle) hRun
  obtain ⟨taken, hInp, hText⟩ := hInv.text
  obtain ⟨hKbdq, hLineq⟩ := h.waiting.empty
  rw [hKbdq, List.append_nil, h.inp] at hInp
  rw [hInp, hText, hLineq, List.flatten_nil, List.append_nil]

end

/-! ## Streams -/

section

variable {cons : Cons} {ks : List Rune} {r : Reader}

theorem Delivered.utf_iff (h : Delivered cons (utf ks) r) (hIdle : cons.Idle) :
    (∀ t, run Typed.step {} ks = some t → t.Utf) ↔
      Spelled runetochar r.out ∧ Spelled runetochar r.cons.kbd.pending := by
  have hEdits := h.edits hIdle
  have hRun := typed_run {} ks
  rw [show (Typed.pending {}) = [] from rfl, hEdits] at hRun
  constructor
  · intro hAll
    have hUtf := hAll _ hRun
    exact ⟨hUtf.text, hUtf.pending⟩
  · rintro ⟨hOut, hPending⟩ t ht
    obtain rfl := Option.some.inj (hRun.symm.trans ht)
    exact ⟨hOut, hPending⟩

/-- Only the NUL rune has a NUL byte. -/
theorem nul_not_mem_utf (hNul : (0 : Rune) ∉ ks) : (0 : Byte) ∉ utf ks := by
  intro hMem
  obtain ⟨r, hr, hByte⟩ := List.mem_flatMap.mp hMem
  by_cases h : r.toNat < 0x80
  · have hNat := runetochar_toNat r
    obtain ⟨c, hc, -⟩ := runetochar_low h
    rw [hc, List.mem_singleton] at hByte
    rw [if_pos h, hc, ← hByte, List.map_singleton, List.cons.injEq] at hNat
    have hZero : r = 0 := BitVec.eq_of_toNat_eq hNat.1.symm
    exact hNul (hZero ▸ hr)
  · exact absurd (mem_runetochar_high h hByte) (by decide)

end

/-- An erase takes back the last rune of the line, and not a part of it, exactly when the
line ends with a rune of one byte. From a cooked console in which no input waits, what reads
deliver of a stream of runes and of each of its beginnings is UTF-8, and so is the line,
exactly when every erase finds nothing or a rune of one byte at the end of the line and
every other rune has room in it. -/
theorem line_editing_exact {cons : Cons} (hIdle : cons.Idle) :
    (∀ rs, (edit (utf rs) Backspace).1 = utf rs.dropLast ↔
      ∀ b ∈ (utf rs).getLast?, b.toNat < 0x80) ∧
    ∀ ks, (0 : Rune) ∉ ks →
      ((∀ ks', ks' <+: ks → ∀ r, Delivered cons (utf ks') r →
        Spelled runetochar r.out ∧ Spelled runetochar r.cons.kbd.pending) ↔
      Always Typed.step KeyWhole {} ks) := by
  refine ⟨erase_whole, fun ks hNul => ?_⟩
  -- the text after each key, by the keys that come whole
  rw [← throughout_iff_always (I := TypedInv) (P := Typed.Utf)
    (fun t r t' h hKey hStep => ⟨(h.key hStep).1, (h.key hStep).2.mpr hKey⟩) (fun _ h => h.utf)
    (fun t r t' h hNot hStep hUtf => hNot ((h.key hStep).2.mp hUtf)) typed_start (typed_run {} ks),
    throughout_iff_prefix]
  constructor
  · intro hAll ks' hPre
    -- the stream can be read to its end
    obtain ⟨r, hr⟩ := delivered_exists hIdle (utf ks') (nul_not_mem_utf fun hMem => hNul (hPre.subset hMem))
    exact (hr.utf_iff hIdle).mpr (hAll ks' hPre r hr)
  · intro hAll ks' hPre r hr
    exact (hr.utf_iff hIdle).mp (hAll ks' hPre)

/-- An `a` that is taken back, and a line. -/
theorem line_editing_exact_line : ∃ r,
    Delivered {} (utf [rune 'a', 0x08, 0xe9, 0x0a]) r ∧ Spelled runetochar r.out := by
  have hIdle : Cons.Idle {} := ⟨rfl, rfl, rfl, rfl⟩
  have hKeys : Always Typed.step KeyWhole {} [rune 'a', 0x08, 0xe9, 0x0a] := by
    refine ⟨by decide, ?_⟩
    rintro _ ⟨⟩
    refine ⟨by decide, ?_⟩
    rintro _ ⟨⟩
    refine ⟨by decide, ?_⟩
    rintro _ ⟨⟩
    exact ⟨by decide, fun _ _ => trivial⟩
  obtain ⟨r, hr⟩ := delivered_exists hIdle (utf [rune 'a', 0x08, 0xe9, 0x0a]) (by decide)
  have hExact := (line_editing_exact hIdle).2 [rune 'a', 0x08, 0xe9, 0x0a] (by decide)
  exact ⟨r, hr, (hExact.mpr hKeys _ (List.prefix_refl _) r hr).1⟩

/-- Of `é` an erase leaves the first byte, and the newline commits it. -/
theorem erase_cuts_rune : ∃ r, Delivered {} (utf [0xe9, 0x08, 0x0a]) r ∧
    r.out = [0xc3, Newline] ∧ ¬ Spelled runetochar r.out := by
  have hIdle : Cons.Idle {} := ⟨rfl, rfl, rfl, rfl⟩
  obtain ⟨r, hr⟩ := delivered_exists hIdle (utf [0xe9, 0x08, 0x0a]) (by decide)
  have hEdits := hr.edits hIdle
  rw [show edits [] (utf [0xe9, 0x08, 0x0a]) = ([], [0xc3, Newline]) by decide, Prod.mk.injEq]
    at hEdits
  obtain ⟨-, hOut⟩ := hEdits
  refine ⟨r, hr, hOut.symm, ?_⟩
  rw [← hOut]
  intro hText
  obtain ⟨t, a, hEnd, hFirst⟩ := hText.eq_append (List.cons_ne_nil _ _)
  -- the last rune is the newline, so the byte before it would be a rune
  have hLast := congrArg List.getLast? hEnd
  rw [List.getLast?_append_of_ne_nil _ (runetochar_code.ne_nil a)] at hLast
  have hOne := (getLast_runetochar a).mp (by
    rw [← hLast]
    decide)
  obtain ⟨c, hc⟩ := List.length_eq_one_iff.mp hOne
  have hByte : t = [0xc3] := by
    rw [hc] at hEnd
    have hParts : [0xc3] ++ [Newline] = t ++ [c] := hEnd
    exact (List.append_inj' hParts rfl).1.symm
  rw [hByte, runetochar_code.spelled_prefix (a := 0xe9) (by decide)] at hFirst
  revert hFirst
  decide

end Glendum
