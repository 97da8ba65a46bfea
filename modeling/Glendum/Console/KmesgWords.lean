import Glendum.Console.Kmesg

/-!
# Glendum — the message log in machine words

`kmesgputs` computes with an unsigned fill level and a signed count, and moves bytes
inside a buffer that nothing guards. Here both are 32-bit words, and a `memmove` that
reads or writes outside its buffers has no result.

* `Kmesg.puts_window` — on the words, the call is that on the window;
* `Kmesg.read_window` — a read of any count returns a part of what the window shows;
* `kmesg_window` — after any calls the log is the end of all that was put.
-/

namespace Glendum

open Machine

/-! ## The code -/

/-- The record `kmesg`. -/
structure Kmesg where
  buf : List Byte
  n   : BitVec 32

/-- `sizeof kmesg.buf` as a word. -/
def KMESGBYTES : BitVec 32 := BitVec.ofNat 32 KMESGSIZE

/-- The `n` bytes at a place of a buffer, which `memmove` reads before it writes. -/
def bytesAt (buf : List Byte) (pos n : Nat) : Option (List Byte) :=
  if pos + n ≤ buf.length then some ((buf.drop pos).take n) else none

/-- `memmove` of these bytes to a place of a buffer. -/
def memmoveTo (buf : List Byte) (pos : Nat) (bs : List Byte) : Option (List Byte) :=
  if pos + bs.length ≤ buf.length then some (overwrite buf pos bs) else none

/-- `kmesgputs(str, n)`; the comparisons with `sizeof kmesg.buf` are unsigned. -/
def Kmesg.puts (k : Kmesg) (str : List Byte) (n : BitVec 32) : Option Kmesg :=
  -- take the tail of huge writes
  let d := if KMESGBYTES < n then n - KMESGBYTES else 0
  let n := n - d
  -- slide the buffer down to make room
  let e := if KMESGBYTES ≤ k.n + n then k.n + n - KMESGBYTES else 0
  let slid :=
    if e = 0 then some k.buf
    else (bytesAt k.buf e.toNat (KMESGBYTES - e).toNat).bind (memmoveTo k.buf 0)
  let nn := k.n - e
  -- copy the data in
  slid.bind fun buf => (bytesAt str d.toNat n.toNat).bind fun tail =>
    (memmoveTo buf nn.toNat tail).map fun buf => ⟨buf, nn + n⟩

/-- The `Qkmesg` case of `consread`: what it returns, and the bytes that it copies. The
offset is a `vlong`, so that `off + n` is exact: it is formed below `kmesg.n` only. -/
def Kmesg.read (k : Kmesg) (off n : Int) : Option (Int × List Byte) :=
  if n ≤ 0 then some (n, [])
  else if (k.n.toNat : Int) ≤ off then some (0, [])
  else
    let n := if (k.n.toNat : Int) < off + n then k.n.toNat - off else n
    (bytesAt k.buf off.toNat n.toNat).map fun bs => (n, bs)

/-- The calls one after the other, each with the text and its length. -/
def Kmesg.run : Kmesg → List (List Byte) → Option Kmesg
  | k, [] => some k
  | k, str :: strs => (k.puts str (BitVec.ofNat 32 str.length)).bind fun k => k.run strs

/-- Before the first call. -/
def Kmesg.start : Kmesg := ⟨.replicate KMESGSIZE 0, 0⟩

/-! ## The words and the window -/

/-- The record is that of a window. -/
structure Kmesg.Is (k : Kmesg) (w : Window Byte KMESGSIZE) : Prop where
  buf : k.buf = w.buf
  n   : k.n.toNat = w.n

section

variable {k : Kmesg} {w : Window Byte KMESGSIZE} {str : List Byte}

theorem toNat_KMESGBYTES : KMESGBYTES.toNat = KMESGSIZE := rfl

theorem n_kmesgputs (w : Window Byte KMESGSIZE) (str : List Byte) :
    (kmesgputs w str).n = min KMESGSIZE (w.n + str.length) := by
  rw [← Window.length_text, text_kmesgputs, Window.length_rtake, List.length_append,
    Window.length_text]

/-- The part of a text that is copied in. -/
def tailOf (str : List Byte) : List Byte := str.drop (str.length - KMESGSIZE)

theorem length_tailOf (str : List Byte) : (tailOf str).length = min str.length KMESGSIZE := by
  rw [tailOf, List.length_drop]
  omega

/-- What the buffer holds after a call. -/
theorem buf_kmesgputs (w : Window Byte KMESGSIZE) (str : List Byte) :
    (kmesgputs w str).buf =
      overwrite (overwrite w.buf 0 (w.buf.drop (w.n + (tailOf str).length - KMESGSIZE)))
        (w.n - (w.n + (tailOf str).length - KMESGSIZE)) (tailOf str) := by
  have hTail : (if KMESGSIZE < str.length then str.drop (str.length - KMESGSIZE) else str) =
      tailOf str := by
    rw [tailOf]
    split
    · rfl
    · rw [Nat.sub_eq_zero_of_le (by omega), List.drop_zero]
  unfold kmesgputs
  simp only [hTail]
  split
  · rfl
  · -- nothing is moved
    have hStay : w.n + (tailOf str).length - KMESGSIZE = 0 := by omega
    rw [hStay, List.drop_zero, Nat.sub_zero, overwrite_self]
    rfl

theorem bytesAt_some {buf : List Byte} {pos n : Nat} (h : pos + n ≤ buf.length) :
    bytesAt buf pos n = some ((buf.drop pos).take n) := by
  rw [bytesAt, if_pos h]

/-- A difference that is formed only where it is exact. -/
theorem toNat_excess (a b : BitVec 32) :
    (if b < a then a - b else 0).toNat = a.toNat - b.toNat ∧
      (if b ≤ a then a - b else 0).toNat = a.toNat - b.toNat := by
  constructor
  · by_cases hMore : b < a
    · rw [if_pos hMore, BitVec.toNat_sub_of_le (BitVec.le_of_lt hMore)]
    · rw [if_neg hMore, Nat.sub_eq_zero_of_le (BitVec.le_def.mp (BitVec.not_lt.mp hMore))]
      rfl
  · by_cases hMore : b ≤ a
    · rw [if_pos hMore, BitVec.toNat_sub_of_le hMore]
    · rw [if_neg hMore, Nat.sub_eq_zero_of_le (BitVec.lt_def.mp (BitVec.not_le.mp hMore)).le]
      rfl

/-- The buffer slides down by `e` bytes; nothing is moved for none. -/
theorem slide_buf {buf : List Byte} (hSize : buf.length = KMESGSIZE) {e : BitVec 32}
    (hE : e.toNat ≤ KMESGSIZE) :
    (if e = 0 then some buf
      else (bytesAt buf e.toNat (KMESGBYTES - e).toNat).bind (memmoveTo buf 0)) =
      some (overwrite buf 0 (buf.drop e.toNat)) := by
  by_cases hZero : e = 0
  · rw [if_pos hZero, hZero]
    change some buf = some (overwrite buf 0 buf)
    rw [overwrite_self]
  · have hRest : (KMESGBYTES - e).toNat = KMESGSIZE - e.toNat := by
      rw [BitVec.toNat_sub_of_le (BitVec.le_def.mpr hE), toNat_KMESGBYTES]
    have hAll : (buf.drop e.toNat).take (KMESGSIZE - e.toNat) = buf.drop e.toNat :=
      List.take_of_length_le (by rw [List.length_drop, hSize])
    rw [if_neg hZero, bytesAt_some (by omega), Option.bind_some, hRest, hAll, memmoveTo,
      if_pos (by rw [List.length_drop]; omega)]

/-- Every access of the call lies inside its buffers, and the call does what it does to
the window. -/
theorem Kmesg.puts_window (h : k.Is w) (hStr : str.length < 2 ^ 31) :
    ∃ k', k.puts str (BitVec.ofNat 32 str.length) = some k' ∧ k'.Is (kmesgputs w str) := by
  have hFits := w.fits
  have hSize := w.size
  have hBytes := toNat_KMESGBYTES
  have hValue : KMESGSIZE = 16384 := rfl
  have hTail := length_tailOf str
  have hLen : (BitVec.ofNat 32 str.length).toNat = str.length := by
    rw [BitVec.toNat_ofNat, Nat.mod_eq_of_lt (by omega)]
  -- `d`, `n` and `e` are the differences of the numbers they stand for
  obtain ⟨d, hd⟩ : ∃ d : BitVec 32, (if KMESGBYTES < BitVec.ofNat 32 str.length then
      BitVec.ofNat 32 str.length - KMESGBYTES else 0) = d := ⟨_, rfl⟩
  have hD : d.toNat = str.length - KMESGSIZE := by
    rw [← hd, (toNat_excess _ _).1, hLen, hBytes]
  obtain ⟨n, hn⟩ : ∃ n : BitVec 32, BitVec.ofNat 32 str.length - d = n := ⟨_, rfl⟩
  have hN : n.toNat = (tailOf str).length := by
    rw [← hn, BitVec.toNat_sub_of_le (by rw [BitVec.le_def]; omega), hLen, hD]
    omega
  have hSum : (k.n + n).toNat = w.n + (tailOf str).length := by
    rw [BitVec.toNat_add, Nat.mod_eq_of_lt (by rw [h.n]; omega), h.n, hN]
  obtain ⟨e, he⟩ : ∃ e : BitVec 32, (if KMESGBYTES ≤ k.n + n then k.n + n - KMESGBYTES else 0) = e :=
    ⟨_, rfl⟩
  have hE : e.toNat = w.n + (tailOf str).length - KMESGSIZE := by
    rw [← he, (toNat_excess _ _).2, hSum, hBytes]
  have hLeft : (k.n - e).toNat = w.n - (w.n + (tailOf str).length - KMESGSIZE) := by
    rw [BitVec.toNat_sub_of_le (by rw [BitVec.le_def, h.n]; omega), h.n, hE]
  -- the tail is read from the text, and there is room for it behind what is left
  have hSlid := slide_buf (e := e) hSize (by omega)
  rw [hE] at hSlid
  have hRead : bytesAt str d.toNat n.toNat = some (tailOf str) := by
    rw [bytesAt_some (by omega), hD, hN, ← tailOf, List.take_length]
  have hRoom : (overwrite w.buf 0 (w.buf.drop (w.n + (tailOf str).length - KMESGSIZE))).length =
      KMESGSIZE := by
    rw [length_overwrite (by rw [List.length_drop]; omega), hSize]
  refine ⟨⟨(kmesgputs w str).buf, k.n - e + n⟩, ?_, rfl, ?_⟩
  · simp only [Kmesg.puts]
    rw [hd, hn, he, h.buf, hE, hSlid, Option.bind_some, hRead, Option.bind_some, memmoveTo, hLeft,
      if_pos (by omega), Option.map_some, buf_kmesgputs]
  · simp only
    rw [n_kmesgputs, BitVec.toNat_add, hLeft, hN, Nat.mod_eq_of_lt (by omega)]
    omega

theorem Kmesg.read_window (h : k.Is w) {off : Int} (hOff : 0 ≤ off) (n : Int) :
    ∃ r, k.read off n = some r ∧ r.2 = (w.text.drop off.toNat).take n.toNat ∧
      (0 < n → r.1 = r.2.length) := by
  have hText := w.length_text
  have hFits := w.fits
  have hSize := w.size
  unfold Kmesg.read
  rw [h.n, h.buf]
  by_cases hNone : n ≤ 0
  · refine ⟨(n, []), by rw [if_pos hNone], ?_, fun hPos => absurd hPos (by omega)⟩
    rw [Int.toNat_of_nonpos hNone, List.take_zero]
  rw [if_neg hNone]
  by_cases hPast : (w.n : Int) ≤ off
  · -- nothing is left behind the offset
    refine ⟨(0, []), by rw [if_pos hPast], ?_, fun _ => rfl⟩
    rw [List.drop_eq_nil_iff.mpr (by omega), List.take_nil]
  rw [if_neg hPast]
  -- the count is cut at the end of what the window shows
  obtain ⟨m, hm⟩ : ∃ m : Int, (if (w.n : Int) < off + n then (w.n : Int) - off else n) = m := ⟨_, rfl⟩
  have hM : m.toNat = min n.toNat (w.n - off.toNat) ∧ 0 ≤ m := by
    rw [← hm]
    split <;> omega
  have hPart : (w.buf.drop off.toNat).take m.toNat = (w.text.drop off.toNat).take n.toNat := by
    rw [Window.text, List.drop_take, List.take_take, hM.1]
  refine ⟨(m, (w.buf.drop off.toNat).take m.toNat), ?_, hPart, fun _ => ?_⟩
  · simp only [hm]
    rw [bytesAt_some (by omega), Option.map_some]
  · rw [List.length_take, List.length_drop, hSize]
    omega

end

/-! ## Runs -/

/-- The log after some calls: all that was put, or the end of it that fits. -/
structure Kmesg.Shows (k : Kmesg) (all : List Byte) : Prop where
  n    : k.n.toNat = min KMESGSIZE all.length
  text : k.buf.take k.n.toNat = all.rtake k.n.toNat
  read : ∀ off n : Int, 0 ≤ off → ∃ r, k.read off n = some r ∧
    r.2 = ((all.rtake k.n.toNat).drop off.toNat).take n.toNat ∧ (0 < n → r.1 = r.2.length)

section

variable {k : Kmesg} {w : Window Byte KMESGSIZE} {all : List Byte}

theorem Kmesg.Is.shows (h : k.Is w) (hText : w.text = all.rtake KMESGSIZE) : k.Shows all := by
  have hN : k.n.toNat = min KMESGSIZE all.length := by
    rw [h.n, ← Window.length_text, hText, Window.length_rtake]
  -- the end that fits is the end of the length of the log
  have hEnd : all.rtake k.n.toNat = all.rtake KMESGSIZE := by
    have hCut : all.length - min KMESGSIZE all.length = all.length - KMESGSIZE := by omega
    rw [List.rtake, List.rtake, hN, hCut]
  refine ⟨hN, ?_, fun off n hOff => ?_⟩
  · have hShown : k.buf.take k.n.toNat = w.text := by rw [h.buf, h.n, Window.text]
    exact hShown.trans (hText.trans hEnd.symm)
  · rw [hEnd, ← hText]
    exact Kmesg.read_window h hOff n

/-- Calls behind those that put `all`. -/
theorem Kmesg.run_window (all : List Byte) (h : k.Is w) (hText : w.text = all.rtake KMESGSIZE)
    (strs : List (List Byte)) (hStrs : ∀ str ∈ strs, str.length < 2 ^ 31) :
    ∃ k' w', k.run strs = some k' ∧ k'.Is w' ∧ w'.text = (all ++ strs.flatten).rtake KMESGSIZE := by
  induction strs generalizing k w all with
  | nil => exact ⟨k, w, rfl, h, by rw [List.flatten_nil, List.append_nil, hText]⟩
  | cons str strs ih =>
    rw [List.forall_mem_cons] at hStrs
    obtain ⟨k1, hPuts, h1⟩ := Kmesg.puts_window h hStrs.1
    have hNext : (kmesgputs w str).text = (all ++ str).rtake KMESGSIZE := by
      rw [text_kmesgputs, hText, Window.rtake_rtake_append]
    obtain ⟨k', w', hRun, hIs, hLast⟩ := ih (all ++ str) h1 hNext hStrs.2
    refine ⟨k', w', by rw [Kmesg.run, hPuts, Option.bind_some, hRun], hIs, ?_⟩
    rw [hLast, List.flatten_cons, List.append_assoc]

/-- What a window shows before the first call. -/
theorem Kmesg.start_is : Kmesg.start.Is ⟨.replicate KMESGSIZE 0, 0, List.length_replicate, Nat.zero_le _⟩ :=
  ⟨rfl, rfl⟩

end

/-- After any calls, with texts of any lengths that an `int` can tell: no access falls
outside a buffer, the log shows the end of all that was put, and another call does not make
it smaller. -/
theorem kmesg_window (strs : List {str : List Byte // str.length < 2 ^ 31}) :
    ∃ k, Kmesg.start.run (strs.map Subtype.val) = some k ∧ k.Shows (strs.map Subtype.val).flatten ∧
      ∀ str : {str : List Byte // str.length < 2 ^ 31}, ∃ k',
        k.puts str.val (BitVec.ofNat 32 str.val.length) = some k' ∧ k.n ≤ k'.n := by
  obtain ⟨k, w, hRun, hIs, hText⟩ := Kmesg.run_window [] Kmesg.start_is rfl
    (strs.map Subtype.val) fun str hMem => by
      obtain ⟨s, -, rfl⟩ := List.mem_map.mp hMem
      exact s.property
  refine ⟨k, hRun, hIs.shows hText, fun str => ?_⟩
  obtain ⟨k', hPuts, hNext⟩ := Kmesg.puts_window hIs str.property
  have hFits := w.fits
  refine ⟨k', hPuts, ?_⟩
  rw [BitVec.le_def, hIs.n, hNext.n, n_kmesgputs]
  omega

end Glendum
