import Glendum.Arch.Trap
import Glendum.Console.Texts
import Glendum.Lib.Positional

/-!
# Glendum — the listing of interrupt handlers

The file `irqalloc` has a line for each handler, vector by vector and in the order of the
chains. A read formats the lines one by one into a small buffer, skips those before its
offset, and returns as soon as its count is used up.

How `%.*s` shows the name of a driver, and where `snprint` cuts a line that would not fit,
is up to the library, which is not part of the repository (`Fmtlib`).

* `copyLine_reads` — what a line does to a request, however the request meets it;
* `irqallocread_positional` — a read returns its part of the listing, and reads that go on
  where the last one ended give all of it.
-/

namespace Glendum

open Machine Positional

/-- The print of the library: a string in a precision, and the part of a text that is
written into `n` bytes. -/
structure Fmtlib where
  str     : Nat → List Byte → List Byte
  snprint : Nat → List Byte → List Byte

/-- `%11d` -/
def int11 (v : Int) : List Byte :=
  let digits := if v < 0 then ch '-' :: decimal v.natAbs else decimal v.natAbs
  List.replicate (11 - digits.length) (ch ' ') ++ digits

/-- The size of `str`. -/
def STRSIZE : Nat := 2 * (11 + 1) + KNAMELEN + 1 + 1

/-- What `str` holds for a handler, without its NUL. -/
def Fmtlib.line (P : Fmtlib) (vno : Nat) (v : Vctl) : List Byte :=
  P.snprint STRSIZE
    (int11 vno ++ [ch ' '] ++ int11 v.irq ++ [ch ' '] ++ P.str KNAMELEN v.name ++ [ch '\n'])

/-- The body of the loops. The loops are left with the request that has been met. -/
def copyLine (str : List Byte) (r : Request Byte) : Except (Request Byte) (Request Byte) :=
  let m : Int := str.length
  -- if do not want this, skip entry
  if m ≤ r.offset then .ok { r with offset := r.offset - m }
  else
    -- skip offset bytes
    let m := m - r.offset
    let p := str.drop r.offset.toNat
    let m := if m > r.n then r.n else m
    let r := { n := r.n - m, offset := 0, buf := r.buf ++ p.take m.toNat }
    if r.n = 0 then .error r else .ok r

/-- The loops over the vectors and their chains. -/
def irqLoops (P : Fmtlib) (s : Vectors) (r : Request Byte) : Except (Request Byte) (Request Byte) :=
  (List.finRange 256).foldlM
    (fun r vno => (s.vctl vno).foldlM (fun r v => copyLine (P.line vno v) r) r) r

/-- The value of the call and the bytes it copies; `none` is the error `Ebadarg`. -/
def irqallocread (P : Fmtlib) (s : Vectors) (n offset : Int) : Option (Int × List Byte) :=
  if n < 0 ∨ offset < 0 then none
  else
    let oldn := n
    match irqLoops P s { n := n, offset := offset, buf := [] } with
    | .error r => some (oldn, r.buf)
    | .ok r => some (oldn - r.n, r.buf)

/-- All lines, in the order of vectors and chains. -/
def irqalloc (P : Fmtlib) (s : Vectors) : List Byte :=
  (List.finRange 256).flatMap fun vno => (s.vctl vno).flatMap fun v => P.line vno v

/-! ## A line -/

section

variable {n off : Nat} {done : List Byte} {r : Request Byte}

/-- How much of a line is copied. -/
def wanted (str : List Byte) (r : Request Byte) : Int :=
  if str.length - r.offset > r.n then r.n else str.length - r.offset

/-- The request behind a line that is not skipped. -/
def copied (str : List Byte) (r : Request Byte) : Request Byte :=
  { n := r.n - wanted str r, offset := 0
    buf := r.buf ++ (str.drop r.offset.toNat).take (wanted str r).toNat }

/-- The part of the line that is behind the offset, as far as it is wanted. -/
theorem copied_buf (h : Reading n off done r) {str : List Byte}
    (hPart : r.offset < str.length) : (copied str r).buf = slice n off (done ++ str) := by
  have hLen := h.length_le
  obtain ⟨hBuf, hN, hOffset⟩ := h
  have hTaken : (str.drop r.offset.toNat).take (wanted str r).toNat =
      slice (n - r.buf.length) (off - done.length) str := by
    rw [slice, hOffset, Int.toNat_natCast, wanted]
    split
    · congr 1
      omega
    · -- the rest of the line, whether or not more is wanted
      rw [List.take_of_length_le, List.take_of_length_le] <;> rw [List.length_drop] <;> omega
  rw [copied, hTaken, slice_append, ← hBuf]

theorem copied_n (h : Reading n off done r) {str : List Byte}
    (hPart : r.offset < str.length) : (copied str r).n = (n : Int) - (copied str r).buf.length := by
  have hLen := h.length_le
  obtain ⟨-, hN, hOffset⟩ := h
  have hTaken : (((str.drop r.offset.toNat).take (wanted str r).toNat).length : Int) =
      wanted str r := by
    rw [List.length_take, List.length_drop, wanted]
    split <;> omega
  show r.n - wanted str r = _
  rw [copied, List.length_append]
  omega

/-- A line before the offset, in the window, or across one of its ends. -/
theorem copyLine_reads (str : List Byte) : Reads n off str (copyLine str) := by
  intro done r h
  by_cases hSkip : (str.length : Int) ≤ r.offset
  · have hRun : copyLine str r = .ok { r with offset := r.offset - str.length } := if_pos hSkip
    rw [hRun]
    exact h.skip hSkip
  · have hRun : copyLine str r =
        if (copied str r).n = 0 then .error (copied str r) else .ok (copied str r) :=
      if_neg hSkip
    have hPart : r.offset < str.length := Int.not_le.mp hSkip
    have hBuf := copied_buf h hPart
    have hN := copied_n h hPart
    rw [hRun]
    by_cases hMet : (copied str r).n = 0
    · rw [if_pos hMet]
      exact ⟨hBuf, by omega⟩
    · rw [if_neg hMet]
      refine ⟨hBuf, hN, ?_⟩
      -- the offset was in the line or before it, so nothing is left to skip
      show (0 : Int) = _
      have hOffset := h.offset
      rw [List.length_append]
      omega

end

/-! ## The file -/

section

variable (P : Fmtlib) (s : Vectors)

theorem irqLoops_reads (n off : Nat) : Reads n off (irqalloc P s) (irqLoops P s) :=
  Reads.foldlM (fun vno : Fin 256 =>
    Reads.foldlM (fun v => copyLine_reads (P.line vno v)) (s.vctl vno)) (List.finRange 256)

theorem irqallocread_eq (n off : Nat) : irqallocread P s n off =
    some (((slice n off (irqalloc P s)).length : Int), slice n off (irqalloc P s)) := by
  have hLoops := irqLoops_reads P s n off [] _ (reading_start n off)
  rw [List.nil_append] at hLoops
  have hValid : ¬ ((n : Int) < 0 ∨ (off : Int) < 0) := by
    omega
  rw [irqallocread, if_neg hValid]
  simp only
  split
  · -- the count was used up, and the value is the count
    rename_i r hRun
    rw [hRun] at hLoops
    obtain ⟨hBuf, hLen⟩ := hLoops
    rw [← hBuf, hLen]
  · -- the listing ended first
    rename_i r hRun
    rw [hRun] at hLoops
    obtain ⟨hBuf, hN, -⟩ := hLoops
    rw [← hBuf, hN]
    congr 2
    omega

/-- For every content of the chains: each read, and any reads that follow one another from
the start. Counts that add up to the length of the listing give all of it. -/
theorem irqallocread_positional :
    (∀ n off : Nat, irqallocread P s n off =
      some (((((irqalloc P s).drop off).take n).length : Int),
        ((irqalloc P s).drop off).take n)) ∧
    ∀ counts : List Nat,
      consecutive (fun n off => irqallocread P s n off) 0 counts =
          some ((irqalloc P s).take counts.sum) ∧
        ((irqalloc P s).length ≤ counts.sum →
          consecutive (fun n off => irqallocread P s n off) 0 counts = some (irqalloc P s)) := by
  refine ⟨irqallocread_eq P s, fun counts => ?_⟩
  have hReads : consecutive (fun n off => irqallocread P s n off) 0 counts =
      some (slice counts.sum 0 (irqalloc P s)) := consecutive_eq (irqallocread_eq P s) counts 0
  refine ⟨hReads, fun hAll => ?_⟩
  rw [hReads, slice_all hAll]

end

/-- The library for names of plain characters. -/
def plainFmt : Fmtlib := { str := fun k s => s.take k, snprint := snprint }

/-- The clock on its vector, and two devices that share another one. -/
def clockAndShared : Vectors where
  trapinited := true
  vctl vno :=
    if vno = 32 then
      [{ name := ascii "clock", irq := 0, tbdf := -1, f := some (.driver 0), a := 0 }]
    else if vno = 43 then
      [{ name := ascii "ether0", irq := 11, tbdf := -1, f := some (.driver 1), a := 0 },
        { name := ascii "eia0", irq := 11, tbdf := -1, f := some (.driver 2), a := 0 }]
    else []

/-- The three lines are read in parts that end within a line and that go over two. -/
theorem irqalloc_shared :
    consecutive (fun n off => irqallocread plainFmt clockAndShared n off) 0 [20, 25, 0, 60] =
      some (ascii "         32           0 clock\n" ++
        ascii "         43          11 ether0\n" ++
        ascii "         43          11 eia0\n") := by
  rw [((irqallocread_positional plainFmt clockAndShared).2 [20, 25, 0, 60]).2 (by decide +kernel)]
  decide +kernel

end Glendum
