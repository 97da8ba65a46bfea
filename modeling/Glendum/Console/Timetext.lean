import Glendum.Conf.Memory
import Glendum.Console.Bintime
import Glendum.Console.Texts

/-!
# Glendum — the file time

The file `time` has the numbers of `bintime` as text, with the seconds before them, and takes
the seconds to set the time. The first column of a read has twelve bytes, and so has the longest
write.

* `strtol_column` — a column of digits is read as its number, as far as a `long` has it;
* `time_round_trip` — when a column that is written back sets the time to the same second.
-/

namespace Glendum

open Machine

/-! ## Reads and writes -/

def VLNUMSIZE : Nat := 22

/-- `%*llud` -/
def lludWide (width : Nat) (v : Uvlong) : List Byte :=
  List.replicate (width - (decimal v.toNat).length) (ch ' ') ++ decimal v.toNat

/-- What `readtime` formats; the seconds are a `long`. -/
def timeText (c : Tod) : List Byte :=
  let sec : Word := (c.nsec / 1000000000).setWidth 32
  (ludWide (NUMSIZE - 1) sec ++ [ch ' ']) ++ (lludWide (VLNUMSIZE - 1) c.nsec ++ [ch ' ']) ++
    (lludWide (VLNUMSIZE - 1) c.ticks ++ [ch ' ']) ++ (lludWide (VLNUMSIZE - 1) c.fasthz ++ [ch ' '])

def readtime (c : Tod) (off n : Word) : TextRead × Tod :=
  let c := c.rated
  (readstr off n (snprint (7 * NUMSIZE) (timeText c)), c)

/-- The array `b` has 13 bytes. -/
def writetime (buf : List Byte) : Except BintimeErr (Nat × TodCall) :=
  let n := buf.length
  if n ≥ 13 then .error .Ebadtimectl else
  let b := strncpy n (cstring buf) ++ [0]
  let i := strtol (cstring b)
  if i ≤ 0 then .error .Ebadtimectl else
  .ok (n, .todset (BitVec.ofInt 64 (i * 1000000000)) 0 0)

/-! ## Digits -/

section

variable {n : Nat} {s rest : List Byte}

/-- A number of one digit. -/
theorem decimal_of_lt (h : n < 10) : decimal n = [ch n.digitChar] := by
  have hSign : ¬ (n : Int) < 0 := by omega
  unfold decimal
  rw [if_neg hSign, Int.natAbs_natCast, Nat.toDigits_of_lt_base h]
  rfl

/-- A number of more digits, the last one apart. -/
theorem decimal_of_le (h : 10 ≤ n) : decimal n = decimal (n / 10 : Nat) ++ [ch (n % 10).digitChar] := by
  have hSign : ¬ (n : Int) < 0 := by omega
  have hSign' : ¬ ((n / 10 : Nat) : Int) < 0 := by omega
  unfold decimal
  rw [if_neg hSign, if_neg hSign', Int.natAbs_natCast, Int.natAbs_natCast,
    Nat.toDigits_of_base_le (by decide) h, List.map_append]
  rfl

/-- Digits are read as they are written. -/
theorem digitValue_digitChar : ∀ k < 10, digitValue (ch k.digitChar) = some k := by decide

/-- One digit is read. -/
theorem readDigits_digit {a k : Nat} (hk : k < 10) :
    readDigits 10 a (ch k.digitChar :: rest) = readDigits 10 (a * 10 + k) rest := by
  rw [readDigits, digitValue_digitChar k hk]
  exact if_pos hk

/-- A number is read as it is written. -/
theorem readDigits_decimal (n : Nat) (rest : List Byte) :
    readDigits 10 0 (decimal n ++ rest) = readDigits 10 n rest := by
  induction n using Nat.strongRecOn generalizing rest with
  | ind n ih =>
    by_cases hLess : n < 10
    · rw [decimal_of_lt hLess, List.singleton_append, readDigits_digit hLess, Nat.zero_mul, Nat.zero_add]
    · have hDigit : n % 10 < 10 := Nat.mod_lt _ (by decide)
      rw [decimal_of_le (Nat.not_lt.mp hLess), List.append_assoc, ih (n / 10) (by omega), List.singleton_append,
        readDigits_digit hDigit, Nat.div_add_mod']

/-- The first digit of a number that is not 0. -/
theorem decimal_head (h : 0 < n) : ∃ k tail, 0 < k ∧ k < 10 ∧ decimal n = ch k.digitChar :: tail := by
  induction n using Nat.strongRecOn with
  | ind n ih =>
    by_cases hLess : n < 10
    · exact ⟨n, [], h, hLess, decimal_of_lt hLess⟩
    · obtain ⟨k, tail, hPos, hk, hHead⟩ := ih (n / 10) (by omega) (by omega)
      refine ⟨k, tail ++ [ch (n % 10).digitChar], hPos, hk, ?_⟩
      rw [decimal_of_le (Nat.not_lt.mp hLess), hHead, List.cons_append]

/-- Blanks are skipped. -/
theorem dropWhile_blanks (k : Nat) (s : List Byte) :
    (List.replicate k (ch ' ') ++ s).dropWhile isspace = s.dropWhile isspace := by
  induction k with
  | zero => rfl
  | succ k ih =>
    rw [List.replicate_succ, List.cons_append, List.dropWhile_cons_of_pos (by decide), ih]

/-- The first digit of a number is no blank, no sign and no 0. -/
theorem plain_digit : ∀ k, 0 < k → k < 10 →
    isspace (ch k.digitChar) = false ∧ ch k.digitChar ≠ ch '-' ∧ ch k.digitChar ≠ ch '+' ∧
      ch k.digitChar ≠ ch '0' := by
  intro k hPos hk
  have hAll : ∀ k < 10, 0 < k → isspace (ch k.digitChar) = false ∧ ch k.digitChar ≠ ch '-' ∧
      ch k.digitChar ≠ ch '+' ∧ ch k.digitChar ≠ ch '0' := by
    decide
  exact hAll k hk hPos

/-- Blanks, a number and a blank. -/
theorem strtol_column (k n : Nat) :
    strtol (List.replicate k (ch ' ') ++ decimal n ++ [ch ' ']) = (min n (2 ^ 31 - 1) : Nat) := by
  unfold strtol
  rw [List.append_assoc, dropWhile_blanks]
  rcases Nat.eq_zero_or_pos n with rfl | hPos
  · rfl
  · obtain ⟨d, tail, hd, hLess, hHead⟩ := decimal_head hPos
    obtain ⟨hSpace, hMinus, hPlus, hZero⟩ := plain_digit d hd hLess
    have hRead := readDigits_decimal n [ch ' ']
    rw [hHead, List.cons_append] at hRead ⊢
    have hBase : numberBase (ch d.digitChar :: (tail ++ [ch ' '])) = (10, ch d.digitChar :: (tail ++ [ch ' '])) :=
      if_pos hZero
    rw [List.dropWhile_cons_of_neg (by rw [hSpace]; exact Bool.false_ne_true)]
    dsimp only
    rw [List.headD_cons, if_neg (not_or.mpr ⟨hMinus, hPlus⟩), hBase, hRead, if_neg hMinus]
    rfl

/-! ## Columns -/

/-- The number of digits. -/
theorem length_decimal_le {k : Nat} (hPos : 0 < k) (h : n < 10 ^ k) : (decimal n).length ≤ k := by
  have hSign : ¬ (n : Int) < 0 := by omega
  unfold decimal
  rw [if_neg hSign, List.nil_append, List.length_map, Int.natAbs_natCast]
  exact (Nat.length_toDigits_le_iff (by decide) hPos).mpr h

/-- A column of a `ulong` has eleven places. -/
theorem length_ludWide (v : Word) : (ludWide 11 v).length = 11 := by
  have hBound : (lud v).length ≤ 10 := length_decimal_le (by decide) (by have hLt := v.isLt; omega)
  rw [ludWide, List.length_append, List.length_replicate]
  omega

/-- And one of a `uvlong` has 21. -/
theorem length_lludWide (v : Uvlong) : (lludWide 21 v).length = 21 := by
  have hBound : (decimal v.toNat).length ≤ 20 :=
    length_decimal_le (by decide) (by have hLt := v.isLt; omega)
  rw [lludWide, List.length_append, List.length_replicate]
  omega

/-- The whole text has 78 bytes. -/
theorem length_timeText (c : Tod) : (timeText c).length = 78 := by
  have hSec := length_ludWide ((c.nsec / 1000000000).setWidth 32)
  unfold timeText NUMSIZE VLNUMSIZE
  simp only [Nat.reduceSub, List.length_append, List.length_singleton, hSec, length_lludWide]

/-- A column has no NUL. -/
theorem ludWide_nul (v : Word) : (0 : Byte) ∉ ludWide 11 v ++ [ch ' '] := by
  intro hMem
  rcases List.mem_append.mp hMem with hWide | hBlank
  · rcases List.mem_append.mp hWide with hPad | hDigit
    · exact absurd (List.eq_of_mem_replicate hPad) (by decide)
    · exact lud_nul v hDigit
  · exact absurd (List.mem_singleton.mp hBlank) (by decide)

/-- The first column of a read. -/
theorem readtime_column (c : Tod) : (readtime c 0 12).1 =
    some (12, ludWide 11 ((c.nsec / 1000000000).setWidth 32) ++ [ch ' ']) := by
  -- the rate is filled in on the first read, the time is not touched
  have hNsec : c.rated.nsec = c.nsec := by
    unfold Tod.rated
    split
    · rfl
    · rfl
  have hLen := length_timeText c.rated
  have hWhole : snprint (7 * NUMSIZE) (timeText c.rated) = timeText c.rated :=
    List.take_of_length_le (by rw [hLen]; decide)
  -- the other columns are behind these twelve bytes
  have hColumn : (timeText c.rated).take 12 = ludWide 11 ((c.nsec / 1000000000).setWidth 32) ++ [ch ' '] := by
    unfold timeText
    rw [hNsec, List.append_assoc, List.append_assoc]
    refine List.take_left' ?_
    rw [List.length_append, List.length_singleton]
    exact congrArg (· + 1) (length_ludWide _)
  have hRead : bytesAt (timeText c.rated) 0 12 = some ((timeText c.rated).take 12) :=
    bytesAt_some (by rw [hLen]; decide)
  unfold readtime readstr
  dsimp only
  rw [hWhole, hLen, if_neg (by decide), if_neg (by decide)]
  refine (congrArg (Option.map _) hRead).trans ?_
  rw [hColumn]
  rfl

/-- A column is written: a `long` is set to no more than 2147483647. -/
theorem writetime_column (m : Word) : writetime (ludWide 11 m ++ [ch ' ']) =
    if m.toNat = 0 then .error .Ebadtimectl
    else .ok (12, .todset (BitVec.ofNat 64 (min m.toNat (2 ^ 31 - 1) * 1000000000)) 0 0) := by
  have hNul := ludWide_nul m
  have hLen : (ludWide 11 m ++ [ch ' ']).length = 12 := by
    rw [List.length_append, length_ludWide, List.length_singleton]
  have hString : cstring (ludWide 11 m ++ [ch ' ']) = ludWide 11 m ++ [ch ' '] :=
    List.takeWhile_eq_self_iff.mpr fun b hb => decide_eq_true (ne_of_mem_of_not_mem hb hNul)
  have hCopy : strncpy 12 (ludWide 11 m ++ [ch ' ']) = ludWide 11 m ++ [ch ' '] := by
    unfold strncpy
    rw [hLen, List.take_of_length_le (by rw [hLen])]
    exact List.append_nil _
  -- strtol takes no more than the greatest long
  have hNumber : strtol (ludWide 11 m ++ [ch ' ']) = (min m.toNat (2 ^ 31 - 1) : Nat) := strtol_column _ _
  unfold writetime
  dsimp only
  rw [hLen, if_neg (by decide), hString, hCopy, cstring_append hNul, hNumber]
  have hNanos : ((min m.toNat (2 ^ 31 - 1) : Nat) : Int) * 1000000000 =
      ((min m.toNat (2 ^ 31 - 1) * 1000000000 : Nat) : Int) := (Int.natCast_mul ..).symm
  by_cases hZero : m.toNat = 0
  · rw [if_pos hZero, if_pos (by omega)]
  · rw [if_neg hZero, if_neg (by omega), hNanos, BitVec.ofInt_natCast]

/-- The column has the second modulo the range of a `long`. -/
theorem seconds_column (v : Uvlong) :
    ((v / 1000000000).setWidth 32 : Word) = BitVec.ofNat 32 (v.toNat / 1000000000) := by
  apply BitVec.eq_of_toNat_eq
  rw [BitVec.toNat_setWidth, BitVec.toNat_udiv, BitVec.toNat_ofNat]
  rfl

/-- When the second that the write of a column sets is the one of the clock. -/
theorem seconds_kept_iff {s : Nat} (hRange : s * 1000000000 < 2 ^ 64) :
    (if s % 2 ^ 32 = 0 then Except.error BintimeErr.Ebadtimectl
      else .ok (12, TodCall.todset
        (BitVec.ofNat 64 (min (s % 2 ^ 32) (2 ^ 31 - 1) * 1000000000)) 0 0)) =
      .ok (12, .todset (BitVec.ofNat 64 (s * 1000000000)) 0 0) ↔ 0 < s ∧ s < 2 ^ 31 := by
  have hLeft : min (s % 2 ^ 32) (2 ^ 31 - 1) * 1000000000 < 2 ^ 64 := by
    clear hRange
    omega
  constructor
  · intro h
    by_cases hZero : s % 2 ^ 32 = 0
    · rw [if_pos hZero] at h
      cases h
    · rw [if_neg hZero] at h
      simp only [Except.ok.injEq, Prod.mk.injEq, TodCall.todset.injEq, true_and, and_true] at h
      -- neither time wraps around
      have hNat := congrArg BitVec.toNat h
      rw [BitVec.toNat_ofNat, BitVec.toNat_ofNat, Nat.mod_eq_of_lt hLeft, Nat.mod_eq_of_lt hRange] at hNat
      clear h
      omega
  · rintro ⟨hPos, hSmall⟩
    have hMod : s % 2 ^ 32 = s := Nat.mod_eq_of_lt (by omega)
    have hMin : min s (2 ^ 31 - 1) = s := by omega
    rw [hMod, if_neg (by omega), hMin]

/-- **The seconds column of `time`.** A read gives the second of the clock, modulo the range
of a `long`, in twelve bytes. Writing these back sets the time to that second unless it is 0
or 2147483648 and more: a column of 0 is refused, and a larger number is clipped. -/
theorem time_round_trip (c : Tod) :
    let s := c.nsec.toNat / 1000000000
    let col := ludWide 11 (BitVec.ofNat 32 s) ++ [ch ' ']
    (readtime c 0 12).1 = some (12, col) ∧
      (writetime col = .ok (12, .todset (BitVec.ofNat 64 (s * 1000000000)) 0 0) ↔
        0 < s ∧ s < 2 ^ 31) ∧
      writetime col =
        if s % 2 ^ 32 = 0 then .error .Ebadtimectl
        else .ok (12, .todset
          (BitVec.ofNat 64 (min (s % 2 ^ 32) (2 ^ 31 - 1) * 1000000000)) 0 0) := by
  intro s col
  have hRange : s * 1000000000 < 2 ^ 64 :=
    lt_of_le_of_lt (Nat.div_mul_le_self c.nsec.toNat 1000000000) c.nsec.isLt
  have hRead : (readtime c 0 12).1 = some (12, col) := by
    rw [readtime_column, seconds_column]
  have hWrite := writetime_column (BitVec.ofNat 32 s)
  rw [BitVec.toNat_ofNat] at hWrite
  refine ⟨hRead, ?_, hWrite⟩
  rw [hWrite]
  exact seconds_kept_iff hRange

end

end Glendum
