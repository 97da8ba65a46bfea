import Glendum.Lib.Bytes
import Mathlib.Data.List.TakeWhile

/-!
# Strings in a buffer

A C program keeps strings in a buffer and pointers to them, and cuts a string in two by
writing a NUL over one of its bytes. `StrAt` says which string stands at an offset;
`Strs` is a table of strings that lie behind one another without touching.

* `StrAt.str` — what is read at the offset;
* `StrAt.congr` — a string depends on its own bytes and its NUL only;
* `Strs.cut` — a NUL in one string of a table makes two of it and leaves the others;
* `SameText.str` — two buffers that agree up to a NUL hold the same strings before it.
-/

namespace Machine

/-! ## One string -/

/-- The string read from the offset `off` on. -/
def str (buf : List Byte) (off : Nat) : List Byte := cstring (buf.drop off)

/-- The string and what is behind it are the bytes of the buffer. -/
theorem str_append_rest (buf : List Byte) (off j : Nat) :
    (str buf off ++ (buf.drop off).dropWhile fun b : Byte => decide (b ≠ 0))[j]? = buf[off + j]? := by
  rw [← List.getElem?_drop]
  exact congrArg (fun l : List Byte => l[j]?) List.takeWhile_append_dropWhile

/-- The bytes of a string that is read. -/
theorem str_getElem? {buf : List Byte} {off j : Nat} (hj : j < (str buf off).length) :
    buf[off + j]? = (str buf off)[j]? := by
  rw [← str_append_rest, List.getElem?_append_left hj]

/-- A string has no NUL. -/
theorem str_nul {buf : List Byte} {off : Nat} : (0 : Byte) ∉ str buf off := fun hMem => by
  simpa using List.mem_takeWhile_imp hMem

/-- The string `s` stands at `off`: its bytes, none of them NUL, and a NUL behind them. -/
structure StrAt (buf : List Byte) (off : Nat) (s : List Byte) : Prop where
  bytes : ∀ j, j < s.length → buf[off + j]? = s[j]?
  nul   : buf[off + s.length]? = some 0
  clean : (0 : Byte) ∉ s

/-- The string that a C program passes: bytes without a NUL. -/
abbrev CStr := { s : List Byte // (0 : Byte) ∉ s }

/-- `strchr`: where the byte `c` stands first in the string at `off`. -/
def strchr (buf : List Byte) (off : Nat) (c : Byte) : Option Nat :=
  ((str buf off).idxOf? c).map (off + ·)

namespace StrAt

variable {buf buf' s a v : List Byte} {off i : Nat} {c x : Byte}

/-- The buffer from the offset on begins with the string. -/
theorem drop_eq (h : StrAt buf off s) : ∃ post, buf.drop off = s ++ 0 :: post := by
  refine ⟨(buf.drop off).drop (s.length + 1), ?_⟩
  apply List.ext_getElem?
  intro j
  rw [List.getElem?_drop]
  rcases Nat.lt_trichotomy j s.length with hj | rfl | hj
  · rw [h.bytes j hj, List.getElem?_append_left hj]
  · rw [h.nul, List.getElem?_append_right (Nat.le_refl _), Nat.sub_self]
    rfl
  · -- behind the NUL stands what stood there
    rw [List.getElem?_append_right (Nat.le_of_lt hj),
      show j - s.length = (j - s.length - 1) + 1 by omega, List.getElem?_cons_succ,
      List.drop_drop, List.getElem?_drop]
    congr 1
    omega

/-- A buffer that is written out around a string. -/
theorem of_eq {pre post : List Byte} (hClean : (0 : Byte) ∉ s) :
    StrAt (pre ++ (s ++ 0 :: post)) pre.length s where
  bytes j hj := by
    rw [List.getElem?_append_right (Nat.le_add_right ..), Nat.add_sub_cancel_left,
      List.getElem?_append_left hj]
  nul := by
    rw [List.getElem?_append_right (Nat.le_add_right ..), Nat.add_sub_cancel_left,
      List.getElem?_append_right (Nat.le_refl _), Nat.sub_self]
    rfl
  clean := hClean

/-- The string at an offset is the one that stands there. -/
theorem str (h : StrAt buf off s) : str buf off = s := by
  obtain ⟨post, hDrop⟩ := h.drop_eq
  rw [Machine.str, hDrop, cstring_append h.clean]

/-- A buffer with the same bytes has the same string. -/
theorem congr (h : StrAt buf off s) (hSame : ∀ j ≤ s.length, buf'[off + j]? = buf[off + j]?) :
    StrAt buf' off s where
  bytes j hj := (hSame j (Nat.le_of_lt hj)).trans (h.bytes j hj)
  nul := (hSame _ (Nat.le_refl _)).trans h.nul
  clean := h.clean

/-- A write outside the string is not seen in it. -/
theorem set (h : StrAt buf off s) (hOut : i < off ∨ off + s.length < i) (x : Byte) :
    StrAt (buf.set i x) off s :=
  h.congr fun j hj => List.getElem?_set_ne (by omega)

/-- A string ends inside the buffer. -/
theorem lt_length (h : StrAt buf off s) : off + s.length < buf.length :=
  (List.getElem?_eq_some_iff.mp h.nul).1

/-- The first byte, or the NUL of the empty string. -/
theorem getD_nil (h : StrAt buf off []) : buf.getD off 0 = 0 := by
  have hNul := h.nul
  rw [List.length_nil, Nat.add_zero] at hNul
  rw [List.getD_eq_getElem?_getD, hNul, Option.getD_some]

/-- The first byte of a string. -/
theorem getD_cons (h : StrAt buf off (c :: s)) : buf.getD off 0 = c := by
  have hFirst := h.bytes 0 (by simp)
  rw [Nat.add_zero, List.getElem?_cons_zero] at hFirst
  rw [List.getD_eq_getElem?_getD, hFirst, Option.getD_some]

/-- The end of a string is a string. -/
theorem suffix (h : StrAt buf off (a ++ s)) : StrAt buf (off + a.length) s where
  bytes j hj := by
    rw [Nat.add_assoc, h.bytes _ (by rw [List.length_append]; omega),
      List.getElem?_append_right (Nat.le_add_right ..), Nat.add_sub_cancel_left]
  nul := by
    rw [Nat.add_assoc, ← List.length_append]
    exact h.nul
  clean := fun hMem => h.clean (List.mem_append_right a hMem)

/-- A NUL over a byte leaves the part before it … -/
theorem cut_left (h : StrAt buf off (a ++ c :: v)) : StrAt (buf.set (off + a.length) 0) off a where
  bytes j hj := by
    rw [List.getElem?_set_ne (by omega), h.bytes j (by rw [List.length_append]; omega),
      List.getElem?_append_left hj]
  nul := by
    refine List.getElem?_set_self ?_
    have hLength := h.lt_length
    rw [List.length_append] at hLength
    omega
  clean := fun hMem => h.clean (List.mem_append_left _ hMem)

/-- … and the part behind it. -/
theorem cut_right (h : StrAt buf off (a ++ c :: v)) :
    StrAt (buf.set (off + a.length) 0) (off + a.length + 1) v := by
  have hRest : StrAt buf (off + a.length + [c].length) v := by
    rw [Nat.add_assoc, ← List.length_append]
    refine suffix ?_
    rwa [List.append_assoc, List.singleton_append]
  exact hRest.set (Or.inl (Nat.lt_succ_self _)) 0

/-- The first of the bytes that are looked for is found. -/
theorem strchr_mid (h : StrAt buf off (a ++ c :: v)) (hFirst : c ∉ a) :
    strchr buf off c = some (off + a.length) := by
  have hIdx : (a ++ c :: v).idxOf? c = some a.length :=
    List.idxOf?_eq_some_iff.mpr ⟨by rw [List.length_append, List.length_cons]; omega, by simp,
      fun j hj heq => hFirst (by
        rw [← heq, List.getElem_append_left hj]
        exact List.getElem_mem hj)⟩
  rw [strchr, h.str, hIdx, Option.map_some]

/-- A byte that does not occur is not found. -/
theorem strchr_none (h : StrAt buf off s) (hNone : c ∉ s) : strchr buf off c = none := by
  rw [strchr, h.str, List.idxOf?_eq_none_iff.mpr hNone, Option.map_none]

/-- What follows a string that is read is a NUL. -/
theorem of_str (h : Machine.str buf off = s) (hNext : buf[off + s.length]? = some x) :
    StrAt buf off s := by
  subst h
  -- the string that is read stops at the first byte that is a NUL
  refine ⟨fun j hj => str_getElem? hj, ?_, str_nul⟩
  rw [← str_append_rest, List.getElem?_append_right (Nat.le_refl _), Nat.sub_self,
    ← List.head?_eq_getElem?] at hNext ⊢
  have hStop := List.head?_dropWhile_not (fun b : Byte => decide (b ≠ 0)) (buf.drop off)
  rw [hNext] at hStop ⊢
  simpa using hStop

end StrAt

/-! ## Tables of strings -/

/-- The strings of the table stand at their offsets, from `lo` on, each behind the NUL of
the one before. -/
structure Strs (buf : List Byte) (lo : Nat) (l : List (Nat × List Byte)) : Prop where
  strs  : ∀ a ∈ l, StrAt buf a.1 a.2
  above : ∀ a ∈ l, lo ≤ a.1
  apart : l.Pairwise fun a b => a.1 + a.2.length < b.1

namespace Strs

variable {buf : List Byte} {lo off : Nat} {l l' l1 l2 : List (Nat × List Byte)} {n v : List Byte}
  {c : Byte}

/-- One string. -/
theorem singleton {s : List Byte} (h : StrAt buf off s) : Strs buf off [(off, s)] where
  strs a ha := by rw [List.mem_singleton.mp ha]; exact h
  above a ha := Nat.le_of_eq (congrArg Prod.fst (List.mem_singleton.mp ha)).symm
  apart := List.pairwise_singleton ..

/-- Some of the strings. -/
theorem sublist (h : Strs buf lo l) (hSub : l'.Sublist l) : Strs buf lo l' where
  strs a ha := h.strs a (hSub.subset ha)
  above a ha := h.above a (hSub.subset ha)
  apart := h.apart.sublist hSub

/-- A NUL in the middle of one makes two. -/
theorem cut (h : Strs buf lo (l1 ++ (off, n ++ c :: v) :: l2)) :
    Strs (buf.set (off + n.length) 0) lo
      (l1 ++ (off, n) :: (off + n.length + 1, v) :: l2) := by
  obtain ⟨hStrs, hAbove, hApart⟩ := h
  have hHere := hStrs (off, n ++ c :: v) (List.mem_append_right _ List.mem_cons_self)
  have hLow : lo ≤ off := hAbove (off, n ++ c :: v) (List.mem_append_right _ List.mem_cons_self)
  obtain ⟨hBefore, hRest, hCross⟩ := List.pairwise_append.mp hApart
  obtain ⟨hBehind, hAfter⟩ := List.pairwise_cons.mp hRest
  simp only [List.length_append, List.length_cons] at hBehind
  refine ⟨?_, ?_, ?_⟩
  · intro a ha
    simp only [List.mem_append, List.mem_cons] at ha
    rcases ha with ha | rfl | rfl | ha
    · -- the strings before and behind do not reach the byte
      have hEnd := hCross a ha _ List.mem_cons_self
      exact (hStrs a (List.mem_append_left _ ha)).set (Or.inr (by omega)) 0
    · exact hHere.cut_left
    · exact hHere.cut_right
    · have hStart := hBehind a ha
      exact (hStrs a (List.mem_append_right _ (List.mem_cons_of_mem _ ha))).set
        (Or.inl (by omega)) 0
  · intro a ha
    simp only [List.mem_append, List.mem_cons] at ha
    rcases ha with ha | rfl | rfl | ha
    · exact hAbove a (List.mem_append_left _ ha)
    · exact hLow
    · exact Nat.le_trans hLow (by omega)
    · exact hAbove a (List.mem_append_right _ (List.mem_cons_of_mem _ ha))
  · -- the two parts lie in the place of the string
    refine List.pairwise_append.mpr ⟨hBefore, ?_, ?_⟩
    · refine List.pairwise_cons.mpr ⟨?_, List.pairwise_cons.mpr ⟨?_, hAfter⟩⟩
      · intro b hb
        rcases List.mem_cons.mp hb with rfl | hb
        · exact Nat.lt_succ_self _
        · have hStart := hBehind b hb
          change off + n.length < b.1
          omega
      · intro b hb
        have hStart := hBehind b hb
        change off + n.length + 1 + v.length < b.1
        omega
    · intro a ha b hb
      have hEnd : a.1 + a.2.length < off := hCross a ha _ List.mem_cons_self
      simp only [List.mem_cons] at hb
      rcases hb with rfl | rfl | hb
      · exact hEnd
      · change a.1 + a.2.length < off + n.length + 1
        omega
      · exact hCross a ha b (List.mem_cons_of_mem _ hb)

end Strs

/-! ## Two buffers with the same text -/

/-- The buffers agree from `lo` to `hi`, where both have a NUL. -/
structure SameText (buf buf' : List Byte) (lo hi : Nat) : Prop where
  same   : ∀ i, lo ≤ i → i ≤ hi → buf[i]? = buf'[i]?
  nul    : buf[hi]? = some 0
  length : buf.length = buf'.length

namespace SameText

variable {buf buf' : List Byte} {lo hi i p : Nat}

/-- Two buffers with the same string have the same bytes there. -/
theorem of_strAt {s : List Byte} (h : StrAt buf p s) (h' : StrAt buf' p s)
    (hLength : buf.length = buf'.length) : SameText buf buf' p (p + s.length) where
  same i hLow hHigh := by
    obtain ⟨j, rfl⟩ := Nat.exists_eq_add_of_le hLow
    -- a byte of the string, or its NUL
    rcases Nat.lt_or_eq_of_le (show j ≤ s.length by omega) with hj | rfl
    · rw [h.bytes j hj, h'.bytes j hj]
    · rw [h.nul, h'.nul]
  nul := h.nul
  length := hLength

/-- A byte of the part that is the same. -/
theorem getD (h : SameText buf buf' lo hi) (hLow : lo ≤ i) (hHigh : i ≤ hi) :
    buf'.getD i 0 = buf.getD i 0 := by
  rw [List.getD_eq_getElem?_getD, List.getD_eq_getElem?_getD, h.same i hLow hHigh]

/-- A byte that is no NUL is before the last one. -/
theorem lt_of_ne (h : SameText buf buf' lo hi) (hHigh : i ≤ hi) (hByte : buf.getD i 0 ≠ 0) :
    i < hi := by
  refine Nat.lt_of_le_of_ne hHigh ?_
  rintro rfl
  rw [List.getD_eq_getElem?_getD, h.nul, Option.getD_some] at hByte
  exact hByte rfl

/-- The same write to both leaves them the same. -/
theorem set (h : SameText buf buf' lo hi) (hi' : i < hi) (x : Byte) :
    SameText (buf.set i x) (buf'.set i x) lo hi where
  same k hLow hHigh := by
    rw [List.getElem?_set, List.getElem?_set, h.same k hLow hHigh, h.length]
  nul := by rw [List.getElem?_set_ne (by omega), h.nul]
  length := by rw [List.length_set, List.length_set, h.length]

/-- A string that begins before the NUL ends there at the latest. -/
theorem strAt (h : SameText buf buf' lo hi) (hHigh : p ≤ hi) :
    StrAt buf p (str buf p) ∧ p + (str buf p).length ≤ hi := by
  have hEnd : p + (str buf p).length ≤ hi := by
    by_contra hPast
    have hByte := str_getElem? (show hi - p < (str buf p).length by omega)
    rw [Nat.add_sub_cancel' hHigh, h.nul] at hByte
    exact str_nul (List.mem_of_getElem? hByte.symm)
  have hIn : p + (str buf p).length < buf.length :=
    Nat.lt_of_le_of_lt hEnd (List.getElem?_eq_some_iff.mp h.nul).1
  exact ⟨StrAt.of_str rfl (List.getElem?_eq_getElem hIn), hEnd⟩

/-- A string that ends inside is the same in both. -/
theorem str (h : SameText buf buf' lo hi) (hLow : lo ≤ p) (hHigh : p ≤ hi) :
    str buf' p = str buf p := by
  obtain ⟨hAt, hEnd⟩ := h.strAt hHigh
  have hAt' : StrAt buf' p (Machine.str buf p) :=
    hAt.congr fun j hj => (h.same (p + j) (by omega) (by omega)).symm
  exact hAt'.str

end SameText

end Machine
