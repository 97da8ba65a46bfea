import Mathlib.Data.List.DropRight
import Mathlib.Tactic.Common

/-!
# Buffers written in place, and a buffer that keeps the last bytes

A buffer is the list of its bytes; writing into it does not change its length. A
window is a buffer that is filled from its start and slides: when a text does not fit
behind what is there, the oldest bytes go.

* `take_overwrite`, `getElem?_overwrite` — what is around the written bytes stays;
* `text_slide`, `text_append` — what a window shows when it moves and when it grows;
* `rtake_rtake_append` — keeping the last values step by step keeps the last of all.
-/

namespace Machine

variable {α : Type*}

/-- `bs` written over what is at position `pos`. -/
def overwrite (buf : List α) (pos : Nat) (bs : List α) : List α :=
  buf.take pos ++ bs ++ buf.drop (pos + bs.length)

/-- Bytes are replaced, none are added. -/
theorem length_overwrite {buf bs : List α} {pos : Nat} (h : pos + bs.length ≤ buf.length) :
    (overwrite buf pos bs).length = buf.length := by
  simp only [overwrite, List.length_append, List.length_take, List.length_drop]
  omega

/-- All of a buffer is replaced. -/
theorem overwrite_self (buf : List α) : overwrite buf 0 buf = buf := by
  rw [overwrite, List.take_zero, List.nil_append, Nat.zero_add, List.drop_length, List.append_nil]

/-- The beginning of the buffer and the new bytes behind it. -/
theorem take_overwrite {buf bs : List α} {pos : Nat} (h : pos ≤ buf.length) :
    (overwrite buf pos bs).take (pos + bs.length) = buf.take pos ++ bs := by
  have hLen : (buf.take pos ++ bs).length = pos + bs.length := by
    rw [List.length_append, List.length_take_of_le h]
  rw [overwrite, List.take_append_of_le_length (le_of_eq hLen.symm), ← hLen, List.take_length]

/-- What stands at a place of a buffer that was written to. -/
theorem getElem?_overwrite {buf bs : List α} {pos i : Nat} (h : pos ≤ buf.length) :
    (overwrite buf pos bs)[i]? =
      if pos ≤ i ∧ i < pos + bs.length then bs[i - pos]? else buf[i]? := by
  have hLen : (buf.take pos).length = pos := List.length_take_of_le h
  rw [overwrite, List.append_assoc]
  -- before, inside or behind what was written
  by_cases hLow : pos ≤ i
  · rw [List.getElem?_append_right (by omega), hLen]
    by_cases hHigh : i < pos + bs.length
    · rw [if_pos ⟨hLow, hHigh⟩, List.getElem?_append_left (by omega)]
    · rw [if_neg (fun hIn => hHigh hIn.2), List.getElem?_append_right (by omega), List.getElem?_drop]
      congr 1
      omega
  · rw [if_neg (fun hIn => hLow hIn.1), List.getElem?_append_left (by omega),
      List.getElem?_take_of_lt (by omega)]

/-! ## Sliding windows -/

/-- The first `n` places are filled. -/
structure Window (α : Type*) (N : Nat) where
  buf  : List α
  n    : Nat
  size : buf.length = N
  fits : n ≤ N

namespace Window

variable {N : Nat}

/-- What the window shows. -/
def text (w : Window α N) : List α := w.buf.take w.n

/-- The text has as many bytes as are counted. -/
@[simp] theorem length_text (w : Window α N) : w.text.length = w.n := by
  rw [text, List.length_take, w.size]
  exact Nat.min_eq_left w.fits

/-- The window moved on by `d` places: the first `d` values go. -/
def slide (w : Window α N) (d : Nat) : Window α N where
  buf := overwrite w.buf 0 (w.buf.drop d)
  n := w.n - d
  size := by
    rw [length_overwrite, w.size]
    rw [List.length_drop]
    omega
  fits := Nat.le_trans (Nat.sub_le ..) w.fits

/-- To slide is to drop the oldest bytes. -/
theorem text_slide (w : Window α N) (d : Nat) : (w.slide d).text = w.text.drop d := by
  have hFits := w.fits
  have hSize := w.size
  simp only [text, slide, overwrite, List.take_zero, List.nil_append, Nat.zero_add]
  rw [List.drop_take, List.take_append_of_le_length]
  rw [List.length_drop]
  omega

/-- A text that fits behind what is there. -/
def append (w : Window α N) (str : List α) (h : w.n + str.length ≤ N) : Window α N where
  buf := overwrite w.buf w.n str
  n := w.n + str.length
  size := by rw [length_overwrite (by rw [w.size]; exact h), w.size]
  fits := h

/-- To append is to add to the text. -/
theorem text_append (w : Window α N) (str : List α) (h : w.n + str.length ≤ N) :
    (w.append str h).text = w.text ++ str :=
  take_overwrite (by rw [w.size]; exact w.fits)

/-! ## The last values of a list -/

/-- A list that is short enough is kept. -/
theorem rtake_of_length_le {l : List α} {n : Nat} (h : l.length ≤ n) : l.rtake n = l := by
  rw [List.rtake, Nat.sub_eq_zero_of_le h, List.drop_zero]

/-- Of what comes before a list that is taken whole, the end is taken. -/
theorem rtake_append {l l' : List α} {n : Nat} (h : l'.length ≤ n) :
    (l ++ l').rtake n = l.rtake (n - l'.length) ++ l' := by
  rw [List.rtake, List.rtake, List.length_append, List.drop_append_of_le_length (by omega)]
  congr 2
  omega

/-- Only the second list is seen when it is long enough. -/
theorem rtake_append_of_le {l l' : List α} {n : Nat} (h : n ≤ l'.length) :
    (l ++ l').rtake n = l'.rtake n := by
  rw [List.rtake, List.rtake, List.length_append, List.drop_append,
    List.drop_eq_nil_iff.mpr (by omega), List.nil_append]
  congr 1
  omega

/-- Taking the end of the end. -/
theorem rtake_rtake_append (l l' : List α) (n : Nat) :
    (l.rtake n ++ l').rtake n = (l ++ l').rtake n := by
  by_cases h : l'.length ≤ n
  · -- the second list stays whole, and the end of the end of the first is taken
    rw [rtake_append h, rtake_append h]
    congr 1
    simp only [List.rtake, List.drop_drop, List.length_drop]
    congr 1
    omega
  · rw [rtake_append_of_le (by omega), rtake_append_of_le (by omega)]

/-- No more than asked for is kept. -/
theorem length_rtake (l : List α) (n : Nat) : (l.rtake n).length = min n l.length := by
  rw [List.rtake, List.length_drop]
  omega

/-- The values that stay when a text is to fit behind them, and the text. -/
theorem drop_append_text (w : Window α N) {tail : List α} (h : tail.length ≤ N) :
    w.text.drop (w.n + tail.length - N) ++ tail = (w.text ++ tail).rtake N := by
  have hFits := w.fits
  have hCut : w.n + tail.length - N = w.n - (N - tail.length) := by omega
  rw [rtake_append h, List.rtake, length_text, hCut]

end Window

end Machine
