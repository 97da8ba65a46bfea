import Glendum.Console.Types

/-!
# Glendum — the message log

`kmesgputs` slides the buffer `kmesg` down to make room and copies a text in; a read
of `/dev/kmesg` copies a part of it out.

* `text_kmesgputs` — the log keeps the last `KMESGSIZE` bytes of all that was put;
* `readKmesg_start` — a read from offset 0 with a large enough count returns it.
-/

namespace Glendum

open Machine

/-- A text, or the tail of a huge one. -/
theorem length_tail_le (str : List Byte) :
    (if KMESGSIZE < str.length then str.drop (str.length - KMESGSIZE) else str).length ≤
      KMESGSIZE := by
  split
  · rw [List.length_drop]
    omega
  · omega

/-- After the slide there is room for the text. -/
theorem slide_room (kmesg : Window Byte KMESGSIZE) {str : List Byte} (hStr : str.length ≤ KMESGSIZE) :
    (kmesg.slide (kmesg.n + str.length - KMESGSIZE)).n + str.length ≤ KMESGSIZE := by
  have hFits := kmesg.fits
  simp only [Window.slide]
  omega

def kmesgputs (kmesg : Window Byte KMESGSIZE) (str : List Byte) : Window Byte KMESGSIZE :=
  -- take the tail of huge writes
  let str := if KMESGSIZE < str.length then str.drop (str.length - KMESGSIZE) else str
  have hStr : str.length ≤ KMESGSIZE := length_tail_le _
  -- slide the buffer down to make room
  if hRoom : KMESGSIZE ≤ kmesg.n + str.length then
    (kmesg.slide (kmesg.n + str.length - KMESGSIZE)).append str (slide_room kmesg hStr)
  else kmesg.append str (Nat.le_of_not_le hRoom)

/-- The log keeps the last bytes of what was written. -/
theorem text_kmesgputs (kmesg : Window Byte KMESGSIZE) (str : List Byte) :
    (kmesgputs kmesg str).text = (kmesg.text ++ str).rtake KMESGSIZE := by
  have hFits := kmesg.fits
  unfold kmesgputs
  by_cases hHuge : KMESGSIZE < str.length
  · have hLen : (str.drop (str.length - KMESGSIZE)).length = KMESGSIZE := by
      rw [List.length_drop]
      omega
    -- the tail alone fills the log
    simp only [if_pos hHuge, hLen, Nat.le_add_left, dif_pos]
    rw [Window.text_append, Window.text_slide, Window.rtake_append_of_le (by omega), List.rtake,
      List.drop_eq_nil_iff.mpr, List.nil_append]
    rw [Window.length_text]
    omega
  · simp only [if_neg hHuge]
    split
    · rw [Window.text_append, Window.text_slide]
      exact kmesg.drop_append_text (by omega)
    · rw [Window.text_append, Window.rtake_of_length_le]
      rw [List.length_append, Window.length_text]
      omega

/-- The `Qkmesg` case of `consread`. -/
def readKmesg (kmesg : Window Byte KMESGSIZE) (off n : Nat) : List Byte :=
  if kmesg.n ≤ off then []
  else (kmesg.buf.drop off).take (if kmesg.n < off + n then kmesg.n - off else n)

/-- A read gives its part of the log. -/
theorem readKmesg_eq (kmesg : Window Byte KMESGSIZE) (off n : Nat) :
    readKmesg kmesg off n = (kmesg.text.drop off).take n := by
  have hFits := kmesg.fits
  have hSize := kmesg.size
  unfold readKmesg
  by_cases hPast : kmesg.n ≤ off
  · -- nothing is left behind the offset
    rw [if_pos hPast, List.drop_eq_nil_iff.mpr (by rw [Window.length_text]; exact hPast),
      List.take_nil]
  · rw [if_neg hPast, Window.text, List.drop_take, List.take_take]
    congr 1
    by_cases hCut : kmesg.n < off + n
    · rw [if_pos hCut]
      omega
    · rw [if_neg hCut]
      omega

/-- A long read from the start gives all of it. -/
theorem readKmesg_start {kmesg : Window Byte KMESGSIZE} {n : Nat} (h : KMESGSIZE ≤ n) :
    readKmesg kmesg 0 n = kmesg.text := by
  have hFits := kmesg.fits
  rw [readKmesg_eq, List.drop_zero, List.take_of_length_le]
  rw [Window.length_text]
  omega

end Glendum
