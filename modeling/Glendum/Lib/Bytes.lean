import Glendum.Lib.Memory

/-!
# Byte strings

Byte strings as a C program reads them from a pointer on: the list of the bytes
from there to the end of the memory that can be read. A function that looks for a
terminator answers `none` when it runs off that end.

* `strlen_append` — a string is as long as its bytes before the NUL;
* `cstring_append` — and is these bytes;
* `readBe32_append`, `eq_be32_append` — a big-endian word, and the bytes that it is read
  from.
-/

namespace Machine

/-! ## Strings that end in NUL -/

/-- The distance to the first NUL. -/
def strlen : List Byte → Option Nat
  | [] => none
  | b :: bs => if b = 0 then some 0 else (strlen bs).map (· + 1)

/-- The bytes before the first NUL. -/
def cstring (bs : List Byte) : List Byte := bs.takeWhile (· ≠ 0)

/-- The length of a string that has a NUL behind it. -/
theorem strlen_append {s rest : List Byte} (h : (0 : Byte) ∉ s) :
    strlen (s ++ 0 :: rest) = some s.length := by
  induction s with
  | nil => rfl
  | cons b s ih =>
    rw [List.mem_cons, not_or] at h
    rw [List.cons_append, strlen, if_neg (Ne.symm h.1), ih h.2]
    rfl

/-- The string is what comes before its NUL. -/
theorem cstring_append {s rest : List Byte} (h : (0 : Byte) ∉ s) :
    cstring (s ++ 0 :: rest) = s := by
  induction s with
  | nil => rfl
  | cons b s ih =>
    rw [List.mem_cons, not_or] at h
    have hTail := ih h.2
    simp only [cstring] at hTail ⊢
    rw [List.cons_append, List.takeWhile_cons_of_pos (by simpa using Ne.symm h.1), hTail]

/-- The code of a character. -/
def ch (c : Char) : Byte := BitVec.ofNat 8 c.toNat

/-- The bytes of a string literal, less the NUL. -/
def ascii (s : String) : List Byte := s.toList.map ch

/-! ## Big-endian words -/

/-- The four bytes of a word, most significant first. -/
def be32 (v : Word) : List Byte := (Memory.le32 v).reverse

@[simp] theorem length_be32 (v : Word) : (be32 v).length = 4 := rfl

def readBe32 : List Byte → Option Word
  | b3 :: b2 :: b1 :: b0 :: _ => some (Memory.word32 b0 b1 b2 b3)
  | _ => none

/-- A big-endian word is read as it was written. -/
theorem readBe32_append (v : Word) (rest : List Byte) : readBe32 (be32 v ++ rest) = some v :=
  congrArg some (Memory.word32_le32 v)

/-- The bytes of the word that was read. -/
theorem be32_word32 (b0 b1 b2 b3 : Byte) : be32 (Memory.word32 b0 b1 b2 b3) = [b3, b2, b1, b0] := by
  have h0 : (b3 ++ b2 ++ b1 ++ b0).extractLsb' 0 8 = b0 := BitVec.extractLsb'_append_eq_right
  have h1 : (b3 ++ b2 ++ b1 ++ b0).extractLsb' 8 8 = b1 := by
    rw [BitVec.extractLsb'_append_eq_of_le (by omega)]
    exact BitVec.extractLsb'_append_eq_right
  have h2 : (b3 ++ b2 ++ b1 ++ b0).extractLsb' 16 8 = b2 := by
    rw [BitVec.extractLsb'_append_eq_of_le (by omega), BitVec.extractLsb'_append_eq_of_le (by omega)]
    exact BitVec.extractLsb'_append_eq_right
  have h3 : (b3 ++ b2 ++ b1 ++ b0).extractLsb' 24 8 = b3 := by
    rw [BitVec.extractLsb'_append_eq_of_le (by omega), BitVec.extractLsb'_append_eq_of_le (by omega)]
    exact BitVec.extractLsb'_append_eq_left
  simp only [be32, Memory.le32, Memory.word32]
  rw [h0, h1, h2, h3]
  rfl

/-- And what is read is a word that was written. -/
theorem eq_be32_append {s : List Byte} {v : Word} (h : readBe32 s = some v) :
    s = be32 v ++ s.drop 4 := by
  unfold readBe32 at h
  split at h
  · obtain rfl := Option.some.inj h
    rw [be32_word32]
    rfl
  · cases h

end Machine
