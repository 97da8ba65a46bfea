import Mathlib.Algebra.Group.Nat.Defs
import Mathlib.Data.List.Basic
import Mathlib.Tactic.Common

/-!
# Byte memory of a 32-bit machine

A memory maps every 32-bit address to a byte; addresses wrap modulo `2^32`.
This module has the two ways a program touches it — a run of bytes written at
an address, and a little-endian 32-bit word stored or loaded — with the rules
that decide a read after a write:

* `write_at` / `write_apart` — inside and outside the written run;
* `load32_store32` / `load32_store32_apart` — the same for words;
* `load32_pushWords` — words pushed one below the other, as a call frame is
  built, read back by their position in the frame;
* `memset_unmapped`, `memmove_unmapped` — the same writes where only a part of the
  addresses is mapped.
-/

namespace Machine

abbrev Word := BitVec 32
abbrev Byte := BitVec 8

/-- Contents of a flat 32-bit address space. -/
abbrev Memory := Word → Byte

namespace Memory

/-! ## Runs of bytes -/

/-- Write the bytes `bs` at `a`, `a + 1`, … -/
def write (m : Memory) (a : Word) (bs : List Byte) : Memory :=
  fun x => (bs[(x - a).toNat]?).getD (m x)

/-- A byte that was written. -/
theorem write_at {m : Memory} {a : Word} {bs : List Byte} {i : Nat}
    (hi : i < bs.length) (hlen : bs.length ≤ 2 ^ 32) :
    write m a bs (a + BitVec.ofNat 32 i) = bs[i] := by
  have hOff : (a + BitVec.ofNat 32 i - a).toNat = i := by bv_omega
  rw [write, hOff, List.getElem?_eq_getElem hi, Option.getD_some]

/-- A byte that was not written. -/
theorem write_apart {m : Memory} {a x : Word} {bs : List Byte}
    (h : bs.length ≤ (x - a).toNat) : write m a bs x = m x := by
  rw [write, List.getElem?_eq_none h, Option.getD_none]

/-- A byte at an offset from the start of the run. -/
theorem write_offset {m : Memory} {a : Word} {bs : List Byte} {i : Nat} (hi : i < 2 ^ 32) :
    write m a bs (a + BitVec.ofNat 32 i) = (bs[i]?).getD (m (a + BitVec.ofNat 32 i)) := by
  have hOff : (a + BitVec.ofNat 32 i - a).toNat = i := by bv_omega
  rw [write, hOff]

/-! ## Memory that is mapped in part -/

section

variable {mapped : Word → Bool} {m : Memory} {a src : Word} {b : Byte} {n j : Nat}

/-- The `n` bytes from `a` on can be used. -/
def allMapped (mapped : Word → Bool) (a : Word) (n : Nat) : Bool :=
  (List.range n).all fun j => mapped (a + BitVec.ofNat 32 j)

/-- The bytes from `a` on. -/
def read (m : Memory) (a : Word) (n : Nat) : List Byte :=
  (List.range n).map fun j => m (a + BitVec.ofNat 32 j)

/-- `n` bytes `b`; `none` is a fault. -/
def memset (mapped : Word → Bool) (m : Memory) (a : Word) (b : Byte) (n : Nat) : Option Memory :=
  if allMapped mapped a n = true then some (m.write a (List.replicate n b)) else none

/-- `n` bytes from `src`; `none` is a fault. -/
def memmove (mapped : Word → Bool) (m : Memory) (dst src : Word) (n : Nat) : Option Memory :=
  if (allMapped mapped dst n && allMapped mapped src n) = true then some (m.write dst (m.read src n))
  else none

/-- One byte that is missing is enough for a fault. -/
theorem allMapped_hole (hj : j < n) (hHole : mapped (a + BitVec.ofNat 32 j) = false) :
    allMapped mapped a n = false := by
  rw [allMapped, List.all_eq_false]
  exact ⟨j, List.mem_range.mpr hj, by rw [hHole]; decide⟩

/-- `memset` faults when one of its bytes is not mapped. -/
theorem memset_unmapped (hj : j < n) (hHole : mapped (a + BitVec.ofNat 32 j) = false) :
    memset mapped m a b n = none := by
  rw [memset, allMapped_hole hj hHole]
  rfl

/-- `memmove` faults when one byte of its target is not mapped. -/
theorem memmove_unmapped (hj : j < n) (hHole : mapped (a + BitVec.ofNat 32 j) = false) :
    memmove mapped m a src n = none := by
  rw [memmove, allMapped_hole hj hHole]
  rfl

/-- Where everything is mapped nothing faults. -/
theorem allMapped_whole (a : Word) (n : Nat) : allMapped (fun _ => true) a n = true :=
  List.all_eq_true.mpr fun _ _ => rfl

/-- In whole memory `memset` writes all bytes. -/
theorem memset_whole (m : Memory) (a : Word) (b : Byte) (n : Nat) :
    memset (fun _ => true) m a b n = some (m.write a (List.replicate n b)) :=
  if_pos (allMapped_whole a n)

/-- In whole memory `memmove` writes the bytes that were read before. -/
theorem memmove_whole (m : Memory) (dst src : Word) (n : Nat) :
    memmove (fun _ => true) m dst src n = some (m.write dst (m.read src n)) := by
  rw [memmove, allMapped_whole, allMapped_whole]
  rfl

end

/-! ## Little-endian words -/

/-- The four bytes of a word, least significant first. -/
def le32 (v : Word) : List Byte :=
  [v.extractLsb' 0 8, v.extractLsb' 8 8, v.extractLsb' 16 8, v.extractLsb' 24 8]

@[simp] theorem length_le32 (v : Word) : (le32 v).length = 4 := rfl

/-- The word whose bytes are `b0 … b3`, least significant first. -/
def word32 (b0 b1 b2 b3 : Byte) : Word := b3 ++ b2 ++ b1 ++ b0

/-- A word is its four bytes. -/
theorem word32_le32 (v : Word) :
    word32 (v.extractLsb' 0 8) (v.extractLsb' 8 8) (v.extractLsb' 16 8)
      (v.extractLsb' 24 8) = v := by
  unfold word32
  ext i hi
  -- bit `i` is in one of four bytes, each of which starts at a multiple of 8
  simp only [BitVec.getElem_append, BitVec.getElem_extractLsb']
  split
  · rw [Nat.zero_add]
    exact BitVec.getLsbD_eq_getElem hi
  · split
    · rw [show 8 + (i - 8) = i by omega]
      exact BitVec.getLsbD_eq_getElem hi
    · split
      · rw [show 16 + (i - 8 - 8) = i by omega]
        exact BitVec.getLsbD_eq_getElem hi
      · rw [show 24 + (i - 8 - 8 - 8) = i by omega]
        exact BitVec.getLsbD_eq_getElem hi

def store32 (m : Memory) (a v : Word) : Memory := write m a (le32 v)

def load32 (m : Memory) (a : Word) : Word :=
  word32 (m a) (m (a + 1)) (m (a + 2)) (m (a + 3))

/-- A word is loaded as it was stored. -/
theorem load32_store32 (m : Memory) (a v : Word) : load32 (store32 m a v) a = v := by
  have hAt : ∀ k : Word, k.toNat < 4 →
      store32 m a v (a + k) = ((le32 v)[k.toNat]?).getD 0 := by
    intro k hk
    have hOff : (a + k - a).toNat = k.toNat := by bv_omega
    rw [store32, write, hOff, List.getElem?_eq_getElem (by simpa using hk),
      Option.getD_some, Option.getD_some]
  have h0 := hAt 0 (by decide)
  rw [show a + 0 = a by simp] at h0
  rw [load32, h0, hAt 1 (by decide), hAt 2 (by decide), hAt 3 (by decide)]
  exact word32_le32 v

/-- The words at `a` and `b` share no byte. -/
def Apart (a b : Word) : Prop := 4 ≤ (a - b).toNat ∧ 4 ≤ (b - a).toNat

/-- A store does not change a word apart from it. -/
theorem load32_store32_apart {m : Memory} {a b v : Word} (h : Apart a b) :
    load32 (store32 m a v) b = load32 m b := by
  obtain ⟨hab, hba⟩ := h
  have hOff : ∀ x : Word, x = b ∨ x = b + 1 ∨ x = b + 2 ∨ x = b + 3 →
      store32 m a v x = m x := by
    intro x hx
    apply write_apart
    rw [length_le32]
    rcases hx with rfl | rfl | rfl | rfl <;> bv_omega
  rw [load32, hOff b (by simp), hOff (b + 1) (by simp), hOff (b + 2) (by simp),
    hOff (b + 3) (by simp), load32]

/-! ## Frames built downwards -/

/-- Store the words of `ws` one below the other, the first at `top`. -/
def pushWords (m : Memory) (top : Word) : List Word → Memory
  | [] => m
  | w :: ws => pushWords (store32 m top w) (top - 4) ws

/-- The words are pushed one below the other. -/
theorem pushWords_append (m : Memory) (top : Word) (ws vs : List Word) :
    pushWords m top (ws ++ vs) =
      pushWords (pushWords m top ws) (top - BitVec.ofNat 32 (4 * ws.length)) vs := by
  induction ws generalizing m top with
  | nil => simp [pushWords]
  | cons w ws ih =>
    simp only [List.cons_append, pushWords, ih, List.length_cons]
    congr 1
    bv_omega

/-- Pushing below an address does not change the word at it. -/
theorem load32_pushWords_above {m : Memory} {top a : Word} {ws : List Word}
    (hlo : 4 ≤ (a - top).toNat) (hhi : (a - top).toNat + 4 * ws.length ≤ 2 ^ 32) :
    load32 (pushWords m top ws) a = load32 m a := by
  induction ws generalizing m top with
  | nil => rfl
  | cons w ws ih =>
    rw [List.length_cons] at hhi
    -- with words left to push, the next place does not wrap around to `a`
    have hBelow : (a - (top - 4)).toNat = (a - top).toNat + 4 ∨ ws = [] := by
      cases ws with
      | nil => exact Or.inr rfl
      | cons v vs =>
        rw [List.length_cons] at hhi
        left
        bv_omega
    have hApart : Apart top a := ⟨by bv_omega, hlo⟩
    rw [pushWords]
    rcases hBelow with hBelow | rfl
    · rw [ih (by omega) (by omega), load32_store32_apart hApart]
    · rw [pushWords, load32_store32_apart hApart]

/-- A frame that fits the address space reads back word by word. -/
theorem load32_pushWords {m : Memory} {top : Word} {ws : List Word} {i : Nat}
    (hi : i < ws.length) (hfit : 4 * ws.length ≤ 2 ^ 32) :
    load32 (pushWords m top ws) (top - BitVec.ofNat 32 (4 * i)) = ws[i] := by
  induction ws generalizing m top i with
  | nil => simp at hi
  | cons w ws ih =>
    rw [List.length_cons] at hfit hi
    rw [pushWords]
    cases i with
    | zero =>
      cases ws with
      | nil => simp [pushWords, load32_store32]
      | cons v vs =>
        -- the rest of the frame goes below the word at `top`
        rw [List.length_cons] at hfit
        rw [show top - BitVec.ofNat 32 (4 * 0) = top by simp,
          load32_pushWords_above (by bv_omega) (by rw [List.length_cons]; bv_omega),
          load32_store32]
        rfl
    | succ i =>
      rw [show top - BitVec.ofNat 32 (4 * (i + 1)) =
        top - 4 - BitVec.ofNat 32 (4 * i) by bv_omega]
      exact ih (by omega) (by omega)

end Memory

/-! ## Page arithmetic by masks -/

/-- The mask that clears the offset of an address in its 4096-byte page. -/
def pageMask : Word := ~~~ 0xFFF

/-- The offset in a page. -/
theorem toNat_and_offset (a : Word) : (a &&& 0xFFF).toNat = a.toNat % 4096 := by
  rw [BitVec.toNat_and]
  exact Nat.and_two_pow_sub_one_eq_mod a.toNat 12

/-- A page and the offset in it. -/
theorem mask_add_offset (a : Word) : (a &&& pageMask) + (a &&& 0xFFF) = a := by
  -- the two parts have no bit in common, so their sum is their union
  rw [BitVec.add_eq_or_of_and_eq_zero, ← BitVec.and_or_distrib_left]
  · rw [show pageMask ||| (0xFFF : Word) = BitVec.allOnes 32 by decide, BitVec.and_allOnes]
  · rw [BitVec.and_assoc, BitVec.and_comm a 0xFFF, ← BitVec.and_assoc pageMask,
      show pageMask &&& (0xFFF : Word) = 0 by decide]
    simp

/-- A page-aligned address is its own page address. -/
theorem and_pageMask {a : Word} (h : a.toNat % 4096 = 0) : a &&& pageMask = a := by
  have hOff : a &&& 0xFFF = 0 := by
    apply BitVec.eq_of_toNat_eq
    rw [toNat_and_offset, h]
    rfl
  have hSum := mask_add_offset a
  rw [hOff] at hSum
  simpa using hSum

/-- Bits packed below a page address do not disturb the address … -/
theorem packed_and_pageMask {a p : Word} (hp : p &&& pageMask = 0) :
    (a &&& pageMask ||| p) &&& pageMask = a &&& pageMask := by
  rw [BitVec.and_or_distrib_right, hp, BitVec.and_assoc, BitVec.and_self]
  simp

/-- … and are read back by any mask of offset bits that keeps them. -/
theorem packed_and_low {a p k : Word} (hk : pageMask &&& k = 0) (hp : p &&& k = p) :
    (a &&& pageMask ||| p) &&& k = p := by
  rw [BitVec.and_or_distrib_right, BitVec.and_assoc, hk, hp]
  simp

end Machine
