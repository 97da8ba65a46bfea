import Mathlib.Data.Nat.ModEq
import Glendum.Lib.Memory

/-!
# One's-complement sums

Words of `w` bits are added with an end-around carry: what leaves at the top comes in at
the bottom. The result is determined by the ordinary sum up to multiples of `2 ^ w - 1`,
except that it is 0 only if all words are. `Same` is this relation between numbers; code
that sums in wider registers, in another byte order or with late carries keeps it at every
step, and two words that are related are the same.

* `sum_same` — a sum with end-around carries stays the same as the ordinary one;
* `eq_of_same` — a word is determined;
* `same_carry` / `same_fold` — a carry may be added at the bottom, a number be folded;
* `bigEndian_same` — swapping the bytes of a sum swaps those of the words;
* `checksum_eq_zero_iff` — 0 is the sum of zero bytes only.
-/

namespace OnesComplement

open Machine

/-- Addition of words of `w` bits with an end-around carry. -/
def addAround (w a b : Nat) : Nat := (a + b) % 2 ^ w + (a + b) / 2 ^ w

def sum (w : Nat) (ws : List Nat) : Nat := ws.foldl (addAround w) 0

/-- Congruent modulo `m`, and zero together. -/
def Same (m a b : Nat) : Prop := a ≡ b [MOD m] ∧ (a = 0 ↔ b = 0)

/-! ## The relation -/

namespace Same

variable {m a b c d : Nat}

/-- The relation is an equivalence, and sums and multiples respect it. -/
theorem refl (m a : Nat) : Same m a a := ⟨rfl, Iff.rfl⟩

theorem of_eq (h : a = b) : Same m a b := h ▸ refl m a

theorem symm (h : Same m a b) : Same m b a := ⟨h.1.symm, h.2.symm⟩

theorem trans (h : Same m a b) (h' : Same m b c) : Same m a c :=
  ⟨h.1.trans h'.1, h.2.trans h'.2⟩

theorem add (h : Same m a b) (h' : Same m c d) : Same m (a + c) (b + d) := by
  refine ⟨h.1.add h'.1, ?_⟩
  have hFirst := h.2
  have hSecond := h'.2
  omega

theorem add_left (c : Nat) (h : Same m a b) : Same m (c + a) (c + b) := (refl m c).add h

theorem add_right (c : Nat) (h : Same m a b) : Same m (a + c) (b + c) := h.add (refl m c)

theorem mul_left (k : Nat) (h : Same m a b) : Same m (k * a) (k * b) := by
  refine ⟨h.1.mul_left k, ?_⟩
  rw [Nat.mul_eq_zero, Nat.mul_eq_zero, h.2]

end Same

section

variable {m k a b : Nat}

/-- A word, or its value with all bits set, is determined by the relation. -/
theorem eq_of_same (h : Same m a b) (ha : a ≤ m) (hb : b ≤ m) : a = b := by
  obtain ⟨hMod, hZero⟩ := h
  -- 0 and `m` are congruent, but only one of them is 0
  have hMod : a % m = b % m := hMod
  rcases Nat.lt_or_ge a m with hlt | hge
  · rcases Nat.lt_or_ge b m with hlt' | hge'
    · rw [Nat.mod_eq_of_lt hlt, Nat.mod_eq_of_lt hlt'] at hMod
      exact hMod
    · obtain rfl : b = m := by omega
      rw [Nat.mod_self, Nat.mod_eq_of_lt hlt] at hMod
      omega
  · -- the same from the other side: `b` is not 0, since `a` is not
    obtain rfl : a = m := by omega
    rcases Nat.lt_or_ge b a with hlt' | hge'
    · rw [Nat.mod_self, Nat.mod_eq_of_lt hlt'] at hMod
      omega
    · omega

/-- A weight that is 1 modulo `m` may be dropped. -/
theorem same_mul (hk : k ≡ 1 [MOD m]) (hPos : 0 < k) (a : Nat) : Same m (k * a) a := by
  refine ⟨?_, ?_⟩
  · have hMul := hk.mul_right a
    rwa [Nat.one_mul] at hMul
  · rw [Nat.mul_eq_zero]
    omega

/-- A carry out of the top can be added at the bottom. -/
theorem same_carry (hk : k ≡ 1 [MOD m]) (hPos : 0 < k) (a c : Nat) :
    Same m (a + k * c) (a + c) := (same_mul hk hPos c).add_left a

/-- A carry is worth 1 modulo the largest number of the width. -/
theorem pow_modEq_one (w : Nat) : 2 ^ w ≡ 1 [MOD 2 ^ w - 1] := by
  have hPos := Nat.two_pow_pos w
  rw [← Nat.sub_add_cancel hPos, Nat.add_sub_cancel]
  exact Nat.add_modEq_left

/-- So the upper part of a sum may be added to the lower part. -/
theorem same_fold (w s : Nat) : Same (2 ^ w - 1) (s % 2 ^ w + s / 2 ^ w) s := by
  have hCarry := same_carry (pow_modEq_one w) (Nat.two_pow_pos w) (s % 2 ^ w) (s / 2 ^ w)
  rw [Nat.mod_add_div] at hCarry
  exact hCarry.symm

end

/-! ## Sums -/

section

variable {w : Nat}

/-- A sum with end-around carries is the plain sum, but for multiples of the modulus. -/
theorem foldl_same (ws : List Nat) :
    ∀ s, Same (2 ^ w - 1) (ws.foldl (addAround w) s) (s + ws.sum) := by
  induction ws with
  | nil => exact fun s => Same.refl _ s
  | cons x ws ih =>
    intro s
    rw [List.foldl_cons, List.sum_cons, ← Nat.add_assoc]
    exact (ih _).trans ((same_fold w (s + x)).add_right _)

/-- The same from 0 on. -/
theorem sum_same (ws : List Nat) : Same (2 ^ w - 1) (sum w ws) ws.sum := by
  have h := foldl_same (w := w) ws 0
  rwa [Nat.zero_add] at h

/-- With its carry brought around, a sum fits the width again. -/
theorem addAround_le {a b : Nat} (ha : a ≤ 2 ^ w - 1) (hb : b ≤ 2 ^ w - 1) :
    addAround w a b ≤ 2 ^ w - 1 := by
  have hPos := Nat.two_pow_pos w
  rw [addAround]
  rcases Nat.lt_or_ge (a + b) (2 ^ w) with hlt | hge
  · rw [Nat.mod_eq_of_lt hlt, Nat.div_eq_of_lt hlt]
    omega
  · rw [Nat.mod_eq_sub_mod hge, Nat.mod_eq_of_lt (by omega), Nat.div_eq_sub_div hPos hge,
      Nat.div_eq_of_lt (by omega)]
    omega

/-- So does the sum of many. -/
theorem foldl_le {ws : List Nat} (h : ∀ x ∈ ws, x ≤ 2 ^ w - 1) :
    ∀ s, s ≤ 2 ^ w - 1 → ws.foldl (addAround w) s ≤ 2 ^ w - 1 := by
  induction ws with
  | nil => exact fun s hs => hs
  | cons x ws ih =>
    intro s hs
    rw [List.foldl_cons]
    have hx := h x List.mem_cons_self
    exact ih (fun y hy => h y (List.mem_cons_of_mem _ hy)) _ (addAround_le hs hx)

/-- And the sum from 0 on. -/
theorem sum_le {ws : List Nat} (h : ∀ x ∈ ws, x ≤ 2 ^ w - 1) : sum w ws ≤ 2 ^ w - 1 :=
  foldl_le h 0 (Nat.zero_le _)

end

/-! ## Sums of bytes -/

/-- A string as big-endian words of 16 bits, with a zero byte appended if its length is
odd. -/
def words : List Byte → List Nat
  | [] => []
  | [b] => [256 * b.toNat]
  | b :: b' :: bs => (256 * b.toNat + b'.toNat) :: words bs

/-- The ordinary sum of the little-endian words. -/
def littleSum : List Byte → Nat
  | [] => 0
  | [b] => b.toNat
  | b :: b' :: bs => b.toNat + 256 * b'.toNat + littleSum bs

/-- A byte in front moves all others by one. -/
theorem words_cons_sum (bs : List Byte) :
    ∀ b : Byte, (words (b :: bs)).sum = 256 * b.toNat + littleSum bs := by
  induction bs using littleSum.induct with
  | case1 =>
    intro b
    simp [words, littleSum]
  | case2 b' =>
    intro b
    simp [words, littleSum]
  | case3 b₁ b₂ bs ih =>
    intro b
    rw [words, List.sum_cons, ih, littleSum]
    omega

/-- To add the bytes the other way round is to multiply by 256, the last odd byte included. -/
theorem bigEndian_same (bs : List Byte) : Same 65535 (256 * littleSum bs) (words bs).sum := by
  induction bs using littleSum.induct with
  | case1 => exact Same.refl _ 0
  | case2 b => exact Same.of_eq (by simp [words, littleSum])
  | case3 b b' bs ih =>
    -- the upper byte of a word leaves at the top and comes in at the bottom
    have hWord : Same 65535 (256 * b.toNat + 65536 * b'.toNat) (256 * b.toNat + b'.toNat) :=
      same_carry (by decide) (by decide) _ _
    rw [littleSum, words, List.sum_cons]
    rw [show 256 * (b.toNat + 256 * b'.toNat + littleSum bs) =
      (256 * b.toNat + 65536 * b'.toNat) + 256 * littleSum bs by omega]
    exact hWord.add ih

/-- Each word fits 16 bits. -/
theorem words_le (bs : List Byte) : ∀ x ∈ words bs, x ≤ 2 ^ 16 - 1 := by
  induction bs using words.induct with
  | case1 => simp [words]
  | case2 b =>
    intro x hx
    have hb := b.isLt
    rw [words, List.mem_singleton] at hx
    omega
  | case3 b b' bs ih =>
    intro x hx
    have hb := b.isLt
    have hb' := b'.isLt
    rw [words, List.mem_cons] at hx
    rcases hx with rfl | hx
    · omega
    · exact ih x hx

theorem byte_eq_zero_iff (b : Byte) : b.toNat = 0 ↔ b = 0 :=
  ⟨fun h => BitVec.eq_of_toNat_eq h, fun h => h ▸ rfl⟩

/-- The plain sum is zero for zeros only. -/
theorem words_sum_eq_zero_iff (bs : List Byte) : (words bs).sum = 0 ↔ ∀ b ∈ bs, b = 0 := by
  induction bs using words.induct with
  | case1 => simp [words]
  | case2 b =>
    rw [words, List.sum_singleton, List.forall_mem_singleton, ← byte_eq_zero_iff]
    omega
  | case3 b b' bs ih =>
    have hSplit : 256 * b.toNat + b'.toNat + (words bs).sum = 0 ↔
        b = 0 ∧ b' = 0 ∧ (words bs).sum = 0 := by
      rw [← byte_eq_zero_iff, ← byte_eq_zero_iff]
      omega
    rw [words, List.sum_cons, List.forall_mem_cons, List.forall_mem_cons, hSplit]
    exact and_congr_right fun _ => and_congr_right fun _ => ih

/-- The checksum of a string: the sum of its words of 16 bits. -/
def checksum (bs : List Byte) : Nat := sum 16 (words bs)

/-- A number of 16 bits with the right remainder is the checksum. -/
theorem checksum_eq {v : Nat} {bs : List Byte} (h : Same 65535 v (words bs).sum)
    (hv : v ≤ 65535) : v = checksum bs := by
  have hSum : Same 65535 (checksum bs) (words bs).sum := sum_same (words bs)
  -- both are words of 16 bits
  exact eq_of_same (h.trans hSum.symm) hv (sum_le (words_le bs))

/-- And so the checksum is zero for zeros only. -/
theorem checksum_eq_zero_iff (bs : List Byte) : checksum bs = 0 ↔ ∀ b ∈ bs, b = 0 := by
  have hSum : Same 65535 (checksum bs) (words bs).sum := sum_same (words bs)
  rw [hSum.2, words_sum_eq_zero_iff]

end OnesComplement
