import Glendum.Lib.I386
import Mathlib.Tactic.Ring

/-!
# Glendum — the middle of a 64-bit product

The time of day is a product of two 64-bit numbers without its lowest 32 bits, cut to 64
bits. `mul64fract` adds it up in the two words of the result, from four products of
halves. What is carried out of the upper word belongs to bits that are cut.

* `a1b0_sum`, `a0b1_sum`, `a0b0_sum` — what each product adds to the two words;
* `mul64fract_outside` — no other byte of the memory changes;
* `mul64fract_exact` — so the sum is the product, whichever of the additions carry.
-/

namespace Glendum

open Machine I386 Reg

/-! ## The code -/

def a1b1 (c : Cpu) : Cpu :=
  c
  |> movl (.fp 8) AX
  |> mull (.fp 16)
  |> movl AX (.mem 4 CX)        -- r2 = lo(a1*b1)

def a1b0 (c : Cpu) : Cpu :=
  c
  |> movl (.fp 8) AX
  |> mull (.fp 12)
  |> movl AX (.mem 0 CX)        -- r1 = lo(a1*b0)
  |> addl DX (.mem 4 CX)        -- r2 += hi(a1*b0)

def a0b1 (c : Cpu) : Cpu :=
  c
  |> movl (.fp 4) AX
  |> mull (.fp 16)
  |> addl AX (.mem 0 CX)        -- r1 += lo(a0*b1)
  |> adcl DX (.mem 4 CX)        -- r2 += hi(a0*b1) + carry

def a0b0 (c : Cpu) : Cpu :=
  c
  |> movl (.fp 4) AX
  |> mull (.fp 12)
  |> addl DX (.mem 0 CX)        -- r1 += hi(a0*b0)
  |> adcl BX (.mem 4 CX)        -- r2 += carry

def mul64fract (c : Cpu) : Cpu :=
  c
  |> movl (.fp 0) CX
  |> xorl BX BX
  |> a1b1
  |> a1b0
  |> a0b1
  |> a0b0

/-- The arguments `r`, `a` and `b`, the lower half of a number first. -/
def fractFrame (r : Word) (a b : BitVec 64) : List Word :=
  [r, a.extractLsb' 0 32, a.extractLsb' 32 32, b.extractLsb' 0 32, b.extractLsb' 32 32]

/-! ## Sums in two words -/

/-- The words `r1` and `r2` as one number. -/
def fractSum (c : Cpu) : Nat := (load64 c.mem c.cx).toNat

/-- An argument as a number. -/
def fractArg (c : Cpu) (off : Nat) : Nat := (c.value (.fp off)).toNat

section

variable (c : Cpu)

/-- The sum at the result, from its two words. -/
theorem fractSum_eq : fractSum c =
    (Memory.load32 c.mem (c.cx + 0)).toNat + 2 ^ 32 * (Memory.load32 c.mem (c.cx + 4)).toNat := by
  rw [fractSum, load64, toNat_append, show c.cx + 0 = c.cx by simp]
  omega

/-- The flags are not part of it. -/
theorem fractSum_flags (f : Flags) : fractSum { c with flags := f } = fractSum c := rfl

/-- The two words of the result do not overlap. -/
theorem apart_words (r : Word) : Memory.Apart (r + 4) (r + 0) ∧ Memory.Apart (r + 0) (r + 4) := by
  refine ⟨⟨?_, ?_⟩, ⟨?_, ?_⟩⟩ <;> bv_omega

/-- The low word is written. -/
theorem fractSum_write_low (v : Word) : fractSum (c.write (.mem 0 CX) v) =
    v.toNat + 2 ^ 32 * (Memory.load32 c.mem (c.cx + 4)).toNat := by
  rw [fractSum_eq]
  show (Memory.load32 (Memory.store32 c.mem (c.cx + 0) v) (c.cx + 0)).toNat +
    2 ^ 32 * (Memory.load32 (Memory.store32 c.mem (c.cx + 0) v) (c.cx + 4)).toNat = _
  rw [Memory.load32_store32, Memory.load32_store32_apart (apart_words c.cx).2]

/-- The high word is written. -/
theorem fractSum_write_high (v : Word) : fractSum (c.write (.mem 4 CX) v) =
    (Memory.load32 c.mem (c.cx + 0)).toNat + 2 ^ 32 * v.toNat := by
  rw [fractSum_eq]
  show (Memory.load32 (Memory.store32 c.mem (c.cx + 4) v) (c.cx + 0)).toNat +
    2 ^ 32 * (Memory.load32 (Memory.store32 c.mem (c.cx + 4) v) (c.cx + 4)).toNat = _
  rw [Memory.load32_store32, Memory.load32_store32_apart (apart_words c.cx).1]

/-- A carry out of the upper word is lost. -/
theorem fractSum_addl_high (v : Word) (f : Bool) :
    fractSum (c.write (.mem 4 CX) (addWith (c.read (.mem 4 CX)) v f)) =
      (fractSum c + 2 ^ 32 * (v.toNat + f.toNat)) % 2 ^ 64 := by
  have hSum := add_carry (c.read (.mem 4 CX)) v f
  rw [fractSum_write_high, fractSum_eq]
  show _ = ((Memory.load32 c.mem (c.cx + 0)).toNat + 2 ^ 32 * (c.read (.mem 4 CX)).toNat +
    2 ^ 32 * (v.toNat + f.toNat)) % 2 ^ 64
  have hLow := (Memory.load32 c.mem (c.cx + 0)).isLt
  have hHigh := (addWith (c.read (.mem 4 CX)) v f).isLt
  omega

/-- A carry out of the lower word is added to the upper one. -/
theorem fractSum_add (x y : Reg) :
    fractSum (adcl y (.mem 4 CX) (addl x (.mem 0 CX) c)) =
      (fractSum c + (c.get x).toNat + 2 ^ 32 * (c.get y).toNat) % 2 ^ 64 := by
  have hLow := add_carry (c.read (.mem 0 CX)) (c.get x) false
  have hFirst : fractSum (addl x (.mem 0 CX) c) =
      (addWith (c.read (.mem 0 CX)) (c.get x) false).toNat +
        2 ^ 32 * (Memory.load32 c.mem (c.cx + 4)).toNat := fractSum_write_low c _
  have hKept : (addl x (.mem 0 CX) c).get y = c.get y := by
    show ({ c.write (.mem 0 CX) _ with flags := _ } : Cpu).get y = c.get y
    rw [Cpu.get_flags, Cpu.get_write_mem]
  have hCarry : (addl x (.mem 0 CX) c).flags.cf =
      (addFlags (c.read (.mem 0 CX)) (c.get x) false).cf := rfl
  have hSecond := fractSum_addl_high (addl x (.mem 0 CX) c) ((addl x (.mem 0 CX) c).get y)
    (addl x (.mem 0 CX) c).flags.cf
  rw [adcl, fractSum_flags]
  show fractSum ((addl x (.mem 0 CX) c).write (.mem 4 CX)
    (addWith ((addl x (.mem 0 CX) c).read (.mem 4 CX)) ((addl x (.mem 0 CX) c).get y)
      (addl x (.mem 0 CX) c).flags.cf)) = _
  -- the carry of the lower word is what `hFirst` has lost
  rw [hSecond, hFirst, hKept, hCarry, fractSum_eq]
  show _ = ((c.read (.mem 0 CX)).toNat + _ + _ + _) % _
  rw [Bool.toNat_false] at hLow
  congr 1
  omega

/-! ## The four products -/

/-- The product of the high words is the high word of the result. -/
theorem a1b1_high :
    (Memory.load32 (a1b1 c).mem (c.cx + 4)).toNat = fractArg c 8 * fractArg c 16 % 2 ^ 32 := by
  show (Memory.load32 (Memory.store32 c.mem (c.cx + 4) _) (c.cx + 4)).toNat = _
  rw [Memory.load32_store32]
  exact BitVec.toNat_mul ..

/-- The lower word is new, the upper one is added to. -/
theorem a1b0_sum : fractSum (a1b0 c) =
    (2 ^ 32 * (Memory.load32 c.mem (c.cx + 4)).toNat + fractArg c 8 * fractArg c 12) % 2 ^ 64 := by
  have hProd := mull_product (c.value (.fp 8)) (c.value (.fp 12))
  let c' := c |> movl (.fp 8) AX |> mull (.fp 12)
  have hLow : fractSum (movl AX (.mem 0 CX) c') =
      (c.value (.fp 8) * c.value (.fp 12)).toNat +
        2 ^ 32 * (Memory.load32 c.mem (c.cx + 4)).toNat := fractSum_write_low c' _
  have hHigh : fractSum (a1b0 c) = (fractSum (movl AX (.mem 0 CX) c') +
      2 ^ 32 * ((mulHigh (c.value (.fp 8)) (c.value (.fp 12))).toNat + 0)) % 2 ^ 64 :=
    fractSum_addl_high (movl AX (.mem 0 CX) c') _ false
  rw [hHigh, hLow, fractArg, fractArg]
  congr 1
  omega

/-- The second of the middle products is added. -/
theorem a0b1_sum : fractSum (a0b1 c) = (fractSum c + fractArg c 4 * fractArg c 16) % 2 ^ 64 := by
  have hProd := mull_product (c.value (.fp 4)) (c.value (.fp 16))
  have hAdd := fractSum_add (c |> movl (.fp 4) AX |> mull (.fp 16)) AX DX
  have hAdd : fractSum (a0b1 c) = (fractSum c + (c.value (.fp 4) * c.value (.fp 16)).toNat +
      2 ^ 32 * (mulHigh (c.value (.fp 4)) (c.value (.fp 16))).toNat) % 2 ^ 64 := hAdd
  rw [hAdd, fractArg, fractArg]
  congr 1
  omega

/-- Of the last product only the upper word counts. -/
theorem a0b0_sum (hZero : c.bx = 0) :
    fractSum (a0b0 c) = (fractSum c + fractArg c 4 * fractArg c 12 / 2 ^ 32) % 2 ^ 64 := by
  have hProd := mull_product (c.value (.fp 4)) (c.value (.fp 12))
  have hAdd : fractSum (a0b0 c) = (fractSum c +
      (mulHigh (c.value (.fp 4)) (c.value (.fp 12))).toNat + 2 ^ 32 * c.bx.toNat) % 2 ^ 64 :=
    fractSum_add (c |> movl (.fp 4) AX |> mull (.fp 12)) DX BX
  -- with a lower word below 2 ^ 32 the upper one is the quotient
  have hLow := (c.value (.fp 4) * c.value (.fp 12)).isLt
  rw [hAdd, hZero, fractArg, fractArg]
  congr 1
  show _ + _ + 2 ^ 32 * 0 = _
  omega

/-- What the four products add up to. -/
theorem mul64fract_sum : fractSum (mul64fract c) =
    (2 ^ 32 * (fractArg c 8 * fractArg c 16) + fractArg c 8 * fractArg c 12 +
      fractArg c 4 * fractArg c 16 + fractArg c 4 * fractArg c 12 / 2 ^ 32) % 2 ^ 64 := by
  let c₀ := c |> movl (.fp 0) CX |> xorl BX BX
  -- none of the products writes to `BX`
  have hZero : c₀.bx = 0 := BitVec.xor_self
  have hHigh : (Memory.load32 (a1b1 c₀).mem ((a1b1 c₀).cx + 4)).toNat =
      fractArg c 8 * fractArg c 16 % 2 ^ 32 := a1b1_high c₀
  have h₁ : fractSum (a1b0 (a1b1 c₀)) =
      (2 ^ 32 * (fractArg c 8 * fractArg c 16 % 2 ^ 32) + fractArg c 8 * fractArg c 12) % 2 ^ 64 :=
    hHigh ▸ a1b0_sum (a1b1 c₀)
  have h₂ : fractSum (a0b1 (a1b0 (a1b1 c₀))) =
      (fractSum (a1b0 (a1b1 c₀)) + fractArg c 4 * fractArg c 16) % 2 ^ 64 := a0b1_sum _
  have h₃ : fractSum (mul64fract c) =
      (fractSum (a0b1 (a1b0 (a1b1 c₀))) + fractArg c 4 * fractArg c 12 / 2 ^ 32) % 2 ^ 64 :=
    a0b0_sum (a0b1 (a1b0 (a1b1 c₀))) hZero
  -- every sum is cut to 64 bits, and so is the last
  rw [h₃, h₂, h₁]
  omega

end

/-! ## The whole product -/

/-- The middle of a product, from the products of the halves. -/
theorem middle_product (a0 a1 b0 b1 : Nat) :
    2 ^ 32 * (a1 * b1) + a1 * b0 + a0 * b1 + a0 * b0 / 2 ^ 32 =
      (a0 + 2 ^ 32 * a1) * (b0 + 2 ^ 32 * b1) / 2 ^ 32 := by
  have hExpand : (a0 + 2 ^ 32 * a1) * (b0 + 2 ^ 32 * b1) =
      a0 * b0 + 2 ^ 32 * (2 ^ 32 * (a1 * b1) + a1 * b0 + a0 * b1) := by
    ring
  rw [hExpand, Nat.add_mul_div_left _ _ (by decide)]
  omega

/-- A long number from its halves. -/
theorem halves_toNat (a : BitVec 64) :
    (a.extractLsb' 0 32).toNat + 2 ^ 32 * (a.extractLsb' 32 32).toNat = a.toNat := by
  have ha := a.isLt
  rw [BitVec.extractLsb'_toNat, BitVec.extractLsb'_toNat, Nat.shiftRight_zero,
    Nat.shiftRight_eq_div_pow]
  omega

section

variable (c : Cpu) {x : Word} (h : 8 ≤ (x - c.cx).toNat)

include h

/-- A write of the low word stays in the result. -/
theorem write_low_outside (v : Word) : (c.write (.mem 0 CX) v).mem x = c.mem x := by
  apply Memory.write_apart
  show 4 ≤ (x - (c.cx + 0)).toNat
  bv_omega

/-- A write of the high word too. -/
theorem write_high_outside (v : Word) : (c.write (.mem 4 CX) v).mem x = c.mem x := by
  apply Memory.write_apart
  show 4 ≤ (x - (c.cx + 4)).toNat
  bv_omega

/-- And an addition to both. -/
theorem add_outside (s t : Reg) :
    (adcl t (.mem 4 CX) (addl s (.mem 0 CX) c)).mem x = c.mem x := by
  have hLow := write_low_outside c h (addWith (c.read (.mem 0 CX)) (c.get s) false)
  have hHigh := write_high_outside (addl s (.mem 0 CX) c) h
    (addWith ((addl s (.mem 0 CX) c).read (.mem 4 CX)) ((addl s (.mem 0 CX) c).get t)
      (addl s (.mem 0 CX) c).flags.cf)
  exact hHigh.trans hLow

/-- No step of the four writes outside of the result. -/
theorem a1b1_outside : (a1b1 c).mem x = c.mem x := write_high_outside _ h _

theorem a1b0_outside : (a1b0 c).mem x = c.mem x := by
  let c' := c |> movl (.fp 8) AX |> mull (.fp 12)
  have hLow : (movl AX (.mem 0 CX) c').mem x = c.mem x := write_low_outside c' h _
  have hHigh : (a1b0 c).mem x = (movl AX (.mem 0 CX) c').mem x :=
    write_high_outside (movl AX (.mem 0 CX) c') h _
  exact hHigh.trans hLow

theorem a0b1_outside : (a0b1 c).mem x = c.mem x :=
  add_outside (c |> movl (.fp 4) AX |> mull (.fp 16)) h AX DX

theorem a0b0_outside : (a0b0 c).mem x = c.mem x :=
  add_outside (c |> movl (.fp 4) AX |> mull (.fp 12)) h DX BX

end

/-- Bytes that are not part of the result keep their value. -/
theorem mul64fract_outside (c : Cpu) {x : Word} (h : 8 ≤ (x - c.value (.fp 0)).toNat) :
    (mul64fract c).mem x = c.mem x := by
  let c₀ := c |> movl (.fp 0) CX |> xorl BX BX
  have h₁ : (a1b1 c₀).mem x = c.mem x := a1b1_outside c₀ h
  have h₂ : (a1b0 (a1b1 c₀)).mem x = (a1b1 c₀).mem x := a1b0_outside _ h
  have h₃ : (a0b1 (a1b0 (a1b1 c₀))).mem x = (a1b0 (a1b1 c₀)).mem x := a0b1_outside _ h
  have h₄ : (mul64fract c).mem x = (a0b1 (a1b0 (a1b1 c₀))).mem x := a0b0_outside _ h
  rw [h₄, h₃, h₂, h₁]

/-- For every state in which it is called, and wherever the result goes. -/
theorem mul64fract_exact (c : Cpu) (r : Word) (a b : BitVec 64) :
    (load64 (mul64fract { c with frame := fractFrame r a b }).mem r).toNat =
      a.toNat * b.toNat / 2 ^ 32 % 2 ^ 64 := by
  have hSum := mul64fract_sum { c with frame := fractFrame r a b }
  rw [middle_product] at hSum
  -- the words of the frame are the halves of `a` and `b`, and `CX` is `r`
  have hSum : (load64 (mul64fract { c with frame := fractFrame r a b }).mem r).toNat =
      ((a.extractLsb' 0 32).toNat + 2 ^ 32 * (a.extractLsb' 32 32).toNat) *
        ((b.extractLsb' 0 32).toNat + 2 ^ 32 * (b.extractLsb' 32 32).toNat) / 2 ^ 32 % 2 ^ 64 :=
    hSum
  rw [hSum, halves_toNat, halves_toNat]

end Glendum
