import Mathlib.Algebra.Group.Nat.Defs
import Mathlib.Tactic.Common

/-!
# Word arithmetic that takes note of wrapping

A computation on words of one width (`Calc`) carries a note: whether every product
and every difference that it has formed so far was the exact one. The values are
those of the wrapping operations; the note changes nothing.

* `Calc.mul_of_lt`, `Calc.sub_of_le` — the operations that keep the note, with the
  numbers that their values stand for;
* `Calc.sub_of_lt` — a difference that loses it;
* `Calc.sub_false` — a lost note stays lost.
-/

namespace Exact

variable {w : Nat} {α β : Type}

/-- A computation, from the note so far to a value and the note after it. -/
def Calc (α : Type) := Bool → α × Bool

namespace Calc

instance : Monad Calc where
  pure a := fun ok => (a, ok)
  bind c f := fun ok => f (c ok).1 (c ok).2

def mul (a b : BitVec w) : Calc (BitVec w) := fun ok =>
  (a * b, ok && decide (a.toNat * b.toNat < 2 ^ w))

def sub (a b : BitVec w) : Calc (BitVec w) := fun ok =>
  (a - b, ok && decide (b.toNat ≤ a.toNat))

@[simp] theorem pure_apply (a : α) (ok : Bool) : (pure a : Calc α) ok = (a, ok) := rfl

@[simp] theorem bind_apply (c : Calc α) (f : α → Calc β) (ok : Bool) :
    (c >>= f) ok = f (c ok).1 (c ok).2 := rfl

/-! ## What an operation does to the note -/

section

variable {a b : BitVec w} (ok : Bool)

/-- A product that fits is exact. -/
theorem mul_of_lt (h : a.toNat * b.toNat < 2 ^ w) :
    mul a b ok = (a * b, ok) ∧ (a * b).toNat = a.toNat * b.toNat := by
  refine ⟨?_, BitVec.toNat_mul_of_lt h⟩
  rw [mul, decide_eq_true h, Bool.and_true]

/-- A difference that is not negative is exact. -/
theorem sub_of_le (h : b.toNat ≤ a.toNat) :
    sub a b ok = (a - b, ok) ∧ (a - b).toNat = a.toNat - b.toNat := by
  refine ⟨?_, BitVec.toNat_sub_of_le (BitVec.le_def.mpr h)⟩
  rw [sub, decide_eq_true h, Bool.and_true]

/-- A difference below 0 is not. -/
theorem sub_of_lt (h : a.toNat < b.toNat) : sub a b ok = (a - b, false) := by
  rw [sub, decide_eq_false (by omega), Bool.and_false]

/-- What was inexact before stays so. -/
theorem sub_false (a b : BitVec w) : sub a b false = (a - b, false) := rfl

end

end Calc

end Exact
