import Glendum.Lib.Memory

/-!
# Instructions of a 32-bit x86 processor

The registers, the flags that branches and carries are decided by, and a byte memory make
up a `Cpu`. An instruction is a function on it, with the operands in the order of the
Plan 9 assembler: the source first, and `CMPL a, b` compares `a` with `b`. A place is a
register or `off(base)`; an operand can also be an immediate, or a cell `off(FP)` of the
argument frame, which no code writes.

* `add_carry` — sum and carry together are the exact sum;
* `mull_product` — the two words of a product;
* `jlt_cmpl` — `JLT` behind a comparison is the order of the `int`s;
* `Block.repeat_rule` — the rule for a loop that `DECL BP` counts down.
-/

namespace I386

open Machine

inductive Reg
  | AX | BX | CX | DX | SI | DI | BP
deriving DecidableEq

/-- Carry, zero, sign and overflow. -/
structure Flags where
  cf : Bool
  zf : Bool
  sf : Bool
  of : Bool

structure Cpu where
  ax    : Word
  bx    : Word
  cx    : Word
  dx    : Word
  si    : Word
  di    : Word
  bp    : Word
  flags : Flags
  /-- the argument frame: the words at `0(FP)`, `4(FP)`, … -/
  frame : List Word
  mem   : Memory

inductive Place
  | reg (r : Reg)
  | mem (off : Word) (base : Reg)

inductive Operand
  | imm (v : Word)
  | place (p : Place)
  | fp (off : Nat)

@[match_pattern] abbrev Operand.mem (off : Word) (base : Reg) : Operand := .place (.mem off base)

instance : Coe Reg Place := ⟨Place.reg⟩
instance : Coe Place Operand := ⟨Operand.place⟩
instance : Coe Reg Operand := ⟨fun r => Operand.place (Place.reg r)⟩

namespace Cpu

def get (c : Cpu) : Reg → Word
  | .AX => c.ax
  | .BX => c.bx
  | .CX => c.cx
  | .DX => c.dx
  | .SI => c.si
  | .DI => c.di
  | .BP => c.bp

def set (c : Cpu) (r : Reg) (v : Word) : Cpu :=
  match r with
  | .AX => { c with ax := v }
  | .BX => { c with bx := v }
  | .CX => { c with cx := v }
  | .DX => { c with dx := v }
  | .SI => { c with si := v }
  | .DI => { c with di := v }
  | .BP => { c with bp := v }

def read (c : Cpu) : Place → Word
  | .reg r => c.get r
  | .mem off base => Memory.load32 c.mem (c.get base + off)

def write (c : Cpu) (p : Place) (v : Word) : Cpu :=
  match p with
  | .reg r => c.set r v
  | .mem off base => { c with mem := Memory.store32 c.mem (c.get base + off) v }

def value (c : Cpu) : Operand → Word
  | .imm v => v
  | .place p => c.read p
  | .fp off => (c.frame[off / 4]?).getD 0

/-- The condition of `JEQ`; `JNE` is its negation. -/
def jeq (c : Cpu) : Bool := c.flags.zf

def jlt (c : Cpu) : Bool := c.flags.sf != c.flags.of

end Cpu

/-! ## Flags -/

def resultFlags (v : Word) (cf of : Bool) : Flags :=
  { cf := cf, zf := v == 0, sf := v.msb, of := of }

def addWith (x y : Word) (c : Bool) : Word := x + y + (BitVec.ofBool c).setWidth 32

def addFlags (x y : Word) (c : Bool) : Flags :=
  resultFlags (addWith x y c) (BitVec.carry 32 x y c)
    ((addWith x y c).toInt != x.toInt + y.toInt + c.toNat)

def subFlags (x y : Word) : Flags :=
  resultFlags (x - y) (decide (x.toNat < y.toNat)) ((x - y).toInt != x.toInt - y.toInt)

/-! ## Instructions -/

def movl (s : Operand) (d : Place) (c : Cpu) : Cpu := c.write d (c.value s)

def addl (s : Operand) (d : Place) (c : Cpu) : Cpu :=
  { c.write d (addWith (c.read d) (c.value s) false) with
    flags := addFlags (c.read d) (c.value s) false }

def adcl (s : Operand) (d : Place) (c : Cpu) : Cpu :=
  { c.write d (addWith (c.read d) (c.value s) c.flags.cf) with
    flags := addFlags (c.read d) (c.value s) c.flags.cf }

def subl (s : Operand) (d : Place) (c : Cpu) : Cpu :=
  { c.write d (c.read d - c.value s) with flags := subFlags (c.read d) (c.value s) }

def cmpl (x y : Operand) (c : Cpu) : Cpu := { c with flags := subFlags (c.value x) (c.value y) }

def testl (x y : Operand) (c : Cpu) : Cpu :=
  { c with flags := resultFlags (c.value x &&& c.value y) false false }

def andl (s : Operand) (d : Place) (c : Cpu) : Cpu :=
  { c.write d (c.read d &&& c.value s) with
    flags := resultFlags (c.read d &&& c.value s) false false }

def xorl (s : Operand) (d : Place) (c : Cpu) : Cpu :=
  { c.write d (c.read d ^^^ c.value s) with
    flags := resultFlags (c.read d ^^^ c.value s) false false }

/-- For a count between 1 and 31. The overflow flag is defined for 1 only. -/
def shrl (n : Nat) (d : Place) (c : Cpu) : Cpu :=
  { c.write d (c.read d >>> n) with
    flags := resultFlags (c.read d >>> n) ((c.read d).getLsbD (n - 1)) (c.read d).msb }

/-- The carry flag is kept. -/
def incl (d : Place) (c : Cpu) : Cpu :=
  { c.write d (c.read d + 1) with
    flags := { addFlags (c.read d) 1 false with cf := c.flags.cf } }

/-- The carry flag is kept. -/
def decl (d : Place) (c : Cpu) : Cpu :=
  { c.write d (c.read d - 1) with flags := { subFlags (c.read d) 1 with cf := c.flags.cf } }

/-- No flag is changed. -/
def leal (off : Word) (base d : Reg) (c : Cpu) : Cpu := c.set d (c.get base + off)

/-- The upper word of an unsigned product. -/
def mulHigh (x y : Word) : Word := BitVec.ofNat 32 (x.toNat * y.toNat / 2 ^ 32)

/-- The product with `AX` goes to `DX` and `AX`. Zero and sign flag are undefined. -/
def mull (s : Operand) (c : Cpu) : Cpu :=
  { c with
    ax := c.ax * c.value s
    dx := mulHigh c.ax (c.value s)
    flags := { c.flags with
      cf := mulHigh c.ax (c.value s) != 0, of := mulHigh c.ax (c.value s) != 0 } }

/-! Bytes and halves of a register -/

def low8 (v : Word) (b : Byte) : Word := v.extractLsb' 8 24 ++ b
def high8 (v : Word) (b : Byte) : Word := v.extractLsb' 16 16 ++ b ++ v.extractLsb' 0 8
def low16 (v : Word) (h : BitVec 16) : Word := v.extractLsb' 16 16 ++ h

def load16 (m : Memory) (a : Word) : BitVec 16 := m (a + 1) ++ m a

def load64 (m : Memory) (a : Word) : BitVec 64 := Memory.load32 m (a + 4) ++ Memory.load32 m a

/-- The `n` bytes at `a`. -/
def bytesAt (m : Memory) (a : Word) : Nat → List Byte
  | 0 => []
  | n + 1 => m a :: bytesAt m (a + 1) n

/-- `MOVB off(base), d`, into the lowest byte. -/
def movb (off : Word) (base d : Reg) (c : Cpu) : Cpu :=
  c.set d (low8 (c.get d) (c.mem (c.get base + off)))

/-- `MOVB off(base), AH` and the like, into the second byte. -/
def movbh (off : Word) (base d : Reg) (c : Cpu) : Cpu :=
  c.set d (high8 (c.get d) (c.mem (c.get base + off)))

def movw (off : Word) (base d : Reg) (c : Cpu) : Cpu :=
  c.set d (low16 (c.get d) (load16 c.mem (c.get base + off)))

def movwlzx (off : Word) (base d : Reg) (c : Cpu) : Cpu :=
  c.set d ((load16 c.mem (c.get base + off)).setWidth 32)

/-- `XCHGB AH, AL` and the like. -/
def xchgb (d : Reg) (c : Cpu) : Cpu :=
  c.set d (high8 (low8 (c.get d) ((c.get d).extractLsb' 8 8)) ((c.get d).extractLsb' 0 8))

/-! ## Sums and products -/

section

variable {x y v : Word} {b : Byte} {f : Bool}

/-- The carry is what the sum does not hold. -/
theorem add_carry (x y : Word) (f : Bool) :
    (addWith x y f).toNat + 2 ^ 32 * (addFlags x y f).cf.toNat = x.toNat + y.toNat + f.toNat := by
  have hBit : ((BitVec.ofBool f).setWidth 32).toNat = f.toNat := by
    cases f <;> rfl
  have hLe := Bool.toNat_le f
  rw [addWith, addFlags, resultFlags, BitVec.carry_width, BitVec.toNat_add, BitVec.toNat_add,
    hBit]
  by_cases hWrap : x.toNat + y.toNat + f.toNat ≥ 2 ^ 32
  · rw [decide_eq_true hWrap, Bool.toNat_true]
    omega
  · rw [decide_eq_false hWrap, Bool.toNat_false]
    omega

/-- The carry out of an addition never meets a result with all bits set, unless it went
into one. -/
theorem room_of_carry (h : f = true → x.toNat < 2 ^ 32 - 1)
    (hCarry : (addFlags x y f).cf = true) : (addWith x y f).toNat < 2 ^ 32 - 1 := by
  have hSum := add_carry x y f
  rw [hCarry, Bool.toNat_true] at hSum
  cases f with
  | false =>
    rw [Bool.toNat_false] at hSum
    omega
  | true =>
    -- here alone `x + y + 1` could be all bits set with a carry out
    have hRoom := h rfl
    rw [Bool.toNat_true] at hSum
    omega

/-- A carry that has room is added without another one. -/
theorem addWith_zero (h : f = true → x.toNat < 2 ^ 32 - 1) :
    (addWith x 0 f).toNat = x.toNat + f.toNat := by
  have hSum := add_carry x 0 f
  have hWord := (addWith x 0 f).isLt
  rw [show (0 : Word).toNat = 0 from rfl] at hSum
  cases f with
  | false =>
    rw [Bool.toNat_false] at hSum ⊢
    omega
  | true =>
    have hLt := h rfl
    rw [Bool.toNat_true] at hSum ⊢
    omega

/-- Both halves of a product make it. -/
theorem mull_product (x y : Word) :
    (x * y).toNat + 2 ^ 32 * (mulHigh x y).toNat = x.toNat * y.toNat := by
  -- so the upper word of the product is not cut
  have hLt : x.toNat * y.toNat < 2 ^ 32 * 2 ^ 32 := Nat.mul_lt_mul'' x.isLt y.isLt
  rw [mulHigh, BitVec.toNat_mul, BitVec.toNat_ofNat]
  generalize x.toNat * y.toNat = p at hLt ⊢
  omega

/-- The flags of a subtraction tell the signed order. -/
theorem sub_lt_iff (x y : Word) :
    ((subFlags x y).sf != (subFlags x y).of) = true ↔ x.toInt < y.toInt := by
  have hx := BitVec.toInt_eq_toNat_cond x
  have hy := BitVec.toInt_eq_toNat_cond y
  have hd := BitVec.toInt_eq_toNat_cond (x - y)
  have hSub := BitVec.toNat_sub x y
  rw [subFlags, resultFlags, BitVec.msb_eq_toInt]
  by_cases hSign : (x - y).toInt < 0
  · rw [decide_eq_true hSign]
    by_cases hSame : (x - y).toInt = x.toInt - y.toInt
    · simp only [hSame, bne_self_eq_false, Bool.true_bne, Bool.not_false, true_iff]
      omega
    · -- an overflow: the sign is the wrong one
      rw [bne_iff_ne.mpr hSame]
      simp only [bne_self_eq_false, Bool.false_eq_true, false_iff]
      have hx' := x.isLt
      have hy' := y.isLt
      split at hx <;> split at hy <;> split at hd <;> omega
  · rw [decide_eq_false hSign]
    by_cases hSame : (x - y).toInt = x.toInt - y.toInt
    · simp only [hSame, bne_self_eq_false, Bool.false_eq_true, false_iff]
      omega
    · rw [bne_iff_ne.mpr hSame]
      simp only [Bool.false_bne, true_iff]
      have hx' := x.isLt
      have hy' := y.isLt
      split at hx <;> split at hy <;> split at hd <;> omega

/-! Bytes as numbers -/

/-- The value of two parts. -/
theorem toNat_append {m n : Nat} (x : BitVec m) (y : BitVec n) :
    (x ++ y).toNat = x.toNat * 2 ^ n + y.toNat := by
  rw [BitVec.toNat_append, ← Nat.shiftLeft_add_eq_or_of_lt y.isLt, Nat.shiftLeft_eq]

/-- A word with its low byte replaced. -/
theorem low8_toNat : (low8 v b).toNat = v.toNat / 256 * 256 + b.toNat := by
  have hv := v.isLt
  rw [low8, toNat_append, BitVec.extractLsb'_toNat, Nat.shiftRight_eq_div_pow,
    Nat.mod_eq_of_lt (by omega)]
  omega

/-- A word with its second byte replaced. -/
theorem high8_toNat :
    (high8 v b).toNat = v.toNat / 65536 * 65536 + b.toNat * 256 + v.toNat % 256 := by
  have hv := v.isLt
  rw [high8, toNat_append, toNat_append, BitVec.extractLsb'_toNat, BitVec.extractLsb'_toNat,
    Nat.shiftRight_eq_div_pow, Nat.shiftRight_zero, Nat.mod_eq_of_lt (by omega)]
  omega

/-- A word with its low half replaced. -/
theorem low16_toNat {h : BitVec 16} :
    (low16 v h).toNat = v.toNat / 65536 * 65536 + h.toNat := by
  have hv := v.isLt
  rw [low16, toNat_append, BitVec.extractLsb'_toNat, Nat.shiftRight_eq_div_pow,
    Nat.mod_eq_of_lt (by omega)]
  omega

/-- Two bytes of memory, the low one first. -/
theorem load16_toNat (m : Memory) (a : Word) :
    (load16 m a).toNat = (m a).toNat + 256 * (m (a + 1)).toNat := by
  rw [load16, toNat_append]
  omega

/-- Four bytes of memory, the low one first. -/
theorem load32_toNat (m : Memory) (a : Word) :
    (Memory.load32 m a).toNat =
      (m a).toNat + 256 * (m (a + 1)).toNat + 65536 * (m (a + 2)).toNat +
        16777216 * (m (a + 3)).toNat := by
  rw [Memory.load32, Memory.word32, toNat_append, toNat_append, toNat_append]
  omega

end

/-! Masks and shifts -/

section

variable {v mask : Word} {k : Nat}

/-- A mask of low bits is a remainder. -/
theorem toNat_and_mask (h : mask.toNat = 2 ^ k - 1) : (v &&& mask).toNat = v.toNat % 2 ^ k := by
  rw [BitVec.toNat_and, h]
  exact Nat.and_two_pow_sub_one_eq_mod v.toNat k

/-- A shift to the right is a quotient. -/
theorem toNat_shr : (v >>> k).toNat = v.toNat / 2 ^ k := by
  rw [BitVec.toNat_ushiftRight, Nat.shiftRight_eq_div_pow]

/-- The lowest bit tells even from odd. -/
theorem and_one_eq_zero_iff : (1 &&& v == 0) = true ↔ v.toNat % 2 = 0 := by
  have hBit : (v &&& 1).toNat = v.toNat % 2 := toNat_and_mask (k := 1) rfl
  rw [BitVec.and_comm, beq_iff_eq, ← hBit]
  exact ⟨fun h => congrArg BitVec.toNat h, fun h => BitVec.eq_of_toNat_eq h⟩

end

/-! ## Registers -/

section

variable {c : Cpu} {r d base : Reg} {off v : Word} {s : Operand}

/-- A write of one register is not seen in another one. -/
theorem Cpu.get_set_of_ne (h : r ≠ d) : (c.set d v).get r = c.get r := by
  cases r <;> cases d <;> first | rfl | exact absurd rfl h

/-- A store to memory changes no register. -/
theorem Cpu.get_write_mem : (c.write (.mem off base) v).get r = c.get r := by
  cases r <;> rfl

/-- Nor is a change of the flags. -/
theorem Cpu.get_flags (f : Flags) : ({ c with flags := f } : Cpu).get r = c.get r := by
  cases r <;> rfl

/-! An instruction changes no register but its destination. -/

/-- An instruction with a register as its target leaves the other registers alone. -/
theorem movl_get (h : r ≠ d) : (movl s d c).get r = c.get r := Cpu.get_set_of_ne h

theorem adcl_get (h : r ≠ d) : (adcl s d c).get r = c.get r := by
  rw [adcl, Cpu.get_flags]
  exact Cpu.get_set_of_ne h

theorem leal_get (h : r ≠ d) : (leal off base d c).get r = c.get r := Cpu.get_set_of_ne h

theorem movwlzx_get (h : r ≠ d) : (movwlzx off base d c).get r = c.get r := Cpu.get_set_of_ne h

end

/-! ## Branches -/

/-- The jump after a comparison is taken for the signed order. -/
theorem jlt_cmpl {c : Cpu} {x y : Operand} :
    (cmpl x y c).jlt = true ↔ (c.value x).toInt < (c.value y).toInt :=
  sub_lt_iff _ _

/-! ## Loops -/

/-- The body of a loop that leaves the counter `BP` alone. -/
structure Block where
  run     : Cpu → Cpu
  keepsBP : ∀ c, (run c).get .BP = c.get .BP

/-- The body, `DECL BP`, and `JNE` back to the body. -/
def Block.repeatBP (b : Block) (c : Cpu) : Cpu :=
  if (decl Reg.BP (b.run c)).jeq then decl Reg.BP (b.run c)
  else b.repeatBP (decl Reg.BP (b.run c))
termination_by (c.bp - 1).toNat
decreasing_by
  -- the counter before `DECL`, less 1: a counter of 0 goes round 2 ^ 32 times
  have hBp : (decl Reg.BP (b.run c)).bp = c.bp - 1 := congrArg (· - 1) (b.keepsBP c)
  have hMore : ¬ (c.bp - 1 == 0) = true := by
    show ¬ (c.get .BP - 1 == 0) = true
    rw [← b.keepsBP c]
    assumption
  rw [beq_iff_eq] at hMore
  rw [hBp]
  bv_omega

/-- `I k` holds before the last `k` rounds. -/
theorem Block.repeat_rule {b : Block} {I : Nat → Cpu → Prop}
    (hStep : ∀ k c, I (k + 1) c → I k (decl Reg.BP (b.run c))) :
    ∀ k c, c.bp.toNat = k + 1 → I (k + 1) c → I 0 (b.repeatBP c) := by
  intro k
  -- on the rounds behind this one
  induction k with
  | zero =>
    intro c hCount h
    have hLast : (decl Reg.BP (b.run c)).jeq = true := by
      show (b.run c).get .BP - 1 == 0
      rw [b.keepsBP, beq_iff_eq]
      show c.bp - 1 = 0
      bv_omega
    rw [Block.repeatBP, if_pos hLast]
    exact hStep 0 c h
  | succ k ih =>
    intro c hCount h
    have hMore : ¬ (decl Reg.BP (b.run c)).jeq = true := by
      show ¬ ((b.run c).get .BP - 1 == 0) = true
      rw [b.keepsBP, beq_iff_eq]
      show ¬ c.bp - 1 = 0
      bv_omega
    have hNext : (decl Reg.BP (b.run c)).bp.toNat = k + 1 := by
      show ((b.run c).get .BP - 1).toNat = k + 1
      rw [b.keepsBP]
      show (c.bp - 1).toNat = k + 1
      bv_omega
    rw [Block.repeatBP, if_neg hMore]
    exact ih _ hNext (hStep (k + 1) c h)

end I386
