import Glendum.Lib.I386
import Glendum.Lib.OnesComplement

/-!
# Glendum — the checksum of a packet

`ptclbsum` adds up a string in `AX`, in steps of 32, 8 and 2 bytes, and leaves the carry of
one addition in the flags for the next one, across the loads, the pointer and the counter
of the loop. The sum is folded to 16 bits at the end. It is one of little-endian words, so
its bytes are swapped, unless the string starts at an odd address, where the first byte
has gone into `AH`.

* `Running` — what stays the same as the sum of the whole string, in the middle of a loop;
* `Left` — the same between the loops, where no carry is pending;
* `chunked_left`, `loop32_left` — a loop takes what is left down to a rest of its size;
* `ptclbsum_checksum` — the result is the checksum of the bytes, for every address.
-/

namespace Glendum.Ptclbsum

open Machine I386 Reg OnesComplement

/-! ## The code

Each label is a function that continues with the code behind it, so the source is read
from its end. -/

def swab (c : Cpu) : Cpu :=
  -- the argument, not its copy in DI
  let c := testl (.imm 1) (.fp 0) c
  if c.jeq then xchgb AX c else c

/-- One round of `_fold`, up to the jump to `_swab`. -/
def foldHigh (c : Cpu) : Cpu :=
  c
  |> movl AX BX
  |> shrl 16 BX

/-- The jump back adds the upper half to the lower one. -/
def foldAdd (c : Cpu) : Cpu :=
  c
  |> andl (.imm 0xFFFF) AX
  |> addl BX AX

/-- The two halves of `AX` are added. -/
theorem foldAdd_toNat (c : Cpu) :
    (foldAdd (foldHigh c)).ax.toNat = c.ax.toNat % 2 ^ 16 + c.ax.toNat / 2 ^ 16 := by
  have hSum := add_carry (c.ax &&& 0xFFFF) (c.ax >>> 16) false
  have hLow : (c.ax &&& 0xFFFF).toNat = c.ax.toNat % 2 ^ 16 := toNat_and_mask rfl
  have hHigh : (c.ax >>> 16).toNat = c.ax.toNat / 2 ^ 16 := toNat_shr
  have hWord := (addWith (c.ax &&& 0xFFFF) (c.ax >>> 16) false).isLt
  have hAx := c.ax.isLt
  show (addWith (c.ax &&& 0xFFFF) (c.ax >>> 16) false).toNat = _
  rw [hLow, hHigh, Bool.toNat_false] at hSum
  omega

/-- The fold is done when the upper half is empty. -/
theorem foldHigh_jeq (c : Cpu) : (foldHigh c).jeq = true ↔ c.ax.toNat < 2 ^ 16 := by
  have hHigh : (c.ax >>> 16).toNat = c.ax.toNat / 2 ^ 16 := toNat_shr
  show (c.ax >>> 16 == 0) = true ↔ _
  rw [beq_iff_eq]
  bv_omega

def fold (c : Cpu) : Cpu :=
  if (foldHigh c).jeq then swab (foldHigh c) else fold (foldAdd (foldHigh c))
termination_by c.ax.toNat
decreasing_by
  -- a sum of more than 16 bits is more than its two halves together
  have hBig : ¬ c.ax.toNat < 2 ^ 16 := fun h => by
    have := (foldHigh_jeq c).mpr h
    contradiction
  rw [foldAdd_toNat]
  omega

def dreg1 (c : Cpu) : Cpu :=
  let c := testl (.imm 1) CX c          -- 1 byte left?
  if c.jeq then fold c
  else
    c
    |> xorl BX BX
    |> movb 0x00 SI BX
    |> addl BX AX
    |> adcl (.imm 0) AX
    |> fold

/-- The three loops differ in the size of what they add up in one round. A rest that is
smaller goes on to `next`. -/
def chunked (size : Word) (shift : Nat) (mask : Word) (body : Block) (next : Cpu → Cpu)
    (c : Cpu) : Cpu :=
  let c := cmpl CX (.imm size) c
  if c.jlt then next c
  else
    c
    |> movl CX BP
    |> shrl shift BP
    |> andl (.imm mask) CX
    |> body.repeatBP
    |> adcl (.imm 0) AX
    |> next

def loop2x : Block where
  run c :=
    c
    |> movwlzx 0x00 SI BX
    |> adcl BX AX
    |> leal 0x02 SI SI
  keepsBP _ := by simp [leal_get, adcl_get, movwlzx_get]

def loop2 : Cpu → Cpu := chunked 0x02 1 0x01 loop2x dreg1

def loop8x : Block where
  run c :=
    c
    |> movl (.mem 0x00 SI) BX
    |> adcl BX AX
    |> movl (.mem 0x04 SI) DX
    |> adcl DX AX
    |> leal 0x08 SI SI
  keepsBP _ := by simp [leal_get, adcl_get, movl_get]

def loop8 : Cpu → Cpu := chunked 0x08 3 0x07 loop8x loop2

def loop32x : Block where
  run c :=
    c
    |> movl (.mem 0x00 SI) BX
    |> movl (.mem 0x1C SI) DX
    |> adcl BX AX
    |> movl (.mem 0x04 SI) BX
    |> adcl DX AX
    |> movl (.mem 0x10 SI) DX
    |> adcl BX AX
    |> movl (.mem 0x08 SI) BX
    |> adcl DX AX
    |> movl (.mem 0x14 SI) DX
    |> adcl BX AX
    |> movl (.mem 0x0C SI) BX
    |> adcl DX AX
    |> movl (.mem 0x18 SI) DX
    |> adcl BX AX
    |> leal 0x20 SI SI
    |> adcl DX AX
  keepsBP _ := by simp [leal_get, adcl_get, movl_get]

def loop32 : Cpu → Cpu := chunked 0x20 5 0x1F loop32x loop8

def align2 (c : Cpu) : Cpu :=
  let c := testl (.imm 2) SI c          -- word aligned?
  if c.jeq then loop32 c
  else
    let c := cmpl CX (.imm 2) c         -- less than 2 bytes?
    if c.jlt then dreg1 c
    else
      c
      |> subl (.imm 2) CX
      |> xorl BX BX
      |> movw 0x00 SI BX
      |> addl BX AX
      |> adcl (.imm 0) AX
      |> leal 2 SI SI
      |> loop32

def ptclbsumRun (c : Cpu) : Cpu :=
  let c := c
    |> movl (.fp 0) SI
    |> movl (.fp 4) CX
    |> xorl AX AX
    |> testl (.imm 1) SI                -- byte aligned?
    |> movl SI DI
  if c.jeq then align2 c
  else
    let c := decl CX c
    if c.jlt then c
    else
      c
      |> movbh 0x00 SI AX
      |> incl SI
      |> align2

/-- The result of a call. -/
def ptclbsum (c : Cpu) (addr len : Word) : Word := (ptclbsumRun { c with frame := [addr, len] }).ax

/-! ## Sums of a string in memory -/

section

variable (m : Memory) (a : Word) (n : Nat)

/-- Two bytes more, as one half word. -/
theorem littleSum_two : littleSum (bytesAt m a (n + 2)) =
    (load16 m a).toNat + littleSum (bytesAt m (a + 2) n) := by
  rw [show a + 2 = a + 1 + 1 by bv_omega, load16_toNat]
  rfl

/-- A word of 32 bits counts for two of 16 bits. -/
theorem littleSum_four : Same 65535 ((Memory.load32 m a).toNat + littleSum (bytesAt m (a + 4) n))
    (littleSum (bytesAt m a (n + 4))) := by
  have hBytes : littleSum (bytesAt m a (n + 4)) =
      (m a).toNat + 256 * (m (a + 1)).toNat +
        ((m (a + 2)).toNat + 256 * (m (a + 3)).toNat) + littleSum (bytesAt m (a + 4) n) := by
    rw [show n + 4 = n + 2 + 2 by rfl, littleSum_two, littleSum_two, load16_toNat, load16_toNat,
      show a + 2 + 1 = a + 3 by bv_omega, show a + 2 + 2 = a + 4 by bv_omega]
    omega
  have hCarry : Same 65535
      ((m a).toNat + 256 * (m (a + 1)).toNat +
        65536 * ((m (a + 2)).toNat + 256 * (m (a + 3)).toNat)) _ :=
    same_carry (by decide) (by decide) _ _
  -- the upper two bytes count 65536 times in the word, which is once
  rw [hBytes, load32_toNat]
  refine Same.add_right _ (Same.trans (Same.of_eq ?_) hCarry)
  omega

/-- The sum of `k` words of 32 bits. -/
def dwords (m : Memory) (a : Word) : Nat → Nat
  | 0 => 0
  | k + 1 => (Memory.load32 m a).toNat + dwords m (a + 4) k

/-- A run of words and the bytes behind it. -/
theorem dwords_same (k : Nat) : ∀ a, Same 65535
    (dwords m a k + littleSum (bytesAt m (a + BitVec.ofNat 32 (4 * k)) n))
    (littleSum (bytesAt m a (n + 4 * k))) := by
  induction k with
  | zero =>
    intro a
    rw [dwords, Nat.zero_add, Nat.mul_zero, Nat.add_zero, show a + BitVec.ofNat 32 0 = a by simp]
    exact Same.refl _ _
  | succ k ih =>
    intro a
    have hRest := ih (a + 4)
    rw [show a + 4 + BitVec.ofNat 32 (4 * k) = a + BitVec.ofNat 32 (4 * (k + 1)) by bv_omega]
      at hRest
    rw [dwords, Nat.add_assoc]
    exact (hRest.add_left _).trans (littleSum_four m a (n + 4 * k))

end

/-! ## Straight code -/

/-- A carry stands for `2 ^ 32`, which is 1 in a sum of words of 16 bits. -/
theorem adc_same (x v : Word) (carry : Bool) :
    Same 65535 ((addWith x v carry).toNat + (addFlags x v carry).cf.toNat)
      (x.toNat + v.toNat + carry.toNat) := by
  have hCarry : Same 65535
      ((addWith x v carry).toNat + 2 ^ 32 * (addFlags x v carry).cf.toNat) _ :=
    same_carry (by decide) (by decide) _ _
  rw [add_carry] at hCarry
  exact hCarry.symm

/-- Since `c₀` the pointer has come to `a` and `s` has been added, with the words `vb` and
`vd` in hand. A pending carry can still be added. -/
structure Adding (c₀ : Cpu) (a vb vd : Word) (s : Nat) (c : Cpu) : Prop where
  mem   : c.mem = c₀.mem
  frame : c.frame = c₀.frame
  cx    : c.cx = c₀.cx
  si    : c.si = a
  bx    : c.bx = vb
  dx    : c.dx = vd
  same  : Same 65535 (c.ax.toNat + c.flags.cf.toNat) (c₀.ax.toNat + c₀.flags.cf.toNat + s)
  room  : c.flags.cf = true → c.ax.toNat < 2 ^ 32 - 1

namespace Adding

variable {c₀ c : Cpu} {a vb vd off : Word} {s : Nat}

/-- Before the first word nothing is added. -/
theorem start (hRoom : c.flags.cf = true → c.ax.toNat < 2 ^ 32 - 1) :
    Adding c c.si c.bx c.dx 0 c :=
  ⟨rfl, rfl, rfl, rfl, rfl, rfl, Same.refl _ _, hRoom⟩

/-- A word of the string is loaded from behind the pointer. -/
theorem value_mem (h : Adding c₀ a vb vd s c) (off : Word) :
    c.value (.mem off SI) = Memory.load32 c₀.mem (a + off) := by
  show Memory.load32 c.mem (c.si + off) = _
  rw [h.mem, h.si]

/-- A word is loaded to `BX`. -/
theorem loadB (h : Adding c₀ a vb vd s c) (off : Word) :
    Adding c₀ a (Memory.load32 c₀.mem (a + off)) vd s (movl (.mem off SI) BX c) :=
  ⟨h.mem, h.frame, h.cx, h.si, h.value_mem off, h.dx, h.same, h.room⟩

/-- A word is loaded to `DX`. -/
theorem loadD (h : Adding c₀ a vb vd s c) (off : Word) :
    Adding c₀ a vb (Memory.load32 c₀.mem (a + off)) s (movl (.mem off SI) DX c) :=
  ⟨h.mem, h.frame, h.cx, h.si, h.bx, h.value_mem off, h.same, h.room⟩

/-- A half word is loaded to `BX`. -/
theorem loadHalf (h : Adding c₀ a vb vd s c) (off : Word) :
    Adding c₀ a ((load16 c₀.mem (a + off)).setWidth 32) vd s (movwlzx off SI BX c) := by
  have hLoad : (movwlzx off SI BX c).bx = (load16 c₀.mem (a + off)).setWidth 32 := by
    show (load16 c.mem (c.si + off)).setWidth 32 = _
    rw [h.mem, h.si]
  exact ⟨h.mem, h.frame, h.cx, h.si, hLoad, h.dx, h.same, h.room⟩

/-- An addition leaves its carry where the next one finds it. -/
theorem same_adc (h : Adding c₀ a vb vd s c) (v : Word) :
    Same 65535 ((addWith c.ax v c.flags.cf).toNat + (addFlags c.ax v c.flags.cf).cf.toNat)
      (c₀.ax.toNat + c₀.flags.cf.toNat + (s + v.toNat)) := by
  have hCarry := adc_same c.ax v c.flags.cf
  rw [show c.ax.toNat + v.toNat + c.flags.cf.toNat =
    c.ax.toNat + c.flags.cf.toNat + v.toNat by omega] at hCarry
  rw [← Nat.add_assoc]
  exact hCarry.trans (h.same.add_right _)

/-- The word in `BX` is added, with the carry of the one before. -/
theorem addB (h : Adding c₀ a vb vd s c) : Adding c₀ a vb vd (s + vb.toNat) (adcl BX AX c) :=
  ⟨h.mem, h.frame, h.cx, h.si, h.bx, h.dx, h.bx ▸ h.same_adc c.bx, room_of_carry h.room⟩

/-- The word in `DX` is added, with the carry. -/
theorem addD (h : Adding c₀ a vb vd s c) : Adding c₀ a vb vd (s + vd.toNat) (adcl DX AX c) :=
  ⟨h.mem, h.frame, h.cx, h.si, h.bx, h.dx, h.dx ▸ h.same_adc c.dx, room_of_carry h.room⟩

/-- The pointer moves on, and no flag changes. -/
theorem advance (h : Adding c₀ a vb vd s c) (off : Word) :
    Adding c₀ (a + off) vb vd s (leal off SI SI c) :=
  ⟨h.mem, h.frame, h.cx, congrArg (· + off) h.si, h.bx, h.dx, h.same, h.room⟩

end Adding

/-! ## Rounds of the loops -/

/-- With `n` bytes to add in the loop or behind it, of which `rest` behind it. -/
structure Running (m : Memory) (f : List Word) (total rest n : Nat) (c : Cpu) : Prop where
  mem   : c.mem = m
  frame : c.frame = f
  count : c.cx.toNat = rest
  same  : Same 65535 (c.ax.toNat + c.flags.cf.toNat + littleSum (bytesAt m c.si n)) total
  room  : c.flags.cf = true → c.ax.toNat < 2 ^ 32 - 1

/-- Between the loops, with `n` bytes to add. -/
structure Left (m : Memory) (f : List Word) (total n : Nat) (c : Cpu) : Prop where
  mem   : c.mem = m
  frame : c.frame = f
  count : c.cx.toNat = n
  same  : Same 65535 (c.ax.toNat + littleSum (bytesAt m c.si n)) total

section

variable {m : Memory} {f : List Word} {total rest n : Nat} {c c' : Cpu} {a vb vd : Word} {s : Nat}

/-- A round adds what the bytes that it passes are worth; the counter is not part of the
sum. -/
theorem Running.round (h : Running m f total rest n c)
    (hRound : Adding c a vb vd s c') {left : Nat}
    (hBytes : Same 65535 (s + littleSum (bytesAt m a left)) (littleSum (bytesAt m c.si n))) :
    Running m f total rest left (decl BP c') := by
  have hSame : Same 65535
      (c'.ax.toNat + c'.flags.cf.toNat + littleSum (bytesAt m a left)) total := by
    refine (hRound.same.add_right _).trans (Same.trans ?_ h.same)
    rw [Nat.add_assoc]
    exact hBytes.add_left _
  exact ⟨hRound.mem.trans h.mem, hRound.frame.trans h.frame, hRound.cx ▸ h.count,
    hRound.si.symm ▸ hSame, hRound.room⟩

/-- A round of the loop takes two bytes. -/
theorem loop2x_round (h : Running m f total rest (n + 2) c) :
    Running m f total rest n (decl BP (loop2x.run c)) := by
  have hRound := ((Adding.start h.room).loadHalf 0x00).addB.advance 0x02
  refine h.round hRound (Same.of_eq ?_)
  rw [h.mem, littleSum_two, show c.si + 0 = c.si by simp]
  have hLt := (load16 m c.si).isLt
  rw [BitVec.toNat_setWidth, Nat.mod_eq_of_lt (by omega), Nat.zero_add]

/-- A round of this one takes eight. -/
theorem loop8x_round (h : Running m f total rest (n + 8) c) :
    Running m f total rest n (decl BP (loop8x.run c)) := by
  have hRound := (((Adding.start h.room).loadB 0x00).addB.loadD 0x04).addD.advance 0x08
  refine h.round hRound (Same.trans (Same.of_eq ?_) (dwords_same m n 2 c.si))
  rw [h.mem]
  simp [dwords]

/-- And of the large one 32. -/
theorem loop32x_round (h : Running m f total rest (n + 32) c) :
    Running m f total rest n (decl BP (loop32x.run c)) := by
  -- each word is loaded one step before the one that is added
  have hFirst := ((Adding.start h.room).loadB 0x00).loadD 0x1C
  have hSecond := (hFirst.addB.loadB 0x04).addD.loadD 0x10
  have hThird := (hSecond.addB.loadB 0x08).addD.loadD 0x14
  have hFourth := (hThird.addB.loadB 0x0C).addD.loadD 0x18
  have hRound := (hFourth.addB.advance 0x20).addD
  refine h.round hRound (Same.trans (Same.of_eq ?_) (dwords_same m n 8 c.si))
  rw [h.mem]
  simp only [dwords, BitVec.add_assoc]
  simp
  omega

/-! ## The loops -/

/-- The last carry is added in behind a loop. -/
theorem Running.left (h : Running m f total n n c) : Left m f total n (adcl (.imm 0) AX c) := by
  refine ⟨h.mem, h.frame, h.count, ?_⟩
  show Same 65535 ((addWith c.ax 0 c.flags.cf).toNat + littleSum (bytesAt m c.si n)) total
  rw [addWith_zero h.room]
  exact h.same

/-- The loop leaves what its rounds have not taken. -/
theorem Running.repeat_left {body : Block} {size : Nat}
    (hRound : ∀ n c, Running m f total rest (n + size) c →
      Running m f total rest n (decl BP (body.run c)))
    {k : Nat} (hCount : c.bp.toNat = k + 1)
    (h : Running m f total rest (size * (k + 1) + rest) c) :
    Left m f total rest (adcl (.imm 0) AX (body.repeatBP c)) := by
  have hStep : ∀ k c, Running m f total rest (size * (k + 1) + rest) c →
      Running m f total rest (size * k + rest) (decl BP (body.run c)) := by
    intro k c h
    apply hRound
    rw [show size * k + rest + size = size * (k + 1) + rest by rw [Nat.mul_succ]; omega]
    exact h
  -- `I k` of the rule: what the last `k` rounds have to add
  have hEnd := Block.repeat_rule (I := fun k => Running m f total rest (size * k + rest)) hStep k
    c hCount h
  rw [Nat.mul_zero, Nat.zero_add] at hEnd
  exact hEnd.left

/-- A loop is skipped or not, the rest behind it is the same. -/
theorem chunked_left {size mask : Word} {shift : Nat} {body : Block} {next : Cpu → Cpu}
    (hSize : size.toNat = 2 ^ shift) (hMask : mask.toNat = 2 ^ shift - 1) (hShift : shift < 31)
    (hRound : ∀ rest n c, Running m f total rest (n + 2 ^ shift) c →
      Running m f total rest n (decl BP (body.run c)))
    (h : Left m f total n c) (hn : n < 2 ^ 31) :
    ∃ c', chunked size shift mask body next c = next c' ∧ Left m f total (n % 2 ^ shift) c' := by
  have hCount : c.cx.toNat = n := h.count
  have hPow : 2 ^ shift < 2 ^ 31 := Nat.pow_lt_pow_right (by decide) hShift
  have hLess : (cmpl CX (.imm size) c).jlt = true ↔ n < 2 ^ shift := by
    rw [jlt_cmpl]
    show c.cx.toInt < size.toInt ↔ _
    rw [BitVec.toInt_eq_toNat_of_lt (by omega), BitVec.toInt_eq_toNat_of_lt (by omega)]
    omega
  by_cases hSmall : n < 2 ^ shift
  · -- the loop is skipped, and what is left is smaller than a round
    refine ⟨cmpl CX (.imm size) c, ?_, ?_⟩
    · rw [chunked]
      exact if_pos (hLess.mpr hSmall)
    · rw [Nat.mod_eq_of_lt hSmall]
      exact ⟨h.mem, h.frame, h.count, h.same⟩
  · -- `BP` counts the rounds, `CX` keeps the rest
    let c' := cmpl CX (.imm size) c |> movl CX BP |> shrl shift BP |> andl (.imm mask) CX
    have hRounds : c'.bp.toNat = n / 2 ^ shift := by
      show (c.cx >>> shift).toNat = _
      rw [toNat_shr, hCount]
    have hRest : c'.cx.toNat = n % 2 ^ shift := by
      show (c.cx &&& mask).toNat = _
      rw [toNat_and_mask hMask, hCount]
    have hPos : 0 < n / 2 ^ shift := Nat.div_pos (by omega) (Nat.two_pow_pos shift)
    have hSplit : 2 ^ shift * (n / 2 ^ shift - 1 + 1) + n % 2 ^ shift = n := by
      rw [Nat.sub_add_cancel hPos]
      exact Nat.div_add_mod n (2 ^ shift)
    have hKept : c'.mem = c.mem ∧ c'.frame = c.frame ∧ c'.ax = c.ax ∧ c'.si = c.si := by
      simp only [c', andl, shrl, movl, cmpl, Cpu.write, Cpu.set, and_self]
    obtain ⟨hMem, hFrame, hAx, hSi⟩ := hKept
    -- `ANDL` clears the carry
    have hClear : c'.flags.cf = false := rfl
    have hSame : Same 65535
        (c'.ax.toNat + c'.flags.cf.toNat + littleSum (bytesAt m c'.si n)) total := by
      rw [hClear, hAx, hSi]
      exact h.same
    have hRunning : Running m f total (n % 2 ^ shift)
        (2 ^ shift * (n / 2 ^ shift - 1 + 1) + n % 2 ^ shift) c' := by
      rw [hSplit]
      refine ⟨hMem.trans h.mem, hFrame.trans h.frame, hRest, hSame, fun hSet => ?_⟩
      rw [hClear] at hSet
      contradiction
    refine ⟨adcl (.imm 0) AX (body.repeatBP c'), ?_, ?_⟩
    · rw [chunked]
      exact if_neg fun hJump => hSmall (hLess.mp hJump)
    · exact hRunning.repeat_left (hRound _) (by omega)

/-- All three loops in turn leave at most one byte. -/
theorem loop32_left (h : Left m f total n c) (hn : n < 2 ^ 31) :
    ∃ c', loop32 c = dreg1 c' ∧ Left m f total (n % 2) c' := by
  have hFirst : ∃ c', loop32 c = loop8 c' ∧ Left m f total (n % 2 ^ 5) c' :=
    chunked_left rfl rfl (by decide) (fun _ _ _ => loop32x_round) h hn
  obtain ⟨c₁, hFirst, h₁⟩ := hFirst
  have hSecond : ∃ c', loop8 c₁ = loop2 c' ∧ Left m f total (n % 2 ^ 5 % 2 ^ 3) c' :=
    chunked_left rfl rfl (by decide) (fun _ _ _ => loop8x_round) h₁ (by omega)
  obtain ⟨c₂, hSecond, h₂⟩ := hSecond
  have hThird : ∃ c', loop2 c₂ = dreg1 c' ∧ Left m f total (n % 2 ^ 5 % 2 ^ 3 % 2 ^ 1) c' :=
    chunked_left rfl rfl (by decide) (fun _ _ _ => loop2x_round) h₂ (by omega)
  obtain ⟨c₃, hThird, h₃⟩ := hThird
  refine ⟨c₃, ?_, ?_⟩
  · rw [hFirst, hSecond, hThird]
  · rw [show n % 2 = n % 2 ^ 5 % 2 ^ 3 % 2 ^ 1 by omega]
    exact h₃

end

/-! ## The ends of a string -/

section

variable {m : Memory} {f : List Word} {total n : Nat} {c : Cpu}

/-- A byte or half a word that is added outside of the loops. -/
theorem addl_same (c : Cpu) :
    Same 65535 (adcl (.imm 0) AX (addl BX AX c)).ax.toNat (c.ax.toNat + c.bx.toNat) := by
  have hRoom : (addFlags c.ax c.bx false).cf = true →
      (addWith c.ax c.bx false).toNat < 2 ^ 32 - 1 :=
    room_of_carry fun h => by contradiction
  show Same 65535 (addWith (addWith c.ax c.bx false) 0 (addFlags c.ax c.bx false).cf).toNat _
  -- the carry fits, so `ADCL $0` loses nothing
  rw [addWith_zero hRoom]
  exact adc_same c.ax c.bx false

/-- Two bytes more, when there are two. -/
theorem Left.half (h : Left m f total (n + 2) c) : Left m f total n (c
    |> subl (.imm 2) CX
    |> xorl BX BX
    |> movw 0x00 SI BX
    |> addl BX AX
    |> adcl (.imm 0) AX
    |> leal 2 SI SI) := by
  let c' := c |> subl (.imm 2) CX |> xorl BX BX |> movw 0x00 SI BX
  have hCount : (c.cx - 2).toNat = n := by
    have hCount := h.count
    bv_omega
  -- `MOVW` leaves the upper half of `BX`, which `XORL` has cleared
  have hHalf : c'.bx.toNat = (load16 m c.si).toNat := by
    show (low16 (c.bx ^^^ c.bx) (load16 c.mem (c.si + 0))).toNat = _
    rw [low16_toNat, BitVec.xor_self, h.mem, show c.si + 0 = c.si by simp]
    exact Nat.zero_add _
  have hAdded := addl_same c'
  rw [hHalf] at hAdded
  have hSame := (hAdded.add_right (littleSum (bytesAt m (c.si + 2) n)))
  rw [Nat.add_assoc, ← littleSum_two] at hSame
  exact ⟨h.mem, h.frame, hCount, hSame.trans h.same⟩

/-- The two bytes that bring the pointer to a multiple of 4 are added like any others. -/
theorem align2_left (h : Left m f total n c) (hn : n < 2 ^ 31) :
    ∃ c', align2 c = dreg1 c' ∧ Left m f total (n % 2) c' := by
  let c₁ := testl (.imm 2) SI c
  have h₁ : Left m f total n c₁ := ⟨h.mem, h.frame, h.count, h.same⟩
  let c₂ := cmpl CX (.imm 2) c₁
  have h₂ : Left m f total n c₂ := ⟨h.mem, h.frame, h.count, h.same⟩
  have hLess : c₂.jlt = true ↔ n < 2 := by
    rw [jlt_cmpl]
    have hCount := h.count
    show c.cx.toInt < (2 : Word).toInt ↔ _
    rw [BitVec.toInt_eq_toNat_of_lt (by omega), show (2 : Word).toInt = 2 from rfl]
    omega
  by_cases hAligned : c₁.jeq = true
  · obtain ⟨c', hLoop, h'⟩ := loop32_left h₁ hn
    refine ⟨c', ?_, h'⟩
    rw [align2]
    exact (if_pos hAligned).trans hLoop
  · by_cases hSmall : n < 2
    · -- no word to align with: straight on to the last byte
      refine ⟨c₂, ?_, ?_⟩
      · rw [align2]
        exact (if_neg hAligned).trans (if_pos (hLess.mpr hSmall))
      · rw [Nat.mod_eq_of_lt hSmall]
        exact h₂
    · -- one word, and then the loops with the rest
      obtain ⟨k, rfl⟩ : ∃ k, n = k + 2 := ⟨n - 2, by omega⟩
      have h₃ := h₂.half
      obtain ⟨c', hLoop, h'⟩ := loop32_left h₃ (by omega)
      refine ⟨c', ?_, ?_⟩
      · rw [align2]
        exact (if_neg hAligned).trans ((if_neg fun hJump => hSmall (hLess.mp hJump)).trans hLoop)
      · rw [Nat.add_mod_right]
        exact h'

/-- A last byte is the lower one of its word. -/
theorem dreg1_total (h : Left m f total n c) (hn : n < 2) :
    ∃ c', dreg1 c = fold c' ∧ c'.frame = f ∧ Same 65535 c'.ax.toNat total := by
  let c₁ := testl (.imm 1) CX c
  have hEven : c₁.jeq = true ↔ n % 2 = 0 := by
    rw [← h.count]
    exact and_one_eq_zero_iff
  have hSame := h.same
  by_cases hNone : n = 0
  · subst hNone
    refine ⟨c₁, ?_, h.frame, hSame⟩
    rw [dreg1]
    exact if_pos (hEven.mpr rfl)
  · obtain rfl : n = 1 := by omega
    let c₂ := c₁ |> xorl BX BX |> movb 0x00 SI BX
    have hByte : c₂.bx.toNat = (m c.si).toNat := by
      show (low8 (c.bx ^^^ c.bx) (c.mem (c.si + 0))).toNat = _
      rw [low8_toNat, BitVec.xor_self, h.mem, show c.si + 0 = c.si by simp]
      exact Nat.zero_add _
    have hAdded := addl_same c₂
    rw [hByte] at hAdded
    refine ⟨c₂ |> addl BX AX |> adcl (.imm 0) AX, ?_, h.frame, hAdded.trans hSame⟩
    rw [dreg1]
    exact if_neg fun hJump => absurd (hEven.mp hJump) (by decide)

/-- Whatever is in `AX`, the folds leave a half word with the same remainder. -/
theorem fold_total : ∀ c : Cpu, c.frame = f → Same 65535 c.ax.toNat total →
    ∃ c', fold c = swab c' ∧ c'.frame = f ∧ Same 65535 c'.ax.toNat total ∧
      c'.ax.toNat < 2 ^ 16 := by
  intro c
  induction c using fold.induct with
  | case1 c hLow =>
    intro hFrame hSame
    refine ⟨foldHigh c, ?_, hFrame, hSame, (foldHigh_jeq c).mp hLow⟩
    rw [fold, if_pos hLow]
  | case2 c hHigh ih =>
    intro hFrame hSame
    -- a round adds the upper half as if it were the lower one: 2 ^ 16 is 1
    have hNext : Same 65535 (foldAdd (foldHigh c)).ax.toNat total := by
      rw [foldAdd_toNat]
      exact (same_fold 16 c.ax.toNat).trans hSame
    obtain ⟨c', hFold, hRest⟩ := ih hFrame hNext
    refine ⟨c', ?_, hRest⟩
    rw [fold, if_neg hHigh]
    exact hFold

/-- The bytes of a sum are swapped if the string starts at an even address. -/
theorem swab_toNat {addr len : Word} (hFrame : c.frame = [addr, len]) (hLt : c.ax.toNat < 2 ^ 16) :
    (swab c).ax.toNat =
      if addr.toNat % 2 = 0 then c.ax.toNat % 256 * 256 + c.ax.toNat / 256 else c.ax.toNat := by
  have hEven : (testl (.imm 1) (.fp 0) c).jeq = true ↔ addr.toNat % 2 = 0 := by
    show (1 &&& (c.frame[0 / 4]?).getD 0 == 0) = true ↔ _
    rw [hFrame]
    exact and_one_eq_zero_iff
  by_cases hAddr : addr.toNat % 2 = 0
  · -- `XCHGB` of the two bytes of a sum below 2 ^ 16
    have hSwap : (swab c).ax =
        high8 (low8 c.ax (c.ax.extractLsb' 8 8)) (c.ax.extractLsb' 0 8) := by
      rw [swab, if_pos (hEven.mpr hAddr)]
      rfl
    rw [if_pos hAddr, hSwap, high8_toNat, low8_toNat, BitVec.extractLsb'_toNat,
      BitVec.extractLsb'_toNat, Nat.shiftRight_zero, Nat.shiftRight_eq_div_pow,
      show c.ax.toNat / 2 ^ 8 % 2 ^ 8 = c.ax.toNat / 256 by omega,
      show (c.ax.toNat / 256 * 256 + c.ax.toNat / 256) / 65536 = 0 by omega,
      show (c.ax.toNat / 256 * 256 + c.ax.toNat / 256) % 256 = c.ax.toNat / 256 by omega]
    omega
  · rw [if_neg hAddr, swab, if_neg fun hJump => hAddr (hEven.mp hJump)]
    rfl

/-- A sum of 16 bits with its bytes swapped is 256 times the sum. -/
theorem swapped_same (v : Nat) : Same 65535 (v % 256 * 256 + v / 256) (256 * v) := by
  have hCarry : Same 65535 (v % 256 * 256 + 65536 * (v / 256)) (v % 256 * 256 + v / 256) :=
    same_carry (by decide) (by decide) _ _
  rw [show v % 256 * 256 + 65536 * (v / 256) = 256 * v by omega] at hCarry
  exact hCarry.symm

/-- From the start alignment on, with the rest of the string at the pointer. -/
theorem align2_checksum {addr len : Word} {bs : List Byte} (h : Left m [addr, len] total n c)
    (hn : n < 2 ^ 31)
    (hTotal : Same 65535 (if addr.toNat % 2 = 0 then 256 * total else total) (words bs).sum) :
    (align2 c).ax.toNat = checksum bs := by
  -- the labels in turn: `_1dreg`, `_fold`, `_swab`
  obtain ⟨c₁, hFirst, h₁⟩ := align2_left h hn
  obtain ⟨c₂, hSecond, hFrame, hSame⟩ := dreg1_total h₁ (by omega)
  obtain ⟨c₃, hThird, hFrame, hSame, hLt⟩ := fold_total c₂ hFrame hSame
  have hSwab := swab_toNat hFrame hLt
  rw [hFirst, hSecond, hThird, hSwab]
  split at hTotal
  · rename_i hEven
    rw [if_pos hEven]
    apply checksum_eq _ (by omega)
    exact (swapped_same _).trans ((hSame.mul_left 256).trans hTotal)
  · rename_i hOdd
    rw [if_neg hOdd]
    exact checksum_eq (hSame.trans hTotal) (by omega)

end

/-! ## The whole string -/

/-- The state at the first branch. -/
def entry (c : Cpu) (addr len : Word) : Cpu :=
  { c with frame := [addr, len] }
  |> movl (.fp 0) SI
  |> movl (.fp 4) CX
  |> xorl AX AX
  |> testl (.imm 1) SI
  |> movl SI DI

/-- A length that a `long` holds. -/
theorem toNat_len {len : Nat} (h : len < 2 ^ 31) : (BitVec.ofNat 32 len).toNat = len := by
  rw [BitVec.toNat_ofNat]
  omega

/-- At an even address the sum is the checksum. -/
theorem ptclbsum_even (c : Cpu) {addr : Word} {len : Nat} (hLen : len < 2 ^ 31)
    (hEven : addr.toNat % 2 = 0) :
    (ptclbsum c addr (BitVec.ofNat 32 len)).toNat = checksum (bytesAt c.mem addr len) := by
  let c₁ := entry c addr (BitVec.ofNat 32 len)
  have hJump : c₁.jeq = true := and_one_eq_zero_iff.mpr hEven
  have hRun : ptclbsum c addr (BitVec.ofNat 32 len) = (align2 c₁).ax := by
    rw [ptclbsum, ptclbsumRun]
    exact congrArg Cpu.ax (if_pos hJump)
  have hSame : Same 65535 (c₁.ax.toNat + littleSum (bytesAt c.mem c₁.si len))
      (littleSum (bytesAt c.mem addr len)) := by
    show Same 65535 ((c.ax ^^^ c.ax).toNat + littleSum (bytesAt c.mem addr len)) _
    rw [BitVec.xor_self]
    exact Same.of_eq (Nat.zero_add _)
  have hLeft : Left c.mem [addr, BitVec.ofNat 32 len] (littleSum (bytesAt c.mem addr len)) len
      c₁ :=
    ⟨rfl, rfl, toNat_len hLen, hSame⟩
  -- the little-endian sum becomes the big-endian one by the swap
  rw [hRun]
  apply align2_checksum hLeft hLen
  rw [if_pos hEven]
  exact bigEndian_same _

/-- At an odd address the first byte is already where a big-endian word has it. -/
theorem ptclbsum_odd (c : Cpu) {addr : Word} {len : Nat} (hLen : len < 2 ^ 31)
    (hOdd : ¬ addr.toNat % 2 = 0) :
    (ptclbsum c addr (BitVec.ofNat 32 len)).toNat = checksum (bytesAt c.mem addr len) := by
  let c₁ := entry c addr (BitVec.ofNat 32 len)
  have hJump : ¬ c₁.jeq = true := fun h => hOdd (and_one_eq_zero_iff.mp h)
  have hCount : (BitVec.ofNat 32 len).toNat = len := toNat_len hLen
  have hEmpty : (decl CX c₁).jlt = true ↔ len = 0 := by
    refine (sub_lt_iff (BitVec.ofNat 32 len) 1).trans ?_
    rw [BitVec.toInt_eq_toNat_of_lt (by omega), hCount, show (1 : Word).toInt = 1 from rfl]
    omega
  cases len with
  | zero =>
    -- `DECL` goes below 0, and the sum is still empty
    have hRun : ptclbsum c addr (BitVec.ofNat 32 0) = (decl CX c₁).ax := by
      rw [ptclbsum, ptclbsumRun]
      exact congrArg Cpu.ax ((if_neg hJump).trans (if_pos (hEmpty.mpr rfl)))
    rw [hRun]
    show (c.ax ^^^ c.ax).toNat = _
    rw [BitVec.xor_self]
    rfl
  | succ k =>
    -- the first byte is in `AH`, the rest is at an even address
    let c₂ := decl CX c₁ |> movbh 0x00 SI AX |> incl SI
    have hRun : ptclbsum c addr (BitVec.ofNat 32 (k + 1)) = (align2 c₂).ax := by
      rw [ptclbsum, ptclbsumRun]
      exact congrArg Cpu.ax
        ((if_neg hJump).trans (if_neg fun h => Nat.succ_ne_zero k (hEmpty.mp h)))
    have hByte : c₂.ax.toNat = 256 * (c.mem addr).toNat := by
      show (high8 (c.ax ^^^ c.ax) (c.mem (addr + 0))).toNat = _
      rw [high8_toNat, BitVec.xor_self, show addr + 0 = addr by simp, BitVec.toNat_ofNat]
      omega
    have hSame : Same 65535 (c₂.ax.toNat + littleSum (bytesAt c.mem c₂.si k))
        (words (bytesAt c.mem addr (k + 1))).sum := by
      rw [hByte, bytesAt, words_cons_sum]
      exact Same.refl _ _
    have hRest : (BitVec.ofNat 32 (k + 1) - 1).toNat = k := by
      bv_omega
    have hLeft : Left c.mem [addr, BitVec.ofNat 32 (k + 1)]
        (words (bytesAt c.mem addr (k + 1))).sum k c₂ := ⟨rfl, rfl, hRest, hSame⟩
    rw [hRun]
    apply align2_checksum hLeft (by omega)
    rw [if_neg hOdd]
    exact Same.refl _ _

/-- For every content of the memory, every address and every length that an `int` can have;
addresses wrap. -/
theorem ptclbsum_checksum (c : Cpu) (addr : Word) (len : Nat) (hLen : len < 2 ^ 31) :
    (ptclbsum c addr (BitVec.ofNat 32 len)).toNat = checksum (bytesAt c.mem addr len) ∧
      ((ptclbsum c addr (BitVec.ofNat 32 len)).toNat = 0 ↔
        ∀ b ∈ bytesAt c.mem addr len, b = 0) := by
  have hSum : (ptclbsum c addr (BitVec.ofNat 32 len)).toNat =
      checksum (bytesAt c.mem addr len) := by
    by_cases hEven : addr.toNat % 2 = 0
    · exact ptclbsum_even c hLen hEven
    · exact ptclbsum_odd c hLen hEven
  refine ⟨hSum, ?_⟩
  rw [hSum, checksum_eq_zero_iff]

/-- A memory in which each byte is the low byte of its address. -/
def counting : Cpu :=
  { ax := 0, bx := 0, cx := 0, dx := 0, si := 0, di := 0, bp := 0
    flags := { cf := false, zf := false, sf := false, of := false }
    frame := []
    mem := fun a => a.setWidth 8 }

/-- The words 0x0102 and 0x0300. -/
theorem ptclbsum_three : (ptclbsum counting 1 (BitVec.ofNat 32 3)).toNat = 0x0402 :=
  (ptclbsum_checksum counting 1 3 (by decide)).1.trans (by decide)

end Glendum.Ptclbsum
