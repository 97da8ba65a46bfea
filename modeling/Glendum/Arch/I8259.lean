import Glendum.Lib.I8259
import Glendum.Lib.LowBits
import Glendum.Arch.Vectors

/-!
# Glendum — the interrupt controllers

`i8259.c` sets up the two chips of a PC, and keeps in `i8259mask` which lines are disabled. A run
starts behind `i8259init`, with whatever has been in the chips: drivers enable and disable lines,
devices change them, and the processor takes interrupts, also while it still works on others of
lower priority, and calls `i8259isr` for each, the last one first.

A line that goes away too early makes the chips say line 7 or 15. The processor finds that out by
`i8259isr`, which ends an interrupt all the same; so this must not come while another interrupt is
under way (`PicOp.Allowed`). Nor must `i8259disable` be called for line 2, where the second chip is.

* `Ideal` — one controller with sixteen lines, which knows what is enabled, requested and served;
* `i8259init_spec` — what the chips and the variables are behind `i8259init`;
* `pic_ideal` — in every run the processor gets the interrupts, and the drivers the answers, that
  this controller gives.
-/

namespace Glendum

open Machine I8259

/-! ## The driver -/

def Int0ctl : Nat := 0x20
def Int0aux : Nat := 0x21
def Int1ctl : Nat := 0xA0
def Int1aux : Nat := 0xA1

def Ocw3 : Byte := 0x08
def EOI : Byte := 0x20

def Elcr1 : Nat := 0x4D0
def Elcr2 : Nat := 0x4D1

/-- The chips, and the variables of `i8259.c`. -/
structure Pic where
  chips     : Pair
  i8259mask : Word
  i8259elcr : Word

/-- `i8259isr`, for the hooks of a handler. -/
def i8259isrHook : Nat := 1

def lowByte (w : Word) : Byte := (w &&& 0xFF).setWidth 8
def highByte (w : Word) : Byte := ((w >>> 8) &&& 0xFF).setWidth 8

/-- The check for the edge/level register. -/
def elcrcheck (p : Pair) : Pair × Word :=
  let x : Word := ((p.inb Elcr2).setWidth 32 <<< 8) ||| (p.inb Elcr1).setWidth 32
  -- the bits for IRQs 13, 8, 2, 1 and 0 must be edge
  if x &&& 0x2107 = 0 then
    let p := p.outb Elcr1 0
    if p.inb Elcr1 = 0 then
      let p := p.outb Elcr1 0x20
      let elcr := if p.inb Elcr1 = 0x20 then x else 0
      (p.outb Elcr1 (lowByte x), elcr)
    else (p, 0)
  else (p, 0)

def i8259init (p : Pair) : Pic :=
  let i8259mask : Word := 0xFFFF
  -- the first processor, as master with edge triggered input
  let p := p.outb Int0ctl 0x11
  let p := p.outb Int0aux (BitVec.ofNat 8 VectorPIC)
  let p := p.outb Int0aux 0x04
  let p := p.outb Int0aux 0x01
  -- the second one, as slave
  let p := p.outb Int1ctl 0x11
  let p := p.outb Int1aux (BitVec.ofNat 8 (VectorPIC + 8))
  let p := p.outb Int1aux 0x02
  let p := p.outb Int1aux 0x01
  let p := p.outb Int1aux (highByte i8259mask)
  -- pass #2 8259 interrupts to #1
  let i8259mask := i8259mask &&& ~~~ 0x04
  let p := p.outb Int0aux (lowByte i8259mask)
  -- return the ISR when ctl read
  let p := p.outb Int0ctl (Ocw3 ||| 0x03)
  let p := p.outb Int1ctl (Ocw3 ||| 0x03)
  let (p, i8259elcr) := elcrcheck p
  { chips := p, i8259mask, i8259elcr }

namespace Pic

def i8259isr (s : Pic) (vno : Nat) : Word × Pic :=
  if vno < VectorPIC ∨ VectorPIC + MaxIrqPIC < vno then (0, s) else
  let irq := vno - VectorPIC
  let isr : Word := (s.chips.inb Int0ctl).setWidth 32
  let p := s.chips.outb Int0ctl EOI
  if 8 ≤ irq then
    let isr := isr ||| ((p.inb Int1ctl).setWidth 32 <<< 8)
    (isr &&& BitVec.twoPow 32 irq, { s with chips := p.outb Int1ctl EOI })
  else (isr &&& BitVec.twoPow 32 irq, { s with chips := p })

/-- The part of the mask for the chip of a line. -/
def setmask (s : Pic) (irq : Nat) (mask : Word) : Pic :=
  { s with
    i8259mask := mask
    chips :=
      if irq < 8 then s.chips.outb Int0aux (lowByte mask) else s.chips.outb Int1aux (highByte mask) }

def i8259enable (s : Pic) (v : Vctl) : Int × Vctl × Pic :=
  if v.irq < 0 ∨ (MaxIrqPIC : Int) < v.irq then (-1, v, s) else
  let irq := v.irq.toNat
  -- shared but not level
  if s.i8259mask.getLsbD irq = false ∧ s.i8259elcr.getLsbD irq = false then (-1, v, s) else
  let s := s.setmask irq (s.i8259mask &&& ~~~ BitVec.twoPow 32 irq)
  let v' :=
    if s.i8259elcr.getLsbD irq = true then { v with eoi := some i8259isrHook }
    else { v with isr := some i8259isrHook }
  (VectorPIC + v.irq, v', s)

def i8259disable (s : Pic) (irq : Int) : Int × Pic :=
  if irq < 0 ∨ (MaxIrqPIC : Int) < irq then (-1, s) else
  let irq := irq.toNat
  if s.i8259mask.getLsbD irq = false then
    (0, s.setmask irq (s.i8259mask ||| BitVec.twoPow 32 irq))
  else (0, s)

def i8259on (s : Pic) : Pic :=
  let p := s.chips.outb Int0aux (lowByte s.i8259mask)
  { s with chips := p.outb Int1aux (highByte s.i8259mask) }

def i8259off (s : Pic) : Pic :=
  let p := s.chips.outb Int0aux 0xFF
  { s with chips := p.outb Int1aux 0xFF }

end Pic

/-! ## Runs -/

/-- What the processor and the drivers see. -/
inductive PicEvent
  | vector (vno : Nat)
  | isr (vno : Nat) (isr : Word)
  | enable (vno : Int) (v : Vctl)
  | disable (r : Int)

inductive PicOp
  | enable (v : Vctl)
  | disable (irq : Int)
  | off
  | on
  /-- a device changes its line -/
  | drive (irq : Fin 16) (on : Bool)
  /-- the processor takes an interrupt, and its handlers are called -/
  | take
  /-- `i8259isr` for the last interrupt that was taken -/
  | done
  /-- the request goes away too early, and `i8259isr` is called at once -/
  | spurious (atSlave : Bool)

/-- `serving` are the lines whose interrupts are under way, the last one first. -/
structure Picrun extends Pic where
  off     : Bool
  serving : List (Fin 16)
  log     : List PicEvent

namespace Picrun

def start (p : Pair) : Picrun := { i8259init p with off := false, serving := [], log := [] }

def step (s : Picrun) : PicOp → Option Picrun
  | .enable v =>
    let (vno, v, t) := s.i8259enable v
    some { s with toPic := t, log := .enable vno v :: s.log }
  | .disable irq =>
    let (r, t) := s.i8259disable irq
    some { s with toPic := t, log := .disable r :: s.log }
  | .off => some { s with toPic := s.i8259off, off := true }
  | .on => some { s with toPic := s.i8259on, off := false }
  | .drive irq on => some { s with chips := s.chips.drive irq on }
  | .take =>
    s.chips.take.map fun (p, vno) =>
      { s with
        chips := p
        serving := lineOf (vno.toNat - VectorPIC) :: s.serving
        log := .vector vno.toNat :: s.log }
  | .done =>
    match s.serving with
    | [] => none
    | irq :: rest =>
      let vno := VectorPIC + irq.val
      let (isr, t) := s.i8259isr vno
      some { s with toPic := t, serving := rest, log := .isr vno isr :: s.log }
  | .spurious atSlave =>
    let (p, vno) := s.chips.takeNone atSlave
    let (isr, t) := ({ s.toPic with chips := p } : Pic).i8259isr vno.toNat
    some { s with toPic := t, log := .isr vno.toNat isr :: .vector vno.toNat :: s.log }

end Picrun

/-- Nobody uses the line of the second chip, or changes what is enabled while the chips are off, and
a request goes away too early only while nothing is under way. -/
def PicOp.Allowed (s : Picrun) : PicOp → Prop
  | .enable _ => s.off = false
  | .disable irq => s.off = false ∧ irq ≠ 2
  | .drive irq _ => irq.val ≠ 2
  | .spurious _ => s.serving = []
  | .off | .on | .take | .done => True

/-! ## One controller -/

/-- A controller with sixteen lines; a level-triggered one requests as long as it is on. -/
@[ext] structure Ideal where
  enabled : Fin 16 → Bool
  raised  : Fin 16 → Bool
  level   : Fin 16 → Bool
  /-- the lines that may be enabled twice -/
  shared  : Fin 16 → Bool
  off     : Bool
  serving : List (Fin 16)
  log     : List PicEvent

namespace Ideal

/-- The line can interrupt what is under way; those of the second chip do not interrupt each
other. -/
def ready (s : Ideal) (irq : Fin 16) : Bool :=
  !s.off && s.enabled irq && s.raised irq && s.serving.all fun other => decide (line irq < line other)

def next (s : Ideal) : Option (Fin 16) := priority.find? s.ready

def step (s : Ideal) : PicOp → Option Ideal
  | .enable v =>
    if h : 0 ≤ v.irq ∧ v.irq ≤ (MaxIrqPIC : Int) then
      let irq : Fin 16 := ⟨v.irq.toNat, by unfold MaxIrqPIC at h; omega⟩
      if s.enabled irq = true ∧ s.shared irq = false then some { s with log := .enable (-1) v :: s.log } else
      let v' :=
        if s.shared irq = true then { v with eoi := some i8259isrHook }
        else { v with isr := some i8259isrHook }
      some { s with
        enabled := Function.update s.enabled irq true
        log := .enable (VectorPIC + v.irq) v' :: s.log }
    else some { s with log := .enable (-1) v :: s.log }
  | .disable irq =>
    if h : 0 ≤ irq ∧ irq ≤ (MaxIrqPIC : Int) then some { s with
      enabled := Function.update s.enabled ⟨irq.toNat, by unfold MaxIrqPIC at h; omega⟩ false
      log := .disable 0 :: s.log }
    else some { s with log := .disable (-1) :: s.log }
  | .off => some { s with off := true }
  | .on => some { s with off := false }
  | .drive irq on => some { s with raised := Function.update s.raised irq on }
  | .take => s.next.map fun irq =>
    { s with
      raised := Function.update s.raised irq (s.level irq)
      serving := irq :: s.serving
      log := .vector (VectorPIC + irq) :: s.log }
  | .done =>
    match s.serving with
    | [] => none
    | irq :: rest =>
      some { s with serving := rest, log := .isr (VectorPIC + irq) (BitVec.twoPow 32 irq) :: s.log }
  | .spurious atSlave =>
    let vno := if atSlave = true then VectorPIC + 15 else VectorPIC + 7
    some { s with log := .isr vno 0 :: .vector vno :: s.log }

end Ideal

/-- The controller that the chips and the driver make up. -/
def Picrun.ideal (s : Picrun) : Ideal where
  enabled irq := !s.i8259mask.getLsbD irq
  raised := s.chips.raised
  level := s.chips.level
  shared irq := s.i8259elcr.getLsbD irq
  off := s.off
  serving := s.serving
  log := s.log

/-! ## The chips and the driver -/

section

variable {s : Picrun} {c : Chip} {p : Pair} {w : Word} {i j : Fin 8} {irq : Fin 16}

/-- The low byte of the mask has the lines of the first chip. -/
theorem getLsbD_lowByte : (lowByte w).getLsbD i = w.getLsbD i := by
  have hi := i.isLt
  have hMask : (0xFF : Word) = low 32 8 := by decide
  unfold lowByte
  rw [BitVec.getLsbD_setWidth, BitVec.getLsbD_and, hMask, getLsbD_low, decide_eq_true hi,
    decide_eq_true (by omega : i.val < 32)]
  simp

/-- The high byte has those of the second. -/
theorem getLsbD_highByte : (highByte w).getLsbD j = w.getLsbD (8 + j) := by
  have hj := j.isLt
  have hMask : (0xFF : Word) = low 32 8 := by decide
  unfold highByte
  rw [BitVec.getLsbD_setWidth, BitVec.getLsbD_and, BitVec.getLsbD_ushiftRight, hMask, getLsbD_low,
    decide_eq_true hj, decide_eq_true (by omega : j.val < 32)]
  simp

/-- Outside the initialization the second port takes the mask. -/
theorem aux_mask {v : Byte} (h : c.icw = 0) : c.aux v = { c with imr := v } := by
  cases c
  subst h
  rfl

/-- `EOI` on the control port is the non-specific end of an interrupt. -/
theorem ctl_eoi : c.ctl EOI = c.eoi := by
  unfold Chip.ctl
  rw [if_neg (by decide), if_neg (by decide), if_pos (by decide)]

/-- Behind `i8259init` and after every step: the masks are those of the variable, and what is in
service is what is under way, the lines of higher priority last. -/
structure PicInv (s : Picrun) : Prop where
  icw       : s.chips.master.icw = 0 ∧ s.chips.slave.icw = 0
  reads     : s.chips.master.readIsr = true ∧ s.chips.slave.readIsr = true
  base      : s.chips.master.base = BitVec.ofNat 8 VectorPIC ∧ s.chips.slave.base = BitVec.ofNat 8 (VectorPIC + 8)
  mask      : ∀ i : Fin 8, s.chips.master.imr.getLsbD i = (s.off || s.i8259mask.getLsbD i)
  maskSlave : ∀ j : Fin 8, s.chips.slave.imr.getLsbD j = (s.off || s.i8259mask.getLsbD (8 + j))
  cascade   : s.i8259mask.getLsbD 2 = false
  noLine    : s.chips.master.irr.getLsbD 2 = false
  isr       : ∀ i : Fin 8, s.chips.master.isr.getLsbD i = decide (i ∈ s.serving.map line)
  isrSlave  : ∀ j : Fin 8, s.chips.slave.isr.getLsbD j = decide (onSlave j ∈ s.serving)
  sorted    : s.serving.Pairwise fun irq other => line irq < line other

/-- Other requests, and other interrupts under way. -/
theorem PicInv.update {t : Picrun} {irr' isr' : Byte} (h : PicInv s) (irr isr : Byte)
    (hMask : t.i8259mask = s.i8259mask) (hOff : t.off = s.off)
    (hMaster : t.chips.master = { s.chips.master with irr := irr, isr := isr })
    (hLine : irr.getLsbD 2 = false)
    (hSlave : t.chips.slave = { s.chips.slave with irr := irr', isr := isr' })
    (hIsr : ∀ k : Fin 8, isr.getLsbD k = decide (k ∈ t.serving.map line))
    (hIsrSlave : ∀ k : Fin 8, isr'.getLsbD k = decide (onSlave k ∈ t.serving))
    (hSorted : t.serving.Pairwise fun irq other => line irq < line other) : PicInv t := by
  refine ⟨?_, ?_, ?_, ?_, ?_, ?_, ?_, ?_, ?_, hSorted⟩
  · rw [hMaster, hSlave]
    exact h.icw
  · rw [hMaster, hSlave]
    exact h.reads
  · rw [hMaster, hSlave]
    exact h.base
  · rw [hMaster, hMask, hOff]
    exact h.mask
  · rw [hSlave, hMask, hOff]
    exact h.maskSlave
  · rw [hMask]
    exact h.cascade
  · rw [hMaster]
    exact hLine
  · rw [hMaster]
    exact hIsr
  · rw [hSlave]
    exact hIsrSlave

/-! ### Taking an interrupt -/

/-- The first chip lets a line through when it is enabled and nothing under way is as important.
-/
theorem admits_master (h : PicInv s) : s.chips.master.admits i =
    (!(s.off || s.i8259mask.getLsbD i) && s.serving.all fun other => decide (i < line other)) := by
  rw [Bool.eq_iff_iff, admits_iff, h.mask, Bool.and_eq_true, Bool.not_eq_true', List.all_eq_true]
  refine and_congr_right fun _ => ⟨fun hNone other hOther => ?_, fun hAll k hk => ?_⟩
  · rw [decide_eq_true_iff]
    by_contra hLe
    have hClear := hNone (line other) (not_lt.mp hLe)
    rw [h.isr, decide_eq_false_iff_not] at hClear
    exact hClear (List.mem_map_of_mem hOther)
  · rw [h.isr, decide_eq_false_iff_not]
    intro hMem
    obtain ⟨other, hOther, rfl⟩ := List.mem_map.mp hMem
    exact absurd (decide_eq_true_iff.mp (hAll other hOther)) (not_lt.mpr hk)

/-- A line of the first chip is its own line there. -/
theorem line_onMaster : line (onMaster i) = i := by
  revert i
  decide

/-- Every line of the second chip comes in at line 2 of the first. -/
theorem line_onSlave : line (onSlave j) = 2 := by
  revert j
  decide

/-- The second chip may only ask for its highest line while none of its lines is in service. -/
theorem admits_slave (h : PicInv s) (hFree : ∀ other ∈ s.serving, 2 < line other) :
    s.chips.slave.admits j = !(s.off || s.i8259mask.getLsbD (8 + j)) := by
  rw [Bool.eq_iff_iff, admits_iff, h.maskSlave, Bool.not_eq_true']
  refine and_iff_left fun k _ => ?_
  rw [h.isrSlave, decide_eq_false_iff_not]
  intro hMem
  have hLess := hFree _ hMem
  rw [line_onSlave] at hLess
  exact absurd hLess (lt_irrefl 2)

theorem raised_onMaster : p.raised (onMaster i) = p.master.irr.getLsbD i := if_pos i.isLt

theorem raised_onSlave : p.raised (onSlave j) = p.slave.irr.getLsbD j := by
  have hHigh : ¬ (onSlave j).val < 8 := Nat.not_lt.mpr (Nat.le_add_right 8 j.val)
  refine (if_neg hHigh).trans ?_
  show p.slave.irr.getLsbD ((onSlave j).val - 8) = _
  rw [show (onSlave j).val - 8 = j.val from Nat.add_sub_cancel_left 8 j.val]

/-- The pair chooses as the one controller does. -/
theorem next_ideal (h : PicInv s) : s.ideal.next = s.chips.cascade.request.bind fun i =>
    if i = 2 then s.chips.slave.request.map onSlave else some (onMaster i) := by
  let free : Bool := !s.off && s.serving.all fun other => decide (2 < line other)
  refine find?_cascade free (fun i hi => ?_) ?_ fun j => ?_
  · have hIrr : s.chips.cascade.irr.getLsbD i = s.chips.master.irr.getLsbD i := by
      unfold Pair.cascade
      dsimp only
      split
      · rw [getLsbD_setBit, decide_eq_false hi, Bool.false_or]
      · rw [getLsbD_clearBit, decide_eq_false hi, Bool.not_false, Bool.true_and]
    have hAdmits : s.chips.cascade.admits i = s.chips.master.admits i := rfl
    rw [hIrr, hAdmits, admits_master h]
    unfold Ideal.ready
    rw [line_onMaster]
    show _ = (!s.off && !s.i8259mask.getLsbD (onMaster i).val && s.chips.raised (onMaster i) && _)
    rw [raised_onMaster, Bool.not_or]
    show _ = (!s.off && !s.i8259mask.getLsbD i.val && _ && _)
    generalize (!s.off) = a, (!s.i8259mask.getLsbD i.val) = b, s.chips.master.irr.getLsbD i = d
    cases a <;> cases b <;> cases d <;> rfl
  · -- line 2 of the first chip is what the second one asks
    have hIrr : s.chips.cascade.irr.getLsbD 2 = s.chips.slave.request.isSome := by
      unfold Pair.cascade
      dsimp only
      split
      · rename_i hAsks
        rw [hAsks]
        exact getLsbD_setBit (i := 2) (j := 2)
      · rename_i hQuiet
        rw [Bool.not_eq_true _ |>.mp hQuiet]
        exact getLsbD_clearBit (i := 2) (j := 2)
    have hAdmits : s.chips.cascade.admits 2 = s.chips.master.admits 2 := rfl
    have hCascade : s.i8259mask.getLsbD ((2 : Fin 8) : Nat) = false := h.cascade
    rw [hAdmits, admits_master h, hCascade, Bool.or_false]
    exact congrArg (· && _) hIrr
  · unfold Ideal.ready
    rw [line_onSlave]
    show (!s.off && !s.i8259mask.getLsbD (8 + j.val) && s.chips.raised (onSlave j) &&
      s.serving.all fun other => decide (2 < line other)) = _
    rw [raised_onSlave]
    -- the line is of use only if nothing under way stands above line 2
    by_cases hFree : free = true
    · have hBoth := hFree
      rw [Bool.and_eq_true, List.all_eq_true] at hBoth
      have hOff : s.off = false := by simpa using hBoth.1
      have hAll : ∀ other ∈ s.serving, 2 < line other := fun other hOther =>
        decide_eq_true_iff.mp (hBoth.2 other hOther)
      rw [admits_slave h hAll, hFree, hOff, Bool.false_or, Bool.and_true, List.all_eq_true.mpr hBoth.2,
        Bool.and_true, Bool.not_false, Bool.true_and, Bool.and_comm]
    · rw [Bool.not_eq_true _ |>.mp hFree, Bool.and_false]
      rw [Bool.not_eq_true] at hFree
      rcases Bool.and_eq_false_iff.mp hFree with hOff | hServing
      · rw [hOff, Bool.false_and, Bool.false_and, Bool.false_and]
      · rw [hServing, Bool.and_false]

/-- One more interrupt is under way, above all others. -/
theorem PicInv.served {t : Picrun} {irr' isr' : Byte} (h : PicInv s) (irq : Fin 16) (irr : Byte)
    (hMask : t.i8259mask = s.i8259mask) (hOff : t.off = s.off) (hServing : t.serving = irq :: s.serving)
    (hMaster : t.chips.master =
      { s.chips.master with irr := irr, isr := setBit s.chips.master.isr (line irq) })
    (hLine : irr.getLsbD 2 = false) (hSlave : t.chips.slave = { s.chips.slave with irr := irr', isr := isr' })
    (hIsr : ∀ k, isr'.getLsbD k.val = decide (onSlave k ∈ irq :: s.serving))
    (hAbove : ∀ other ∈ s.serving, line irq < line other) : PicInv t := by
  refine h.update irr _ hMask hOff hMaster hLine hSlave (fun k => ?_) ?_ ?_
  · rw [hServing, List.map_cons, getLsbD_setBit, h.isr, ← Bool.decide_or]
    exact decide_eq_decide.mpr List.mem_cons.symm
  · rw [hServing]
    exact hIsr
  · rw [hServing]
    exact List.pairwise_cons.mpr ⟨hAbove, h.sorted⟩

/-- Line `k` after line `i` was acknowledged. -/
theorem irr_serve {l : Bool} (hRaised : c.irr.getLsbD i = true) (k : Fin 8) :
    (c.serve l i).irr.getLsbD k = if k = i then l else c.irr.getLsbD k := by
  unfold Chip.serve
  cases l with
  | true =>
    show c.irr.getLsbD k = _
    split
    · rename_i hk
      rw [hk, hRaised]
    · rfl
  | false =>
    show (clearBit c.irr i).getLsbD k = _
    rw [getLsbD_clearBit]
    split
    · rename_i hk
      rw [decide_eq_true hk, Bool.not_true, Bool.false_and]
    · rename_i hk
      rw [decide_eq_false hk, Bool.not_false, Bool.true_and]

/-- Lines of the second chip are told apart by their place on it. -/
theorem onSlave_inj : onSlave i = onSlave j ↔ i = j := by
  revert i j
  decide

/-- So are those of the first. -/
theorem onMaster_inj : onMaster i = onMaster j ↔ i = j := by
  revert i j
  decide

/-- No line is on both chips. -/
theorem onSlave_ne_onMaster : onSlave j ≠ onMaster i := by
  revert i j
  decide

/-- Each of the sixteen lines is one of a chip. -/
theorem line_cases (irq : Fin 16) : (∃ i, irq = onMaster i) ∨ ∃ j, irq = onSlave j := by
  revert irq
  decide

/-- One line of the first chip is changed. -/
theorem update_raised_master {q : Pair} {on : Bool} (hSlave : q.slave.irr = p.slave.irr)
    (hMaster : ∀ k : Fin 8, q.master.irr.getLsbD k = if k = i then on else p.master.irr.getLsbD k) :
    Function.update p.raised (onMaster i) on = q.raised := by
  funext k
  rcases line_cases k with ⟨k, rfl⟩ | ⟨k, rfl⟩
  · rw [raised_onMaster, hMaster]
    by_cases hk : k = i
    · rw [hk, if_pos rfl, Function.update_self]
    · rw [if_neg hk, Function.update_of_ne fun hEq => hk (onMaster_inj.mp hEq), raised_onMaster]
  · rw [Function.update_of_ne onSlave_ne_onMaster, raised_onSlave, raised_onSlave, hSlave]

/-- A change of one request on the second chip changes this line of the sixteen only. -/
theorem update_raised_slave {q : Pair} {on : Bool} (hMaster : q.master.irr = p.master.irr)
    (hSlave : ∀ k : Fin 8, q.slave.irr.getLsbD k = if k = j then on else p.slave.irr.getLsbD k) :
    Function.update p.raised (onSlave j) on = q.raised := by
  funext k
  rcases line_cases k with ⟨k, rfl⟩ | ⟨k, rfl⟩
  · rw [Function.update_of_ne (Ne.symm onSlave_ne_onMaster), raised_onMaster, raised_onMaster, hMaster]
  · rw [raised_onSlave, hSlave]
    by_cases hk : k = j
    · rw [hk, if_pos rfl, Function.update_self]
    · rw [if_neg hk, Function.update_of_ne fun hEq => hk (onSlave_inj.mp hEq), raised_onSlave]

/-- The first chip answers with the vector of its line. -/
theorem vector_master : (BitVec.ofNat 8 VectorPIC + BitVec.ofNat 8 i.val).toNat = VectorPIC + (onMaster i).val := by
  revert i
  decide

/-- The second chip answers with the vector of its line, 8 further on. -/
theorem vector_slave :
    (BitVec.ofNat 8 (VectorPIC + 8) + BitVec.ofNat 8 j.val).toNat = VectorPIC + (onSlave j).val := by
  revert j
  decide

/-- The line is known from its vector. -/
theorem lineOf_vector : lineOf (VectorPIC + irq.val - VectorPIC) = irq := by
  rw [Nat.add_sub_cancel_left]
  exact Fin.ext (Nat.mod_eq_of_lt irq.isLt)

/-- What is chosen is above everything under way. -/
theorem next_above (hNext : s.ideal.next = some irq) : ∀ other ∈ s.serving, line irq < line other := by
  intro other hOther
  have hReady := List.find?_some hNext
  unfold Ideal.ready at hReady
  rw [Bool.and_eq_true, List.all_eq_true] at hReady
  exact decide_eq_true_iff.mp (hReady.2 other hOther)

/-- The first chip passes on what the second one has chosen. -/
theorem take_slave (h : PicInv s) (hAsks : s.chips.cascade.request = some 2) :
    ∃ s', s.step .take = some s' ∧ s.ideal.step .take = some s'.ideal ∧ PicInv s' := by
  have hNext := next_ideal h
  rw [hAsks, Option.bind_some, if_pos rfl] at hNext
  -- line 2 of the first chip is on only while the second one asks for something
  have hSome : s.chips.slave.request.isSome = true := by
    have hFound := List.find?_some hAsks
    rw [Bool.and_eq_true] at hFound
    have hLine := hFound.1
    unfold Pair.cascade at hLine
    dsimp only at hLine
    by_contra hNot
    rw [if_neg hNot, getLsbD_clearBit, decide_eq_true rfl, Bool.not_true, Bool.false_and] at hLine
    cases hLine
  obtain ⟨j, hj⟩ := Option.isSome_iff_exists.mp hSome
  have hRaised := List.find?_some hj
  rw [Bool.and_eq_true] at hRaised
  rw [hj, Option.map_some] at hNext
  have hChips : s.chips.take = some
      ({ s.chips with
          master := s.chips.master.serve true 2
          slave := s.chips.slave.serve (s.chips.level (onSlave j)) j },
        s.chips.slave.base + BitVec.ofNat 8 j) := by
    unfold Pair.take
    rw [hAsks, Option.bind_some, if_pos rfl, hj]
    rfl
  have hTake : s.step .take = s.chips.take.map _ := rfl
  have hIdeal : s.ideal.step .take = s.ideal.next.map _ := rfl
  refine ⟨_, by rw [hTake, hChips]; rfl, ?_, ?_⟩
  · rw [hIdeal, hNext]
    refine congrArg some ?_
    unfold Picrun.ideal
    dsimp only
    rw [h.base.2, vector_slave, lineOf_vector]
    refine congrArg (fun r => Ideal.mk _ r _ _ _ _ _) (update_raised_slave ?_ fun k => ?_)
    · rfl
    · exact irr_serve hRaised.1 k
  · have hVector : lineOf ((s.chips.slave.base + BitVec.ofNat 8 j.val).toNat - VectorPIC) = onSlave j := by
      rw [h.base.2, vector_slave, lineOf_vector]
    refine h.served (onSlave j) s.chips.master.irr rfl rfl (congrArg (· :: s.serving) hVector) ?_ h.noLine rfl
      (fun k => ?_) (next_above hNext)
    · rw [line_onSlave]
      rfl
    · show (setBit s.chips.slave.isr j).getLsbD k = _
      rw [getLsbD_setBit, h.isrSlave, ← Bool.decide_or]
      exact decide_eq_decide.mpr (by rw [List.mem_cons, onSlave_inj])

/-- The first chip has chosen a line of its own. -/
theorem take_master (h : PicInv s) (hi : i ≠ 2) (hAsks : s.chips.cascade.request = some i) :
    ∃ s', s.step .take = some s' ∧ s.ideal.step .take = some s'.ideal ∧ PicInv s' := by
  have hNext := next_ideal h
  rw [hAsks, Option.bind_some, if_neg hi] at hNext
  -- the cascade only drives line 2, so the request was the first chip's own
  have hRaised : s.chips.master.irr.getLsbD i = true := by
    have hFound := List.find?_some hAsks
    rw [Bool.and_eq_true] at hFound
    have hLine := hFound.1
    unfold Pair.cascade at hLine
    dsimp only at hLine
    split at hLine
    · rwa [getLsbD_setBit, decide_eq_false hi, Bool.false_or] at hLine
    · rwa [getLsbD_clearBit, decide_eq_false hi, Bool.not_false, Bool.true_and] at hLine
  have hChips : s.chips.take = some
      ({ s.chips with master := s.chips.master.serve (s.chips.level (onMaster i)) i },
        s.chips.master.base + BitVec.ofNat 8 i) := by
    unfold Pair.take
    rw [hAsks, Option.bind_some, if_neg hi]
  have hTake : s.step .take = s.chips.take.map _ := rfl
  have hIdeal : s.ideal.step .take = s.ideal.next.map _ := rfl
  refine ⟨_, by rw [hTake, hChips]; rfl, ?_, ?_⟩
  · rw [hIdeal, hNext]
    refine congrArg some ?_
    unfold Picrun.ideal
    dsimp only
    rw [h.base.1, vector_master, lineOf_vector]
    refine congrArg (fun r => Ideal.mk _ r _ _ _ _ _) (update_raised_master ?_ fun k => ?_)
    · rfl
    · exact irr_serve hRaised k
  -- the first chip has now this line in service, below the ones it had
  · have hVector : lineOf ((s.chips.master.base + BitVec.ofNat 8 i.val).toNat - VectorPIC) = onMaster i := by
      rw [h.base.1, vector_master, lineOf_vector]
    refine h.served (onMaster i) (s.chips.master.serve (s.chips.level (onMaster i)) i).irr rfl rfl
      (congrArg (· :: s.serving) hVector) ?_ ?_ rfl (fun k => ?_) (next_above hNext)
    · rw [line_onMaster]
      rfl
    · have hOther := irr_serve (l := s.chips.level (onMaster i)) hRaised 2
      rw [if_neg (Ne.symm hi)] at hOther
      exact hOther.trans h.noLine
    · rw [h.isrSlave]
      exact decide_eq_decide.mpr (by rw [List.mem_cons, or_iff_right onSlave_ne_onMaster])

/-- The processor takes an interrupt when the one controller has one for it, and takes that. -/
theorem take_spec (h : PicInv s) : s.step .take = none ∧ s.ideal.step .take = none ∨
    ∃ s', s.step .take = some s' ∧ s.ideal.step .take = some s'.ideal ∧ PicInv s' := by
  cases hAsks : s.chips.cascade.request with
  | none =>
    have hNext := next_ideal h
    rw [hAsks] at hNext
    have hNone : s.chips.take = none := by
      unfold Pair.take
      rw [hAsks]
      rfl
    have hTake : s.step .take = s.chips.take.map _ := rfl
    have hIdeal : s.ideal.step .take = s.ideal.next.map _ := rfl
    rw [hTake, hNone, hIdeal, hNext]
    exact Or.inl ⟨rfl, rfl⟩
  | some i =>
    by_cases hi : i = 2
    · exact Or.inr (take_slave h (hAsks.trans (congrArg some hi)))
    · exact Or.inr (take_master h hi hAsks)

/-! ### The end of an interrupt -/

variable {rest : List (Fin 16)}

/-- In the right order, the first chip ends what is under way at its line. -/
theorem master_eoi (h : PicInv s) (hServing : s.serving = irq :: rest) :
    s.chips.master.eoi = { s.chips.master with isr := clearBit s.chips.master.isr (line irq) } := by
  have hSorted := h.sorted
  rw [hServing, List.pairwise_cons] at hSorted
  refine eoi_isr ?_ fun k hk => ?_
  · rw [h.isr, hServing]
    exact decide_eq_true List.mem_cons_self
  · rw [h.isr, hServing, List.map_cons]
    refine decide_eq_false fun hMem => ?_
    rcases List.mem_cons.mp hMem with hEq | hLater
    · exact absurd hk (by rw [hEq]; exact lt_irrefl _)
    · obtain ⟨other, hOther, rfl⟩ := List.mem_map.mp hLater
      exact absurd (hSorted.1 other hOther) (not_lt.mpr (le_of_lt hk))

/-- No other line of the second chip is in service. -/
theorem slave_only (h : PicInv s) (hServing : s.serving = onSlave j :: rest) (hMem : onSlave i ∈ s.serving) :
    i = j := by
  have hSorted := h.sorted
  rw [hServing, List.pairwise_cons] at hSorted
  rw [hServing] at hMem
  rcases List.mem_cons.mp hMem with hEq | hLater
  · exact onSlave_inj.mp hEq
  · have hLess := hSorted.1 _ hLater
    rw [line_onSlave, line_onSlave] at hLess
    exact absurd hLess (lt_irrefl 2)

/-- The second chip ends the line that is under way there. -/
theorem slave_eoi (h : PicInv s) (hServing : s.serving = onSlave j :: rest) :
    s.chips.slave.eoi = { s.chips.slave with isr := clearBit s.chips.slave.isr j } := by
  refine eoi_isr ?_ fun k hk => ?_
  · rw [h.isrSlave, hServing]
    exact decide_eq_true List.mem_cons_self
  · rw [h.isrSlave]
    refine decide_eq_false fun hMem => ?_
    rw [slave_only h hServing hMem] at hk
    exact lt_irrefl j hk

/-- After the read command for it, the status port shows what is in service. -/
theorem status_isr (h : c.readIsr = true) : c.status = c.isr := if_pos h

/-- `i8259isr` for the vector of a line. -/
theorem i8259isr_vector (t : Pic) (hMaster : t.chips.master.readIsr = true)
    (hSlave : t.chips.slave.readIsr = true) (irq : Fin 16) :
    t.i8259isr (VectorPIC + irq.val) =
      (if irq.val < 8 then (t.chips.master.isr.setWidth 32 : Word) &&& BitVec.twoPow 32 irq.val
        else ((t.chips.master.isr.setWidth 32 : Word) ||| ((t.chips.slave.isr.setWidth 32 : Word) <<< 8)) &&&
          BitVec.twoPow 32 irq.val,
      { t with chips := { t.chips with
          master := t.chips.master.eoi
          slave := if irq.val < 8 then t.chips.slave else t.chips.slave.eoi } }) := by
  have hIrq := irq.isLt
  have hVno : VectorPIC + irq.val - VectorPIC = irq.val := Nat.add_sub_cancel_left ..
  have hRead : t.chips.inb Int0ctl = t.chips.master.isr := status_isr hMaster
  -- the second chip is read after the first one got its EOI
  have hRead' : (t.chips.outb Int0ctl EOI).inb Int1ctl = t.chips.slave.isr := status_isr hSlave
  have hWrite : t.chips.outb Int0ctl EOI = { t.chips with master := t.chips.master.eoi } := by
    rw [← ctl_eoi]
    rfl
  have hWrite' : ({ t.chips with master := t.chips.master.eoi } : Pair).outb Int1ctl EOI =
      { t.chips with master := t.chips.master.eoi, slave := t.chips.slave.eoi } := by
    rw [← ctl_eoi (c := t.chips.slave)]
    rfl
  unfold Pic.i8259isr
  rw [if_neg (by unfold MaxIrqPIC; omega)]
  dsimp only
  rw [hVno, hRead, hRead', hWrite, hWrite']
  by_cases hLow : irq.val < 8
  · rw [if_neg (Nat.not_le.mpr hLow), if_pos hLow, if_pos hLow]
  · rw [if_pos (Nat.not_lt.mp hLow), if_neg hLow, if_neg hLow]

/-- The bit of the last interrupt is the one that `i8259isr` reads. -/
theorem isr_read (h : PicInv s) (hServing : s.serving = irq :: rest) :
    (if irq.val < 8 then (s.chips.master.isr.setWidth 32 : Word) &&& BitVec.twoPow 32 irq.val
      else ((s.chips.master.isr.setWidth 32 : Word) ||| ((s.chips.slave.isr.setWidth 32 : Word) <<< 8)) &&&
        BitVec.twoPow 32 irq.val) = BitVec.twoPow 32 irq.val := by
  rcases line_cases irq with ⟨i, rfl⟩ | ⟨j, rfl⟩
  · have hBit : s.chips.master.isr.getLsbD i = true := by
      rw [h.isr, hServing, List.map_cons, line_onMaster]
      exact decide_eq_true List.mem_cons_self
    rw [if_pos (show (onMaster i).val < 8 from i.isLt), BitVec.and_twoPow, BitVec.getLsbD_setWidth,
      show (onMaster i).val = i.val from rfl, hBit, decide_eq_true (by omega : i.val < 32)]
    rfl
  · have hBit : s.chips.slave.isr.getLsbD j = true := by
      rw [h.isrSlave, hServing]
      exact decide_eq_true List.mem_cons_self
    -- the register of the second chip is read into the higher byte
    rw [if_neg (show ¬ (onSlave j).val < 8 from Nat.not_lt.mpr (Nat.le_add_right 8 j.val)), BitVec.and_twoPow,
      BitVec.getLsbD_or, BitVec.getLsbD_shiftLeft, BitVec.getLsbD_setWidth,
      show (onSlave j).val = 8 + j.val from rfl, Nat.add_sub_cancel_left, BitVec.getLsbD_setWidth, hBit,
      decide_eq_true (by omega : j.val < 32), decide_eq_true (by omega : 8 + j.val < 32),
      decide_eq_false (by omega : ¬ 8 + j.val < 8)]
    simp

/-- The first chip serves what is left. -/
theorem isr_rest (h : PicInv s) (hServing : s.serving = irq :: rest) (k : Fin 8) :
    (clearBit s.chips.master.isr (line irq)).getLsbD k = decide (k ∈ rest.map line) := by
  have hSorted := h.sorted
  rw [hServing, List.pairwise_cons] at hSorted
  rw [getLsbD_clearBit, h.isr, hServing, List.map_cons]
  by_cases hk : k = line irq
  · -- no two interrupts under way have a line of the first chip in common
    have hNot : k ∉ rest.map line := by
      intro hMem
      obtain ⟨other, hOther, hEq⟩ := List.mem_map.mp hMem
      have hLess := hSorted.1 other hOther
      rw [hEq, hk] at hLess
      exact lt_irrefl _ hLess
    rw [decide_eq_true hk, decide_eq_false hNot, Bool.not_true, Bool.false_and]
  · rw [decide_eq_false hk, Bool.not_false, Bool.true_and]
    exact decide_eq_decide.mpr (by rw [List.mem_cons, or_iff_right hk])

/-- When an interrupt is ended, the second chip is left with what was under way below it. -/
theorem isrSlave_rest (h : PicInv s) (hServing : s.serving = irq :: rest) (k : Fin 8) :
    (if irq.val < 8 then s.chips.slave else s.chips.slave.eoi).isr.getLsbD k = decide (onSlave k ∈ rest) := by
  rcases line_cases irq with ⟨i, rfl⟩ | ⟨j, rfl⟩
  · rw [if_pos (show (onMaster i).val < 8 from i.isLt), h.isrSlave, hServing]
    exact decide_eq_decide.mpr (by rw [List.mem_cons, or_iff_right onSlave_ne_onMaster])
  · rw [if_neg (show ¬ (onSlave j).val < 8 from Nat.not_lt.mpr (Nat.le_add_right 8 j.val)),
      slave_eoi h hServing]
    show (clearBit _ j).getLsbD k = _
    -- all lines of the second chip are at line 2 of the first one
    have hNone : onSlave k ∉ rest := by
      intro hMem
      have hSorted := h.sorted
      rw [hServing, List.pairwise_cons] at hSorted
      have hLess := hSorted.1 _ hMem
      rw [line_onSlave, line_onSlave] at hLess
      exact lt_irrefl 2 hLess
    rw [getLsbD_clearBit, h.isrSlave, decide_eq_false hNone]
    by_cases hk : k = j
    · rw [decide_eq_true hk, Bool.not_true, Bool.false_and]
    · rw [decide_eq_false fun hMem => hk (slave_only h hServing hMem), Bool.and_false]

/-- An interrupt ends in the chips as it ends in the ideal controller. -/
theorem done_spec (h : PicInv s) : s.step .done = none ∧ s.ideal.step .done = none ∨
    ∃ s', s.step .done = some s' ∧ s.ideal.step .done = some s'.ideal ∧ PicInv s' := by
  cases hServing : s.serving with
  | nil =>
    refine Or.inl ⟨?_, ?_⟩
    · unfold Picrun.step
      rw [hServing]
    · unfold Ideal.step
      rw [show s.ideal.serving = s.serving from rfl, hServing]
  | cons irq rest =>
    have hSorted := h.sorted
    rw [hServing, List.pairwise_cons] at hSorted
    have hStep : s.step .done = some { s with
        toPic := (s.i8259isr (VectorPIC + irq.val)).2
        serving := rest
        log := .isr (VectorPIC + irq.val) (s.i8259isr (VectorPIC + irq.val)).1 :: s.log } := by
      unfold Picrun.step
      rw [hServing]
    have hIdeal : s.ideal.step .done = some { s.ideal with
        serving := rest
        log := .isr (VectorPIC + irq.val) (BitVec.twoPow 32 irq.val) :: s.log } := by
      unfold Ideal.step
      rw [show s.ideal.serving = s.serving from rfl, hServing]
      rfl
    -- an end of interrupt changes nothing of the second chip but what is in service
    have hSlave : (if irq.val < 8 then s.chips.slave else s.chips.slave.eoi) =
        { s.chips.slave with
          isr := (if irq.val < 8 then s.chips.slave else s.chips.slave.eoi).isr } := by
      split
      · rfl
      · unfold Chip.eoi
        split <;> rfl
    rw [i8259isr_vector s.toPic h.reads.1 h.reads.2 irq, isr_read h hServing, master_eoi h hServing] at hStep
    refine Or.inr ⟨_, hStep, ?_, ?_⟩
    · rw [hIdeal]
      refine congrArg some ?_
      unfold Picrun.ideal
      dsimp only
      refine congrArg (fun r => Ideal.mk _ r _ _ _ _ _) (funext fun k => ?_)
      rcases line_cases k with ⟨k, rfl⟩ | ⟨k, rfl⟩
      · rw [raised_onMaster, raised_onMaster]
      · rw [raised_onSlave, raised_onSlave, hSlave]
    · exact h.update s.chips.master.irr _ rfl rfl rfl h.noLine hSlave (isr_rest h hServing)
        (isrSlave_rest h hServing) hSorted.2

/-- What a spurious interrupt does to the chips and the log. -/
theorem step_spurious (atSlave : Bool) : s.step (.spurious atSlave) =
    let vno := (s.chips.takeNone atSlave).2.toNat
    let r := ({ s.toPic with chips := (s.chips.takeNone atSlave).1 } : Pic).i8259isr vno
    some { s with toPic := r.2, log := .isr vno r.1 :: .vector vno :: s.log } := rfl

/-- A request that has gone away leaves nothing behind while nothing is under way. -/
theorem spurious_spec (h : PicInv s) (hServing : s.serving = []) (atSlave : Bool) :
    ∃ s', s.step (.spurious atSlave) = some s' ∧ s.ideal.step (.spurious atSlave) = some s'.ideal ∧ PicInv s' := by
  have hMaster : ∀ k : Fin 8, s.chips.master.isr.getLsbD k = false := by
    intro k
    rw [h.isr, hServing]
    rfl
  have hSlave : ∀ k : Fin 8, s.chips.slave.isr.getLsbD k = false := by
    intro k
    rw [h.isrSlave, hServing]
    rfl
  have hZero : s.chips.master.isr = 0 := byte_ext fun k => by
    rw [hMaster]
    exact (BitVec.getLsbD_zero ..).symm
  have hZero' : s.chips.slave.isr = 0 := byte_ext fun k => by
    rw [hSlave]
    exact (BitVec.getLsbD_zero ..).symm
  let vno : Nat := if atSlave = true then VectorPIC + 15 else VectorPIC + 7
  have hStep : s.step (.spurious atSlave) = some { s with log := .isr vno 0 :: .vector vno :: s.log } := by
    cases atSlave with
    | false =>
      have hVno : (s.chips.master.base + 7).toNat = VectorPIC + (7 : Fin 16).val := by
        rw [h.base.1]
        decide
      have hIsr := i8259isr_vector { s.toPic with chips := s.chips } h.reads.1 h.reads.2 7
      rw [if_pos (by decide), if_pos (by decide)] at hIsr
      dsimp only at hIsr
      rw [eoi_none hMaster, hZero] at hIsr
      have hNone : s.chips.takeNone false = (s.chips, s.chips.master.base + 7) := rfl
      rw [step_spurious, hNone]
      dsimp only
      rw [hVno, hIsr]
      rfl
    | true =>
      have hVno : (s.chips.slave.base + 7).toNat = VectorPIC + (15 : Fin 16).val := by
        rw [h.base.2]
        decide
      have hIsr := i8259isr_vector
        { s.toPic with chips := { s.chips with master := s.chips.master.serve true 2 } } h.reads.1 h.reads.2 15
      -- the bit of line 2 that the first chip has set is cleared again
      have hEoi : (s.chips.master.serve true 2).eoi = s.chips.master := by
        have hSet : (s.chips.master.serve true 2).isr = setBit 0 2 := by
          show setBit s.chips.master.isr 2 = _
          rw [hZero]
        rw [eoi_isr (i := 2) (by rw [hSet]; decide) (by rw [hSet]; decide), hSet]
        have hBack : clearBit (setBit 0 2) 2 = s.chips.master.isr := by
          rw [hZero]
          decide
        rw [hBack]
        rfl
      have hSet : (s.chips.master.serve true 2).isr = setBit 0 2 := by
        show setBit s.chips.master.isr 2 = _
        rw [hZero]
      rw [if_neg (by decide), if_neg (by decide)] at hIsr
      dsimp only at hIsr
      rw [eoi_none hSlave, hEoi, hSet, hZero'] at hIsr
      have hNone : s.chips.takeNone true =
          ({ s.chips with master := s.chips.master.serve true 2 }, s.chips.slave.base + 7) := rfl
      rw [step_spurious, hNone]
      dsimp only
      rw [hVno, hIsr]
      rfl
  exact ⟨_, hStep, rfl, h.update _ _ rfl rfl rfl h.noLine rfl h.isr h.isrSlave h.sorted⟩

/-! ### The drivers and the devices -/

/-- A device of the first chip changes a request there. -/
theorem drive_onMaster {on : Bool} : p.drive (onMaster i) on =
    { p with master := { p.master with irr := if on = true then setBit p.master.irr i else clearBit p.master.irr i } } :=
  dif_pos i.isLt

/-- A device of the second chip changes a request there. -/
theorem drive_onSlave {on : Bool} : p.drive (onSlave j) on =
    { p with slave := { p.slave with irr := if on = true then setBit p.slave.irr j else clearBit p.slave.irr j } } := by
  have hHigh : ¬ (onSlave j).val < 8 := Nat.not_lt.mpr (Nat.le_add_right 8 j.val)
  have hPlace : (⟨(onSlave j).val - 8, by omega⟩ : Fin 8) = j :=
    Fin.ext (Nat.add_sub_cancel_left 8 j.val)
  unfold Pair.drive
  rw [dif_neg hHigh, hPlace]

/-- A line that changes leaves the other requests alone. -/
theorem getLsbD_drive {r : Byte} {on : Bool} (k : Fin 8) :
    (if on = true then setBit r i else clearBit r i).getLsbD k = if k = i then on else r.getLsbD k := by
  cases on with
  | true =>
    rw [if_pos rfl, getLsbD_setBit]
    by_cases hk : k = i
    · rw [decide_eq_true hk, if_pos hk, Bool.true_or]
    · rw [decide_eq_false hk, if_neg hk, Bool.false_or]
  | false =>
    rw [if_neg Bool.false_ne_true, getLsbD_clearBit]
    by_cases hk : k = i
    · rw [decide_eq_true hk, if_pos hk, Bool.not_true, Bool.false_and]
    · rw [decide_eq_false hk, if_neg hk, Bool.not_false, Bool.true_and]

/-- A line changes in the chips as it does in the ideal controller. -/
theorem drive_spec (h : PicInv s) (hIrq : irq.val ≠ 2) (on : Bool) :
    ∃ s', s.step (.drive irq on) = some s' ∧ s.ideal.step (.drive irq on) = some s'.ideal ∧ PicInv s' := by
  refine ⟨_, rfl, ?_, ?_⟩
  · have hRaised : Function.update s.chips.raised irq on = (s.chips.drive irq on).raised := by
      rcases line_cases irq with ⟨i, rfl⟩ | ⟨j, rfl⟩
      · rw [drive_onMaster]
        exact update_raised_master rfl getLsbD_drive
      · rw [drive_onSlave]
        exact update_raised_slave rfl getLsbD_drive
    have hLevel : s.chips.level = (s.chips.drive irq on).level := by
      rcases line_cases irq with ⟨i, rfl⟩ | ⟨j, rfl⟩
      · rw [drive_onMaster]
        rfl
      · rw [drive_onSlave]
        rfl
    exact congrArg some (Ideal.ext rfl hRaised hLevel rfl rfl rfl rfl)
  · rcases line_cases irq with ⟨i, rfl⟩ | ⟨j, rfl⟩
    · have hi : (2 : Fin 8) ≠ i := fun hEq => hIrq (by rw [← hEq]; rfl)
      rw [drive_onMaster]
      refine h.update _ _ rfl rfl rfl ?_ rfl h.isr h.isrSlave h.sorted
      exact (getLsbD_drive 2).trans ((if_neg hi).trans h.noLine)
    · rw [drive_onSlave]
      exact h.update _ _ rfl rfl rfl h.noLine rfl h.isr h.isrSlave h.sorted

/-- The chips behind a write of the mask, or of a part of it. -/
theorem PicInv.masked {t : Picrun} {imr imr' : Byte} (h : PicInv s)
    (hMaster : t.chips.master = { s.chips.master with imr := imr })
    (hSlave : t.chips.slave = { s.chips.slave with imr := imr' }) (hServing : t.serving = s.serving)
    (hMask : ∀ i : Fin 8, imr.getLsbD i = (t.off || t.i8259mask.getLsbD i))
    (hMask' : ∀ j : Fin 8, imr'.getLsbD j = (t.off || t.i8259mask.getLsbD (8 + j)))
    (hCascade : t.i8259mask.getLsbD 2 = false) : PicInv t := by
  refine ⟨?_, ?_, ?_, ?_, ?_, hCascade, ?_, ?_, ?_, ?_⟩
  · rw [hMaster, hSlave]
    exact h.icw
  · rw [hMaster, hSlave]
    exact h.reads
  · rw [hMaster, hSlave]
    exact h.base
  · rw [hMaster]
    exact hMask
  · rw [hSlave]
    exact hMask'
  · rw [hMaster]
    exact h.noLine
  · rw [hMaster, hServing]
    exact h.isr
  · rw [hSlave, hServing]
    exact h.isrSlave
  · rw [hServing]
    exact h.sorted

/-- The two masks are written through the second ports. -/
theorem outb_masks (h : PicInv s) (imr imr' : Byte) :
    (s.chips.outb Int0aux imr).outb Int1aux imr' =
      { s.chips with
        master := { s.chips.master with imr := imr }, slave := { s.chips.slave with imr := imr' } } := by
  rw [← aux_mask h.icw.1, ← aux_mask h.icw.2]
  rfl

/-- Both masks are written, for the chips to be off or on. -/
theorem masks_spec (h : PicInv s) {imr imr' : Byte} (off : Bool)
    (hMask : ∀ i : Fin 8, imr.getLsbD i = (off || s.i8259mask.getLsbD i))
    (hMask' : ∀ j : Fin 8, imr'.getLsbD j = (off || s.i8259mask.getLsbD (8 + j))) :
    ({ s with chips := (s.chips.outb Int0aux imr).outb Int1aux imr', off := off } : Picrun).ideal =
      { s.ideal with off := off } ∧
    PicInv { s with chips := (s.chips.outb Int0aux imr).outb Int1aux imr', off := off } := by
  rw [outb_masks h]
  exact ⟨rfl, h.masked rfl rfl rfl hMask hMask' h.cascade⟩

/-- Off is off in the chips and in the ideal controller. -/
theorem off_spec (h : PicInv s) :
    ∃ s', s.step .off = some s' ∧ s.ideal.step .off = some s'.ideal ∧ PicInv s' := by
  have hAll : ∀ i : Fin 8, (0xFF : Byte).getLsbD i = true := by decide
  obtain ⟨hIdeal, hInv⟩ := masks_spec h true
    (fun i => (hAll i).trans (Bool.true_or _).symm) fun j => (hAll j).trans (Bool.true_or _).symm
  exact ⟨_, rfl, congrArg some hIdeal.symm, hInv⟩

/-- On brings back the same mask. -/
theorem on_spec (h : PicInv s) :
    ∃ s', s.step .on = some s' ∧ s.ideal.step .on = some s'.ideal ∧ PicInv s' := by
  obtain ⟨hIdeal, hInv⟩ := masks_spec h false (fun _ => getLsbD_lowByte) fun _ => getLsbD_highByte
  exact ⟨_, rfl, congrArg some hIdeal.symm, hInv⟩

/-- One bit of the mask is changed. -/
theorem setmask_spec (irq : Fin 16) (mask : Word) (h : PicInv s) (hOff : s.off = false) (log : List PicEvent)
    (hOther : ∀ k : Fin 16, k ≠ irq → mask.getLsbD k = s.i8259mask.getLsbD k) (hCascade : mask.getLsbD 2 = false) :
    ({ s with toPic := s.setmask irq.val mask, log := log } : Picrun).ideal =
      { s.ideal with enabled := fun k => !mask.getLsbD k, log := log } ∧
    PicInv { s with toPic := s.setmask irq.val mask, log := log } := by
  have hNot : ∀ b : Bool, (s.off || b) = b := by
    intro b
    rw [hOff, Bool.false_or]
  -- the driver writes the byte of the chip whose line it is
  rcases line_cases irq with ⟨i, rfl⟩ | ⟨j, rfl⟩
  · have hChips : s.setmask (onMaster i).val mask =
        { s.toPic with
          i8259mask := mask
          chips := { s.chips with master := { s.chips.master with imr := lowByte mask } } } := by
      unfold Pic.setmask
      rw [if_pos (show (onMaster i).val < 8 from i.isLt), ← aux_mask h.icw.1]
      rfl
    rw [hChips]
    refine ⟨rfl, h.masked rfl rfl rfl (fun k => getLsbD_lowByte.trans (hNot _).symm) (fun k => ?_) hCascade⟩
    have hSame := hOther (onSlave k) onSlave_ne_onMaster
    rw [h.maskSlave]
    exact congrArg (s.off || ·) hSame.symm
  · have hChips : s.setmask (onSlave j).val mask =
        { s.toPic with
          i8259mask := mask
          chips := { s.chips with slave := { s.chips.slave with imr := highByte mask } } } := by
      unfold Pic.setmask
      rw [if_neg (show ¬ (onSlave j).val < 8 from Nat.not_lt.mpr (Nat.le_add_right 8 j.val)),
        ← aux_mask h.icw.2]
      rfl
    rw [hChips]
    refine ⟨rfl, h.masked rfl rfl rfl (fun k => ?_) (fun k => getLsbD_highByte.trans (hNot _).symm) hCascade⟩
    have hSame := hOther (onMaster k) (Ne.symm onSlave_ne_onMaster)
    rw [h.mask]
    exact congrArg (s.off || ·) hSame.symm

/-- A line that is masked, and no other one. -/
theorem getLsbD_or_twoPow (irq k : Fin 16) :
    (w ||| BitVec.twoPow 32 irq.val).getLsbD k = if k = irq then true else w.getLsbD k := by
  rw [BitVec.getLsbD_or, BitVec.getLsbD_twoPow, decide_eq_true (by omega : irq.val < 32), Bool.true_and]
  by_cases hk : k = irq
  · rw [if_pos hk, decide_eq_true (congrArg Fin.val hk).symm, Bool.or_true]
  · rw [if_neg hk, decide_eq_false fun hEq => hk (Fin.ext hEq.symm), Bool.or_false]

/-- A line that is enabled, and no other one. -/
theorem getLsbD_and_not_twoPow (irq k : Fin 16) :
    (w &&& ~~~ BitVec.twoPow 32 irq.val).getLsbD k = if k = irq then false else w.getLsbD k := by
  rw [BitVec.getLsbD_and, BitVec.getLsbD_not, BitVec.getLsbD_twoPow, decide_eq_true (by omega : irq.val < 32),
    decide_eq_true (by omega : k.val < 32), Bool.true_and, Bool.true_and]
  by_cases hk : k = irq
  · rw [if_pos hk, decide_eq_true (congrArg Fin.val hk).symm, Bool.not_true, Bool.and_false]
  · rw [if_neg hk, decide_eq_false fun hEq => hk (Fin.ext hEq.symm), Bool.not_false, Bool.and_true]

/-- A line is enabled or disabled, but not the line of the second chip. -/
theorem line_spec {mask : Word} (on : Bool) (h : PicInv s) (hOff : s.off = false) (log : List PicEvent)
    (hBits : ∀ k : Fin 16, mask.getLsbD k = if k = irq then !on else s.i8259mask.getLsbD k)
    (hLine : irq.val = 2 → on = true) :
    ({ s with toPic := s.setmask irq.val mask, log := log } : Picrun).ideal =
      { s.ideal with enabled := Function.update s.ideal.enabled irq on, log := log } ∧
    PicInv { s with toPic := s.setmask irq.val mask, log := log } := by
  -- the second chip keeps its way to the first one
  have hCascade : mask.getLsbD 2 = false := by
    have hTwo := hBits 2
    split at hTwo
    · rename_i hIrq
      rw [hLine (congrArg Fin.val hIrq).symm] at hTwo
      exact hTwo
    · exact hTwo.trans h.cascade
  obtain ⟨hMasked, hInv⟩ := setmask_spec irq mask h hOff log
    (fun k hk => (hBits k).trans (if_neg hk)) hCascade
  refine ⟨hMasked.trans (Ideal.ext (funext fun k => ?_) rfl rfl rfl rfl rfl rfl), hInv⟩
  show (!mask.getLsbD k) = Function.update s.ideal.enabled irq on k
  rw [hBits]
  by_cases hk : k = irq
  · rw [hk, if_pos rfl, Function.update_self, Bool.not_not]
  · rw [if_neg hk, Function.update_of_ne hk]
    rfl

/-- The log has no part in the invariant. -/
theorem PicInv.logged (h : PicInv s) (log : List PicEvent) : PicInv { s with log := log } :=
  h.update _ _ rfl rfl rfl h.noLine rfl h.isr h.isrSlave h.sorted

theorem step_enable (v : Vctl) : s.step (.enable v) =
    let r := s.i8259enable v
    some { s with toPic := r.2.2, log := .enable r.1 r.2.1 :: s.log } := rfl

theorem step_disable (n : Int) : s.step (.disable n) =
    let r := s.i8259disable n
    some { s with toPic := r.2, log := .disable r.1 :: s.log } := rfl

/-- The entry that goes back to `intrenable`, when the line is level-triggered or not. -/
def hooked (level : Bool) (v : Vctl) : Vctl :=
  if level = true then { v with eoi := some i8259isrHook } else { v with isr := some i8259isrHook }

/-- A line is enabled in the chips as in the ideal controller, with the same answer and the same
fields of the Vctl. -/
theorem enable_spec (h : PicInv s) (hOff : s.off = false) (v : Vctl) :
    ∃ s', s.step (.enable v) = some s' ∧ s.ideal.step (.enable v) = some s'.ideal ∧ PicInv s' := by
  by_cases hRange : 0 ≤ v.irq ∧ v.irq ≤ (MaxIrqPIC : Int)
  · have hBounds : ¬ (v.irq < 0 ∨ (MaxIrqPIC : Int) < v.irq) := by omega
    have hIrq : v.irq.toNat < 16 := by
      unfold MaxIrqPIC at hRange
      omega
    let irq : Fin 16 := ⟨v.irq.toNat, hIrq⟩
    -- a line that is enabled must be level-triggered to be enabled again
    have hTaken : (s.ideal.enabled irq = true ∧ s.ideal.shared irq = false) ↔
        (s.i8259mask.getLsbD v.irq.toNat = false ∧ s.i8259elcr.getLsbD v.irq.toNat = false) := by
      show ((!s.i8259mask.getLsbD v.irq.toNat) = true ∧ _) ↔ _
      rw [Bool.not_eq_true']
      rfl
    by_cases hBusy : s.i8259mask.getLsbD v.irq.toNat = false ∧ s.i8259elcr.getLsbD v.irq.toNat = false
    · have hDriver : s.i8259enable v = (-1, v, s.toPic) := by
        unfold Pic.i8259enable
        rw [if_neg hBounds]
        exact if_pos hBusy
      have hIdeal : s.ideal.step (.enable v) = some { s.ideal with log := .enable (-1) v :: s.log } := by
        unfold Ideal.step
        dsimp only
        rw [dif_pos hRange]
        exact if_pos (hTaken.mpr hBusy)
      rw [step_enable, hDriver]
      exact ⟨_, rfl, hIdeal, h.logged _⟩
    · have hDriver : s.i8259enable v = (VectorPIC + v.irq, hooked (s.i8259elcr.getLsbD v.irq.toNat) v,
          s.setmask irq.val (s.i8259mask &&& ~~~ BitVec.twoPow 32 irq.val)) := by
        unfold Pic.i8259enable
        rw [if_neg hBounds]
        dsimp only
        rw [if_neg hBusy]
        rfl
      have hIdeal : s.ideal.step (.enable v) = some { s.ideal with
          enabled := Function.update s.ideal.enabled irq true
          log := .enable (VectorPIC + v.irq) (hooked (s.i8259elcr.getLsbD v.irq.toNat) v) :: s.log } := by
        unfold Ideal.step
        dsimp only
        rw [dif_pos hRange]
        exact if_neg fun hEn => hBusy (hTaken.mp hEn)
      obtain ⟨hEnabled, hInv⟩ := line_spec true h hOff
        (.enable (VectorPIC + v.irq) (hooked (s.i8259elcr.getLsbD v.irq.toNat) v) :: s.log)
        (getLsbD_and_not_twoPow irq) fun _ => rfl
      rw [step_enable, hDriver, hIdeal]
      exact ⟨_, rfl, congrArg some hEnabled.symm, hInv⟩
  · have hDriver : s.i8259enable v = (-1, v, s.toPic) := by
      unfold Pic.i8259enable
      exact if_pos (by omega)
    have hIdeal : s.ideal.step (.enable v) = some { s.ideal with log := .enable (-1) v :: s.log } := by
      unfold Ideal.step
      exact dif_neg hRange
    rw [step_enable, hDriver]
    exact ⟨_, rfl, hIdeal, h.logged _⟩

/-- A line is disabled in the chips as in the ideal controller. -/
theorem disable_spec (h : PicInv s) (hOff : s.off = false) {n : Int} (hLine : n ≠ 2) :
    ∃ s', s.step (.disable n) = some s' ∧ s.ideal.step (.disable n) = some s'.ideal ∧ PicInv s' := by
  by_cases hRange : 0 ≤ n ∧ n ≤ (MaxIrqPIC : Int)
  · have hBounds : ¬ (n < 0 ∨ (MaxIrqPIC : Int) < n) := by omega
    have hIrq : n.toNat < 16 := by
      unfold MaxIrqPIC at hRange
      omega
    let irq : Fin 16 := ⟨n.toNat, hIrq⟩
    have hIdeal : s.ideal.step (.disable n) = some { s.ideal with
        enabled := Function.update s.ideal.enabled irq false, log := .disable 0 :: s.log } := by
      unfold Ideal.step
      exact dif_pos hRange
    by_cases hBusy : s.i8259mask.getLsbD n.toNat = false
    · have hDriver : s.i8259disable n = (0, s.setmask irq.val (s.i8259mask ||| BitVec.twoPow 32 irq.val)) := by
        unfold Pic.i8259disable
        rw [if_neg hBounds]
        exact if_pos hBusy
      obtain ⟨hDisabled, hInv⟩ := line_spec false h hOff (.disable 0 :: s.log) (getLsbD_or_twoPow irq)
        fun hEq => absurd (show n.toNat = 2 from hEq) (by omega)
      rw [step_disable, hDriver, hIdeal]
      exact ⟨_, rfl, congrArg some hDisabled.symm, hInv⟩
    -- the bit was set: the driver writes nothing, and the line was off already
    · have hDriver : s.i8259disable n = (0, s.toPic) := by
        unfold Pic.i8259disable
        rw [if_neg hBounds]
        exact if_neg hBusy
      rw [step_disable, hDriver, hIdeal]
      refine ⟨_, rfl, congrArg some ?_, h.logged (.disable 0 :: s.log)⟩
      refine Ideal.ext ?_ rfl rfl rfl rfl rfl rfl
      refine Function.update_eq_self_iff.mpr ?_
      show false = !s.i8259mask.getLsbD n.toNat
      rw [Bool.not_eq_false _ |>.mp hBusy]
      rfl
  -- no such line
  · have hDriver : s.i8259disable n = (-1, s.toPic) := by
      unfold Pic.i8259disable
      exact if_pos (by omega)
    have hIdeal : s.ideal.step (.disable n) = some { s.ideal with log := .disable (-1) :: s.log } := by
      unfold Ideal.step
      exact dif_neg hRange
    rw [step_disable, hDriver]
    exact ⟨_, rfl, hIdeal, h.logged _⟩

/-! ## Runs -/

/-- Whatever is allowed, the chips and the ideal controller do it both or get stuck both. -/
theorem pic_step (h : PicInv s) {o : PicOp} (hOk : o.Allowed s) :
    s.step o = none ∧ s.ideal.step o = none ∨
    ∃ s', s.step o = some s' ∧ s.ideal.step o = some s'.ideal ∧ PicInv s' := by
  cases o with
  | enable v => exact Or.inr (enable_spec h hOk v)
  | disable n => exact Or.inr (disable_spec h hOk.1 hOk.2)
  | off => exact Or.inr (off_spec h)
  | on => exact Or.inr (on_spec h)
  | drive irq on => exact Or.inr (drive_spec h hOk on)
  | take => exact take_spec h
  | done => exact done_spec h
  | spurious atSlave => exact Or.inr (spurious_spec h hOk atSlave)

/-! ### Behind i8259init -/

/-- The two bytes of the level register are put together and taken apart. -/
theorem lowByte_pair (hi lo : Byte) : lowByte ((hi.setWidth 32 <<< 8) ||| lo.setWidth 32) = lo := by
  refine byte_ext fun i => ?_
  rw [getLsbD_lowByte, BitVec.getLsbD_or, BitVec.getLsbD_shiftLeft, BitVec.getLsbD_setWidth,
    decide_eq_true (by omega : i.val < 32), decide_eq_true i.isLt, Bool.not_true, Bool.and_false, Bool.false_and,
    Bool.false_or, BitVec.getLsbD_setWidth, decide_eq_true (by omega : i.val < 32), Bool.true_and]

theorem extract_low (hi lo : Byte) : (hi ++ lo : BitVec 16).extractLsb' 0 8 = lo := by
  refine byte_ext fun i => ?_
  rw [BitVec.getLsbD_extractLsb', decide_eq_true i.isLt, Bool.true_and, Nat.zero_add, BitVec.getLsbD_append,
    if_pos i.isLt]

theorem extract_high (hi lo : Byte) : (hi ++ lo : BitVec 16).extractLsb' 8 8 = hi := by
  refine byte_ext fun i => ?_
  rw [BitVec.getLsbD_extractLsb', decide_eq_true i.isLt, Bool.true_and, BitVec.getLsbD_append,
    if_neg (by omega), Nat.add_sub_cancel_left]

theorem extract_append (r : BitVec 16) : (r.extractLsb' 8 8 ++ r.extractLsb' 0 8 : BitVec 16) = r := by
  refine BitVec.eq_of_getLsbD_eq fun i hi => ?_
  rw [BitVec.getLsbD_append]
  split
  · rename_i hLow
    rw [BitVec.getLsbD_extractLsb', decide_eq_true hLow, Bool.true_and, Nat.zero_add]
  · rename_i hHigh
    rw [BitVec.getLsbD_extractLsb', decide_eq_true (by omega : i - 8 < 8), Bool.true_and,
      Nat.add_sub_cancel' (Nat.le_of_not_lt hHigh)]

/-- A bit of the level register, as the driver has it. -/
theorem getLsbD_pair (r : BitVec 16) (k : Fin 16) :
    ((((r.extractLsb' 8 8).setWidth 32 : Word) <<< 8) ||| (r.extractLsb' 0 8).setWidth 32).getLsbD k =
      r.getLsbD k := by
  have hk := k.isLt
  rw [BitVec.getLsbD_or, BitVec.getLsbD_shiftLeft, BitVec.getLsbD_setWidth, BitVec.getLsbD_setWidth,
    BitVec.getLsbD_extractLsb', BitVec.getLsbD_extractLsb', decide_eq_true (by omega : k.val < 32),
    decide_eq_true (by omega : k.val - 8 < 32), decide_eq_true (by omega : k.val - 8 < 8)]
  by_cases hLow : k.val < 8
  · rw [decide_eq_true hLow]
    simp
  · rw [decide_eq_false hLow, Nat.add_sub_cancel' (Nat.le_of_not_lt hLow)]
    simp

/-- The check finds the level-triggered lines only in a register that keeps what is written to it,
and leaves the register as it was. -/
theorem elcrcheck_spec (p : Pair) : (elcrcheck p).1 = p ∧
    ∀ k : Fin 16, (elcrcheck p).2.getLsbD k = true → p.level k = true := by
  have hNone : ∀ k : Fin 16, (0 : Word).getLsbD k = true → p.level k = true := by
    intro k hk
    rw [show (0 : Word) = 0#32 from rfl, BitVec.getLsbD_zero] at hk
    cases hk
  obtain ⟨master, slave, elcr, bus⟩ := p
  unfold elcrcheck
  dsimp only
  split
  · cases elcr with
    | none =>
      -- without the register both reads get what is on the bus
      split
      · rename_i hZero
        -- two different values are never read where nothing answers
        have hBus : ¬ bus = 0x20 := fun h => by
          rw [show bus = 0 from hZero] at h
          cases h
        refine ⟨rfl, ?_⟩
        show ∀ k : Fin 16, (if bus = 0x20 then _ else (0 : Word)).getLsbD k = true → _
        rw [if_neg hBus]
        exact hNone
      · exact ⟨rfl, hNone⟩
    | some r =>
      -- the lower half is overwritten twice and put back, the upper one stays
      have hFirst : ({ master, slave, elcr := some r, bus } : Pair).outb Elcr1 0 =
          { master, slave, elcr := some (r.extractLsb' 8 8 ++ (0 : Byte)), bus } := rfl
      have hSecond : ({ master, slave, elcr := some (r.extractLsb' 8 8 ++ (0 : Byte)), bus } : Pair).outb Elcr1 0x20 =
          { master, slave, elcr := some (r.extractLsb' 8 8 ++ (0x20 : Byte)), bus } :=
        congrArg (fun h : Byte => ({ master, slave, elcr := some (h ++ (0x20 : Byte)), bus } : Pair))
          (extract_high _ _)
      have hRead : ∀ b : Byte, ({ master, slave, elcr := some (r.extractLsb' 8 8 ++ b), bus } : Pair).inb Elcr1 = b :=
        fun b => extract_low _ _
      have hWord : (((({ master, slave, elcr := some r, bus } : Pair).inb Elcr2).setWidth 32 : Word) <<< 8) |||
          (({ master, slave, elcr := some r, bus } : Pair).inb Elcr1).setWidth 32 =
          (((r.extractLsb' 8 8).setWidth 32 : Word) <<< 8) ||| (r.extractLsb' 0 8).setWidth 32 := rfl
      rw [hFirst, hRead, if_pos rfl, hSecond, hRead, if_pos rfl, hWord, lowByte_pair]
      refine ⟨?_, fun k hk => ?_⟩
      · show ({ master, slave, elcr := some (_ ++ r.extractLsb' 0 8), bus } : Pair) = _
        rw [extract_high, extract_append]
      · rw [getLsbD_pair] at hk
        exact hk
  · exact ⟨rfl, hNone⟩

/-- The chips behind the words that `i8259init` writes. -/
def configured (p : Pair) : Pair where
  master := { base := 32, irr := 0, imr := 0xFB, isr := 0, icw := 0, readIsr := true }
  slave := { base := 40, irr := 0, imr := 0xFF, isr := 0, icw := 0, readIsr := true }
  elcr := p.elcr
  bus := p.bus

/-- What the initialization leaves in the chips and in the driver's variables. -/
theorem i8259init_eq (p : Pair) : i8259init p =
    { chips := (elcrcheck (configured p)).1, i8259mask := 0xFFFB, i8259elcr := (elcrcheck (configured p)).2 } := rfl

/-- The second chip is connected, and all lines are disabled. -/
theorem i8259init_spec (p : Pair) : PicInv (Picrun.start p) ∧
    (∀ irq, (Picrun.start p).ideal.enabled irq = decide (irq = 2)) ∧
    ∀ irq, (Picrun.start p).ideal.shared irq = true → p.level irq = true := by
  obtain ⟨hChips, hLevel⟩ := elcrcheck_spec (configured p)
  unfold Picrun.start
  rw [i8259init_eq, hChips]
  refine ⟨?_, ?_, hLevel⟩
  · have hMask : ∀ i : Fin 8, (0xFB : Byte).getLsbD i = (false || (0xFFFB : Word).getLsbD i) := by decide
    have hMask' : ∀ j : Fin 8, (0xFF : Byte).getLsbD j = (false || (0xFFFB : Word).getLsbD (8 + j)) := by decide
    have hIdle : ∀ i : Fin 8, (0 : Byte).getLsbD i = false := by decide
    have hCascade : (0xFFFB : Word).getLsbD 2 = false := by decide
    exact ⟨⟨rfl, rfl⟩, ⟨rfl, rfl⟩, ⟨rfl, rfl⟩, hMask, hMask', hCascade, hIdle 2, hIdle, hIdle, List.Pairwise.nil⟩
  · show ∀ irq : Fin 16, (!(0xFFFB : Word).getLsbD irq) = decide (irq = 2)
    decide

/-- Whatever was in the chips, and whatever drivers, devices and the processor do: the interrupts
that are taken, and what the functions return, are those of the one controller. -/
theorem pic_ideal {p : Pair} {os : List PicOp}
    (hOk : Trace.Always Picrun.step (fun s o => o.Allowed s) (Picrun.start p) os) :
    Trace.run Picrun.step (Picrun.start p) os = none ∧
      Trace.run Ideal.step (Picrun.start p).ideal os = none ∨
    ∃ t, Trace.run Picrun.step (Picrun.start p) os = some t ∧
      Trace.run Ideal.step (Picrun.start p).ideal os = some t.ideal := by
  have hStep : ∀ (s : Picrun) (i : Ideal) (o : PicOp), (PicInv s ∧ i = s.ideal) → o.Allowed s →
      s.step o = none ∧ i.step o = none ∨
        ∃ s' i', s.step o = some s' ∧ i.step o = some i' ∧ PicInv s' ∧ i' = s'.ideal := by
    rintro s _ o ⟨hInv, rfl⟩ hAllowed
    rcases pic_step hInv hAllowed with hNone | ⟨s', hs, hi, hInv'⟩
    · exact Or.inl hNone
    · exact Or.inr ⟨s', _, hs, hi, hInv', rfl⟩
  rcases Trace.run_bisimulates hStep ⟨(i8259init_spec p).1, rfl⟩ hOk with hNone | ⟨t, _, ht, hi, -, rfl⟩
  · exact Or.inl hNone
  · exact Or.inr ⟨t, ht, hi⟩

/-- Chips that have just been switched on. -/
def resetPair : Pair :=
  let chip : Chip := { base := 0, irr := 0, imr := 0, isr := 0, icw := 0, readIsr := false }
  { master := chip, slave := chip, elcr := none, bus := 0xFF }

/-- A driver for a serial line, and one interrupt of it. -/
def serialOps : List PicOp :=
  [.enable { irq := 4, tbdf := 0, f := none, a := 0 }, .drive (lineOf 4) true, .take, .done]

theorem pic_ideal_serial : ∃ t, Trace.run Picrun.step (Picrun.start resetPair) serialOps = some t ∧
    Trace.run Ideal.step (Picrun.start resetPair).ideal serialOps = some t.ideal := by
  have hLine : (lineOf 4).val ≠ 2 := by decide
  refine (pic_ideal ?_).resolve_left fun hNone => ?_
  · exact ⟨rfl, fun _ _ => ⟨hLine, fun _ _ => ⟨trivial, fun _ _ => ⟨trivial, fun _ _ => trivial⟩⟩⟩⟩
  · have hRuns : (Trace.run Picrun.step (Picrun.start resetPair) serialOps).isSome = true := rfl
    rw [hNone.1] at hRuns
    cases hRuns

end

end Glendum
