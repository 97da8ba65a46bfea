import Glendum.Lib.Memory
import Mathlib.Data.List.FinRange
import Mathlib.Data.List.Find

/-!
# A pair of 8259 interrupt controllers

The chips of a PC: the second one is at line 2 of the first, and the processor talks to them
through four ports. Two more ports are the register for level-triggered lines, which a machine
need not have. Both chips are in fully nested mode, and know the end of an interrupt by the
non-specific command only; the initialization command that is understood is the one with four
words, for two chips.

A request stays until it is acknowledged or its device lets the line go. When it is acknowledged
a level-triggered line keeps it, and a line that is not level-triggered loses it.

* `first_eq_some`, `eoi_isr` — the end of an interrupt clears the highest bit in service;
* `find?_cascade` — the pair chooses among fifteen lines in the order of `priority`.
-/

namespace I8259

open Machine

/-! ## One chip -/

structure Chip where
  base    : Byte
  /-- requests, the mask, and what is in service -/
  irr     : Byte
  imr     : Byte
  isr     : Byte
  /-- the number of the initialization word that is expected, or 0 -/
  icw     : Nat
  /-- what a read of the control port gets -/
  readIsr : Bool

/-- The highest line of a register. -/
def first (r : Byte) : Option (Fin 8) := (List.finRange 8).find? fun i => r.getLsbD i

def setBit (r : Byte) (i : Fin 8) : Byte := r ||| BitVec.twoPow 8 i

def clearBit (r : Byte) (i : Fin 8) : Byte := r &&& ~~~ BitVec.twoPow 8 i

namespace Chip

def eoi (c : Chip) : Chip :=
  match first c.isr with
  | none => c
  | some i => { c with isr := clearBit c.isr i }

/-- A write to the control port. -/
def ctl (c : Chip) (v : Byte) : Chip :=
  if v.getLsbD 4 = true then { c with irr := 0, imr := 0, isr := 0, icw := 2, readIsr := false }
  else if v.getLsbD 3 = true then
    if v.getLsbD 1 = true then { c with readIsr := v.getLsbD 0 } else c
  else if v.extractLsb' 5 3 = 1 then c.eoi
  else c

/-- A write to the other port. -/
def aux (c : Chip) (v : Byte) : Chip :=
  match c.icw with
  | 2 => { c with base := v &&& 0xF8, icw := 3 }
  | 3 => { c with icw := 4 }
  | 4 => { c with icw := 0 }
  | _ => { c with imr := v }

def status (c : Chip) : Byte := if c.readIsr = true then c.isr else c.irr

/-- The line is not masked, and higher than all lines in service. -/
def admits (c : Chip) (i : Fin 8) : Bool :=
  !c.imr.getLsbD i && (List.finRange 8).all fun j => !(decide (j ≤ i) && c.isr.getLsbD j)

def request (c : Chip) : Option (Fin 8) :=
  (List.finRange 8).find? fun i => c.irr.getLsbD i && c.admits i

/-- A request is acknowledged. -/
def serve (c : Chip) (level : Bool) (i : Fin 8) : Chip :=
  { c with isr := setBit c.isr i, irr := if level = true then c.irr else clearBit c.irr i }

end Chip

/-! ## Two chips -/

structure Pair where
  master : Chip
  slave  : Chip
  /-- the register for level-triggered lines; without it there is something on the bus -/
  elcr   : Option (BitVec 16)
  bus    : Byte

/-- The line of the first chip for one of the sixteen. -/
def line (irq : Fin 16) : Fin 8 := if h : irq.val < 8 then ⟨irq.val, h⟩ else 2

def lineOf (n : Nat) : Fin 16 := Fin.ofNat 16 n

def onMaster (i : Fin 8) : Fin 16 := i.castLE (by decide)

def onSlave (j : Fin 8) : Fin 16 := j.natAdd 8

namespace Pair

def outb (p : Pair) (port : Nat) (v : Byte) : Pair :=
  match port with
  | 0x20 => { p with master := p.master.ctl v }
  | 0x21 => { p with master := p.master.aux v }
  | 0xA0 => { p with slave := p.slave.ctl v }
  | 0xA1 => { p with slave := p.slave.aux v }
  | 0x4D0 => { p with elcr := p.elcr.map fun r => r.extractLsb' 8 8 ++ v }
  | 0x4D1 => { p with elcr := p.elcr.map fun r => v ++ r.extractLsb' 0 8 }
  | _ => p

def inb (p : Pair) (port : Nat) : Byte :=
  match port with
  | 0x20 => p.master.status
  | 0x21 => p.master.imr
  | 0xA0 => p.slave.status
  | 0xA1 => p.slave.imr
  | 0x4D0 => p.elcr.elim p.bus fun r => r.extractLsb' 0 8
  | 0x4D1 => p.elcr.elim p.bus fun r => r.extractLsb' 8 8
  | _ => p.bus

def level (p : Pair) (irq : Fin 16) : Bool := p.elcr.elim false fun r => r.getLsbD irq

def raised (p : Pair) (irq : Fin 16) : Bool :=
  if irq.val < 8 then p.master.irr.getLsbD irq else p.slave.irr.getLsbD (irq - 8)

/-- A device changes its line. -/
def drive (p : Pair) (irq : Fin 16) (on : Bool) : Pair :=
  let put (r : Byte) (i : Fin 8) := if on = true then setBit r i else clearBit r i
  if h : irq.val < 8 then { p with master := { p.master with irr := put p.master.irr ⟨irq.val, h⟩ } }
  else { p with slave := { p.slave with irr := put p.slave.irr ⟨irq.val - 8, by omega⟩ } }

/-- The first chip, with what the second one asks of it. -/
def cascade (p : Pair) : Chip :=
  { p.master with
    irr := if p.slave.request.isSome = true then setBit p.master.irr 2 else clearBit p.master.irr 2 }

/-- The processor takes an interrupt: the vector that it gets. -/
def take (p : Pair) : Option (Pair × Byte) :=
  p.cascade.request.bind fun i =>
    if i = 2 then
      p.slave.request.map fun j =>
        ({ p with master := p.master.serve true 2, slave := p.slave.serve (p.level (onSlave j)) j },
          p.slave.base + BitVec.ofNat 8 j)
    else some ({ p with master := p.master.serve (p.level (onMaster i)) i },
      p.master.base + BitVec.ofNat 8 i)

/-- The request has gone away when the processor takes the interrupt, at the first chip or only at
the second one. -/
def takeNone (p : Pair) (atSlave : Bool) : Pair × Byte :=
  if atSlave = true then ({ p with master := p.master.serve true 2 }, p.slave.base + 7)
  else (p, p.master.base + 7)

end Pair

/-! ## Registers -/

section

variable {r : Byte} {i j : Fin 8}

/-- A bit is set, and no other. -/
theorem getLsbD_setBit : (setBit r i).getLsbD j = (decide (j = i) || r.getLsbD j) := by
  have hi := i.isLt
  unfold setBit
  rw [BitVec.getLsbD_or, BitVec.getLsbD_twoPow, Bool.or_comm]
  congr 1
  simp only [decide_eq_true hi, Bool.true_and, Fin.ext_iff, eq_comm]

/-- A bit is cleared, and no other. -/
theorem getLsbD_clearBit : (clearBit r i).getLsbD j = (!decide (j = i) && r.getLsbD j) := by
  have hi := i.isLt
  have hj := j.isLt
  unfold clearBit
  rw [BitVec.getLsbD_and, BitVec.getLsbD_not, BitVec.getLsbD_twoPow, Bool.and_comm]
  congr 1
  simp only [decide_eq_true hi, decide_eq_true hj, Bool.true_and, Fin.ext_iff, eq_comm]

/-- A register is known by its lines. -/
theorem byte_ext {r r' : Byte} (h : ∀ i : Fin 8, r.getLsbD i = r'.getLsbD i) : r = r' :=
  BitVec.eq_of_getLsbD_eq fun i hi => h ⟨i, hi⟩

/-- The first line is set, and none before it. -/
theorem first_eq_some : first r = some i ↔ r.getLsbD i = true ∧ ∀ j < i, r.getLsbD j = false := by
  unfold first
  rw [List.find?_eq_some_iff_getElem]
  simp only [List.getElem_finRange, List.length_finRange, Bool.not_eq_eq_eq_not, Bool.not_true]
  refine and_congr_right fun _ => ⟨?_, fun h => ⟨i.val, i.isLt, Fin.ext rfl, fun j hj => h _ hj⟩⟩
  rintro ⟨k, hk, hEq, hLess⟩ j hj
  subst hEq
  exact hLess j.val hj

/-- Without a first line none is set. -/
theorem first_eq_none : first r = none ↔ ∀ i : Fin 8, r.getLsbD i = false := by
  unfold first
  simp [List.find?_eq_none]

/-- The end of an interrupt is the one of the first line in service. -/
theorem eoi_isr {c : Chip} (hSet : c.isr.getLsbD i = true) (hHigh : ∀ j < i, c.isr.getLsbD j = false) :
    c.eoi = { c with isr := clearBit c.isr i } := by
  unfold Chip.eoi
  rw [first_eq_some.mpr ⟨hSet, hHigh⟩]

/-- Without a line in service it does nothing. -/
theorem eoi_none {c : Chip} (h : ∀ i : Fin 8, c.isr.getLsbD i = false) : c.eoi = c := by
  unfold Chip.eoi
  rw [first_eq_none.mpr h]

/-- A line is let through when it is not masked, and neither it nor one before it is in service.
-/
theorem admits_iff {c : Chip} : c.admits i = true ↔
    c.imr.getLsbD i = false ∧ ∀ j ≤ i, c.isr.getLsbD j = false := by
  unfold Chip.admits
  simp [List.all_eq_true, imp_iff_not_or]

end

/-! ## Priorities -/

/-- The lines, the highest first; those of the second chip are where line 2 would be. -/
def priority : List (Fin 16) := [0, 1] ++ (List.finRange 8).map onSlave ++ [3, 4, 5, 6, 7]

/-- The first of two lists decides when it has something. -/
theorem find?_append_bind {A B : Type*} {M : A → Bool} {g : A → Option B} {xs ys : List A}
    (hSome : ∀ x ∈ xs, M x = true → (g x).isSome = true) :
    ((xs ++ ys).find? M).bind g = ((xs.find? M).bind g).or ((ys.find? M).bind g) := by
  rw [List.find?_append]
  cases hFind : xs.find? M with
  | none => rfl
  | some x =>
    obtain ⟨b, hb⟩ := Option.isSome_iff_exists.mp
      (hSome x (List.mem_of_find?_eq_some hFind) (List.find?_some hFind))
    rw [Option.some_or, Option.bind_some, hb, Option.some_or]

/-- The choice of the first chip, where line 2 stands for the choice of the second one. -/
theorem find?_cascade {M S : Fin 8 → Bool} {pick : Fin 16 → Bool} (free : Bool)
    (hMaster : ∀ i, i ≠ 2 → M i = pick (onMaster i))
    (hLine : M 2 = (((List.finRange 8).find? S).isSome && free)) (hSlave : ∀ j, pick (onSlave j) = (S j && free)) :
    priority.find? pick = ((List.finRange 8).find? M).bind fun i =>
      if i = 2 then ((List.finRange 8).find? S).map onSlave else some (onMaster i) := by
  -- lines before and behind line 2
  have hOuter : ∀ is : List (Fin 8), 2 ∉ is →
      ((is.find? M).bind fun i => if i = 2 then ((List.finRange 8).find? S).map onSlave else some (onMaster i)) =
        (is.map onMaster).find? pick := by
    intro is hNot
    have hSame : is.find? (pick ∘ onMaster) = is.find? M :=
      List.find?_congr fun i hi => (hMaster i (ne_of_mem_of_not_mem hi hNot)).symm
    rw [List.find?_map, hSame]
    cases hFind : is.find? M with
    | none => rfl
    | some i => exact if_neg (ne_of_mem_of_not_mem (List.mem_of_find?_eq_some hFind) hNot)
  -- where line 2 would be, the second chip chooses
  have hInner : (([2].find? M).bind fun i =>
      if i = 2 then ((List.finRange 8).find? S).map onSlave else some (onMaster i)) =
        ((List.finRange 8).map onSlave).find? pick := by
    rw [List.find?_map, List.find?_singleton, hLine]
    cases hFree : free with
    | true =>
      have hSame : (List.finRange 8).find? (pick ∘ onSlave) = (List.finRange 8).find? S :=
        List.find?_congr fun j _ => by rw [Function.comp, hSlave, hFree, Bool.and_true]
      rw [hSame, Bool.and_true]
      cases (List.finRange 8).find? S with
      | none => rfl
      | some j => rfl
    | false =>
      have hNone : (List.finRange 8).find? (pick ∘ onSlave) = none := by
        rw [List.find?_eq_none]
        intro j _
        rw [Function.comp, hSlave, hFree, Bool.and_false]
        exact Bool.false_ne_true
      rw [hNone, Bool.and_false]
      rfl
  have hAll : List.finRange 8 = [0, 1] ++ ([2] ++ [3, 4, 5, 6, 7]) := by decide
  rw [hAll, find?_append_bind, find?_append_bind, ← hAll, hOuter [0, 1] (by decide),
    hOuter [3, 4, 5, 6, 7] (by decide), hInner, ← List.find?_append, ← List.find?_append]
  · rfl
  · intro i hi hM
    obtain rfl := List.mem_singleton.mp hi
    rw [hLine, Bool.and_eq_true] at hM
    rw [if_pos rfl, Option.isSome_map]
    exact hM.1
  · intro i hi _
    have hNot : i ≠ 2 := ne_of_mem_of_not_mem hi (by decide)
    rw [if_neg hNot]
    rfl

end I8259
