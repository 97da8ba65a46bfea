import Glendum.Lib.I386Stack
import Glendum.Lib.LowBits
import Glendum.Arch.Uregs
import Glendum.Arch.Trap

/-!
# Glendum — the way into the kernel and back

An interrupt comes through a gate of the table that `trapinit0` builds, to an entry of
`vectortable`, from where `_strayintr`, `_strayintrx` or `_syscallintr` pushes the rest of a
`Ureg`. When `trap` or `syscall` returns, the registers are taken from there again; this is also
where a child of `fork` starts, with a copy of its parent's `Ureg`.

The words are pushed in the order of `plainLayout`. The segment registers are loaded whatever
their values are.

* `trapinit0_gate` — a gate leads to the entry of its vector, two of them for users also;
* `trap_called` — what the handler finds, whether the processor has pushed an error code or not;
* `resume_saved` — the way back from a `Ureg` that was left alone;
* `trap_transparent` — so an interrupt makes no difference to who is interrupted, other than what
  its handler makes in the `Ureg` and in memory.
-/

namespace Glendum

open Machine I386

/-! ## The gates -/

def KDSEL : Word := SELECTOR 1 SELGDT 0
def KESEL : Word := SELECTOR 2 SELGDT 0

def SEGP : Word := 1 <<< 15
def SEGIG : Word := 0x0E <<< 8
def SEGPL (x : Word) : Word := x <<< 13

/-- One round of the loop of `trapinit0`. -/
def trapgate (vaddr : Word) (v : Nat) : IdtEntry :=
  let d1 := (vaddr &&& 0xFFFF0000) ||| SEGP
  { d0 := (vaddr &&& (0xFFFF : Word)) ||| (KESEL <<< 16)
    d1 :=
      if v = VectorBPT then d1 ||| (SEGPL 3 ||| SEGIG)
      else if v = VectorSYSCALL then d1 ||| (SEGPL 3 ||| SEGIG)
      else d1 ||| (SEGPL 0 ||| SEGIG) }

def trapgates (vaddr : Word) (v : Nat) : Nat → List IdtEntry
  | 0 => []
  | k + 1 => trapgate vaddr v :: trapgates (vaddr + 6) (v + 1) k

def trapinit0 (vectortable : Word) : List IdtEntry := trapgates vectortable 0 256

/-! ## Entry -/

/-- Addresses in the text of the kernel. -/
structure TrapText where
  vectortable : Word
  trap        : Word
  /-- it follows the call of `trap` -/
  forkret     : Word
  syscall     : Word
  /-- behind the call of `syscall` -/
  sysret      : Word

section

variable (K : TrapText) (upper : Word → BitVec 16)

def intrcommon (c : Core) : Core :=
  let c := c.pushSeg upper .DS
  let c := (c.push KDSEL).popSeg .DS
  -- trap type -> AX
  let c := c.movblzx .AX
  -- exchange trap type with saved AX
  let c := c.xchgl .AX 1
  let c := c.pushSeg upper .ES
  let c := (c.push KDSEL).popSeg .ES
  let c := c.pushSeg upper .FS
  let c := c.pushSeg upper .GS
  let c := c.pushal
  -- Ureg* argument to trap
  let c := c.pushl .SP
  c.call K.trap K.forkret

def strayintr (c : Core) : Core :=
  let c := c.pushl .AX
  -- return PC from vectortable
  let c := c.peek 1 .AX
  intrcommon K upper c

def strayintrx (c : Core) : Core :=
  -- swap AX with vectortable CALL PC
  let c := c.xchgl .AX 0
  intrcommon K upper c

def syscallintr (c : Core) : Core :=
  let c := c.push (BitVec.ofNat 32 VectorSYSCALL)
  let c := c.pushSeg upper .DS
  let c := c.pushSeg upper .ES
  let c := c.pushSeg upper .FS
  let c := c.pushSeg upper .GS
  let c := c.pushal
  let c := c.setGpr .AX KDSEL
  let c := c.setSeg .DS ((c.gpr .AX).setWidth 16)
  let c := c.setSeg .ES ((c.gpr .AX).setWidth 16)
  let c := c.pushl .SP
  c.call K.syscall K.sysret

/-- The vectors for which the processor pushes an error code. -/
def errorCodes : List Nat := [0x08, 0x0A, 0x0B, 0x0C, 0x0D, 0x0E, 0x11]

/-- The entry of a vector: a call, and a byte that the call returns to. -/
def vectortable (v : Nat) (c : Core) : Core :=
  let c := c.push (K.vectortable + BitVec.ofNat 32 (6 * v) + 5)
  if v = VectorSYSCALL then syscallintr K upper c
  else if v ∈ errorCodes then strayintrx K upper c
  else strayintr K upper c

end

/-- `forkret`, and what follows the call of `syscall`. -/
def trapret (c : Core) : Option Core :=
  let c := c.popl .AX
  let c := c.popal
  let c := c.popSeg .GS
  let c := c.popSeg .FS
  let c := c.popSeg .ES
  let c := c.popSeg .DS
  -- pop error code and trap type
  let c := c.drop 2
  c.iretl

/-! ## What the gates hold -/

section

variable {a k : Word} {v : Nat}

/-- The address is in the upper halves, and what else is in the gate is in the lower ones. -/
theorem getLsbD_gate (hk : k.toNat < 2 ^ 16) (i : Nat) :
    ((a &&& 0xFFFF0000) ||| k).getLsbD i = if i < 16 then k.getLsbD i else a.getLsbD i := by
  have hMask : (0xFFFF0000 : Word) = ~~~ low 32 16 := by decide
  rw [hMask, BitVec.getLsbD_or, BitVec.getLsbD_and, BitVec.getLsbD_not, getLsbD_low]
  by_cases hi : i < 16
  · rw [if_pos hi, decide_eq_true hi, decide_eq_true (by omega : i < 32)]
    simp
  · have hHigh : k.getLsbD i = false := by
      have hPow : 2 ^ 16 ≤ 2 ^ i := Nat.pow_le_pow_right (by decide) (Nat.le_of_not_lt hi)
      exact Nat.testBit_lt_two_pow (Nat.lt_of_lt_of_le hk hPow)
    rw [if_neg hi, decide_eq_false hi, hHigh, Bool.or_false, Bool.and_false, Bool.not_false, Bool.and_true]
    by_cases hw : i < 32
    · rw [decide_eq_true hw, Bool.and_true]
    · rw [BitVec.getLsbD_of_ge _ _ (Nat.le_of_not_lt hw), Bool.false_and]

/-- What the lower half of the second word says of a vector. -/
def gateBits (v : Nat) : Word := SEGP ||| (SEGPL (if v = VectorBPT ∨ v = VectorSYSCALL then 3 else 0) ||| SEGIG)

/-- The upper word of a gate. -/
theorem trapgate_d1 (a : Word) (v : Nat) : (trapgate a v).d1 = (a &&& 0xFFFF0000) ||| gateBits v := by
  unfold trapgate gateBits
  dsimp only
  by_cases hBpt : v = VectorBPT
  · rw [if_pos hBpt, if_pos (Or.inl hBpt), BitVec.or_assoc]
  · by_cases hSys : v = VectorSYSCALL
    · rw [if_neg hBpt, if_pos hSys, if_pos (Or.inr hSys), BitVec.or_assoc]
    · rw [if_neg hBpt, if_neg hSys, if_neg (not_or.mpr ⟨hBpt, hSys⟩), BitVec.or_assoc]

/-- The bits of a gate: valid, an interrupt gate, and open to users for two vectors. -/
theorem gateBits_spec (v : Nat) : (gateBits v).toNat < 2 ^ 16 ∧ (gateBits v).getLsbD 15 = true ∧
    (gateBits v).extractLsb' 8 5 = 0x0E ∧
    ((gateBits v).extractLsb' 13 2).toNat = if v = VectorBPT ∨ v = VectorSYSCALL then 3 else 0 := by
  unfold gateBits
  split <;> decide

/-- A field of the lower half is the one of the bits. -/
theorem extract_gate {start len : Nat} (hk : k.toNat < 2 ^ 16) (hIn : start + len ≤ 16) :
    ((a &&& 0xFFFF0000) ||| k).extractLsb' start len = k.extractLsb' start len := by
  refine BitVec.eq_of_getLsbD_eq fun i hi => ?_
  rw [BitVec.getLsbD_extractLsb', BitVec.getLsbD_extractLsb', getLsbD_gate hk, if_pos (by omega)]

/-- The lower word of a gate. -/
theorem trapgate_d0 (a : Word) (v : Nat) : (trapgate a v).d0 = (a &&& low 32 16) ||| (KESEL <<< 16) := by
  have hLowMask : (0xFFFF : Word) = low 32 16 := by decide
  rw [← hLowMask]
  rfl

/-- A gate leads to the kernel's code segment. -/
theorem trapgate_selector (a : Word) (v : Nat) : (trapgate a v).d0.extractLsb' 16 16 = KESEL.setWidth 16 := by
  refine BitVec.eq_of_getLsbD_eq fun i hi => ?_
  rw [trapgate_d0, BitVec.getLsbD_extractLsb', decide_eq_true hi, Bool.true_and, BitVec.getLsbD_or,
    BitVec.getLsbD_and, getLsbD_low, decide_eq_false (by omega : ¬ 16 + i < 16), Bool.and_false,
    Bool.and_false, Bool.false_or, BitVec.getLsbD_shiftLeft, BitVec.getLsbD_setWidth, decide_eq_true hi,
    decide_eq_true (by omega : 16 + i < 32), decide_eq_false (by omega : ¬ 16 + i < 16),
    Nat.add_sub_cancel_left]
  rfl

/-- Both halves of the address. -/
theorem trapgate_offset (a : Word) (v : Nat) :
    (trapgate a v).d1.extractLsb' 16 16 ++ (trapgate a v).d0.extractLsb' 0 16 = a := by
  obtain ⟨hLow, -⟩ := gateBits_spec v
  rw [trapgate_d1, trapgate_d0]
  show (_ : BitVec 16) ++ _ = a
  refine BitVec.eq_of_getLsbD_eq fun i hi => ?_
  rw [BitVec.getLsbD_append]
  by_cases hHalf : i < 16
  · rw [if_pos hHalf, BitVec.getLsbD_extractLsb', decide_eq_true hHalf, Bool.true_and, Nat.zero_add,
      BitVec.getLsbD_or, BitVec.getLsbD_and, getLsbD_low, decide_eq_true hHalf,
      decide_eq_true (by omega : i < 32), BitVec.getLsbD_shiftLeft, decide_eq_true hHalf]
    simp
  · rw [if_neg hHalf, BitVec.getLsbD_extractLsb', getLsbD_gate hLow, if_neg (by omega),
      decide_eq_true (by omega : i - 16 < 16), Bool.true_and, Nat.add_sub_cancel' (Nat.le_of_not_lt hHalf)]

/-- A gate leads to the entry of its vector; only those of the breakpoint and the system call are
open to a user. -/
theorem gate_trapgate (a : Word) (v : Nat) : (trapgate a v).gate = some
    { selector := KESEL.setWidth 16, offset := a,
      dpl := if v = VectorBPT ∨ v = VectorSYSCALL then 3 else 0 } := by
  obtain ⟨hLow, hPresent, hType, hDpl⟩ := gateBits_spec v
  unfold IdtEntry.gate
  rw [if_pos]
  · rw [trapgate_selector, trapgate_offset, trapgate_d1, extract_gate hLow (by decide), hDpl]
  · rw [trapgate_d1, getLsbD_gate hLow, if_pos (by decide), extract_gate hLow (by decide)]
    exact ⟨hPresent, hType⟩

/-- A gate for each vector, one entry of the table after the other. -/
theorem trapgates_getElem? {k i : Nat} (hi : i < k) (a : Word) (v : Nat) :
    (trapgates a v k)[i]? = some (trapgate (a + BitVec.ofNat 32 (6 * i)) (v + i)) := by
  induction k generalizing a v i with
  | zero => exact absurd hi (Nat.not_lt_zero i)
  | succ k ih =>
    cases i with
    | zero =>
      rw [trapgates, List.getElem?_cons_zero, show a + BitVec.ofNat 32 (6 * 0) = a by simp]
      rfl
    | succ i =>
      rw [trapgates, List.getElem?_cons_succ, ih (by omega),
        show a + 6 + BitVec.ofNat 32 (6 * i) = a + BitVec.ofNat 32 (6 * (i + 1)) by bv_omega,
        Nat.add_assoc, Nat.add_comm 1 i]

/-- The gate of a vector leads to its entry in the table. -/
theorem trapinit0_gate (hv : v < 256) (a : Word) : ∃ d, (trapinit0 a)[v]? = some d ∧ d.gate = some
    { selector := KESEL.setWidth 16, offset := a + BitVec.ofNat 32 (6 * v),
      dpl := if v = VectorBPT ∨ v = VectorSYSCALL then 3 else 0 } := by
  refine ⟨_, trapgates_getElem? hv a 0, ?_⟩
  rw [gate_trapgate, Nat.zero_add]

end

/-! ## The Ureg on the stack -/

section

variable (K : TrapText) (upper : Word → BitVec 16) {m₀ : Memory} {bot : Word} {n room v : Nat}
  {ws : List Word} {g : Gpr → Word} {s : SegReg → BitVec 16} {c : Core} {e ecode saved : Word}

/-- The segments of the handler: two have the kernel's data. -/
def kernelSegs (s : SegReg → BitVec 16) : SegReg → BitVec 16 :=
  Function.update (Function.update s .DS (KDSEL.setWidth 16)) .ES (KDSEL.setWidth 16)

/-- What is pushed of the registers, with the upper halves of the segments. -/
def savedWords (g : Gpr → Word) (s : SegReg → BitVec 16) (u : SegReg → BitVec 16) (sp type ecode : Word) :
    List Word :=
  [g .DI, g .SI, g .BP, sp, g .BX, g .DX, g .CX, g .AX, u .GS ++ s .GS, u .FS ++ s .FS, u .ES ++ s .ES,
    u .DS ++ s .DS, type, ecode]

/-- A choice of upper halves. -/
def halves (ds es fs gs : BitVec 16) : SegReg → BitVec 16
  | .DS => ds
  | .ES => es
  | .FS => fs
  | .GS => gs
  | _ => 0

/-- The common part saves the segments and the registers. -/
theorem intrcommon_frame (h : Frame m₀ bot n (room + 14) (saved :: ecode :: ws) g s c)
    (hText : 4 * n ≤ (g .AX - bot).toNat) :
    ∃ u, Frame m₀ bot n room (K.forkret :: (bot + BitVec.ofNat 32 (4 * (room + 2))) ::
        (savedWords (Function.update g .AX saved) s u (bot + BitVec.ofNat 32 (4 * (room + 10)))
          ((m₀ (g .AX)).setWidth 32) ecode ++ ws))
      (Function.update g .AX saved) (kernelSegs s) (intrcommon K upper c) := by
  unfold intrcommon
  obtain ⟨ds, h₁⟩ := h.pushSeg upper .DS
  have h₂ := ((h₁.push KDSEL).popSeg (S := .DS)).movblzx (r := .AX) nofun hText
  have h₃ := h₂.exchange (r := .AX) (i := 1) nofun (Nat.succ_lt_succ (Nat.succ_pos _))
  obtain ⟨es, h₄⟩ := h₃.pushSeg upper .ES
  obtain ⟨fs, h₅⟩ := ((h₄.push KDSEL).popSeg (S := .ES)).pushSeg upper .FS
  obtain ⟨gs, h₆⟩ := h₅.pushSeg upper .GS
  refine ⟨halves ds es fs gs, ?_⟩
  simpa [kernelSegs, savedWords, halves] using (h₆.pushal.pushSp).call K.trap K.forkret

/-- The entry for a vector without an error code pushes the place of its number twice. -/
theorem strayintr_frame (h : Frame m₀ bot n (room + 15) (e :: ws) g s c)
    (hText : 4 * n ≤ (e - bot).toNat) :
    ∃ u, Frame m₀ bot n room (K.forkret :: (bot + BitVec.ofNat 32 (4 * (room + 2))) ::
        (savedWords g s u (bot + BitVec.ofNat 32 (4 * (room + 10))) ((m₀ e).setWidth 32) e ++ ws))
      g (kernelSegs s) (strayintr K upper c) := by
  have h₁ := (h.pushl (r := .AX) nofun).peek (r := .AX) (i := 1) nofun (Nat.succ_lt_succ (Nat.succ_pos _))
  have hFrom : 4 * n ≤ (Function.update g .AX (g .AX :: e :: ws)[1] .AX - bot).toNat := by
    rw [Function.update_self]
    exact hText
  obtain ⟨u, h₂⟩ := intrcommon_frame K upper h₁ hFrom
  refine ⟨u, ?_⟩
  rw [Function.update_idem, Function.update_eq_self, Function.update_self] at h₂
  exact h₂

/-- The entry for a vector with an error code has it on the stack already. -/
theorem strayintrx_frame (h : Frame m₀ bot n (room + 14) (e :: ecode :: ws) g s c)
    (hText : 4 * n ≤ (e - bot).toNat) :
    ∃ u, Frame m₀ bot n room (K.forkret :: (bot + BitVec.ofNat 32 (4 * (room + 2))) ::
        (savedWords g s u (bot + BitVec.ofNat 32 (4 * (room + 10))) ((m₀ e).setWidth 32) ecode ++ ws))
      g (kernelSegs s) (strayintrx K upper c) := by
  have h₁ := h.exchange (r := .AX) (i := 0) nofun (Nat.succ_pos _)
  have hFrom : 4 * n ≤ (Function.update g .AX (e :: ecode :: ws)[0] .AX - bot).toNat := by
    rw [Function.update_self]
    exact hText
  obtain ⟨u, h₂⟩ := intrcommon_frame K upper h₁ hFrom
  refine ⟨u, ?_⟩
  rw [Function.update_idem, Function.update_eq_self, Function.update_self] at h₂
  exact h₂

/-- The entry for the system call pushes its own number. -/
theorem syscallintr_frame (h : Frame m₀ bot n (room + 15) (e :: ws) g s c) :
    ∃ u, Frame m₀ bot n room (K.sysret :: (bot + BitVec.ofNat 32 (4 * (room + 2))) ::
        (savedWords g s u (bot + BitVec.ofNat 32 (4 * (room + 10))) (BitVec.ofNat 32 VectorSYSCALL) e ++ ws))
      (Function.update g .AX KDSEL) (kernelSegs s) (syscallintr K upper c) := by
  obtain ⟨ds, h₁⟩ := (h.push (BitVec.ofNat 32 VectorSYSCALL)).pushSeg upper .DS
  obtain ⟨es, h₂⟩ := h₁.pushSeg upper .ES
  obtain ⟨fs, h₃⟩ := h₂.pushSeg upper .FS
  obtain ⟨gs, h₄⟩ := h₃.pushSeg upper .GS
  have h₅ := h₄.pushal.setGpr (r := .AX) (v := KDSEL) nofun
  refine ⟨halves ds es fs gs, ?_⟩
  have h₆ := ((h₅.setSeg (S := .DS) (x := KDSEL.setWidth 16)).setSeg (S := .ES)
    (x := KDSEL.setWidth 16)).pushSp.call K.syscall K.sysret
  exact h₆

/-- Where the entry of a vector is called back to. -/
def TrapText.entryRet (K : TrapText) (v : Nat) : Word := K.vectortable + BitVec.ofNat 32 (6 * v) + 5

/-- Where the handler of a vector returns to. -/
def TrapText.handlerRet (K : TrapText) (v : Nat) : Word := if v = VectorSYSCALL then K.sysret else K.forkret

/-- The entry of a vector pushes the same words whether the processor has pushed an error code or
not; without one there is the address behind the call in its place. -/
theorem vectortable_frame {err : Option Word} (hErr : err.isSome = true ↔ v ∈ errorCodes)
    (h : Frame m₀ bot n (room + 16 - err.toList.length) (err.toList ++ ws) g s c)
    (hText : 4 * n ≤ (K.entryRet v - bot).toNat) (hByte : (m₀ (K.entryRet v)).setWidth 32 = BitVec.ofNat 32 v) :
    ∃ u g', Frame m₀ bot n room (K.handlerRet v :: (bot + BitVec.ofNat 32 (4 * (room + 2))) ::
        (savedWords g s u (bot + BitVec.ofNat 32 (4 * (room + 10))) (BitVec.ofNat 32 v)
          (err.getD (K.entryRet v)) ++ ws)) g' (kernelSegs s) (vectortable K upper v c) := by
  unfold vectortable TrapText.handlerRet
  -- the entry of the system call pushes its vector itself
  by_cases hSys : v = VectorSYSCALL
  · have hNone : err = none := by
      rw [← Option.not_isSome_iff_eq_none, hErr, hSys]
      decide
    subst hNone
    dsimp only
    rw [if_pos hSys, if_pos hSys]
    obtain ⟨u, hEntry⟩ := syscallintr_frame K upper (h.push (K.entryRet v))
    rw [hSys] at hEntry ⊢
    exact ⟨u, _, hEntry⟩
  · dsimp only
    rw [if_neg hSys, if_neg hSys]
    -- the others read it behind their call, after the error code or without one
    by_cases hCode : v ∈ errorCodes
    · obtain ⟨code, rfl⟩ := Option.isSome_iff_exists.mp (hErr.mpr hCode)
      rw [if_pos hCode]
      obtain ⟨u, hEntry⟩ := strayintrx_frame K upper (h.push (K.entryRet v)) hText
      rw [hByte] at hEntry
      exact ⟨u, g, hEntry⟩
    · have hNone : err = none := by
        rw [← Option.not_isSome_iff_eq_none, hErr]
        exact hCode
      subst hNone
      rw [if_neg hCode]
      obtain ⟨u, hEntry⟩ := strayintr_frame K upper (h.push (K.entryRet v)) hText
      rw [hByte] at hEntry
      exact ⟨u, g, hEntry⟩

variable {K upper}

def gprField : Gpr → UregField
  | .AX => .ax
  | .CX => .cx
  | .DX => .dx
  | .BX => .bx
  | .SP => .usp
  | .BP => .bp
  | .SI => .si
  | .DI => .di

def segField : SegReg → UregField
  | .CS => .cs
  | .SS => .ss
  | .DS => .ds
  | .ES => .es
  | .FS => .fs
  | .GS => .gs

/-- The `Ureg` has the registers of the processor that vector `v` has interrupted; the stack
pointer and its segment are in it when they are a user's. -/
structure Saves (c : Core) (v : Nat) (U : Ureg) : Prop where
  gpr   : ∀ r, r ≠ .SP → U (gprField r) = c.gpr r
  seg   : ∀ S, S ≠ .SS → (U (segField S)).setWidth 16 = c.seg S
  trap  : U .trap = BitVec.ofNat 32 v
  pc    : U .pc = c.pc
  flags : U .flags = c.flags
  user  : c.cpl ≠ 0 → U .usp = c.sp ∧ (U .ss).setWidth 16 = c.seg .SS

/-- The lower half of a word. -/
theorem low_half (u x : BitVec 16) : (u ++ x).setWidth 16 = x := by
  refine BitVec.eq_of_getLsbD_eq fun i hi => ?_
  rw [BitVec.getLsbD_setWidth, BitVec.getLsbD_append, if_pos hi, decide_eq_true hi, Bool.true_and]

/-- The words that are pushed are the fields of a `Ureg` from the lowest on. -/
theorem saves_of_frame {ret p sp : Word} {u : SegReg → BitVec 16} {u₁ u₂ : BitVec 16} {c₂ : Core}
    (h : Frame m₀ bot n room (ret :: p :: (savedWords c.gpr s u sp (BitVec.ofNat 32 v) ecode ++
      c.pc :: (u₁ ++ c.seg .CS) :: c.flags :: c.leftStack u₂)) g (kernelSegs s) c₂)
    (hSegs : ∀ S, S ≠ .SS → S ≠ .CS → s S = c.seg S) :
    Saves c v (plainLayout.image c₂.mem (c₂.sp + 8)) := by
  -- the field at a place of the structure is the word two above it
  have hField : ∀ f, ∀ w, (ret :: p :: (savedWords c.gpr s u sp (BitVec.ofNat 32 v) ecode ++
      c.pc :: (u₁ ++ c.seg .CS) :: c.flags :: c.leftStack u₂))[(plainLayout.pos f).val + 2]? = some w →
      plainLayout.image c₂.mem (c₂.sp + 8) f = w := by
    intro f w hw
    obtain ⟨hLt, hEq⟩ := List.getElem?_eq_some_iff.mp hw
    rw [← hEq, ← h.getElem hLt]
    unfold Layout.image Layout.off
    rw [show c₂.sp + 8 + BitVec.ofNat 32 (4 * (plainLayout.pos f).val) =
      c₂.sp + BitVec.ofNat 32 (4 * ((plainLayout.pos f).val + 2)) by bv_omega]
  have hSeg : ∀ S, S ≠ .SS → S ≠ .CS → ∀ x : BitVec 16, (x ++ s S).setWidth 16 = c.seg S :=
    fun S hSS hCS x => (low_half x (s S)).trans (hSegs S hSS hCS)
  constructor
  · intro r hr
    cases r with
    | SP => exact absurd rfl hr
    | AX => exact hField .ax _ rfl
    | CX => exact hField .cx _ rfl
    | DX => exact hField .dx _ rfl
    | BX => exact hField .bx _ rfl
    | BP => exact hField .bp _ rfl
    | SI => exact hField .si _ rfl
    | DI => exact hField .di _ rfl
  · intro S hS
    cases S with
    | SS => exact absurd rfl hS
    | CS => exact (congrArg _ (hField .cs _ rfl)).trans (low_half _ _)
    | DS => exact (congrArg _ (hField .ds _ rfl)).trans (hSeg .DS nofun nofun _)
    | ES => exact (congrArg _ (hField .es _ rfl)).trans (hSeg .ES nofun nofun _)
    | FS => exact (congrArg _ (hField .fs _ rfl)).trans (hSeg .FS nofun nofun _)
    | GS => exact (congrArg _ (hField .gs _ rfl)).trans (hSeg .GS nofun nofun _)
  · exact hField .trap _ rfl
  · exact hField .pc _ rfl
  · exact hField .flags _ rfl
  · intro hUser
    have hLeft : c.leftStack u₂ = [c.sp, u₂ ++ c.seg .SS] := if_neg hUser
    rw [hLeft] at hField
    exact ⟨hField .usp _ rfl, (congrArg _ (hField .ss _ rfl)).trans (low_half _ _)⟩

/-! ## The way back -/

/-- The processor with the registers of a `Ureg` at `p`: a user has its own stack, and the kernel
goes on with the one above the words that were pushed. -/
def resume (U : Ureg) (p : Word) (d : Core) : Core :=
  let kernel := ((U .cs).setWidth 16).toNat % 4 = 0
  { gpr := fun r => if r = .SP ∧ kernel then p + 68 else U (gprField r)
    seg := fun S => if S = .SS ∧ kernel then d.seg .SS else (U (segField S)).setWidth 16
    flags := U .flags
    pc := U .pc
    mem := d.mem }

/-- The exit restores what the Ureg holds. -/
theorem trapret_eq (d : Core) (hVm : (plainLayout.image d.mem (d.sp + 4) .flags).getLsbD 17 = false) :
    trapret d = some (resume (plainLayout.image d.mem (d.sp + 4)) (d.sp + 4) d) := by
  have hStart : Frame d.mem d.sp 20 0 (Memory.load32 d.mem d.sp ::
      (List.range 19).map fun i => Memory.load32 d.mem (d.sp + 4 + BitVec.ofNat 32 (4 * i)))
      d.gpr d.seg d :=
    ⟨fun _ _ => rfl, rfl, by simp, ⟨rfl, words_self d.mem (d.sp + 4) 19⟩, Memory.SameOff.refl _ _ _,
      rfl, by decide⟩
  have hRegs := (hStart.popl (r := .AX) nofun).popal
  have hSegs := (((hRegs.popSeg (S := .GS)).popSeg (S := .FS)).popSeg (S := .ES)).popSeg (S := .DS)
  have hTwo := hSegs.drop.drop
  unfold trapret
  dsimp only
  rw [← Core.drop_drop 1 1]
  rw [hTwo.iretl hVm]
  refine congrArg some ?_
  -- only a return to the user takes the stack from the frame
  by_cases hKernel : ((plainLayout.image d.mem (d.sp + 4) .cs).setWidth 16 : BitVec 16).toNat % 4 = 0
  · refine (if_pos hKernel).trans (Core.ext ?_ ?_ rfl rfl rfl)
    · funext r
      cases r with
      | SP =>
        show d.sp + _ = if _ then _ else _
        rw [if_pos ⟨rfl, hKernel⟩]
        bv_omega
      | AX | CX | DX | BX | BP | SI | DI => rfl
    · funext S
      cases S with
      | SS => exact (if_pos ⟨rfl, hKernel⟩).symm
      | CS | DS | ES | FS | GS => rfl
  · refine (if_neg hKernel).trans (Core.ext ?_ ?_ rfl rfl rfl)
    · funext r
      cases r with
      | SP => exact (if_neg fun h => hKernel h.2).symm
      | AX | CX | DX | BX | BP | SI | DI => rfl
    · funext S
      cases S with
      | SS => exact (if_neg fun h => hKernel h.2).symm
      | CS | DS | ES | FS | GS => rfl

/-! ## There and back -/

/-- The words of the stack of the handler that an interrupt and its entry write. -/
def trapWords (c : Core) : Nat := 19 + (c.leftStack 0).length

def trapBottom (c : Core) (tss : Tss) : Word :=
  c.handlerTop tss - BitVec.ofNat 32 (4 * trapWords c)

/-- The byte behind the call of an entry is the number of its vector, and not on the stack. -/
structure EntryText (K : TrapText) (tss : Tss) (v : Nat) (c : Core) : Prop where
  byte  : c.mem (K.entryRet v) = BitVec.ofNat 8 v
  apart : 4 * trapWords c ≤ (K.entryRet v - trapBottom c tss).toNat

/-- The state in which a handler is called. -/
structure Called (K : TrapText) (tss : Tss) (v : Nat) (c c₂ : Core) : Prop where
  pc    : c₂.pc = if v = VectorSYSCALL then K.syscall else K.trap
  sp    : c₂.sp = trapBottom c tss
  ret   : Memory.load32 c₂.mem c₂.sp = K.handlerRet v
  /-- the argument of the handler -/
  ureg  : Memory.load32 c₂.mem (c₂.sp + 4) = c₂.sp + 8
  saves : Saves c v (plainLayout.image c₂.mem (c₂.sp + 8))
  off   : Memory.SameOff (trapBottom c tss) (4 * trapWords c) c.mem c₂.mem
  ss    : c₂.seg .SS = if c.cpl = 0 then c.seg .SS else tss.ss0

/-- A vector is handled by `trap`, and the system call by `syscall`. -/
theorem vectortable_pc (v : Nat) (c : Core) :
    (vectortable K upper v c).pc = if v = VectorSYSCALL then K.syscall else K.trap := by
  unfold vectortable
  dsimp only
  split
  · rfl
  · split
    · rfl
    · rfl

variable {tss : Tss} {soft : Bool} {err : Option Word} {c₁ : Core}

/-- Whoever is interrupted, the handler is called with a Ureg that has everything. -/
theorem trap_called (hv : v < 256)
    (hInt : c.interrupt upper (trapinit0 K.vectortable) tss v soft err = some c₁)
    (hErr : err.isSome = true ↔ v ∈ errorCodes) (hText : EntryText K tss v c) :
    (soft = true → c.cpl ≤ if v = VectorBPT ∨ v = VectorSYSCALL then 3 else 0) ∧
      c₁.pc = K.vectortable + BitVec.ofNat 32 (6 * v) ∧ Called K tss v c (vectortable K upper v c₁) := by
  have hLen : err.toList.length ≤ 1 := by
    cases err with
    | none => exact Nat.zero_le 1
    | some code => exact Nat.le_refl 1
  have hWords : (c.leftStack 0).length ≤ 2 := by
    unfold Core.leftStack
    split
    · exact Nat.zero_le 2
    · exact Nat.le_refl 2
  obtain ⟨d, g, u, u', hd, hg, hSoft, hPc, -, hFrame⟩ :=
    interrupt_frame hInt 0 (show 4 * (16 - err.toList.length + err.toList.length + 5) ≤ 2 ^ 32 by omega)
  obtain ⟨d', hd', hg'⟩ := trapinit0_gate hv K.vectortable
  obtain rfl : d = d' := Option.some.inj (hd.symm.trans hd')
  obtain rfl := Option.some.inj (hg.symm.trans hg')
  refine ⟨hSoft, hPc, ?_⟩
  -- the area of the stack is the same with an error code and without
  have hCount : 16 - err.toList.length + err.toList.length + 3 + (c.leftStack 0).length = trapWords c := by
    unfold trapWords
    omega
  rw [hCount] at hFrame
  have hByte : (c.mem (K.entryRet v)).setWidth 32 = BitVec.ofNat 32 v := by
    rw [hText.byte]
    refine BitVec.eq_of_toNat_eq ?_
    rw [BitVec.toNat_setWidth, BitVec.toNat_ofNat, BitVec.toNat_ofNat]
    omega
  have hRoom : 16 - err.toList.length = 0 + 16 - err.toList.length := by omega
  rw [hRoom] at hFrame
  obtain ⟨uh, g', hEntry⟩ := vectortable_frame K upper hErr hFrame hText.apart hByte
  refine ⟨vectortable_pc v c₁, ?_, hEntry.top, ?_, saves_of_frame hEntry ?_, hEntry.off, ?_⟩
  · rw [hEntry.sp]
    simp [trapBottom]
  · have hArg := hEntry.getElem (i := 1) (Nat.succ_lt_succ (Nat.succ_pos _))
    have hAt := hEntry.sp
    rw [hAt] at hArg ⊢
    exact hArg.trans (by simp)
  · intro S hSS hCS
    rw [Function.update_of_ne hCS]
    unfold Core.handlerSegs
    split
    · rfl
    · exact Function.update_of_ne hSS _ _
  · rw [hEntry.seg]
    show c.handlerSegs tss .SS = _
    unfold Core.handlerSegs
    split
    · rfl
    · exact Function.update_self _ _ _

/-- The fields that the way back takes. -/
def taken (c : Core) (f : UregField) : Prop :=
  f ∉ [UregField.nsp, .trap, .ecode] ∧ (c.cpl = 0 → f ≠ .usp ∧ f ≠ .ss)

/-- A `Ureg` takes the processor back to the registers that it has. -/
theorem resume_eq {U U' : Ureg} {p : Word} {d : Core} (h : Saves c v U) (hSame : ∀ f, taken c f → U' f = U f)
    (hKernel : c.cpl = 0 → p + 68 = c.sp ∧ d.seg .SS = c.seg .SS) : resume U' p d = { c with mem := d.mem } := by
  -- ss and esp are apart: only a return to an outer level takes them from the Ureg
  have hSeg : ∀ S, S ≠ .SS → (U' (segField S)).setWidth 16 = c.seg S := by
    intro S hS
    have hTaken : taken c (segField S) := by
      cases S <;> first | exact absurd rfl hS | exact ⟨by decide, fun _ => by decide⟩
    rw [hSame _ hTaken]
    exact h.seg S hS
  have hGpr : ∀ r, r ≠ .SP → U' (gprField r) = c.gpr r := by
    intro r hr
    have hTaken : taken c (gprField r) := by
      cases r <;> first | exact absurd rfl hr | exact ⟨by decide, fun _ => by decide⟩
    rw [hSame _ hTaken]
    exact h.gpr r hr
  have hCs : (U' .cs).setWidth 16 = c.seg .CS := hSeg .CS nofun
  have hPc : U' .pc = c.pc := by
    rw [hSame .pc ⟨by decide, fun _ => by decide⟩, h.pc]
  have hFlags : U' .flags = c.flags := by
    rw [hSame .flags ⟨by decide, fun _ => by decide⟩, h.flags]
  unfold resume
  rw [hCs]
  -- the general registers and the segments are left
  refine Core.ext ?_ ?_ hFlags hPc rfl
  · funext r
    by_cases hr : r = .SP
    · subst hr
      by_cases hLevel : c.cpl = 0
      · exact (if_pos ⟨rfl, hLevel⟩).trans (hKernel hLevel).1
      · refine (if_neg fun hK => hLevel hK.2).trans ?_
        show U' .usp = c.sp
        rw [hSame .usp ⟨by decide, fun hK => absurd hK hLevel⟩]
        exact (h.user hLevel).1
    · exact (if_neg fun hK => hr hK.1).trans (hGpr r hr)
  · funext S
    by_cases hS : S = .SS
    · subst hS
      by_cases hLevel : c.cpl = 0
      · exact (if_pos ⟨rfl, hLevel⟩).trans (hKernel hLevel).2
      · refine (if_neg fun hK => hLevel hK.2).trans ?_
        show (U' .ss).setWidth 16 = c.seg .SS
        rw [hSame .ss ⟨by decide, fun hK => absurd hK hLevel⟩]
        exact (h.user hLevel).2
    · exact (if_neg fun hK => hS hK.1).trans (hSeg S hS)

/-- When a handler leaves the fields as they are, the interrupted program goes on as before. -/
theorem resume_saved {c₂ d : Core} (h : Called K tss v c c₂) (hSp : d.sp = c₂.sp + 4)
    (hSs : d.seg .SS = c₂.seg .SS)
    (hSame : ∀ f, taken c f → plainLayout.image d.mem (c₂.sp + 8) f = plainLayout.image c₂.mem (c₂.sp + 8) f)
    (hVm : c.flags.getLsbD 17 = false) : trapret d = some { c with mem := d.mem } := by
  have hAt : d.sp + 4 = c₂.sp + 8 := by
    rw [hSp]
    bv_omega
  have hFlags : plainLayout.image d.mem (d.sp + 4) .flags = c.flags := by
    rw [hAt, hSame .flags ⟨by decide, fun _ => by decide⟩, h.saves.flags]
  rw [trapret_eq d (by rw [hFlags]; exact hVm), hAt]
  refine congrArg some (resume_eq h.saves hSame fun hLevel => ⟨?_, ?_⟩)
  · -- the stack of the kernel, from above the words that were pushed
    rw [h.sp]
    unfold trapBottom trapWords Core.handlerTop Core.leftStack
    rw [if_pos hLevel, if_pos hLevel, List.length_nil]
    bv_omega
  · rw [hSs, h.ss, if_pos hLevel]

/-- Whatever the vector is, and whether a user or the kernel is interrupted: the handler gets a
`Ureg` with all registers as they were; when it returns, the processor goes on with what is in
there, and where the handler has left it alone with the registers as they were. A program can come
in by itself at the breakpoint and the system call only. -/
theorem trap_transparent (hv : v < 256)
    (hInt : c.interrupt upper (trapinit0 K.vectortable) tss v soft err = some c₁)
    (hErr : err.isSome = true ↔ v ∈ errorCodes) (hText : EntryText K tss v c) :
    (soft = true → c.cpl ≤ if v = VectorBPT ∨ v = VectorSYSCALL then 3 else 0) ∧
    c₁.pc = K.vectortable + BitVec.ofNat 32 (6 * v) ∧
    ∃ c₂, vectortable K upper v c₁ = c₂ ∧ Called K tss v c c₂ ∧ ∀ d : Core, d.sp = c₂.sp + 4 →
      ((plainLayout.image d.mem (c₂.sp + 8) .flags).getLsbD 17 = false →
        trapret d = some (resume (plainLayout.image d.mem (c₂.sp + 8)) (c₂.sp + 8) d)) ∧
      (d.seg .SS = c₂.seg .SS → c.flags.getLsbD 17 = false →
        (∀ f, taken c f → plainLayout.image d.mem (c₂.sp + 8) f = plainLayout.image c₂.mem (c₂.sp + 8) f) →
        trapret d = some { c with mem := d.mem }) := by
  obtain ⟨hSoft, hPc, hCalled⟩ := trap_called hv hInt hErr hText
  refine ⟨hSoft, hPc, _, rfl, hCalled, fun d hSp => ⟨fun hVm => ?_, fun hSs hVm hSame => ?_⟩⟩
  · have hAt : d.sp + 4 = (vectortable K upper v c₁).sp + 8 := by
      rw [hSp]
      bv_omega
    rw [← hAt] at hVm ⊢
    exact trapret_eq d hVm
  · exact resume_saved hCalled hSp hSs hSame hVm

end

/-! ## A page fault of a user -/

def someText : TrapText where
  vectortable := 0x80100000
  trap := 0x80110000
  forkret := 0x80110100
  syscall := 0x80120000
  sysret := 0x80110200

def someTss : Tss := { esp0 := 0x80010000, ss0 := 8 }

/-- A user at 0x1020; memory has the byte of the entry of the page fault. -/
def someUser : Core where
  gpr
    | .AX => 1 | .CX => 2 | .DX => 3 | .BX => 4 | .SP => 0x7000 | .BP => 5 | .SI => 6 | .DI => 7
  seg
    | .CS => 0x23
    | _ => 0x1B
  flags := 0x202
  pc := 0x1020
  mem a := if a = someText.entryRet VectorPF then 14 else 0

/-- The handler only returns. -/
theorem trap_transparent_fault : ∃ c₁ c₂,
    someUser.interrupt (fun _ => 0) (trapinit0 someText.vectortable) someTss VectorPF false (some 6) = some c₁ ∧
    vectortable someText (fun _ => 0) VectorPF c₁ = c₂ ∧ Called someText someTss VectorPF someUser c₂ ∧
    trapret c₂.ret = some { someUser with mem := c₂.mem } := by
  have hInt : (someUser.interrupt (fun _ => 0) (trapinit0 someText.vectortable) someTss VectorPF false
      (some 6)).isSome = true := by
    decide
  obtain ⟨c₁, hInt⟩ := Option.isSome_iff_exists.mp hInt
  obtain ⟨-, -, c₂, hEntry, hCalled, hBack⟩ := trap_transparent (by decide) hInt (by decide)
    ⟨by decide, by decide⟩
  exact ⟨c₁, c₂, hInt, hEntry, hCalled,
    (hBack c₂.ret Core.sp_drop).2 rfl (by decide) fun _ _ => rfl⟩

end Glendum
