import Glendum.Lib.Area
import Mathlib.Logic.Function.Basic

/-!
# The stack of a 32-bit x86 processor

The registers, the segment registers, the flags and a byte memory make up a `Core`. These are
the instructions that move words to and from the stack, and what the processor does by itself
when it takes an interrupt through a gate and when it returns from one.

A segment register has 16 bits, and the processor chooses the upper half of the word that it
pushes for it (`upper`): 0, or what was in the place before.

* `Words` — the words from an address on, with the rules for a push and a pop;
* `Frame` — a stack that grows down into an area, outside of which memory stays as it was;
* `Frame.push`, `Frame.exchange`, `Frame.pop` — the instructions on such a stack.
-/

namespace I386

open Machine

inductive Gpr
  | AX | CX | DX | BX | SP | BP | SI | DI
deriving DecidableEq

inductive SegReg
  | CS | SS | DS | ES | FS | GS
deriving DecidableEq

@[ext] structure Core where
  gpr   : Gpr → Word
  seg   : SegReg → BitVec 16
  flags : Word
  pc    : Word
  mem   : Memory

namespace Core

def sp (c : Core) : Word := c.gpr .SP

def setGpr (c : Core) (r : Gpr) (v : Word) : Core := { c with gpr := Function.update c.gpr r v }

def setSeg (c : Core) (s : SegReg) (v : BitVec 16) : Core := { c with seg := Function.update c.seg s v }

/-- The word on top of the stack. -/
def top (c : Core) : Word := Memory.load32 c.mem c.sp

/-- `ADDL $4n, SP` -/
def drop (n : Nat) (c : Core) : Core := c.setGpr .SP (c.sp + BitVec.ofNat 32 (4 * n))

/-! ## Instructions -/

def push (v : Word) (c : Core) : Core :=
  { c with gpr := Function.update c.gpr .SP (c.sp - 4), mem := Memory.store32 c.mem (c.sp - 4) v }

def pushl (r : Gpr) (c : Core) : Core := c.push (c.gpr r)

def popl (r : Gpr) (c : Core) : Core := (c.drop 1).setGpr r c.top

def pushSeg (upper : Word → BitVec 16) (s : SegReg) (c : Core) : Core :=
  c.push (upper (Memory.load32 c.mem (c.sp - 4)) ++ c.seg s)

def popSeg (s : SegReg) (c : Core) : Core := (c.drop 1).setSeg s (c.top.setWidth 16)

/-- The stack pointer is one register. -/
theorem sp_setGpr {c : Core} {r : Gpr} {v : Word} (hr : r ≠ .SP) : (c.setGpr r v).sp = c.sp := by
  unfold sp setGpr
  exact Function.update_of_ne (Ne.symm hr) v c.gpr

/-- A push moves the stack pointer by a word. -/
theorem sp_push {c : Core} {v : Word} : (c.push v).sp = c.sp - 4 := by
  unfold push
  exact Function.update_self Gpr.SP (c.sp - 4) c.gpr

/-- To drop words moves it back. -/
theorem sp_drop {c : Core} {n : Nat} : (c.drop n).sp = c.sp + BitVec.ofNat 32 (4 * n) := by
  unfold drop setGpr
  exact Function.update_self Gpr.SP (c.sp + BitVec.ofNat 32 (4 * n)) c.gpr

/-- Words can be dropped one after the other. -/
theorem drop_drop (m n : Nat) (c : Core) : (c.drop m).drop n = c.drop (m + n) := by
  have hSp : (c.drop m).sp + BitVec.ofNat 32 (4 * n) = c.sp + BitVec.ofNat 32 (4 * (m + n)) := by
    rw [sp_drop]
    bv_omega
  unfold drop at hSp ⊢
  rw [hSp]
  unfold setGpr
  rw [Function.update_idem]

/-- `PUSHAL` pushes the stack pointer that it has found. -/
def pushal (c : Core) : Core :=
  (((((((c.pushl .AX).pushl .CX).pushl .DX).pushl .BX).push c.sp).pushl .BP).pushl .SI).pushl .DI

/-- `POPAL` does not load the stack pointer. -/
def popal (c : Core) : Core :=
  (((((((c.popl .DI).popl .SI).popl .BP).drop 1).popl .BX).popl .DX).popl .CX).popl .AX

/-- `MOVL 4n(SP), r` -/
def peek (n : Nat) (r : Gpr) (c : Core) : Core :=
  c.setGpr r (Memory.load32 c.mem (c.sp + BitVec.ofNat 32 (4 * n)))

/-- `XCHGL r, 4n(SP)` -/
def xchgl (r : Gpr) (n : Nat) (c : Core) : Core :=
  let a := c.sp + BitVec.ofNat 32 (4 * n)
  { c.setGpr r (Memory.load32 c.mem a) with mem := Memory.store32 c.mem a (c.gpr r) }

/-- `MOVBLZX (r), r` -/
def movblzx (r : Gpr) (c : Core) : Core := c.setGpr r ((c.mem (c.gpr r)).setWidth 32)

/-- `CALL`, with the address of the next instruction. -/
def call (target ret : Word) (c : Core) : Core := { c.push ret with pc := target }

def ret (c : Core) : Core := { c.drop 1 with pc := c.top }

/-- The privilege level. -/
def cpl (c : Core) : Nat := (c.seg .CS).toNat % 4

/-- `IRETL` at level 0. It does not go back to virtual-8086 mode here. -/
def iretl (c : Core) : Option Core :=
  let pc := c.top
  let cs := (c.drop 1).top.setWidth 16
  let flags := (c.drop 2).top
  if flags.getLsbD 17 = true then none else
  let back := { (c.drop 3).setSeg .CS cs with pc := pc, flags := flags }
  if cs.toNat % 4 = 0 then some back
  -- to an outer level, with its stack
  else some ((back.setGpr .SP back.top).setSeg .SS ((back.drop 1).top.setWidth 16))

end Core

/-! ## Interrupts -/

/-- An entry of the interrupt descriptor table, as two words. -/
structure IdtEntry where
  d0 : Word
  d1 : Word
deriving DecidableEq

structure Gate where
  selector : BitVec 16
  offset   : Word
  dpl      : Nat
deriving DecidableEq

/-- A present 32-bit interrupt gate. -/
def IdtEntry.gate (d : IdtEntry) : Option Gate :=
  if d.d1.getLsbD 15 = true ∧ d.d1.extractLsb' 8 5 = 0x0E then some
    { selector := d.d0.extractLsb' 16 16
      offset := d.d1.extractLsb' 16 16 ++ d.d0.extractLsb' 0 16
      dpl := (d.d1.extractLsb' 13 2).toNat }
  else none

/-- The stack of level 0 in the task state segment. -/
structure Tss where
  esp0 : Word
  ss0  : BitVec 16

/-- The flags TF, IF, NT, RF and VM, which an interrupt gate clears. -/
def gateFlags : Word := 0x34300

namespace Core

variable (upper : Word → BitVec 16)

/-- The stack that the handler runs on, and what is pushed before the flags. -/
def switch (tss : Tss) (c : Core) : Core :=
  if c.cpl = 0 then c else
    ((({ c with gpr := Function.update c.gpr .SP tss.esp0 } : Core).setSeg .SS tss.ss0).push
      (upper (Memory.load32 c.mem (tss.esp0 - 4)) ++ c.seg .SS)).push c.sp

/-- Vector `v`; `soft` tells whether it is an instruction of the program, and `err` is the error
code. There is no interrupt without a gate, or without the privilege for it. -/
def interrupt (idt : List IdtEntry) (tss : Tss) (v : Nat) (soft : Bool) (err : Option Word) (c : Core) :
    Option Core := do
  let d ← idt[v]?
  let g ← d.gate
  if soft = true ∧ g.dpl < c.cpl then none else
  let c' := (((c.switch upper tss).push c.flags).pushSeg upper .CS).push c.pc
  let c' := err.elim c' fun code => c'.push code
  some ({ c'.setSeg .CS g.selector with pc := g.offset, flags := c.flags &&& ~~~ gateFlags })

end Core

/-! ## Words in memory -/

/-- The words from `a` on. -/
def Words (m : Memory) : Word → List Word → Prop
  | _, [] => True
  | a, w :: ws => Memory.load32 m a = w ∧ Words m (a + 4) ws

section

variable {m m' : Memory} {a b v w : Word} {ws vs : List Word} {i : Nat}

/-- A store below the words leaves them alone. -/
theorem words_store_below (h : Words m a ws) (hLow : 4 ≤ (a - b).toNat)
    (hHigh : (a - b).toNat + 4 * ws.length ≤ 2 ^ 32) : Words (Memory.store32 m b v) a ws := by
  induction ws generalizing a with
  | nil => trivial
  | cons w ws ih =>
    rw [List.length_cons] at hHigh
    obtain ⟨hFirst, hRest⟩ := h
    refine ⟨?_, ?_⟩
    · rw [Memory.load32_store32_apart ⟨by bv_omega, hLow⟩, hFirst]
    · cases ws with
      | nil => trivial
      | cons w' ws =>
        rw [List.length_cons] at hHigh ih
        exact ih hRest (by bv_omega) (by bv_omega)

/-- A push. -/
theorem words_push (h : Words m a ws) (hFit : 4 * (ws.length + 1) ≤ 2 ^ 32) :
    Words (Memory.store32 m (a - 4) v) (a - 4) (v :: ws) := by
  refine ⟨Memory.load32_store32 _ _ _, ?_⟩
  rw [BitVec.sub_add_cancel]
  exact words_store_below h (by bv_omega) (by bv_omega)

/-- A word by its number. -/
theorem words_getElem (h : Words m a ws) (hi : i < ws.length) :
    Memory.load32 m (a + BitVec.ofNat 32 (4 * i)) = ws[i] := by
  induction ws generalizing a i with
  | nil => exact absurd hi (Nat.not_lt_zero i)
  | cons w ws ih =>
    cases i with
    | zero =>
      rw [show a + BitVec.ofNat 32 (4 * 0) = a by simp]
      exact h.1
    | succ i =>
      rw [List.length_cons] at hi
      rw [show a + BitVec.ofNat 32 (4 * (i + 1)) = a + 4 + BitVec.ofNat 32 (4 * i) by bv_omega]
      exact ih h.2 (by omega)

/-- A word of the stack is replaced. -/
theorem words_set (h : Words m a ws) (hi : i < ws.length) (hFit : 4 * ws.length ≤ 2 ^ 32) :
    Words (Memory.store32 m (a + BitVec.ofNat 32 (4 * i)) v) a (ws.set i v) := by
  induction ws generalizing a i with
  | nil => trivial
  | cons w ws ih =>
    rw [List.length_cons] at hi hFit
    -- the top word is written, and those behind it are above the four bytes
    cases i with
    | zero =>
      rw [show a + BitVec.ofNat 32 (4 * 0) = a by simp]
      refine ⟨Memory.load32_store32 _ _ _, ?_⟩
      cases ws with
      | nil => trivial
      | cons w' ws =>
        rw [List.length_cons] at hFit
        exact words_store_below h.2 (by bv_omega) (by rw [List.length_cons]; bv_omega)
    | succ i =>
      refine ⟨?_, ?_⟩
      · rw [Memory.load32_store32_apart ⟨by bv_omega, by bv_omega⟩]
        exact h.1
      · rw [show a + BitVec.ofNat 32 (4 * (i + 1)) = a + 4 + BitVec.ofNat 32 (4 * i) by bv_omega]
        exact ih h.2 (by omega) (by omega)

end

/-! ## Stacks -/

/-- The registers are `g`, all but the stack pointer, and `s`. The stack has the words `ws`, top
first, and room for `room` more words down to `bot`; outside of the `n` words from there on memory
is `m₀`. -/
structure Frame (m₀ : Memory) (bot : Word) (n room : Nat) (ws : List Word) (g : Gpr → Word)
    (s : SegReg → BitVec 16) (c : Core) : Prop where
  gpr   : ∀ r, r ≠ .SP → c.gpr r = g r
  seg   : c.seg = s
  sp    : c.sp = bot + BitVec.ofNat 32 (4 * room)
  words : Words c.mem c.sp ws
  off   : Memory.SameOff bot (4 * n) m₀ c.mem
  count : room + ws.length = n
  fits  : 4 * n ≤ 2 ^ 32

namespace Frame

variable {m₀ : Memory} {bot v w : Word} {n room i : Nat} {ws : List Word} {g : Gpr → Word}
  {s : SegReg → BitVec 16} {c : Core} {r : Gpr} {S : SegReg}

/-- Another register may change. -/
theorem setGpr (h : Frame m₀ bot n room ws g s c) (hr : r ≠ .SP) :
    Frame m₀ bot n room ws (Function.update g r v) s (c.setGpr r v) := by
  have hSp : (c.setGpr r v).sp = c.sp := Core.sp_setGpr hr
  refine ⟨fun q hq => ?_, h.seg, hSp.trans h.sp, ?_, h.off, h.count, h.fits⟩
  · show Function.update c.gpr r v q = _
    by_cases hqr : q = r
    · rw [hqr, Function.update_self, Function.update_self]
    · rw [Function.update_of_ne hqr, Function.update_of_ne hqr, h.gpr q hq]
  · rw [hSp]
    exact h.words

/-- A segment register may change. -/
theorem setSeg {x : BitVec 16} (h : Frame m₀ bot n room ws g s c) :
    Frame m₀ bot n room ws g (Function.update s S x) (c.setSeg S x) := by
  refine ⟨h.gpr, ?_, h.sp, h.words, h.off, h.count, h.fits⟩
  unfold Core.setSeg
  rw [h.seg]

/-! ### Pushes -/

/-- A word is pushed, and takes a word of the room. -/
theorem push (h : Frame m₀ bot n (room + 1) ws g s c) (v : Word) :
    Frame m₀ bot n room (v :: ws) g s (c.push v) := by
  have hCount := h.count
  have hFits := h.fits
  have hSp : (c.push v).sp = c.sp - 4 := Core.sp_push
  have hAt : c.sp - 4 = bot + BitVec.ofNat 32 (4 * room) := by
    rw [h.sp]
    bv_omega
  refine ⟨fun q hq => ?_, h.seg, hSp.trans hAt, ?_, ?_, by rw [List.length_cons]; omega, hFits⟩
  · show Function.update c.gpr .SP (c.sp - 4) q = _
    rw [Function.update_of_ne hq, h.gpr q hq]
  · rw [hSp]
    exact words_push h.words (by omega)
  · refine h.off.trans ?_
    show Memory.SameOff bot (4 * n) c.mem (Memory.store32 c.mem (c.sp - 4) v)
    refine Memory.sameOff_store32.mono ?_
    rw [hAt]
    bv_omega

/-- A register is pushed. -/
theorem pushl (h : Frame m₀ bot n (room + 1) ws g s c) (hr : r ≠ .SP) :
    Frame m₀ bot n room (g r :: ws) g s (c.pushl r) := by
  unfold Core.pushl
  rw [h.gpr r hr]
  exact h.push (g r)

/-- The stack pointer is pushed as it was before. -/
theorem pushSp (h : Frame m₀ bot n (room + 1) ws g s c) :
    Frame m₀ bot n room ((bot + BitVec.ofNat 32 (4 * (room + 1))) :: ws) g s (c.pushl .SP) := by
  have hSp : c.gpr .SP = bot + BitVec.ofNat 32 (4 * (room + 1)) := h.sp
  unfold Core.pushl
  rw [hSp]
  exact h.push _

/-- A segment register is pushed with an upper half that is not told. -/
theorem pushSeg (h : Frame m₀ bot n (room + 1) ws g s c) (upper : Word → BitVec 16) (S : SegReg) :
    ∃ u : BitVec 16, Frame m₀ bot n room ((u ++ s S) :: ws) g s (c.pushSeg upper S) := by
  unfold Core.pushSeg
  rw [h.seg]
  exact ⟨_, h.push _⟩

/-- All registers are pushed, with the stack pointer as it was before. -/
theorem pushal (h : Frame m₀ bot n (room + 8) ws g s c) :
    Frame m₀ bot n room (g .DI :: g .SI :: g .BP :: (bot + BitVec.ofNat 32 (4 * (room + 8))) :: g .BX ::
      g .DX :: g .CX :: g .AX :: ws) g s c.pushal := by
  unfold Core.pushal
  rw [h.sp]
  have hFour := (((h.pushl (r := .AX) nofun).pushl (r := .CX) nofun).pushl (r := .DX) nofun).pushl
    (r := .BX) nofun
  exact (((hFour.push _).pushl (r := .BP) nofun).pushl (r := .SI) nofun).pushl (r := .DI) nofun

/-- A call pushes the address behind it. -/
theorem call (h : Frame m₀ bot n (room + 1) ws g s c) (target ret : Word) :
    Frame m₀ bot n room (ret :: ws) g s (c.call target ret) := by
  obtain ⟨hGpr, hSeg, hSp, hWords, hOff, hCount, hFits⟩ := h.push ret
  exact ⟨hGpr, hSeg, hSp, hWords, hOff, hCount, hFits⟩

/-! ### Words on the stack -/

/-- A word of the frame is in memory. -/
theorem getElem (h : Frame m₀ bot n room ws g s c) (hi : i < ws.length) :
    Memory.load32 c.mem (c.sp + BitVec.ofNat 32 (4 * i)) = ws[i] :=
  words_getElem h.words hi

/-- A word is loaded to a register and stays. -/
theorem peek (h : Frame m₀ bot n room ws g s c) (hr : r ≠ .SP) (hi : i < ws.length) :
    Frame m₀ bot n room ws (Function.update g r ws[i]) s (c.peek i r) := by
  unfold Core.peek
  rw [h.getElem hi]
  exact h.setGpr hr

/-- A byte outside of the area of the stack. -/
theorem movblzx (h : Frame m₀ bot n room ws g s c) (hr : r ≠ .SP) (hText : 4 * n ≤ (g r - bot).toNat) :
    Frame m₀ bot n room ws (Function.update g r ((m₀ (g r)).setWidth 32)) s (c.movblzx r) := by
  unfold Core.movblzx
  rw [h.gpr r hr, h.off (g r) hText]
  exact h.setGpr hr

/-- A register is exchanged with a word of the frame. -/
theorem exchange (h : Frame m₀ bot n room ws g s c) (hr : r ≠ .SP) (hi : i < ws.length) :
    Frame m₀ bot n room (ws.set i (g r)) (Function.update g r ws[i]) s (c.xchgl r i) := by
  have hCount := h.count
  have hFits := h.fits
  have hNew := h.setGpr (v := ws[i]) hr
  have hSp : (c.setGpr r ws[i]).sp = c.sp := Core.sp_setGpr hr
  unfold Core.xchgl
  simp only [h.getElem hi, h.gpr r hr]
  refine ⟨hNew.gpr, hNew.seg, hNew.sp, ?_, ?_, by rw [List.length_set]; exact hCount, hFits⟩
  · show Words (Memory.store32 c.mem _ _) (c.setGpr r ws[i]).sp _
    rw [hSp]
    exact words_set h.words hi (by omega)
  · refine h.off.trans ?_
    show Memory.SameOff bot (4 * n) c.mem (Memory.store32 c.mem (c.sp + BitVec.ofNat 32 (4 * i)) _)
    refine Memory.sameOff_store32.mono ?_
    rw [h.sp]
    bv_omega

/-! ### Pops -/

/-- The top of the stack. -/
theorem top (h : Frame m₀ bot n room (w :: ws) g s c) : c.top = w := h.words.1

/-- The top is dropped, and its place can be used again. -/
theorem drop (h : Frame m₀ bot n room (w :: ws) g s c) : Frame m₀ bot n (room + 1) ws g s (c.drop 1) := by
  have hCount := h.count
  rw [List.length_cons] at hCount
  have hSp : (c.drop 1).sp = c.sp + 4 := Core.sp_drop
  refine ⟨fun q hq => ?_, h.seg, ?_, ?_, h.off, by omega, h.fits⟩
  · show Function.update c.gpr .SP _ q = _
    rw [Function.update_of_ne hq, h.gpr q hq]
  · rw [hSp, h.sp]
    bv_omega
  · rw [hSp]
    exact h.words.2

/-- The top is popped to a register. -/
theorem popl (h : Frame m₀ bot n room (w :: ws) g s c) (hr : r ≠ .SP) :
    Frame m₀ bot n (room + 1) ws (Function.update g r w) s (c.popl r) := by
  unfold Core.popl
  rw [h.top]
  exact h.drop.setGpr hr

/-- The low half of the top is popped to a segment register. -/
theorem popSeg (h : Frame m₀ bot n room (w :: ws) g s c) :
    Frame m₀ bot n (room + 1) ws g (Function.update s S (w.setWidth 16)) (c.popSeg S) := by
  unfold Core.popSeg
  rw [h.top]
  exact h.drop.setSeg

/-- All registers are popped but the stack pointer. -/
theorem popal {di si bp sp bx dx cx ax : Word}
    (h : Frame m₀ bot n room (di :: si :: bp :: sp :: bx :: dx :: cx :: ax :: ws) g s c) :
    Frame m₀ bot n (room + 8) ws
      (Function.update (Function.update (Function.update (Function.update (Function.update
        (Function.update (Function.update g .DI di) .SI si) .BP bp) .BX bx) .DX dx) .CX cx) .AX ax)
      s c.popal :=
  (((((((h.popl (r := .DI) nofun).popl (r := .SI) nofun).popl (r := .BP) nofun).drop).popl
    (r := .BX) nofun).popl (r := .DX) nofun).popl (r := .CX) nofun).popl (r := .AX) nofun

/-- The stack pointer is known from the room that is left. -/
theorem eq_of_sp (h : Frame m₀ bot n room ws g s c) :
    c.gpr = Function.update g .SP (bot + BitVec.ofNat 32 (4 * room)) := by
  funext r
  by_cases hr : r = .SP
  · rw [hr, Function.update_self]
    exact h.sp
  · rw [Function.update_of_ne hr, h.gpr r hr]

/-- A return to the same level, or to an outer one. -/
theorem iretl {pc cs fl sp ss : Word} (h : Frame m₀ bot n room (pc :: cs :: fl :: sp :: ss :: ws) g s c)
    (hVm : fl.getLsbD 17 = false) :
    c.iretl = some (if (cs.setWidth 16).toNat % 4 = 0 then
      { gpr := Function.update g .SP (bot + BitVec.ofNat 32 (4 * (room + 3)))
        seg := Function.update s .CS (cs.setWidth 16), flags := fl, pc := pc, mem := c.mem }
      else
      { gpr := Function.update g .SP sp
        seg := Function.update (Function.update s .CS (cs.setWidth 16)) .SS (ss.setWidth 16)
        flags := fl, pc := pc, mem := c.mem }) := by
  -- three words are popped before the level is looked at
  have hPc : c.top = pc := h.top
  have hCs : (c.drop 1).top = cs := h.drop.top
  have hTwo : c.drop 2 = (c.drop 1).drop 1 := (Core.drop_drop 1 1 c).symm
  have hThree : c.drop 3 = ((c.drop 1).drop 1).drop 1 := by
    rw [Core.drop_drop, Core.drop_drop]
  have hFl : (c.drop 2).top = fl := by
    rw [hTwo]
    exact h.drop.drop.top
  have hBack : Frame m₀ bot n (room + 3) (sp :: ss :: ws) g s (c.drop 3) := by
    rw [hThree]
    exact h.drop.drop.drop
  unfold Core.iretl
  rw [hPc, hCs, hFl, if_neg (by rw [hVm]; exact Bool.false_ne_true)]
  split
  · refine congrArg some ?_
    unfold Core.setSeg
    rw [hBack.eq_of_sp, hBack.seg]
    rfl
  -- an outer level has its own stack on the frame
  · have hSp : (c.drop 3).top = sp := hBack.top
    have hSs : ((c.drop 3).drop 1).top = ss := hBack.drop.top
    refine congrArg some ?_
    show ({ gpr := Function.update (c.drop 3).gpr .SP (c.drop 3).top
            seg := Function.update (Function.update (c.drop 3).seg .CS (cs.setWidth 16)) .SS
              (((c.drop 3).drop 1).top.setWidth 16)
            flags := fl, pc := pc, mem := c.mem } : Core) = _
    rw [hSp, hSs, hBack.eq_of_sp, Function.update_idem, hBack.seg]

end Frame

/-! ## Interrupts -/

section

variable {upper : Word → BitVec 16} {idt : List IdtEntry} {tss : Tss} {v : Nat} {soft : Bool}
  {err : Option Word} {c c₁ : Core} {m : Memory} {a : Word}

/-- Any words in memory. -/
theorem words_self (m : Memory) (a : Word) (n : Nat) :
    Words m a ((List.range n).map fun i => Memory.load32 m (a + BitVec.ofNat 32 (4 * i))) := by
  revert a
  induction n with
  | zero => exact fun _ => trivial
  | succ n ih =>
    intro a
    rw [List.range_succ_eq_map, List.map_cons, List.map_map]
    refine ⟨by simp, ?_⟩
    have hTail : ((fun i => Memory.load32 m (a + BitVec.ofNat 32 (4 * i))) ∘ Nat.succ) =
        fun i => Memory.load32 m (a + 4 + BitVec.ofNat 32 (4 * i)) := by
      funext i
      show Memory.load32 m (a + BitVec.ofNat 32 (4 * (i + 1))) = _
      rw [show a + BitVec.ofNat 32 (4 * (i + 1)) = a + 4 + BitVec.ofNat 32 (4 * i) by bv_omega]
    rw [hTail]
    exact ih (a + 4)

/-- The stack that the handler of an interrupt runs on. -/
def Core.handlerTop (c : Core) (tss : Tss) : Word := if c.cpl = 0 then c.sp else tss.esp0

/-- What is pushed of the stack that is left. -/
def Core.leftStack (c : Core) (u : BitVec 16) : List Word :=
  if c.cpl = 0 then [] else [c.sp, u ++ c.seg .SS]

def Core.handlerSegs (c : Core) (tss : Tss) : SegReg → BitVec 16 :=
  if c.cpl = 0 then c.seg else Function.update c.seg .SS tss.ss0

/-- There is room for `room` words behind what is pushed of the old stack. -/
theorem switch_frame (upper : Word → BitVec 16) (tss : Tss) (c : Core) {room : Nat} (u₀ : BitVec 16)
    (hFit : 4 * (room + 2) ≤ 2 ^ 32) :
    ∃ u, Frame c.mem (c.handlerTop tss - BitVec.ofNat 32 (4 * (room + (c.leftStack u₀).length)))
      (room + (c.leftStack u₀).length) room (c.leftStack u) c.gpr (c.handlerSegs tss)
      (c.switch upper tss) := by
  unfold Core.switch Core.handlerTop Core.leftStack Core.handlerSegs
  -- at the inner level nothing is pushed and the stack stays
  by_cases hInner : c.cpl = 0
  · simp only [if_pos hInner, List.length_nil, Nat.add_zero]
    exact ⟨0, fun _ _ => rfl, rfl, (BitVec.sub_add_cancel _ _).symm, trivial, Memory.SameOff.refl _ _ _,
      rfl, by omega⟩
  · simp only [if_neg hInner, List.length_cons, List.length_nil, Nat.zero_add]
    have hSp : ({ c with gpr := Function.update c.gpr .SP tss.esp0 } : Core).sp = tss.esp0 := by
      unfold Core.sp
      exact Function.update_self Gpr.SP tss.esp0 c.gpr
    have hStart : Frame c.mem (tss.esp0 - BitVec.ofNat 32 (4 * (room + (1 + 1)))) (room + (1 + 1))
        (room + (1 + 1)) [] c.gpr c.seg
        ({ c with gpr := Function.update c.gpr .SP tss.esp0 } : Core) :=
      ⟨fun r hr => Function.update_of_ne hr _ _, rfl,
        hSp.trans (BitVec.sub_add_cancel _ _).symm, trivial,
        Memory.SameOff.refl _ _ _, rfl, by omega⟩
    exact ⟨_, ((hStart.setSeg (S := .SS) (x := tss.ss0)).push _).push c.sp⟩

/-- The stack, when the processor has taken an interrupt through a gate. -/
theorem interrupt_frame (h : c.interrupt upper idt tss v soft err = some c₁) {room : Nat} (u₀ : BitVec 16)
    (hFit : 4 * (room + err.toList.length + 5) ≤ 2 ^ 32) :
    ∃ (d : IdtEntry) (g : Gate) (u u' : BitVec 16), idt[v]? = some d ∧ d.gate = some g ∧ (soft = true → c.cpl ≤ g.dpl) ∧
      c₁.pc = g.offset ∧ c₁.flags = c.flags &&& ~~~ gateFlags ∧
      Frame c.mem (c.handlerTop tss - BitVec.ofNat 32 (4 * (room + err.toList.length + 3 + (c.leftStack u₀).length)))
        (room + err.toList.length + 3 + (c.leftStack u₀).length) room
        (err.toList ++ c.pc :: (u' ++ c.seg .CS) :: c.flags :: c.leftStack u) c.gpr
        (Function.update (c.handlerSegs tss) .CS g.selector) c₁ := by
  -- the descriptor, the gate and the check of the level
  unfold Core.interrupt at h
  obtain ⟨d, hd, h⟩ := Option.bind_eq_some_iff.mp h
  obtain ⟨g, hg, h⟩ := Option.bind_eq_some_iff.mp h
  obtain ⟨hSoft, h⟩ := Option.ite_none_left_eq_some.mp h
  obtain rfl := Option.some.inj h
  obtain ⟨u, hSwitch⟩ := switch_frame upper tss c u₀
    (show 4 * (room + err.toList.length + 3 + 2) ≤ 2 ^ 32 by omega)
  obtain ⟨u', hCs⟩ := (hSwitch.push c.flags).pushSeg upper .CS
  have hPc := hCs.push c.pc
  -- cs is pushed after ss was changed, and the switch leaves it
  have hKeep : c.handlerSegs tss .CS = c.seg .CS := by
    unfold Core.handlerSegs
    split
    · rfl
    · exact Function.update_of_ne (by decide) _ _
  rw [hKeep] at hPc
  -- the jump to the handler touches neither the stack nor the general registers
  have hAfter : ∀ {c' : Core} {ws : List Word} {bot : Word} {n : Nat},
      Frame c.mem bot n room ws c.gpr (c.handlerSegs tss) c' →
      Frame c.mem bot n room ws c.gpr (Function.update (c.handlerSegs tss) .CS g.selector)
        { c'.setSeg .CS g.selector with pc := g.offset, flags := c.flags &&& ~~~ gateFlags } := by
    intro c' ws bot n hFrame
    obtain ⟨hGpr, hSeg, hSp, hWords, hOff, hCount, hFits⟩ := hFrame.setSeg (S := .CS) (x := g.selector)
    exact ⟨hGpr, hSeg, hSp, hWords, hOff, hCount, hFits⟩
  refine ⟨d, g, u, u', hd, hg, fun hs => Nat.le_of_not_lt fun hLess => hSoft ⟨hs, hLess⟩, rfl, rfl, ?_⟩
  cases err with
  | none => exact hAfter hPc
  | some code => exact hAfter (hPc.push code)

end

end I386
