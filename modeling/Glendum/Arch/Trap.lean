import Mathlib.Logic.Function.Basic
import Glendum.Conf.Isa

/-!
# Glendum — trap vectors

`trap.c` keeps a chain of handlers for each of the 256 vectors. `trapenable` sets the
handler of an exception: it takes the place of the first of the chain. `intrenable` asks
the architecture for the vector of an interrupt and puts its handler before the others;
`intrdisable` takes it out again. `trap` runs a chain, and answers an exception that has
none with a note to the process or with a panic.

This port knows one architecture, `archgeneric`, whose hooks are stubs.

Locks, prints that nothing depends on and the marks for the time accounting of a process
are left out, and `xalloc` never fails. A handler is only called here; what it does is not
part of the model.
-/

namespace Glendum

open Machine

/-! ## Vectors -/

def VectorNMI : Nat := 2
def VectorBPT : Nat := 3
def Vector2F : Nat := 8
def VectorPF : Nat := 14
def Vector15 : Nat := 15
def VectorPIC : Nat := 32
def MaxIrqPIC : Nat := 15
def MaxIrqLAPIC : Nat := 31
def VectorSYSCALL : Nat := 64

def IrqCLOCK : Int := 0
def IrqKBD : Fin (MaxIrqPIC + 1) := 1
def IrqTIMER : Int := 18

def BUSUNKNOWN : Int := -1
def KNAMELEN : Nat := 28

/-- The handlers of `trapinit`, and functions of drivers. -/
inductive Handler
  | debugbpt | fault386 | doublefault | unexpected
  | driver (n : Nat)
deriving DecidableEq

/-- An entry of a chain; `isr` and `eoi` are functions of an interrupt controller, `none`
is nil. -/
structure Vctl where
  name   : List Byte := []
  isintr : Bool := false
  irq    : Int := 0
  tbdf   : Int
  isr    : Option Nat := none
  eoi    : Option Nat := none
  f      : Option Handler
  a      : Nat
deriving DecidableEq

/-- `strncpy` into `v->name`, which then ends with a NUL. -/
def vctlName (name : List Byte) : List Byte := name.take (KNAMELEN - 1)

/-- The statics of `trap.c`; a chain has its first handler first. -/
structure Vectors where
  trapinited : Bool
  vctl       : Fin 256 → List Vctl

/-- The hooks of an architecture that deal with vectors. `intrenable` may also set fields
of the entry. -/
structure PCArch where
  intrenable : Vctl → Int × Vctl
  intrvecno  : Option (Int → Int)

def nopp (v : Vctl) : Int × Vctl := (0, v)

def unimplemented (_ : Int) : Int := 0

def archgeneric : PCArch where
  intrenable := nopp
  intrvecno := some unimplemented

/-- An index into `vctl`; `none` is outside. -/
def vector (vno : Int) : Option (Fin 256) :=
  if h : 0 ≤ vno ∧ vno < 256 then some ⟨vno.toNat, by omega⟩ else none

def Vectors.set (s : Vectors) (i : Fin 256) (chain : List Vctl) : Vectors :=
  { s with vctl := Function.update s.vctl i chain }

/-! ## Enabling -/

/-- The entry that `trapenable` makes. -/
def trapVctl (f : Option Handler) (a : Nat) (name : List Byte) : Vctl where
  tbdf := BUSUNKNOWN
  f := f
  a := a
  name := vctlName name

/-- `none` is a panic, for a vector that is no exception's. -/
def trapenable (s : Vectors) (vno : Int) (f : Option Handler) (a : Nat) (name : List Byte) :
    Option Vectors :=
  if vno < 0 ∨ VectorPIC ≤ vno then none
  else (vector vno).map fun i => s.set i (trapVctl f a name :: (s.vctl i).tail)

/-- The entry that `intrenable` makes. -/
def intrVctl (irq : Int) (f : Handler) (a : Nat) (tbdf : Int) (name : List Byte) : Vctl where
  isintr := true
  irq := irq
  tbdf := tbdf
  f := some f
  a := a
  name := vctlName name

/-- `none` is a panic, when the vector belongs to another interrupt controller. -/
def intrenable (arch : PCArch) (s : Vectors) (irq : Int) (f : Option Handler) (a : Nat) (tbdf : Int)
    (name : List Byte) : Option Vectors :=
  match f with
  -- a nil handler is refused with a print
  | none => some s
  | some f =>
    let (vno, v) := arch.intrenable (intrVctl irq f a tbdf name)
    if vno = -1 then some s
    else
      (vector vno).bind fun i =>
        match s.vctl i with
        | [] => some (s.set i [v])
        | w :: ws => if w.isr ≠ v.isr ∨ w.eoi ≠ v.eoi then none else some (s.set i (v :: w :: ws))

/-- The test of the loop in `intrdisable`. -/
def Vctl.is (v : Vctl) (irq : Int) (f : Option Handler) (a : Nat) (tbdf : Int) (name : List Byte) :
    Bool :=
  v.irq = irq && v.tbdf = tbdf && v.f = f && v.a = a && v.name = name

/-- `none` is the failed assertion that there is such a handler. -/
def intrdisable (arch : PCArch) (s : Vectors) (irq : Int) (f : Option Handler) (a : Nat) (tbdf : Int)
    (name : List Byte) : Option Vectors :=
  match arch.intrvecno with
  | none => some s
  | some intrvecno =>
    (vector (intrvecno irq)).bind fun i =>
      let here (v : Vctl) := v.is irq f a tbdf name
      if (s.vctl i).any here then some (s.set i ((s.vctl i).eraseP here)) else none

def trapinit (s : Vectors) : Option Vectors := do
  let s ← trapenable s VectorBPT (some .debugbpt) 0 (ascii "debugpt")
  let s ← trapenable s VectorPF (some .fault386) 0 (ascii "fault386")
  let s ← trapenable s Vector2F (some .doublefault) 0 (ascii "doublefault")
  let s ← trapenable s Vector15 (some .unexpected) 0 (ascii "unexpected")
  some { s with trapinited := true }

/-! ## Traps -/

def excname : List String :=
  ["divide error", "debug exception", "nonmaskable interrupt", "breakpoint", "overflow",
    "bounds check", "invalid opcode", "coprocessor not available", "double fault",
    "coprocessor segment overrun", "invalid TSS", "segment not present", "stack exception",
    "general protection violation", "page fault", "15 (reserved)", "coprocessor error",
    "alignment check", "machine check", "19 (reserved)", "20 (reserved)", "21 (reserved)",
    "22 (reserved)", "23 (reserved)", "24 (reserved)", "25 (reserved)", "26 (reserved)",
    "27 (reserved)", "28 (reserved)", "29 (reserved)", "30 (reserved)", "31 (reserved)"]

def exception (vno : Nat) : List Byte := ascii (excname.getD vno "")

/-- What `trap` reads besides the chains. `user` tells that the trap came from user mode,
`up` that a process runs; `delaysched` and `pending` are `up->delaysched` and
`up->procctl || up->nnote` when `trap` looks at them. -/
structure TrapArgs where
  vno        : Fin 256
  user       : Bool
  up         : Bool
  delaysched : Bool
  pending    : Bool

/-- What `trap` does, step by step. -/
inductive TrapEvent
  /-- `m->intr++`, and the value that `m->lastintr` is set to -/
  | intr (lastintr : Option Int)
  | isr (f : Nat)
  | call (f : Handler) (a : Nat)
  | eoi (f : Nat)
  | intrtime
  | preempted
  | note (msg : List Byte)
  | i8259isr
  /-- `m->spuriousintr++` -/
  | spuriousintr
  /-- the line about a nonmaskable interrupt -/
  | iprint
  | dumpregs
  | dumpstack
  | panic (msg : List Byte)
  | sched
  | notify
  | kexit
deriving DecidableEq

def callChain (chain : List Vctl) : List TrapEvent :=
  chain.filterMap fun v => v.f.map fun f => .call f v.a

/-- The end of `trap`. -/
def trapLeave (t : TrapArgs) (clockintr : Bool) : List TrapEvent :=
  (if t.up && t.delaysched && clockintr then [.sched] else []) ++
  if t.user then (if t.pending then [.notify] else []) ++ [.kexit] else []

/-- A trap with a chain, whose first handler is `ctl`. -/
def trapHandled (t : TrapArgs) (ctl : Vctl) (chain : List Vctl) : List TrapEvent :=
  let clockintr := ctl.isintr && (ctl.irq = IrqCLOCK || ctl.irq = IrqTIMER)
  (if ctl.isintr then
    [.intr (if VectorPIC ≤ t.vno ∧ t.vno ≠ VectorSYSCALL then some ctl.irq else none)] else []) ++
  ctl.isr.toList.map .isr ++ callChain chain ++ ctl.eoi.toList.map .eoi ++
  (if ctl.isintr then [.intrtime] ++ if t.up && !clockintr then [.preempted] else [] else []) ++
  trapLeave t clockintr

/-- An unknown interrupt: all interrupt routines are called, just in case. The source's
bounds are an `irq` and not a vector, and there is nothing between them. -/
def trapSpurious (s : Vectors) (t : TrapArgs) : List TrapEvent :=
  ((List.range' VectorPIC (MaxIrqLAPIC + 1 - VectorPIC)).flatMap fun i =>
    match (vector i).map s.vctl with
    | some (ctl :: chain) =>
      if ctl.isintr then callChain (ctl :: chain) ++ ctl.eoi.toList.map .eoi else []
    | _ => []) ++
  [.i8259isr, .spuriousintr] ++ if t.user then [.kexit] else []

/-- No chain, and no note to send. This is processor 0, so a nonmaskable interrupt does not
wait for ever. -/
def trapPanic (t : TrapArgs) : List TrapEvent :=
  (if t.vno = VectorNMI then [.iprint] else []) ++ [.dumpregs] ++
  (if t.user then [] else [.dumpstack]) ++
  [.panic (if t.vno < excname.length then exception t.vno
    else ascii "unknown trap/intr: " ++ decimal t.vno)]

def trap (s : Vectors) (t : TrapArgs) : List TrapEvent :=
  if s.trapinited then
    match s.vctl t.vno with
    | ctl :: chain => trapHandled t ctl (ctl :: chain)
    | [] =>
      -- an exception of a process is sent to it as a note
      if t.vno < excname.length ∧ t.user then
        [.note (ascii "sys: trap: " ++ exception t.vno)] ++ trapLeave t false
      else if VectorPIC ≤ t.vno ∧ t.vno ≠ VectorSYSCALL then trapSpurious s t
      else trapPanic t
  else
    -- `fault386` can give a better error message
    (if t.vno = VectorPF then [.call .fault386 0] else []) ++
    [.panic (ascii "trap " ++ decimal t.vno ++ ascii ": not ready")]

/-! ## What a trap runs -/

section

variable {s : Vectors} {t : TrapArgs} {f : Handler} {a : Nat}

theorem call_mem_callChain {chain : List Vctl} :
    TrapEvent.call f a ∈ callChain chain ↔ ∃ v ∈ chain, v.f = some f ∧ v.a = a := by
  simp only [callChain, List.mem_filterMap, Option.map_eq_some_iff]
  constructor
  · rintro ⟨v, hv, g, hg, hCall⟩
    cases hCall
    exact ⟨v, hv, hg, rfl⟩
  · rintro ⟨v, hv, hf, ha⟩
    exact ⟨v, hv, f, hf, by rw [ha]⟩

theorem call_not_mem_leave (clockintr : Bool) : TrapEvent.call f a ∉ trapLeave t clockintr := by
  simp [trapLeave]

/-- The bounds of the loop over all interrupt routines leave no vector. -/
theorem trapSpurious_eq (s : Vectors) (t : TrapArgs) :
    trapSpurious s t = [.i8259isr, .spuriousintr] ++ if t.user then [.kexit] else [] := rfl

/-- Once the table is set up, `trap` runs the functions of the chain and no others. -/
theorem call_mem_trap (hInit : s.trapinited = true) :
    TrapEvent.call f a ∈ trap s t ↔ ∃ v ∈ s.vctl t.vno, v.f = some f ∧ v.a = a := by
  rw [trap, if_pos hInit, ← call_mem_callChain]
  cases s.vctl t.vno with
  | cons ctl chain =>
    have hLeave := call_not_mem_leave (t := t) (f := f) (a := a)
    simp [trapHandled, hLeave]
  | nil =>
    have hNone : TrapEvent.call f a ∉ callChain [] := by simp [callChain]
    -- each of the three answers to an empty chain calls nothing
    refine iff_of_false ?_ hNone
    simp only
    split
    · simp [call_not_mem_leave]
    · split
      · simp [trapSpurious_eq]
      · simp [trapPanic]

/-- An exception without a chain is answered. -/
theorem trap_unhandled (hInit : s.trapinited = true) (hNil : s.vctl t.vno = [])
    (hVno : t.vno < VectorPIC) :
    if t.user then .note (ascii "sys: trap: " ++ exception t.vno) ∈ trap s t
    else .panic (exception t.vno) ∈ trap s t := by
  have hName : t.vno < excname.length := hVno
  rw [trap, if_pos hInit, hNil]
  simp only
  by_cases hUser : t.user = true
  · rw [if_pos hUser, if_pos ⟨hName, hUser⟩]
    exact List.mem_append_left _ (List.mem_singleton_self _)
  · rw [if_neg hUser, if_neg fun h => hUser h.2, if_neg fun h => absurd hVno (not_lt.mpr h.1), trapPanic,
      if_pos hName]
    exact List.mem_append_right _ (List.mem_singleton_self _)

/-- A trap with a chain sends no note and does not panic. -/
theorem trap_handled (hInit : s.trapinited = true) (hChain : s.vctl t.vno ≠ []) (msg : List Byte) :
    .note msg ∉ trap s t ∧ .panic msg ∉ trap s t := by
  rw [trap, if_pos hInit]
  cases hNe : s.vctl t.vno with
  | nil => exact absurd hNe hChain
  | cons ctl chain => simp [trapHandled, trapLeave, callChain]

end

end Glendum
