import Glendum.Arch.Trap
import Glendum.Lib.Trace

/-!
# Glendum — processor statistics

A processor counts its events in the record `Mach` that `m` points to. The rest of the
kernel finds the record of processor `id` through `machp[id]`: the file `sysstat` is read
from there, and a write to it clears the counters there.

`um_main` points `m` to a static record of its own instead of the one at `CPU0MACH`,
where the loader of a PC would have put it, but `mach0init` still enters `CPU0MACH` into
`machp`. The two never meet again.

Counters and clock ticks of code that is not part of the port change the record of `m`
only. The numbers of a line of `sysstat` are kept, its columns are left out.

* `Unlinked` — what the start leaves behind, and every step keeps;
* `sysstat_never` — in no state of any run is `sysstat` what was counted, or even read.
-/

namespace Glendum

open Machine Trace

def KZERO : Nat := 0x80000000
def KTZERO : Nat := KZERO + 0x100000
def CPU0MACH : Nat := KZERO + 0x16000

/-! ## The records -/

/-- The counters that a write to `sysstat` clears. -/
inductive Counter
  | cs | intr | syscall | pfault | tlbfault | tlbpurge
deriving DecidableEq

structure Perf where
  avg_inidle : Word := 0
  avg_inintr : Word := 0
  period     : Word := 0
deriving DecidableEq

structure Mach where
  machno    : Word := 0
  counters  : Counter → Word := fun _ => 0
  load      : Word := 0
  perf      : Perf := {}
  loopconst : Word := 0

/-- The memory holds a record at each address. `machp` is the array of the source, `none`
is nil; `machs` is `active.machs`. `counted` are the events of each processor since the
last write to `sysstat`. -/
structure Procs where
  mem     : Nat → Mach
  m       : Nat
  machp   : Nat → Option Nat
  machs   : Word
  counted : Nat → Counter → Word

/-- An assignment to fields of `*m`. -/
def Procs.set (k : Procs) (f : Mach → Mach) : Procs :=
  { k with mem := Function.update k.mem k.m (f (k.mem k.m)) }

/-! ## The start -/

/-- The image starts at `KTZERO`, and `bootmach` lies `off` bytes behind. The loader gives
zeroed memory. The pointer `m` is too small for the linker to put it into the part of the
image that is cleared. -/
def um_main (off : Nat) : Procs :=
  let bootmach := KTZERO + off
  let k : Procs :=
    { mem := fun _ => {}, m := 0, machp := fun _ => none, machs := 0, counted := fun _ _ => 0 }
  let k := { k with m := bootmach }
  let k := k.set fun mach => { mach with machno := 1 }
  -- clear BSS like `l.s` does
  { k with mem := Function.update k.mem bootmach {}, machp := fun _ => none, machs := 0 }

def machinit (k : Procs) : Procs :=
  k.set fun mach => { machno := mach.machno, perf := { period := 1 }, loopconst := 100000 }

def mach0init (k : Procs) : Procs :=
  let k := { k with machp := Function.update k.machp 0 (some CPU0MACH) }
  { machinit k with machs := 1 }

def boot (off : Nat) : Procs := mach0init (um_main off)

/-! ## Steps -/

/-- Processor 0 runs; it counts in `*m`. -/
def Procs.count (k : Procs) (c : Counter) (n : Word) : Procs :=
  { k.set fun mach => { mach with counters := Function.update mach.counters c (mach.counters c + n) } with
    counted := Function.update k.counted 0 (Function.update (k.counted 0) c (k.counted 0 c + n)) }

inductive MachOp
  | trap (s : Vectors) (t : TrapArgs)
  | syscall
  /-- an event that is counted elsewhere -/
  | event (c : Counter)
  /-- a clock tick gives `m->perf` and `m->load` new values -/
  | tick (perf : Perf) (load : Word)
  /-- a write to `sysstat` -/
  | sysstat

def TrapEvent.isIntr : TrapEvent → Bool
  | .intr _ => true
  | _ => false

/-- The processors set in `active.machs`. -/
def Procs.active (k : Procs) : List Nat := (List.range 32).filter k.machs.getLsbD

/-- A write to `sysstat`, for one processor; `none` is an access through a nil pointer. -/
def Procs.clear (k : Procs) (id : Nat) : Option Procs :=
  (k.machp id).map fun mp =>
    { k with mem := Function.update k.mem mp { k.mem mp with counters := fun _ => 0 } }

def Procs.step (k : Procs) : MachOp → Option Procs
  | .trap s t => some (k.count .intr (BitVec.ofNat 32 ((Glendum.trap s t).countP TrapEvent.isIntr)))
  | .syscall => some (k.count .syscall 1)
  | .event c => some (k.count c 1)
  | .tick perf load => some (k.set fun mach => { mach with perf := perf, load := load })
  | .sysstat => (k.active.foldlM Procs.clear k).map fun k => { k with counted := fun _ _ => 0 }

/-- A line of `sysstat`. -/
structure Sysstat where
  id       : Nat
  counters : Counter → Word
  load     : Word
  inidle   : Word
  inintr   : Word

/-- `none` is an access through a nil pointer, or a division by 0. -/
def Procs.line (k : Procs) (id : Nat) : Option Sysstat :=
  (k.machp id).bind fun a =>
    let mp := k.mem a
    if mp.perf.period = 0 then none
    else some {
      id := id
      counters := mp.counters
      load := mp.load
      inidle := mp.perf.avg_inidle * 100 / mp.perf.period
      inintr := mp.perf.avg_inintr * 100 / mp.perf.period }

def Procs.readsysstat (k : Procs) : Option (List Sysstat) := k.active.mapM k.line

/-! ## The law -/

/-- The counters of a processor are incremented in the record that `machp` has for it. -/
def Procs.Linked (k : Procs) : Prop := ∀ id ∈ k.active, k.machp id = some k.m

/-- A read shows what every processor has counted. -/
def Procs.Exact (k : Procs) : Prop :=
  ∃ ls, k.readsysstat = some ls ∧ ls.map (fun l => (l.id, l.counters)) =
    k.active.map fun id => (id, k.counted id)

/-- No division by 0 is met in a read. -/
def Procs.Divides (k : Procs) : Prop :=
  ∀ id ∈ k.active, ∀ mp, k.machp id = some mp → (k.mem mp).perf.period ≠ 0

theorem CPU0MACH_lt : CPU0MACH < KTZERO := by decide

/-- Processor 0 is active and counts in a record behind the start of the image, while
`machp` has a record below it whose period is 0. -/
structure Unlinked (k : Procs) : Prop where
  m      : KTZERO ≤ k.m
  machp  : k.machp 0 = some CPU0MACH
  active : k.active = [0]
  period : (k.mem CPU0MACH).perf.period = 0

section

variable {k k' : Procs} {o : MachOp}

theorem unlinked_boot (off : Nat) : Unlinked (boot off) := by
  have hNe : CPU0MACH ≠ KTZERO + off := Nat.ne_of_lt (Nat.lt_add_right off CPU0MACH_lt)
  have hActive : (List.range 32).filter (BitVec.getLsbD (1 : Word)) = [0] := by decide
  refine ⟨Nat.le_add_right _ _, rfl, hActive, ?_⟩
  simp only [boot, mach0init, machinit, um_main, Procs.set]
  rw [Function.update_of_ne hNe, Function.update_of_ne hNe, Function.update_of_ne hNe]

/-- Nothing that is done to `*m` is done to the record in `machp`. -/
theorem Unlinked.set (h : Unlinked k) (f : Mach → Mach) : Unlinked (k.set f) := by
  have hNe : CPU0MACH ≠ k.m := Nat.ne_of_lt (Nat.lt_of_lt_of_le CPU0MACH_lt h.m)
  refine ⟨h.m, h.machp, h.active, ?_⟩
  simp only [Procs.set]
  rw [Function.update_of_ne hNe]
  exact h.period

theorem Unlinked.clear (h : Unlinked k) : ∃ k', k.clear 0 = some k' ∧ Unlinked k' := by
  let mach := k.mem CPU0MACH
  refine ⟨{ k with mem := Function.update k.mem CPU0MACH { mach with counters := fun _ => 0 } }, ?_,
    h.m, h.machp, h.active, ?_⟩
  · rw [Procs.clear, h.machp]
    rfl
  · simp only [Function.update_self]
    exact h.period

theorem Unlinked.step (h : Unlinked k) (o : MachOp) : ∃ k', k.step o = some k' ∧ Unlinked k' := by
  -- `counted` is no part of what is kept
  have hCount : ∀ c n, Unlinked (k.count c n) := fun c n =>
    let hSet := h.set fun mach =>
      { mach with counters := Function.update mach.counters c (mach.counters c + n) }
    ⟨hSet.m, hSet.machp, hSet.active, hSet.period⟩
  cases o with
  | trap s t => exact ⟨_, rfl, hCount _ _⟩
  | syscall => exact ⟨_, rfl, hCount _ _⟩
  | event c => exact ⟨_, rfl, hCount _ _⟩
  | tick perf load => exact ⟨_, rfl, h.set _⟩
  | sysstat =>
    obtain ⟨k', hClear, hNext⟩ := h.clear
    refine ⟨{ k' with counted := fun _ _ => 0 }, ?_, hNext.m, hNext.machp, hNext.active, hNext.period⟩
    rw [Procs.step, h.active, List.foldlM_cons, hClear]
    rfl

/-- A read ends at the first division. -/
theorem Unlinked.unread (h : Unlinked k) : k.readsysstat = none := by
  have hLine : k.line 0 = none := by
    rw [Procs.line, h.machp, Option.bind_some]
    exact if_pos h.period
  rw [Procs.readsysstat, h.active, List.mapM_cons, hLine]
  rfl

/-- The law fails in each of its parts. -/
theorem Unlinked.unlawful (h : Unlinked k) : ¬ k.Linked ∧ ¬ k.Exact ∧ ¬ k.Divides := by
  have hActive : 0 ∈ k.active := by
    rw [h.active]
    exact List.mem_singleton_self 0
  refine ⟨fun hLinked => ?_, ?_, fun hDivides => hDivides 0 hActive _ h.machp h.period⟩
  · have hSame : CPU0MACH = k.m := Option.some.inj (h.machp.symm.trans (hLinked 0 hActive))
    exact Nat.not_lt.mpr h.m (hSame ▸ CPU0MACH_lt)
  · rintro ⟨ls, hRead, -⟩
    rw [h.unread] at hRead
    cases hRead

end

/-! ## Every run -/

/-- In every state of every run, whatever place `bootmach` has in the image. -/
theorem sysstat_never (off : Nat) (os : List MachOp) :
    ∃ k, run Procs.step (boot off) os = some k ∧ ¬ k.Linked ∧ ¬ k.Exact ∧ ¬ k.Divides := by
  obtain ⟨k, hRun, h⟩ := run_defined (fun _ o h => Unlinked.step h o) (unlinked_boot off) os
  exact ⟨k, hRun, h.unlawful⟩

/-- Behind one system call: it is counted, but not where a read looks, and the read divides
by 0. -/
theorem syscall_unreported :
    ∃ k, run Procs.step (boot 0) [.syscall] = some k ∧ k.counted 0 .syscall = 1 ∧
      k.machp 0 = some CPU0MACH ∧ (k.mem CPU0MACH).counters .syscall = 0 ∧
      k.readsysstat = none ∧ ¬ (k.Linked ∧ k.Exact ∧ k.Divides) := by
  have hNext : Unlinked ((boot 0).count .syscall 1) := by
    obtain ⟨k, hMove, h⟩ := (unlinked_boot 0).step .syscall
    exact Option.some.inj hMove ▸ h
  refine ⟨(boot 0).count .syscall 1, rfl, rfl, rfl, rfl, ?_, fun h => hNext.unlawful.1 h.1⟩
  exact hNext.unread

end Glendum
