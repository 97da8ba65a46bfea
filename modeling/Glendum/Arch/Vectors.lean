import Glendum.Arch.Trap
import Glendum.Lib.Trace

/-!
# Glendum — handlers on their vectors

An interrupt's handlers belong on the vector `VectorPIC+irq`, as the interrupt controllers
of a PC have it, and an exception's on its own. But `nopp`, the stub that this port has in
place of the controller, answers 0 where -1 would refuse the interrupt: every handler of a
device lands on the vector of the divide error.

Runs start when `main` has called `archinit` and then `trapinit`. A run notes which
handlers are enabled and which were registered for an exception.

* `Separate` — what every state of a run should satisfy;
* `VectorsInv.step` — without a device the chains are the last registrations;
* `vectors_separate_iff` — the runs that satisfy it throughout: the ones in which no
  interrupt is enabled and no exception is given a nil handler.
-/

namespace Glendum

open Machine Trace

/-! ## Runs -/

/-- `enabled` are the handlers enabled and not disabled yet, `registered` those that
`trapenable` was given for a vector, the last one first. -/
structure Wired extends Vectors where
  enabled    : List Vctl
  registered : Fin 256 → List Vctl

/-- The calls; `irq` is at most `MaxIrqPIC`. -/
inductive VectorOp
  | trapenable (vno : Int) (f : Option Handler) (a : Nat) (name : List Byte)
  | intrenable (irq : Fin (MaxIrqPIC + 1)) (f : Option Handler) (a : Nat) (tbdf : Int)
      (name : List Byte)
  | intrdisable (irq : Fin (MaxIrqPIC + 1)) (f : Handler) (a : Nat) (tbdf : Int) (name : List Byte)

/-- `none` is a panic, or an `intrdisable` without its `intrenable`. -/
def Wired.step (arch : PCArch) (w : Wired) : VectorOp → Option Wired
  | .trapenable vno f a name => do
    let s ← trapenable w.toVectors vno f a name
    let i ← vector vno
    some { w with
      toVectors := s
      registered := Function.update w.registered i (trapVctl f a name :: w.registered i) }
  | .intrenable irq f a tbdf name => do
    let s ← intrenable arch w.toVectors irq.val f a tbdf name
    some { w with
      toVectors := s
      enabled := (f.map fun f => intrVctl irq.val f a tbdf name).toList ++ w.enabled }
  | .intrdisable irq f a tbdf name =>
    if intrVctl irq.val f a tbdf name ∈ w.enabled then do
      let s ← intrdisable arch w.toVectors irq.val (some f) a tbdf name
      some { w with toVectors := s, enabled := w.enabled.erase (intrVctl irq.val f a tbdf name) }
    else none

/-- What `trapinit` registers. -/
def trapinitHandler (vno : Fin 256) : List Vctl :=
  if vno = Vector15 then [trapVctl (some .unexpected) 0 (ascii "unexpected")]
  else if vno = Vector2F then [trapVctl (some .doublefault) 0 (ascii "doublefault")]
  else if vno = VectorPF then [trapVctl (some .fault386) 0 (ascii "fault386")]
  else if vno = VectorBPT then [trapVctl (some .debugbpt) 0 (ascii "debugpt")]
  else []

/-- Behind `trapinit`. -/
def Wired.start : Wired where
  trapinited := true
  vctl := trapinitHandler
  enabled := []
  registered := trapinitHandler

theorem trapinit_start :
    trapinit { trapinited := false, vctl := fun _ => [] } = some Wired.start.toVectors := by
  -- each of the four vectors has no handler before
  have hSet : ∀ (s : Vectors) (vno : Nat) (i : Fin 256) f name, vno < VectorPIC → vno = i.val →
      s.vctl i = [] → trapenable s vno f 0 name = some (s.set i [trapVctl f 0 name]) := by
    rintro s _ i f name hLt rfl hNil
    have hVector : vector (i.val : Int) = some i := by
      rw [vector, dif_pos (by omega)]
      rfl
    rw [trapenable, if_neg (by omega), hVector, Option.map_some, hNil]
    rfl
  simp only [trapinit, Option.bind_eq_bind]
  rw [hSet _ VectorBPT 3 _ _ (by decide) rfl rfl, Option.bind_some,
    hSet _ VectorPF 14 _ _ (by decide) rfl rfl, Option.bind_some,
    hSet _ Vector2F 8 _ _ (by decide) rfl rfl, Option.bind_some,
    hSet _ Vector15 15 _ _ (by decide) rfl rfl, Option.bind_some]
  refine congrArg some ((Vectors.mk.injEq ..).mpr ⟨rfl, funext fun vno => ?_⟩)
  simp only [Vectors.set, Function.update_apply, trapinitHandler, Fin.ext_iff]
  rfl

/-! ## The property -/

def picVector (irq : Fin (MaxIrqPIC + 1)) : Fin 256 :=
  ⟨VectorPIC + irq.val, by have := irq.isLt; simp only [VectorPIC, MaxIrqPIC] at *; omega⟩

/-- No handler was registered, or a nil one came last. -/
def Unhandled (registered : List Vctl) : Prop := ∀ v ∈ registered.head?, v.f = none

/-- Interrupts and exceptions keep to their own chains, and a trap for an exception runs
what was registered for it; without that it is answered. -/
structure Separate (w : Wired) : Prop where
  interrupts : ∀ irq, (w.vctl (picVector irq)).Perm (w.enabled.filter fun v => v.irq = irq.val)
  exceptions : ∀ vno, vno.val < VectorPIC → ∀ v ∈ w.vctl vno, v ∈ w.registered vno
  runs       : ∀ t : TrapArgs, t.vno < VectorPIC → ∀ f a, .call f a ∈ trap w.toVectors t →
    ∃ v ∈ w.registered t.vno, v.f = some f ∧ v.a = a
  answered   : ∀ t : TrapArgs, t.vno < VectorPIC → Unhandled (w.registered t.vno) →
    if t.user then .note (ascii "sys: trap: " ++ exception t.vno) ∈ trap w.toVectors t
    else .panic (exception t.vno) ∈ trap w.toVectors t

/-- Nothing is enabled for an interrupt, and no exception is given a nil handler. -/
def VectorOp.Harmless : VectorOp → Prop
  | .trapenable _ f _ _ => f ≠ none
  | .intrenable _ f _ _ _ => f = none
  | .intrdisable .. => True

/-- The chain of an exception is the last handler registered for it, and there are no others. -/
structure VectorsInv (w : Wired) : Prop where
  init    : w.trapinited = true
  enabled : w.enabled = []
  chain   : ∀ vno, w.vctl vno = (w.registered vno).head?.toList
  handler : ∀ vno, ∀ v ∈ (w.registered vno).head?, v.f ≠ none
  below   : ∀ vno, VectorPIC ≤ vno.val → w.registered vno = []

section

variable {w w' : Wired} {o : VectorOp}

theorem vectors_start : VectorsInv .start where
  init := rfl
  enabled := rfl
  chain vno := by
    simp only [Wired.start, trapinitHandler]
    split_ifs <;> rfl
  handler vno v hv := by
    simp only [Wired.start, trapinitHandler] at hv
    split_ifs at hv <;> cases hv <;> simp [trapVctl]
  below vno hVno := by
    have hNot : ∀ n < VectorPIC, vno.val ≠ n := fun n hn hEq => by omega
    simp only [Wired.start, trapinitHandler]
    rw [if_neg (hNot _ (by decide)), if_neg (hNot _ (by decide)), if_neg (hNot _ (by decide)),
      if_neg (hNot _ (by decide))]

theorem VectorsInv.separate (h : VectorsInv w) : Separate w where
  interrupts irq := by
    rw [h.chain, h.below _ (Nat.le_add_right _ _), h.enabled]
    exact List.Perm.refl []
  exceptions vno _ v hv := by
    rw [h.chain] at hv
    exact List.mem_of_mem_head? (Option.mem_toList.mp hv)
  runs t _ f a hCall := by
    obtain ⟨v, hv, hf⟩ := (call_mem_trap h.init).mp hCall
    rw [h.chain] at hv
    exact ⟨v, List.mem_of_mem_head? (Option.mem_toList.mp hv), hf⟩
  answered t hVno hNone := by
    refine trap_unhandled h.init ?_ hVno
    -- the last handler registered is not nil, so there is none
    cases hHead : (w.registered t.vno).head? with
    | none => rw [h.chain, hHead, Option.toList_none]
    | some v => exact absurd (hNone v hHead) (h.handler t.vno v hHead)

/-- One `trapenable`: the new handler takes the place of the one that was there. -/
theorem VectorsInv.trapenable_step (h : VectorsInv w) {vno : Int} {f : Option Handler} {a : Nat}
    {name : List Byte} (hStep : w.step archgeneric (.trapenable vno f a name) = some w') :
    ∃ i : Fin 256, i.val < VectorPIC ∧ w'.trapinited = true ∧ w'.enabled = [] ∧
      w'.vctl = Function.update w.vctl i [trapVctl f a name] ∧
      w'.registered = Function.update w.registered i (trapVctl f a name :: w.registered i) := by
  obtain ⟨s, hTrap, i, hi, hEq⟩ : ∃ s, trapenable w.toVectors vno f a name = some s ∧
      ∃ i, vector vno = some i ∧ { w with
        toVectors := s
        registered := Function.update w.registered i (trapVctl f a name :: w.registered i) } = w' := by
    obtain ⟨s, hTrap, hRest⟩ := Option.bind_eq_some_iff.mp hStep
    obtain ⟨i, hi, hEq⟩ := Option.bind_eq_some_iff.mp hRest
    exact ⟨s, hTrap, i, hi, Option.some.inj hEq⟩
  unfold trapenable at hTrap
  split at hTrap
  · cases hTrap
  · next hRange =>
    rw [hi, Option.map_some] at hTrap
    have hVno : i.val = vno.toNat := by
      unfold vector at hi
      split at hi
      · exact (congrArg Fin.val (Option.some.inj hi)).symm
      · cases hi
    -- at most one handler was there
    have hTail : (w.vctl i).tail = [] := by
      rw [h.chain]
      cases (w.registered i).head? with
      | none => rfl
      | some v => rfl
    obtain rfl := Option.some.inj hTrap
    obtain rfl := hEq
    refine ⟨i, by omega, h.init, h.enabled, ?_, rfl⟩
    rw [← hTail]
    rfl

/-- An `intrenable` with a handler puts it on the vector of the divide error. -/
theorem intrenable_generic {s s' : Vectors} {irq : Int} {f : Handler} {a : Nat} {tbdf : Int}
    {name : List Byte} (h : intrenable archgeneric s irq (some f) a tbdf name = some s') :
    s'.vctl = Function.update s.vctl 0 (intrVctl irq f a tbdf name :: s.vctl 0) := by
  have hVector : vector 0 = some 0 := rfl
  simp only [intrenable, archgeneric, nopp] at h
  rw [if_neg (by decide), hVector, Option.bind_some] at h
  split at h
  · next hNil =>
    obtain rfl := Option.some.inj h
    rw [hNil]
    rfl
  · next v vs hCons =>
    split at h
    · cases h
    · obtain rfl := Option.some.inj h
      rw [hCons]
      rfl

theorem VectorsInv.step (h : VectorsInv w) (hOk : o.Harmless) (hStep : w.step archgeneric o = some w') :
    VectorsInv w' := by
  cases o with
  | trapenable vno f a name =>
    obtain ⟨i, hi, hInit, hEnabled, hVctl, hReg⟩ := h.trapenable_step hStep
    refine ⟨hInit, hEnabled, fun j => ?_, fun j v hv => ?_, fun j hj => ?_⟩
    · rw [hVctl, hReg]
      by_cases hj : j = i
      · subst hj
        rw [Function.update_self, Function.update_self]
        rfl
      · rw [Function.update_of_ne hj, Function.update_of_ne hj, h.chain]
    · rw [hReg] at hv
      by_cases hj : j = i
      · subst hj
        rw [Function.update_self] at hv
        obtain rfl : trapVctl f a name = v := Option.some.inj hv
        exact hOk
      · rw [Function.update_of_ne hj] at hv
        exact h.handler j v hv
    · have hNe : j ≠ i := fun hEq => by
        subst hEq
        omega
      rw [hReg, Function.update_of_ne hNe]
      exact h.below j hj
  | intrenable irq f a tbdf name =>
    obtain rfl : f = none := hOk
    obtain rfl : w = w' := Option.some.inj hStep
    exact h
  | intrdisable irq f a tbdf name =>
    -- there is no handler to disable
    rw [Wired.step, h.enabled, if_neg (List.not_mem_nil)] at hStep
    cases hStep

/-- A call that is not harmless breaks the property at once. -/
theorem VectorsInv.broken (h : VectorsInv w) (hBad : ¬ o.Harmless)
    (hStep : w.step archgeneric o = some w') : ¬ Separate w' := by
  intro hSep
  cases o with
  | trapenable vno f a name =>
    obtain rfl : f = none := not_not.mp hBad
    obtain ⟨i, hi, hInit, -, hVctl, hReg⟩ := h.trapenable_step hStep
    -- the nil handler is a chain, so the trap is not answered
    let t : TrapArgs := ⟨i, true, true, false, false⟩
    have hUnhandled : Unhandled (w'.registered t.vno) := by
      rw [hReg, Function.update_self]
      rintro v hv
      obtain rfl : trapVctl none a name = v := Option.some.inj hv
      rfl
    have hChain : w'.vctl t.vno ≠ [] := by
      rw [hVctl, Function.update_self]
      exact List.cons_ne_nil _ _
    have hNote := hSep.answered t hi hUnhandled
    rw [if_pos (show t.user = true from rfl)] at hNote
    exact (trap_handled hInit hChain _).1 hNote
  | intrenable irq f a tbdf name =>
    obtain ⟨f, rfl⟩ := Option.ne_none_iff_exists'.mp hBad
    obtain ⟨s, hIntr, hEq⟩ := Option.bind_eq_some_iff.mp hStep
    obtain rfl := Option.some.inj hEq
    -- the chain of the interrupt is still empty
    have hPerm := hSep.interrupts irq
    have hNe : picVector irq ≠ 0 := by
      intro hEq
      have hVal := congrArg Fin.val hEq
      simp [picVector, VectorPIC] at hVal
    have hChain : s.vctl (picVector irq) = [] := by
      rw [intrenable_generic hIntr, Function.update_of_ne hNe, h.chain, h.below _ (Nat.le_add_right _ _)]
      rfl
    simp only [hChain, h.enabled] at hPerm
    simpa [intrVctl] using hPerm.symm.eq_nil
  | intrdisable irq f a tbdf name => exact hBad trivial

end

theorem vectors_separate_iff {os : List VectorOp} {w : Wired}
    (h : run (Wired.step archgeneric) .start os = some w) :
    Throughout (Wired.step archgeneric) Separate .start os ↔ ∀ o ∈ os, o.Harmless := by
  rw [← always_iff_forall h]
  exact throughout_iff_always (fun _ _ _ hs hOk hMove => hs.step hOk hMove)
    (fun _ hs => hs.separate) (fun _ _ _ hs hBad hMove => hs.broken hBad hMove) vectors_start h

theorem vectors_separate_coprocessor :
    Throughout (Wired.step archgeneric) Separate .start
      [.trapenable 7 (some (.driver 0)) 0 (ascii "mathemu"),
        .intrenable IrqKBD none 0 BUSUNKNOWN (ascii "kbd")] := by
  obtain ⟨w, hRun⟩ : ∃ w, run (Wired.step archgeneric) .start
      [.trapenable 7 (some (.driver 0)) 0 (ascii "mathemu"),
        .intrenable IrqKBD none 0 BUSUNKNOWN (ascii "kbd")] = some w := ⟨_, rfl⟩
  refine (vectors_separate_iff hRun).mpr fun o ho => ?_
  rcases List.mem_pair.mp ho with rfl | rfl
  · exact Option.some_ne_none _
  · rfl

/-- With the keyboard enabled a divide error of a process runs the driver of the keyboard,
and the process gets no note. -/
theorem device_on_divide_error :
    ∃ w, run (Wired.step archgeneric) .start
        [.intrenable IrqKBD (some (.driver 0)) 0 BUSUNKNOWN (ascii "kbd")] = some w ∧
      trap w.toVectors ⟨0, true, true, false, false⟩ =
        [.intr none, .call (.driver 0) 0, .intrtime, .preempted, .kexit] ∧ ¬ Separate w := by
  refine ⟨_, rfl, rfl, ?_⟩
  exact vectors_start.broken (o := .intrenable IrqKBD (some (.driver 0)) 0 BUSUNKNOWN (ascii "kbd"))
    (fun h => nomatch h) rfl

end Glendum
