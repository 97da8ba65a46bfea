import Glendum.Arch.TrapFrame
import Glendum.Arch.Notes
import Glendum.Conf.Memory

/-!
# Glendum — the first run of a process

The scheduler saves where it is with `setlabel`, and goes on in another process with
`gotolabel`. A new process has not been anywhere: `kprocchild` and `forkchild` write the label
as if it had. For a child of `fork` the label leads to `forkret`, and the words that follow on
its stack are a copy of the parent's `Ureg`.

The process structure has its label at `sched`. A new stack and its label do not overlap with
each other, nor the label with the `Ureg` of the parent (`NewStack`).

* `gotolabel_setlabel` — a process goes on where it has called `setlabel`, which returns 1 now;
* `kprocchild_starts` — a kernel process starts at `linkproc`, on its own stack;
* `fork_twice` — a system call that forks returns twice, to the same registers apart from AX.
-/

namespace Glendum

open Machine I386

/-! ## Labels -/

/-- The label is the argument on the stack. -/
def setlabel (c : Core) : Core :=
  let c := c.peek 1 .AX
  -- store sp
  let c := { c with mem := Memory.store32 c.mem (c.gpr .AX) c.sp }
  -- store return pc
  let c := c.peek 0 .BX
  let c := { c with mem := Memory.store32 c.mem (c.gpr .AX + 4) (c.gpr .BX) }
  -- return 0
  let c := c.setGpr .AX 0
  c.ret

def gotolabel (c : Core) : Core :=
  let c := c.peek 1 .AX
  -- restore sp
  let c := c.setGpr .SP (Memory.load32 c.mem (c.gpr .AX))
  -- put return pc on the stack
  let c := c.setGpr .AX (Memory.load32 c.mem (c.gpr .AX + 4))
  let c := { c with mem := Memory.store32 c.mem c.sp (c.gpr .AX) }
  -- return 1
  let c := c.setGpr .AX 1
  c.ret

section

variable {c d : Core} {label : Word}

theorem gotolabel_eq (hArg : Memory.load32 d.mem (d.sp + 4) = label) : gotolabel d =
    { d with
      gpr := Function.update (Function.update d.gpr .SP (Memory.load32 d.mem label + 4)) .AX 1
      pc := Memory.load32 d.mem (label + 4)
      mem := Memory.store32 d.mem (Memory.load32 d.mem label) (Memory.load32 d.mem (label + 4)) } := by
  have hLabel : Memory.load32 d.mem (d.sp + BitVec.ofNat 32 (4 * 1)) = label := hArg
  refine Core.ext ?_ rfl rfl ?_ ?_
  · funext r
    cases r <;> simp [gotolabel, Core.ret, Core.drop, Core.setGpr, Core.peek, Core.sp, ← hLabel]
  · simp [gotolabel, Core.ret, Core.drop, Core.setGpr, Core.peek, Core.sp, Core.top, ← hLabel,
      Memory.load32_store32]
  · simp [gotolabel, Core.ret, Core.drop, Core.setGpr, Core.peek, Core.sp, ← hLabel]

/-- The label is apart from the return address of the call. -/
theorem setlabel_eq (hArg : Memory.load32 c.mem (c.sp + 4) = label) (hApart : 8 ≤ (c.sp - label).toNat)
    (hFit : (c.sp - label).toNat + 4 ≤ 2 ^ 32) : setlabel c =
    { c with
      gpr := Function.update (Function.update (Function.update c.gpr .AX 0) .BX c.top) .SP (c.sp + 4)
      pc := c.top
      mem := Memory.store32 (Memory.store32 c.mem label c.sp) (label + 4) c.top } := by
  have hLabel : Memory.load32 c.mem (c.sp + BitVec.ofNat 32 (4 * 1)) = label := hArg
  have hTop : Memory.load32 (Memory.store32 c.mem label c.sp) c.sp = c.top :=
    Memory.load32_store32_apart ⟨by bv_omega, by bv_omega⟩
  have hTop' : Memory.load32 (Memory.store32 (Memory.store32 c.mem label c.sp) (label + 4) c.top) c.sp = c.top :=
    (Memory.load32_store32_apart ⟨by bv_omega, by bv_omega⟩).trans hTop
  unfold Core.sp at hLabel hTop hTop'
  refine Core.ext ?_ rfl rfl ?_ ?_
  · funext r
    cases r <;> simp [setlabel, Core.ret, Core.drop, Core.setGpr, Core.peek, Core.sp, hLabel, hTop]
  · simp [setlabel, Core.ret, Core.setGpr, Core.peek, Core.top, Core.sp, hLabel] at hTop hTop' ⊢
    rw [hTop, hTop']
  · simp [setlabel, Core.ret, Core.drop, Core.setGpr, Core.peek, Core.sp, hLabel, hTop]

/-- Whatever has run in the meantime, as long as the label is as it was: the caller of `setlabel`
goes on behind its call, with a 1. -/
theorem gotolabel_setlabel (hArg : Memory.load32 c.mem (c.sp + 4) = label) (hApart : 8 ≤ (c.sp - label).toNat)
    (hFit : (c.sp - label).toNat + 4 ≤ 2 ^ 32) (hArg' : Memory.load32 d.mem (d.sp + 4) = label)
    (hSame : Memory.SameOn label 8 (setlabel c).mem d.mem) :
    (gotolabel d).pc = (setlabel c).pc ∧ (gotolabel d).sp = (setlabel c).sp ∧ (gotolabel d).gpr .AX = 1 ∧
      Memory.SameOff c.sp 4 d.mem (gotolabel d).mem := by
  have hSet := setlabel_eq hArg hApart hFit
  have hSp : Memory.load32 d.mem label = c.sp := by
    rw [hSame.load32 (by simp) (by decide), hSet]
    show Memory.load32 (Memory.store32 _ (label + 4) _) label = _
    rw [Memory.load32_store32_apart ⟨by bv_omega, by bv_omega⟩, Memory.load32_store32]
  have hPc : Memory.load32 d.mem (label + 4) = c.top := by
    rw [hSame.load32 (by bv_omega) (by decide), hSet]
    exact Memory.load32_store32 _ _ _
  rw [gotolabel_eq hArg', hSet, hSp, hPc]
  refine ⟨rfl, ?_, rfl, Memory.sameOff_store32⟩
  show Function.update (Function.update d.gpr .SP (c.sp + 4)) .AX 1 .SP =
    Function.update (Function.update (Function.update c.gpr .AX 0) .BX c.top) .SP (c.sp + 4) .SP
  rw [Function.update_of_ne (by decide), Function.update_self, Function.update_self]

end

/-! ## New processes -/

section

def kprocchild (linkproc : Word) (m : Memory) (kstack sched : Word) : Memory :=
  -- gotolabel needs a word on the stack in which to place the return PC
  let m := Memory.store32 m (sched + 4) linkproc
  Memory.store32 m sched (kstack + KSTACK - BitVec.ofNat 32 BY2WD)

/-- The stack of a child: room for the return PC, the argument of `trap`, and the `Ureg`. -/
def childSp (kstack : Word) : Word := kstack + KSTACK - BitVec.ofNat 32 (sizeofUreg + 2 * BY2WD)

def forkchild (forkret : Word) (m : Memory) (kstack sched ureg : Word) : Memory :=
  let m := Memory.store32 m sched (childSp kstack)
  let m := Memory.store32 m (sched + 4) forkret
  let cureg := childSp kstack + BitVec.ofNat 32 (2 * BY2WD)
  let m := plainLayout.put m cureg (plainLayout.image m ureg)
  -- return value of syscall in child
  Memory.store32 m (cureg + BitVec.ofNat 32 (plainLayout.off .ax)) 0

variable {linkproc forkret : Word} {m : Memory} {kstack sched ureg : Word} {d : Core}

/-- The label does not overlap with the new stack, nor with the parent's `Ureg`. -/
structure NewStack (kstack sched ureg : Word) : Prop where
  stack     : sizeofUreg + 8 ≤ (sched - childSp kstack).toNat
  stackEnd  : (sched - childSp kstack).toNat + 8 ≤ 2 ^ 32
  parent    : 8 ≤ (ureg - sched).toNat
  parentEnd : (ureg - sched).toNat + sizeofUreg ≤ 2 ^ 32

theorem kprocchild_starts (hArg : Memory.load32 d.mem (d.sp + 4) = sched)
    (hSame : Memory.SameOn sched 8 (kprocchild linkproc m kstack sched) d.mem) :
    (gotolabel d).pc = linkproc ∧ (gotolabel d).sp = kstack + KSTACK := by
  have hSp : Memory.load32 d.mem sched = kstack + KSTACK - 4 := by
    rw [hSame.load32 (by simp) (by decide)]
    exact Memory.load32_store32 _ _ _
  have hPc : Memory.load32 d.mem (sched + 4) = linkproc := by
    rw [hSame.load32 (by bv_omega) (by decide)]
    unfold kprocchild
    rw [Memory.load32_store32_apart ⟨by bv_omega, by bv_omega⟩, Memory.load32_store32]
  rw [gotolabel_eq hArg, hSp, hPc]
  refine ⟨rfl, ?_⟩
  show Function.update (Function.update d.gpr .SP (kstack + KSTACK - 4 + 4)) .AX 1 .SP = _
  rw [Function.update_of_ne (by decide), Function.update_self, BitVec.sub_add_cancel]

theorem image_store_ax (m : Memory) (p v : Word) :
    plainLayout.image (Memory.store32 m (p + BitVec.ofNat 32 (plainLayout.off .ax)) v) p =
      Function.update (plainLayout.image m p) .ax v := by
  funext f
  by_cases hAx : f = .ax
  · subst hAx
    rw [Function.update_self]
    exact Memory.load32_store32 _ _ _
  · rw [Function.update_of_ne hAx]
    exact Memory.load32_store32_apart (apart_fields p (Ne.symm hAx))

/-- What `forkchild` leaves: the label, and a `Ureg` like the parent's but for AX. -/
theorem forkchild_spec (forkret : Word) (hNew : NewStack kstack sched ureg) :
    Memory.load32 (forkchild forkret m kstack sched ureg) sched = childSp kstack ∧
    Memory.load32 (forkchild forkret m kstack sched ureg) (sched + 4) = forkret ∧
    plainLayout.image (forkchild forkret m kstack sched ureg) (childSp kstack + 8) =
      Function.update (plainLayout.image m ureg) .ax 0 := by
  obtain ⟨hStack, hStackEnd, hParent, hParentEnd⟩ := hNew
  unfold sizeofUreg at hStack hParentEnd
  have hCureg : childSp kstack + BitVec.ofNat 32 (2 * BY2WD) = childSp kstack + 8 := rfl
  have hAx := off_le plainLayout .ax
  unfold sizeofUreg at hAx
  -- behind the two stores to the label only the area of the new Ureg is written
  have hArea : ∀ m₁ : Memory, ∀ U : Ureg, Memory.SameOn sched 8 m₁
      (Memory.store32 (plainLayout.put m₁ (childSp kstack + 8) U)
        (childSp kstack + 8 + BitVec.ofNat 32 (plainLayout.off .ax)) 0) := by
    intro m₁ U
    have hPut : Memory.SameOff (childSp kstack + 8) 76 m₁ (plainLayout.put m₁ (childSp kstack + 8) U) := put_off
    refine (hPut.trans (Memory.sameOff_store32.mono ?_)).sameOn ?_ ?_
    · bv_omega
    · bv_omega
    · bv_omega
  unfold forkchild
  dsimp only
  rw [hCureg]
  refine ⟨?_, ?_, ?_⟩
  · rw [(hArea _ _).load32 (by simp) (by decide), Memory.load32_store32_apart ⟨by bv_omega, by bv_omega⟩,
      Memory.load32_store32]
  · rw [(hArea _ _).load32 (by bv_omega) (by decide), Memory.load32_store32]
  · rw [image_store_ax, image_put]
    refine congrArg (Function.update · _ _) (image_congr ?_)
    have hLabel : Memory.SameOff sched 8 m
        (Memory.store32 (Memory.store32 m sched (childSp kstack)) (sched + 4) forkret) :=
      (Memory.sameOff_store32.mono (by simp)).trans (Memory.sameOff_store32.mono (by bv_omega))
    exact hLabel.sameOn hParent hParentEnd

/-! ## Fork -/

variable {T : TrapText} {upper : Word → BitVec 16} {tss : Tss} {c c₁ c₂ : Core}

/-- `ureg->ax = ret` makes the user see another AX. -/
theorem Saves.withAx {v : Nat} {U : Ureg} (h : Saves c v U) (ax : Word) :
    Saves { c with gpr := Function.update c.gpr .AX ax } v (Function.update U .ax ax) := by
  refine ⟨fun r hr => ?_, fun S hS => ?_, h.trap, h.pc, h.flags, h.user⟩
  · cases r with
    | SP => exact absurd rfl hr
    | AX => rfl
    | CX => exact h.gpr .CX nofun
    | DX => exact h.gpr .DX nofun
    | BX => exact h.gpr .BX nofun
    | BP => exact h.gpr .BP nofun
    | SI => exact h.gpr .SI nofun
    | DI => exact h.gpr .DI nofun
  · cases S with
    | SS => exact absurd rfl hS
    | CS => exact h.seg .CS nofun
    | DS => exact h.seg .DS nofun
    | ES => exact h.seg .ES nofun
    | FS => exact h.seg .FS nofun
    | GS => exact h.seg .GS nofun

/-- A way back with a value in AX. -/
theorem trapret_withAx {v : Nat} {U : Ureg} {ax : Word} (h : Saves c v U) (hUser : c.cpl ≠ 0)
    (hVm : c.flags.getLsbD 17 = false)
    (hImage : ∀ f, taken c f → plainLayout.image d.mem (d.sp + 4) f = Function.update U .ax ax f) :
    trapret d = some { c with gpr := Function.update c.gpr .AX ax, mem := d.mem } := by
  have hNew := h.withAx ax
  have hFlags : plainLayout.image d.mem (d.sp + 4) .flags = c.flags := by
    rw [hImage .flags ⟨by decide, fun _ => by decide⟩]
    exact hNew.flags
  rw [trapret_eq d (by rw [hFlags]; exact hVm)]
  exact congrArg some (resume_eq hNew hImage fun hLevel => absurd hLevel hUser)

/-- A user's system call forks in a state of memory `m` in which its `Ureg` is as it was saved.
The parent returns with what is put in AX for it. The child starts whenever the scheduler goes to
its label, on any processor: it returns to the same place with 0 in AX, and has all other
registers, the segments and the flags of its parent. -/
theorem fork_twice (hInt : c.interrupt upper (trapinit0 T.vectortable) tss VectorSYSCALL true none = some c₁)
    (hText : EntryText T tss VectorSYSCALL c) (hUser : c.cpl ≠ 0) (hVm : c.flags.getLsbD 17 = false)
    (hEntry : vectortable T upper VectorSYSCALL c₁ = c₂)
    (hNew : NewStack kstack sched (c₂.sp + 8))
    (hSaved : ∀ f, taken c f → plainLayout.image m (c₂.sp + 8) f = plainLayout.image c₂.mem (c₂.sp + 8) f) :
    (∀ (d : Core) (ret : Word), d.sp = c₂.sp + 4 →
      (∀ f, taken c f → plainLayout.image d.mem (c₂.sp + 8) f =
        Function.update (plainLayout.image m (c₂.sp + 8)) .ax ret f) →
      trapret d = some { c with gpr := Function.update c.gpr .AX ret, mem := d.mem }) ∧
    ∀ d : Core, Memory.load32 d.mem (d.sp + 4) = sched →
      Memory.SameOn sched 8 (forkchild T.forkret m kstack sched (c₂.sp + 8)) d.mem →
      Memory.SameOn (childSp kstack + 8) sizeofUreg (forkchild T.forkret m kstack sched (c₂.sp + 8)) d.mem →
      (gotolabel d).pc = T.forkret ∧
        trapret (gotolabel d) = some
          { c with gpr := Function.update c.gpr .AX 0, mem := Memory.store32 d.mem (childSp kstack) T.forkret } := by
  obtain ⟨-, -, hCalled⟩ := trap_called (by decide) hInt (by decide) hText
  rw [hEntry] at hCalled
  -- the fields that are taken are those of the parent, but for AX
  have hAx : ∀ (ret : Word) f, taken c f → Function.update (plainLayout.image m (c₂.sp + 8)) .ax ret f =
      Function.update (plainLayout.image c₂.mem (c₂.sp + 8)) .ax ret f := by
    intro ret f hf
    by_cases hHere : f = .ax
    · subst hHere
      rw [Function.update_self, Function.update_self]
    · rw [Function.update_of_ne hHere, Function.update_of_ne hHere, hSaved f hf]
  refine ⟨fun d ret hSp hImage => ?_, fun d hArg hLabel hUreg => ?_⟩
  · have hAt : d.sp + 4 = c₂.sp + 8 := by
      rw [hSp]
      bv_omega
    refine trapret_withAx hCalled.saves hUser hVm fun f hf => ?_
    rw [hAt, hImage f hf]
    exact hAx ret f hf
  · obtain ⟨hSp, hPc, hChild⟩ := forkchild_spec T.forkret (m := m) hNew
    have hSp' : Memory.load32 d.mem sched = childSp kstack := by
      rw [hLabel.load32 (by simp) (by decide), hSp]
    have hPc' : Memory.load32 d.mem (sched + 4) = T.forkret := by
      rw [hLabel.load32 (by bv_omega) (by decide), hPc]
    have hGoto := gotolabel_eq hArg
    rw [hSp', hPc'] at hGoto
    have hAt : (gotolabel d).sp + 4 = childSp kstack + 8 := by
      rw [hGoto]
      show Function.update (Function.update d.gpr .SP (childSp kstack + 4)) .AX 1 .SP + 4 = _
      rw [Function.update_of_ne (by decide), Function.update_self]
      bv_omega
    have hMem : (gotolabel d).mem = Memory.store32 d.mem (childSp kstack) T.forkret := by
      rw [hGoto]
    refine ⟨by rw [hGoto], ?_⟩
    rw [← hMem]
    refine trapret_withAx hCalled.saves hUser hVm fun f hf => ?_
    rw [hAt, hMem, image_congr (Memory.sameOff_store32.sameOn (by bv_omega) (by unfold sizeofUreg; bv_omega)),
      image_congr hUreg, hChild]
    exact hAx 0 f hf

end

/-! ## A user that forks -/

/-- Memory has the byte of the entry of the system call. -/
def someCaller : Core :=
  { someUser with mem := fun a => if a = someText.entryRet VectorSYSCALL then 64 else 0 }

def someKstack : Word := 0x80200000
def someSched : Word := 0x80300000

/-- The scheduler, which calls `gotolabel` on a stack of its own. -/
def scheduler (m : Memory) : Core where
  gpr _ := 0x80400000
  seg _ := 8
  flags := 0x2
  pc := 0
  mem := Memory.store32 m 0x80400004 someSched

/-- The parent gets 7, and the child starts at once. -/
theorem fork_twice_user : ∃ c₁ c₂ : Core,
    someCaller.interrupt (fun _ => 0) (trapinit0 someText.vectortable) someTss VectorSYSCALL true none = some c₁ ∧
    vectortable someText (fun _ => 0) VectorSYSCALL c₁ = c₂ ∧
    (∀ d : Core, d.sp = c₂.sp + 4 →
      d.mem = Memory.store32 c₂.mem (c₂.sp + 8 + BitVec.ofNat 32 (plainLayout.off .ax)) 7 →
      trapret d = some { someCaller with gpr := Function.update someCaller.gpr .AX 7, mem := d.mem }) ∧
    ∃ m, trapret (gotolabel (scheduler
        (forkchild someText.forkret c₂.mem someKstack someSched (c₂.sp + 8)))) = some
      { someCaller with gpr := Function.update someCaller.gpr .AX 0, mem := m } := by
  have hInt : (someCaller.interrupt (fun _ => 0) (trapinit0 someText.vectortable) someTss VectorSYSCALL true
      none).isSome = true := by
    decide +kernel
  obtain ⟨c₁, hInt⟩ := Option.isSome_iff_exists.mp hInt
  have hText : EntryText someText someTss VectorSYSCALL someCaller := ⟨by decide, by decide⟩
  obtain ⟨-, -, hCalled⟩ := trap_called (by decide) hInt (by decide) hText
  have hNew : NewStack someKstack someSched (trapBottom someCaller someTss + 8) :=
    ⟨by decide, by decide, by decide, by decide⟩
  rw [← hCalled.sp] at hNew
  obtain ⟨hParent, hChild⟩ := fork_twice hInt hText (by decide) (by decide) rfl hNew fun _ _ => rfl
  refine ⟨c₁, _, hInt, rfl, fun d hSp hMem => hParent d 7 hSp fun f _ => ?_, _, (hChild _ ?_ ?_ ?_).2⟩
  · rw [hMem, image_store_ax]
  · exact Memory.load32_store32 _ _ _
  · exact Memory.sameOff_store32.sameOn (by decide) (by decide)
  · exact Memory.sameOff_store32.sameOn (by decide) (by decide)

end Glendum
