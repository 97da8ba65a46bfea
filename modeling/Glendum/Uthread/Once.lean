import Glendum.Lib.Trace
import Glendum.Uthread.Frame
import Glendum.Uthread.Loop

/-!
# Glendum — one remap for each flush

`flushmmu` sets `newtlb` in the process, `umem_remap` tests it and moves the thread
to the remapping state, `handle_remap` moves it back. In the port nothing clears
`newtlb`: the `mmuswitch` of the original kernel that did is replaced by a stub. The
flag so says that a flush was asked for once, not that one is due.

The steps of the three functions on one thread are taken in any order, and between
them the thread runs: on the code of `do_maps` while it is remapping, on user code
and a user stack otherwise.

* `remapStep_inv` — what a step keeps while every `umem_remap` is due;
* `remap_once_iff` — a remap is done once for each flush, and saves a user context,
  in the runs whose calls of `umem_remap` are all due.
-/

namespace Glendum

open Machine Trace

/-! ## The steps -/

/-- The stub of `mmuswitch` does nothing. -/
def flushmmu (k : Kernel) : Kernel :=
  { k with procs := Function.update k.procs k.up { k.procs k.up with newtlb := true } }

instance (img : KernelImage) (a : Word) : Decidable (img.OnStack a) :=
  inferInstanceAs (Decidable (img.upstk.toNat ≤ a.toNat ∧
    a.toNat + 4 ≤ img.upstk.toNat + UPSTKSZ))

/-- The addresses of `do_maps` and of what it calls. -/
structure RemapCode (img : KernelImage) where
  text : Word → Bool
  doMaps_text : text img.doMaps = true

namespace RemapCode

variable {img : KernelImage} (c : RemapCode img)

/-- A context of user code, not of `do_maps` on `upstk`. -/
def User (eip esp : Word) : Prop := c.text eip = false ∧ ¬ img.OnStack esp

instance (eip esp : Word) : Decidable (c.User eip esp) :=
  inferInstanceAs (Decidable (c.text eip = false ∧ ¬ img.OnStack esp))

/-- Where a thread in this state can stand. -/
def Stands (state : UState) (r : Regs) : Prop :=
  if state = .remapping then c.text r.eip = true else c.User r.eip r.esp

instance (state : UState) (r : Regs) : Decidable (c.Stands state r) :=
  inferInstanceAs (Decidable (if state = .remapping then c.text r.eip = true
    else c.User r.eip r.esp))

end RemapCode

/-- The kernel, whether `flushmmu` was called since the last frame, and whether a
frame has been built. -/
structure RemapRun where
  k       : Kernel
  flushed : Bool
  built   : Bool := false

inductive RemapOp
  | flushmmu
  | umemRemap
  | handleRemap
  /-- the thread runs, and stops as `t` -/
  | runs (t : HostThread)

section

variable {img : KernelImage} (c : RemapCode img) (i : Nat)

/-- What the host shows of thread `i`. -/
def RemapRun.thread (s : RemapRun) : HostThread := s.k.host (s.k.uthreads i).upid

/-- The request flag that `umem_remap` tests. -/
def RemapRun.newtlb (s : RemapRun) : Bool := (s.k.procs s.k.up).newtlb

def remapStep (s : RemapRun) : RemapOp → Option RemapRun
  | .flushmmu => some { s with k := flushmmu s.k, flushed := true }
  | .umemRemap =>
    match umemRemap img s.k i with
    | .error _ => none
    | .ok k =>
      if s.newtlb then some { k, flushed := false, built := true } else some { s with k }
  | .handleRemap =>
    -- `kthread_loop` calls it for a thread that is remapping
    if (s.k.uthreads i).hsyscalls ≠ 0 ∧ (s.k.uthreads i).state = .remapping then
      some { s with k := handleRemap s.k i }
    else none
  | .runs t =>
    if c.Stands (s.k.uthreads i).state t.regs then
      some { s with k := { s.k with host := Function.update s.k.host (s.k.uthreads i).upid t } }
    else none

/-! ## The property and its condition -/

/-- A `umem_remap` with no flush since the last frame changes nothing, and once a
frame has been built the context that was saved for it is a user context. -/
def OncePerFlush (s : RemapRun) (o : RemapOp) : Prop :=
  ∀ s', remapStep c i s o = some s' →
    (o = .umemRemap → s.flushed = false → s' = s) ∧
    (s'.built = true → c.User (s'.k.uthreads i).mmeip (s'.k.uthreads i).mmesp)

/-- After the first frame `umem_remap` is called only when `flushmmu` was called in
between, and never while the thread is remapping. -/
def Due (s : RemapRun) : RemapOp → Prop
  | .umemRemap => (s.built = true → s.flushed = true) ∧ (s.k.uthreads i).state ≠ .remapping
  | _ => True

/-- A bound thread in user code, for which no frame has been built. -/
structure RemapRun.Start (s : RemapRun) : Prop where
  bound : (s.k.uthreads i).proc = some s.k.up
  flushed : s.flushed = s.newtlb
  built : s.built = false
  state : (s.k.uthreads i).state ≠ .remapping
  user : c.User (s.thread i).regs.eip (s.thread i).regs.esp

/-! ## The invariant -/

structure RemapInv (s : RemapRun) : Prop where
  bound : (s.k.uthreads i).proc = some s.k.up
  /-- nothing clears the request -/
  newtlb : s.newtlb = (s.flushed || s.built)
  stands : c.Stands (s.k.uthreads i).state (s.thread i).regs
  saved : s.built = true → c.User (s.k.uthreads i).mmeip (s.k.uthreads i).mmesp
  /-- a thread is remapping on a frame that was built for it -/
  frame : (s.k.uthreads i).state = .remapping → s.built = true

variable {c i}

theorem RemapRun.Start.inv {s : RemapRun} (h : s.Start c i) : RemapInv c i s where
  bound := h.bound
  newtlb := by rw [h.built, Bool.or_false, h.flushed]
  stands := by
    rw [RemapCode.Stands, if_neg h.state]
    exact h.user
  saved hBuilt := by simp [h.built] at hBuilt
  frame hState := absurd hState h.state

/-- A `umem_remap` that completes either finds no request and changes nothing, or
diverts the thread. -/
theorem remapStep_umemRemap {s s' : RemapRun}
    (hBound : (s.k.uthreads i).proc = some s.k.up)
    (h : remapStep c i s .umemRemap = some s') :
    (s.newtlb = false ∧ s' = s) ∨
      (s.newtlb = true ∧ s'.flushed = false ∧ s'.built = true ∧
        Diverted img s.k i s.k.up s'.k) := by
  unfold remapStep at h
  cases hk : umemRemap img s.k i with
  | error e => simp [hk] at h
  | ok k =>
    simp only [hk] at h
    -- newtlb is what umem_remap looks at
    rcases umemRemap_built hk with ⟨hNew, rfl⟩ | ⟨p, hNew, hp, hDiv⟩
    · left
      have hOff : s.newtlb = false := hNew
      rw [hOff] at h
      exact ⟨hOff, (Option.some.inj h).symm⟩
    · right
      have hOn : s.newtlb = true := hNew
      rw [hOn, if_pos rfl] at h
      obtain rfl : s.k.up = p := Option.some.inj (hBound.symm.trans hp)
      obtain rfl := Option.some.inj h
      exact ⟨hOn, rfl, rfl, hDiv⟩

/-- What a diverted thread looks like. -/
theorem Diverted.context {k k' : Kernel} {p : Nat} (h : Diverted img k i p k') :
    (k'.uthreads i).state = .remapping ∧ (k'.uthreads i).hsyscalls = 1 ∧
      (k'.uthreads i).upid = (k.uthreads i).upid ∧ (k'.uthreads i).proc = (k.uthreads i).proc ∧
      (k'.uthreads i).mmeip = (k.host (k.uthreads i).upid).regs.eip ∧
      (k'.uthreads i).mmesp = (k.host (k.uthreads i).upid).regs.esp ∧
      (k'.host (k.uthreads i).upid).regs.eip = img.doMaps := by
  simp [h.uthr, h.thread]

/-- A remap that is done is seen in the trace. -/
theorem Diverted.ne {k k' : Kernel} {p : Nat} (h : Diverted img k i p k') : k' ≠ k := by
  rintro rfl
  obtain ⟨cs, v, -, hTrace⟩ := h.trace
  have hLen := congrArg List.length hTrace
  simp only [List.length_append, List.length_cons, List.length_nil] at hLen
  omega

/-- After an exit the thread is back on the context that was saved. -/
theorem handleRemap_restores {k : Kernel}
    (h : isExit (k.peekSys (k.uthreads i).upid) = true) :
    ((handleRemap k i).uthreads i) = { k.uthreads i with state := .running, hsyscalls := 0 } ∧
      ((handleRemap k i).host (k.uthreads i).upid).regs.eip = (k.uthreads i).mmeip ∧
      ((handleRemap k i).host (k.uthreads i).upid).regs.esp = (k.uthreads i).mmesp := by
  rw [handleRemap_exit h]
  simp [restored, HostCall.apply, Regs.set]

/-- One step keeps the invariant when a `umem_remap` in it is due. -/
theorem remapStep_inv (s : RemapRun) (o : RemapOp) (s' : RemapRun) (hInv : RemapInv c i s)
    (hDue : Due i s o) (h : remapStep c i s o = some s') : RemapInv c i s' := by
  cases o with
  | flushmmu =>
    obtain rfl := Option.some.inj h
    exact ⟨hInv.bound, by simp [RemapRun.newtlb, flushmmu], hInv.stands, hInv.saved, hInv.frame⟩
  | umemRemap =>
    rcases remapStep_umemRemap hInv.bound h with ⟨-, rfl⟩ | ⟨hNew, hFlushed, hBuilt, hDiv⟩
    · exact hInv
    · obtain ⟨hState, -, hUpid, hProc, hEip, hEsp, hAt⟩ := hDiv.context
      obtain ⟨-, hProcs, hUp, -⟩ := hDiv.frame
      -- what is saved is where the thread stood, in user code
      have hUser := hInv.stands
      rw [RemapCode.Stands, if_neg hDue.2] at hUser
      refine ⟨by rw [hProc, hUp, hInv.bound], ?_, ?_, fun _ => ?_, fun _ => hBuilt⟩
      · rw [RemapRun.newtlb, hProcs, hUp, hFlushed, hBuilt]
        exact hNew
      · rw [RemapCode.Stands, if_pos hState, RemapRun.thread, hUpid, hAt]
        exact c.doMaps_text
      · rw [hEip, hEsp]
        exact hUser
  | handleRemap =>
    obtain ⟨⟨-, hState⟩, hNext⟩ := Option.ite_none_right_eq_some.mp h
    obtain rfl := Option.some.inj hNext
    have hBuilt := hInv.frame hState
    cases hExit : isExit (s.k.peekSys (s.k.uthreads i).upid) with
    | true =>
      obtain ⟨hThread, hEip, hEsp⟩ := handleRemap_restores hExit
      have hProcs : (handleRemap s.k i).procs = s.k.procs ∧ (handleRemap s.k i).up = s.k.up := by
        rw [handleRemap_exit hExit]
        exact ⟨rfl, rfl⟩
      refine ⟨?_, ?_, ?_, ?_, fun _ => hBuilt⟩
      · rw [hThread, hProcs.2]
        exact hInv.bound
      · rw [RemapRun.newtlb, hProcs.1, hProcs.2]
        exact hInv.newtlb
      · rw [RemapCode.Stands, RemapRun.thread, hThread, if_neg (by simp)]
        simp only [hEip, hEsp]
        exact hInv.saved hBuilt
      · rw [hThread]
        exact hInv.saved
    | false =>
      -- another syscall of `do_maps` goes on
      rw [handleRemap_other hExit]
      exact ⟨hInv.bound, hInv.newtlb, hInv.stands, hInv.saved, hInv.frame⟩
  | runs t =>
    obtain ⟨hStands, hNext⟩ := Option.ite_none_right_eq_some.mp h
    obtain rfl := Option.some.inj hNext
    refine ⟨hInv.bound, hInv.newtlb, ?_, hInv.saved, hInv.frame⟩
    simpa [RemapRun.thread] using hStands

/-- Where the invariant holds, a step is right exactly when it is due. -/
theorem oncePerFlush_iff_due (s : RemapRun) (o : RemapOp) (s' : RemapRun)
    (hInv : RemapInv c i s) (h : remapStep c i s o = some s') :
    OncePerFlush c i s o ↔ Due i s o := by
  have hOnly : ∀ u, remapStep c i s o = some u → u = s' := fun u hu =>
    Option.some.inj (hu.symm.trans h)
  constructor
  · intro hRight
    cases o with
    | flushmmu | handleRemap | runs => trivial
    | umemRemap =>
      obtain ⟨hNothing, hSaved⟩ := hRight s' h
      rcases remapStep_umemRemap hInv.bound h with ⟨hNew, -⟩ | ⟨-, -, hBuilt, hDiv⟩
      · -- without a request no frame was built, and the thread is not remapping
        have hNone : s.flushed = false ∧ s.built = false := by
          simpa [hInv.newtlb] using hNew
        refine ⟨by simp [hNone.2], fun hState => ?_⟩
        simp [hInv.frame hState] at hNone
      · refine ⟨fun _ => ?_, fun hState => ?_⟩
        · by_contra hNot
          have hSame := hNothing rfl (by simpa using hNot)
          exact hDiv.ne (congrArg RemapRun.k hSame)
        · -- a thread that is remapping stands on `do_maps`
          have hText := hInv.stands
          rw [RemapCode.Stands, if_pos hState] at hText
          have hUser := (hSaved hBuilt).1
          obtain ⟨-, -, -, -, hEip, -, -⟩ := hDiv.context
          rw [hEip] at hUser
          rw [RemapRun.thread, hUser] at hText
          cases hText
  · intro hDue u hu
    obtain rfl := hOnly u hu
    refine ⟨?_, (remapStep_inv s o u hInv hDue hu).saved⟩
    rintro rfl hFlushed
    rcases remapStep_umemRemap hInv.bound hu with ⟨-, rfl⟩ | ⟨hNew, -⟩
    · rfl
    · -- a request that is not fresh is left from a frame
      rw [hInv.newtlb, hFlushed, Bool.false_or] at hNew
      rw [hDue.1 hNew] at hFlushed
      cases hFlushed

/-! ## Runs -/

/-- **A remap is done once per flush when every call is due.** In every run of
`flushmmu`, `umem_remap` and `handle_remap` on a bound thread, a `umem_remap` with no
flush since the last frame changes nothing and the saved context is always a user
context, if and only if no `umem_remap` comes before the flush that follows the last
frame, or while the thread is remapping. -/
theorem remap_once_iff (c : RemapCode img) (i : Nat) {s t : RemapRun} {os : List RemapOp}
    (hStart : s.Start c i) (hRun : run (remapStep c i) s os = some t) :
    Always (remapStep c i) (OncePerFlush c i) s os ↔ Always (remapStep c i) (Due i) s os :=
  always_iff_always remapStep_inv oncePerFlush_iff_due hStart.inv hRun

end

/-! ## A remap of the two-page process, and one more -/

def smallCode : RemapCode smallImage where
  text a := 0x80100000 ≤ a.toNat && a.toNat < 0x80200000
  doMaps_text := by decide

/-- A thread in user code with a remap requested. -/
def remapStart : RemapRun where
  k := boundKernel twoPageProc
  flushed := true

theorem remapStart_start : remapStart.Start smallCode 0 where
  bound := rfl
  flushed := rfl
  built := rfl
  state := by decide
  user := by decide

/-- The remap that is requested can be done. -/
theorem remapStart_umemRemap :
    ∃ s, remapStep smallCode 0 remapStart .umemRemap = some s ∧ s.flushed = false ∧
      s.built = true ∧ Diverted smallImage remapStart.k 0 0 s.k := by
  obtain ⟨k, hk⟩ := umemRemap_ok smallImage (k := remapStart.k) (i := 0) (p := 0) rfl
    twoPageProc_remappable.noSwap
  refine ⟨{ k, flushed := false, built := true }, by simp only [remapStep, hk]; rfl, rfl, rfl, ?_⟩
  rcases umemRemap_built hk with ⟨hOld, -⟩ | ⟨p, -, hp, hDiv⟩
  · cases hOld
  · obtain rfl : 0 = p := Option.some.inj hp
    exact hDiv

/-- `do_maps` at its call of `exit`. -/
def mapsDone : HostThread where
  regs := { eip := smallImage.doMaps, origEax := 1 }
  mem := fun _ => 0

/-- The requested remap, carried through to the exit of `do_maps`. -/
def carried : List RemapOp := [.umemRemap, .runs mapsDone, .handleRemap]

/-- The requested remap can be carried through. Every step of it is due, and behind it
the thread is back in user code with the old request still set. -/
theorem remapStart_carried :
    ∃ s, run (remapStep smallCode 0) remapStart carried = some s ∧
      Always (remapStep smallCode 0) (Due 0) remapStart carried ∧
      RemapInv smallCode 0 s ∧ s.flushed = false ∧ s.built = true ∧ s.k.up = 0 ∧
      (s.k.uthreads 0).state = .running ∧ NoSwap (s.k.procs 0) := by
  obtain ⟨s1, h1, hFlushed, hBuilt, hDiv⟩ := remapStart_umemRemap
  obtain ⟨hState, hFlag, -⟩ := hDiv.context
  obtain ⟨-, hProcs, hUp, -⟩ := hDiv.frame
  -- the thread runs to its exit, and is put back on its user context
  set s2 : RemapRun := { s1 with k := { s1.k with
    host := Function.update s1.k.host (s1.k.uthreads 0).upid mapsDone } } with hs2
  have h2 : remapStep smallCode 0 s1 (.runs mapsDone) = some s2 := by
    refine if_pos ?_
    rw [RemapCode.Stands, if_pos hState]
    decide
  set s3 : RemapRun := { s2 with k := handleRemap s2.k 0 } with hs3
  have h3 : remapStep smallCode 0 s2 .handleRemap = some s3 := by
    refine if_pos ⟨?_, hState⟩
    rw [hs2]
    simp only [hFlag]
    decide
  have hExit : isExit (s2.k.peekSys (s2.k.uthreads 0).upid) = true := by
    simp [hs2, Kernel.peekSys, mapsDone, isExit]
  have hDue : Due 0 remapStart .umemRemap := ⟨by decide, by decide⟩
  have hInv1 := remapStep_inv _ .umemRemap _ remapStart_start.inv hDue h1
  have hInv2 := remapStep_inv _ (.runs mapsDone) _ hInv1 trivial h2
  have hInv3 := remapStep_inv _ .handleRemap _ hInv2 trivial h3
  refine ⟨s3, by simp [carried, run, h1, h2, h3], ?_, hInv3, hFlushed, hBuilt, ?_, ?_, ?_⟩
  · simp only [carried, Always, h1, h2, h3, Option.some.injEq, forall_eq']
    exact ⟨hDue, trivial, trivial, trivial⟩
  · rw [hs3, handleRemap_exit hExit]
    exact hUp
  · rw [hs3, (handleRemap_restores hExit).1]
  · rw [hs3, handleRemap_exit hExit]
    simp only [restored, Kernel.call_procs, Kernel.setUthread_procs, hs2, hProcs]
    exact twoPageProc_remappable.noSwap

/-- A flush, a remap that is carried through, another flush and the second remap: each
remap is done for a flush of its own. -/
theorem remap_once_twice :
    ∃ t, run (remapStep smallCode 0) remapStart (carried ++ [.flushmmu, .umemRemap]) = some t ∧
      Always (remapStep smallCode 0) (OncePerFlush smallCode 0) remapStart
        (carried ++ [.flushmmu, .umemRemap]) := by
  obtain ⟨s, hRun, hDue, hInv, -, -, hUp, hState, hSwap⟩ := remapStart_carried
  set s4 : RemapRun := { s with k := flushmmu s.k, flushed := true } with hs4
  have h4 : remapStep smallCode 0 s .flushmmu = some s4 := rfl
  have hSeg : (s4.k.procs s4.k.up).seg = (s.k.procs 0).seg := by
    simp [hs4, flushmmu, hUp]
  have hSwap4 : NoSwap (s4.k.procs s4.k.up) := by
    rwa [NoSwap, hSeg]
  obtain ⟨k5, hk5⟩ := umemRemap_ok smallImage (k := s4.k) (i := 0) hInv.bound hSwap4
  obtain ⟨t, h5⟩ : ∃ t, remapStep smallCode 0 s4 .umemRemap = some t := by
    simp only [remapStep, hk5]
    split <;> exact ⟨_, rfl⟩
  have hAll : run (remapStep smallCode 0) remapStart (carried ++ [.flushmmu, .umemRemap]) =
      some t := by
    simp [run_append, hRun, run, h4, h5]
  refine ⟨t, hAll, (remap_once_iff smallCode 0 remapStart_start hAll).mpr ?_⟩
  refine always_append.mpr ⟨hDue, fun u hu => ?_⟩
  obtain rfl := Option.some.inj (hRun.symm.trans hu)
  -- the second call comes behind its flush, with the thread in user code
  simp only [Always, h4, h5, Option.some.injEq, forall_eq']
  exact ⟨trivial, ⟨fun _ => rfl, by simp [hs4, flushmmu, hState]⟩, trivial⟩

/-- After a remap that is carried through, the next `umem_remap` diverts the thread
again, with no flush in between. -/
theorem remap_again_without_flush :
    remapStart.Start smallCode 0 ∧
      ∃ t, run (remapStep smallCode 0) remapStart (carried ++ [.umemRemap]) = some t ∧
        ¬ Always (remapStep smallCode 0) (OncePerFlush smallCode 0) remapStart
          (carried ++ [.umemRemap]) := by
  obtain ⟨s, hRun, -, hInv, hFlushed, hBuilt, hUp, -, hSwap⟩ := remapStart_carried
  obtain ⟨k', hk⟩ := umemRemap_ok smallImage (k := s.k) (i := 0) hInv.bound (hUp ▸ hSwap)
  obtain ⟨t, hStep⟩ : ∃ t, remapStep smallCode 0 s .umemRemap = some t := by
    simp only [remapStep, hk]
    split <;> exact ⟨_, rfl⟩
  refine ⟨remapStart_start, t, by simp [run_append, hRun, run, hStep], fun hAll => ?_⟩
  have hLast := ((always_append.mp hAll).2 s hRun).1
  -- the call is not due
  have hDue := ((oncePerFlush_iff_due s _ t hInv hStep).mp hLast).1 hBuilt
  rw [hFlushed] at hDue
  cases hDue

end Glendum
