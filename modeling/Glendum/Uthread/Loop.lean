import Glendum.Uthread.RemapExact
import Mathlib.Data.List.Induction

/-!
# Glendum — the kernel thread loop

Properties of runs that start at `touser` and go on through `kthread_loop` for
any sequence of wait results. Which registers a stopped thread has is read off
the trace of host calls: `lastSite` is the function that poked the thread's
registers last, and the thread stands on the context of `do_maps` exactly when
that was `umem_remap`.

* `kthreadIter_inv`, `kthreadLoop_inv` — one iteration, and a run, keep
  `LoopInv`;
* `touser_inv` — `touser` establishes it, with or without a remap pending;
* `hsyscalls_only_remapping` — host syscalls are enabled only while remapping,
  and a thread resumed on user registers is resumed with `PTRACE_SYSEMU`;
* `kthread_loop_safe_iff` — the wait results that the loop survives.
-/

namespace Glendum

open Machine

/-! ## Who set a thread's registers -/

/-- The function that pokes a register of `pid` with this call. -/
def HostCall.site (pid : Int) : HostCall → Option Site
  | .poke site pid' _ _ => if pid' = pid then some site else none
  | _ => none

/-- The function that poked a register of `pid` last. -/
def lastSite (trace : List HostCall) (pid : Int) : Option Site :=
  trace.foldl (fun s c => (c.site pid).or s) none

/-- Before any call no request was made. -/
@[simp] theorem lastSite_nil (pid : Int) : lastSite [] pid = none := rfl

/-- The last call decides, if it is a request for the thread. -/
@[simp] theorem lastSite_append_one (trace : List HostCall) (c : HostCall) (pid : Int) :
    lastSite (trace ++ [c]) pid = (c.site pid).or (lastSite trace pid) := by
  simp [lastSite]

/-- Calls that make no request change nothing. -/
theorem lastSite_append_quiet {trace cs : List HostCall} (h : ∀ c ∈ cs, c.site pid = none) :
    lastSite (trace ++ cs) pid = lastSite trace pid := by
  induction cs using List.reverseRecOn with
  | nil => simp
  | append_singleton cs c ih =>
    rw [← List.append_assoc, lastSite_append_one, h c (by simp), Option.none_or]
    exact ih fun x hx => h x (List.mem_append_left _ hx)

/-- The thread `pid` stands on its user registers. -/
def OnUserRegs (trace : List HostCall) (pid : Int) : Prop :=
  lastSite trace pid ≠ some .umemRemap

/-- A quiet call makes no request. -/
theorem HostCall.Quiet.site {c : HostCall} (h : c.Quiet) (pid : Int) : c.site pid = none := by
  cases c with
  | poke => exact h.elim
  | _ => rfl

/-! ## The invariant -/

/-- What holds of the trace so far: no stray syscall was reported, and a thread
resumed on its user registers was resumed with `PTRACE_SYSEMU`. -/
structure TraceOk (trace : List HostCall) : Prop where
  no_stray : .print notRemappingMsg ∉ trace
  resume : ∀ pre post pid hs, trace = pre ++ .ptraceCont pid hs :: post →
    OnUserRegs pre pid → ptraceRequest hs = .sysemu

/-- One call more is fine when it is no stray print, and continues a thread on user registers
with `PTRACE_SYSEMU`. -/
theorem TraceOk.append_one {trace : List HostCall} {c : HostCall} (h : TraceOk trace)
    (hPrint : c ≠ .print notRemappingMsg)
    (hCont : ∀ pid hs, c = .ptraceCont pid hs → OnUserRegs trace pid →
      ptraceRequest hs = .sysemu) : TraceOk (trace ++ [c]) where
  no_stray := by
    intro hMem
    rcases List.mem_append.mp hMem with hMem | hMem
    · exact h.no_stray hMem
    · exact hPrint (List.mem_singleton.mp hMem).symm
  resume := by
    intro pre post pid hs hEq hUser
    -- the resumption is the new call, or one of the trace before it
    rcases List.append_eq_append_iff.mp hEq with ⟨l, hPre, hRest⟩ | ⟨l, hTrace, hRest⟩
    · cases l with
      | nil =>
        rw [List.nil_append, List.cons.injEq] at hRest
        rw [List.append_nil] at hPre
        rw [hPre] at hUser
        exact hCont pid hs hRest.1 hUser
      | cons x l => simp at hRest
    · cases l with
      | nil =>
        rw [List.nil_append, List.cons.injEq] at hRest
        rw [List.append_nil] at hTrace
        rw [← hTrace] at hUser
        exact hCont pid hs hRest.1.symm hUser
      | cons x l =>
        rw [List.cons_append, List.cons.injEq] at hRest
        rw [← hRest.1] at hTrace
        exact h.resume pre l pid hs hTrace hUser

/-- So are calls that are quiet. -/
theorem TraceOk.append_quiet {trace cs : List HostCall} (h : TraceOk trace)
    (hQuiet : ∀ c ∈ cs, c.Quiet) : TraceOk (trace ++ cs) := by
  induction cs using List.reverseRecOn with
  | nil => simpa using h
  | append_singleton cs c ih =>
    have hC := hQuiet c (by simp)
    rw [← List.append_assoc]
    refine (ih fun x hx => hQuiet x (List.mem_append_left _ hx)).append_one ?_ ?_
    · rintro rfl
      exact hC rfl
    · rintro pid hs rfl
      exact hC.elim

/-- The invariant of the loop. -/
structure LoopInv (k : Kernel) : Prop where
  flag : ∀ i, (k.uthreads i).hsyscalls = if (k.uthreads i).state = .remapping then 1 else 0
  site : ∀ pid i, findUthread k pid = some i →
    (lastSite k.trace pid = some .umemRemap ↔ (k.uthreads i).state = .remapping)
  trace : TraceOk k.trace

/-- The thread that is found has the pid. -/
theorem findUthread_upid {k : Kernel} {pid : Int} {i : Nat} (h : findUthread k pid = some i) :
    (k.uthreads i).upid = pid := by
  have hUpid := List.find?_some h
  simpa using hUpid

/-- `find_uthread` looks at pids only. -/
theorem findUthread_congr {k k' : Kernel} (hAct : k'.actthreads = k.actthreads)
    (hUpid : ∀ i, (k'.uthreads i).upid = (k.uthreads i).upid) (pid : Int) :
    findUthread k' pid = findUthread k pid := by
  unfold findUthread
  rw [hAct]
  congr 1
  funext i
  rw [hUpid]

/-- The pids of the threads are left alone by an update that keeps the pid. -/
theorem setUthread_upid {k : Kernel} {i : Nat} {f : Uthread → Uthread}
    (hf : (f (k.uthreads i)).upid = (k.uthreads i).upid) (j : Nat) :
    ((k.setUthread i f).uthreads j).upid = (k.uthreads j).upid := by
  rw [Kernel.setUthread_uthreads, Function.update_apply]
  split
  · next h => rw [hf, h]
  · rfl

/-! ## One iteration -/

/-- Appending a call that pokes no register keeps the invariant. -/
theorem LoopInv.call {k : Kernel} {c : HostCall} (h : LoopInv k)
    (hSite : ∀ pid, c.site pid = none) (hPrint : c ≠ .print notRemappingMsg)
    (hCont : ∀ pid hs, c = .ptraceCont pid hs → OnUserRegs k.trace pid →
      ptraceRequest hs = .sysemu) : LoopInv (k.call c) where
  flag := h.flag
  site := by
    intro pid i hi
    rw [Kernel.call_trace, lastSite_append_one, hSite, Option.none_or]
    exact h.site pid i hi
  trace := h.trace.append_one hPrint hCont

/-- Thread `i` back on its user registers: the four pokes of `handle_remap` and
the switch to the running state. -/
def restored (k : Kernel) (i : Nat) : Kernel :=
  let upid := (k.uthreads i).upid
  ((((k.call (.poke .handleRemap upid .sys 0xFFFFFFFF)).call
    (.poke .handleRemap upid .eax (k.uthreads i).mmeax)).call
    (.poke .handleRemap upid .eip (k.uthreads i).mmeip)).call
    (.poke .handleRemap upid .esp (k.uthreads i).mmesp)).setUthread i fun u =>
      { u with state := .running, hsyscalls := 0 }

/-- To restore a thread changes no pid. -/
theorem restored_upid {k : Kernel} {i : Nat} (j : Nat) :
    ((restored k i).uthreads j).upid = (k.uthreads j).upid := by
  unfold restored
  rw [setUthread_upid rfl]
  rfl

/-- At an exit `handle_remap` restores the thread and lets it run. -/
theorem handleRemap_exit {k : Kernel} {i : Nat}
    (h : isExit (k.peekSys (k.uthreads i).upid) = true) :
    handleRemap k i = (restored k i).call (.ptraceCont (k.uthreads i).upid 0) := by
  simp [handleRemap, h, restored]

/-- At another syscall it lets the thread run as it is. -/
theorem handleRemap_other {k : Kernel} {i : Nat}
    (h : isExit (k.peekSys (k.uthreads i).upid) = false) :
    handleRemap k i =
      k.call (.ptraceCont (k.uthreads i).upid (k.uthreads i).hsyscalls) := by
  simp [handleRemap, h]

/-- Restoring the registers of the thread that `find_uthread` finds. -/
theorem LoopInv.restored {k : Kernel} {i : Nat} (h : LoopInv k)
    (hFind : findUthread k (k.uthreads i).upid = some i) : LoopInv (restored k i) where
  flag := by
    intro j
    unfold Glendum.restored
    simp only [Kernel.setUthread_uthreads, Kernel.call_uthreads, Function.update_apply]
    split
    · rfl
    · exact h.flag j
  site := by
    intro pid j hj
    have hAct : (Glendum.restored k i).actthreads = k.actthreads := rfl
    rw [findUthread_congr hAct restored_upid] at hj
    unfold Glendum.restored
    simp only [Kernel.setUthread_trace, Kernel.call_trace, lastSite_append_one, HostCall.site,
      Kernel.setUthread_uthreads, Kernel.call_uthreads, Function.update_apply]
    by_cases hp : (k.uthreads i).upid = pid
    · -- the thread itself: poked by `handle_remap`, and running
      have hij : j = i := by
        rw [hp, hj] at hFind
        exact Option.some.inj hFind
      simp [hp, hij]
    · have hij : j ≠ i := by
        rintro rfl
        exact hp (findUthread_upid hj)
      simp only [hp, if_false, Option.none_or, hij]
      exact h.site pid j hj
  trace := by
    unfold Glendum.restored
    simp only [Kernel.setUthread_trace, Kernel.call_trace]
    -- four pokes, and a poke neither reports nor resumes
    refine (((h.trace.append_one ?_ ?_).append_one ?_ ?_).append_one ?_ ?_).append_one ?_ ?_ <;>
      simp

/-- `handle_remap` keeps the invariant for a thread that is remapping. -/
theorem handleRemap_inv {k : Kernel} {i : Nat} (h : LoopInv k)
    (hFind : findUthread k (k.uthreads i).upid = some i)
    (hState : (k.uthreads i).state = .remapping) : LoopInv (handleRemap k i) := by
  cases hExit : isExit (k.peekSys (k.uthreads i).upid) with
  | true =>
    -- the thread is back on its user registers, and is resumed with the flag clear
    rw [handleRemap_exit hExit]
    refine (h.restored hFind).call (fun _ => rfl) (by simp) ?_
    intro pid hs hc _
    cases hc
    rfl
  | false =>
    rw [handleRemap_other hExit]
    refine h.call (fun _ => rfl) (by simp) ?_
    intro pid hs hc hUser
    cases hc
    -- the registers are those of `do_maps`
    exact absurd ((h.site _ i hFind).mpr hState) hUser

/-- So does a stop that the host reports. -/
theorem LoopInv.stopped {k : Kernel} (h : LoopInv k) (ev : WaitResult) :
    LoopInv (k.stopped ev) where
  flag := h.flag
  site := h.site
  trace := h.trace

/-- What an iteration that completes has done: nothing, a syscall of a thread that
is allowed host syscalls, or the report of a Plan 9 syscall. -/
theorem kthreadIter_cases {k k' : Kernel} {ev : WaitResult} (hStep : kthreadIter k ev = .ok k') :
    k' = k.stopped ev ∨
    (∃ i, findUthread (k.stopped ev) ev.rc = some i ∧ isSysc ev.status = true ∧
      ((k.stopped ev).uthreads i).hsyscalls ≠ 0 ∧
      (((k.stopped ev).uthreads i).state = .remapping ∧ k' = handleRemap (k.stopped ev) i ∨
        ((k.stopped ev).uthreads i).state ≠ .remapping ∧
          k' = (k.stopped ev).call (.print notRemappingMsg))) ∨
    ∃ sysno eip, k' = (k.stopped ev).call (.printSyscall sysno eip) := by
  unfold kthreadIter at hStep
  simp only at hStep
  split at hStep
  · -- not one of the threads
    exact Or.inl (Except.ok.inj hStep).symm
  next i hFind =>
  split at hStep
  · cases hStep
  split at hStep
  · next hSys =>
    refine Or.inr (Or.inl ⟨i, hFind, hSys.1, hSys.2, ?_⟩)
    split at hStep
    · next hState => exact Or.inl ⟨hState, (Except.ok.inj hStep).symm⟩
    · next hState => exact Or.inr ⟨hState, (Except.ok.inj hStep).symm⟩
  -- a fault of user code is reported when it is at an `int 0x40`
  split at hStep
  · split at hStep
    · exact Or.inr (Or.inr ⟨_, _, (Except.ok.inj hStep).symm⟩)
    · exact Or.inl (Except.ok.inj hStep).symm
  · exact Or.inl (Except.ok.inj hStep).symm

/-- Every iteration of `kthread_loop` that completes keeps the invariant. -/
theorem kthreadIter_inv {k k' : Kernel} {ev : WaitResult} (h : LoopInv k)
    (hStep : kthreadIter k ev = .ok k') : LoopInv k' := by
  have hHost := h.stopped ev
  rcases kthreadIter_cases hStep with rfl |
    ⟨i, hFind, -, hFlag, ⟨hState, rfl⟩ | ⟨hState, rfl⟩⟩ | ⟨sysno, eip, rfl⟩
  · exact hHost
  · have hUpid := findUthread_upid hFind
    exact handleRemap_inv hHost (by rw [hUpid]; exact hFind) hState
  · -- host syscalls are not allowed outside of a remap
    rw [hHost.flag i, if_neg hState] at hFlag
    exact absurd rfl hFlag
  · exact hHost.call (fun _ => rfl) (by simp) (by simp)

/-! ## Runs -/

/-- One event after the other. -/
theorem kthreadLoop_cons (k : Kernel) (ev : WaitResult) (evs : List WaitResult) :
    kthreadLoop k (ev :: evs) = (kthreadIter k ev).bind fun k' => kthreadLoop k' evs := by
  simp only [kthreadLoop, List.foldlM_cons]
  rfl

/-- The loop keeps the invariant over any events. -/
theorem kthreadLoop_inv {evs : List WaitResult} {k k' : Kernel} (h : LoopInv k)
    (hRun : kthreadLoop k evs = .ok k') : LoopInv k' := by
  induction evs generalizing k with
  | nil =>
    cases hRun
    exact h
  | cons ev evs ih =>
    rw [kthreadLoop_cons] at hRun
    cases hStep : kthreadIter k ev with
    | error e =>
      rw [hStep] at hRun
      cases hRun
    | ok k1 =>
      rw [hStep] at hRun
      exact ih (kthreadIter_inv h hStep) hRun

/-- The kernel when `touser` is called: every descriptor as `uthreadinit` left
it, whatever it is bound to since. -/
structure Booted (k : Kernel) : Prop where
  threads : 0 < k.actthreads
  uthr : ∀ i, (k.uthreads i).hsyscalls = 0 ∧ (k.uthreads i).state = .idle
  trace : k.trace = []

/-- What `uthreadinit` leaves is booted, whichever processes are bound. -/
theorem uthreadinit_booted {k : Kernel} {pids : List Int} (hAct : k.actthreads = MINUTHREAD)
    (h : ∀ i, ∃ p, k.uthreads i = { uthreadinit pids i with proc := p })
    (hTrace : k.trace = []) : Booted k where
  threads := by
    rw [hAct]
    decide
  uthr := by
    intro i
    obtain ⟨p, hp⟩ := h i
    rw [hp]
    exact ⟨rfl, rfl⟩
  trace := hTrace

/-- `umem_remap` changes no pid. -/
theorem Diverted.upid {img : KernelImage} {k k' : Kernel} {i p : Nat}
    (h : Diverted img k i p k') (j : Nat) : (k'.uthreads j).upid = (k.uthreads j).upid := by
  rw [h.uthr, Function.update_apply]
  split
  · next hj => rw [hj]
  · rfl

/-- Threads are found as before. -/
theorem Diverted.findUthread {img : KernelImage} {k k' : Kernel} {i p : Nat}
    (h : Diverted img k i p k') (pid : Int) : findUthread k' pid = findUthread k pid :=
  findUthread_congr h.frame.1 h.upid pid

/-- The calls of a `umem_remap` that diverts the thread: quiet ones, and then the
three that poke its registers. -/
theorem Diverted.pokes {img : KernelImage} {k k' : Kernel} {i p : Nat}
    (h : Diverted img k i p k') : ∃ cs v, (∀ c ∈ cs, c.Quiet) ∧
      k'.trace = k.trace ++ cs ++ [.poke .umemRemap (k.uthreads i).upid .eax 0] ++
        [.poke .umemRemap (k.uthreads i).upid .esp v] ++
        [.poke .umemRemap (k.uthreads i).upid .eip img.doMaps] := by
  obtain ⟨cs, v, hQuiet, hTrace⟩ := h.trace
  exact ⟨cs, v, hQuiet, by simp [hTrace]⟩

/-- `umem_remap` for the thread that `find_uthread` finds keeps the invariant,
if the thread stood on its user registers. -/
theorem umemRemap_inv {img : KernelImage} {k k' : Kernel} {i : Nat} (h : LoopInv k)
    (hFind : ∀ j, findUthread k (k.uthreads i).upid = some j → j = i)
    (hRemap : umemRemap img k i = .ok k') : LoopInv k' := by
  rcases umemRemap_built hRemap with ⟨-, rfl⟩ | ⟨p, -, -, hDiv⟩
  · exact h
  · obtain ⟨cs, v, hQuiet, hTrace⟩ := hDiv.pokes
    refine ⟨?_, ?_, ?_⟩
    · intro j
      rw [hDiv.uthr, Function.update_apply]
      split
      · rfl
      · exact h.flag j
    · intro pid j hj
      rw [hDiv.findUthread] at hj
      -- the last pokes are those of the thread that is diverted
      have hLast : lastSite k'.trace pid =
          if (k.uthreads i).upid = pid then some .umemRemap else lastSite k.trace pid := by
        rw [hTrace, lastSite_append_one, lastSite_append_one, lastSite_append_one,
          lastSite_append_quiet fun c hc => (hQuiet c hc).site pid]
        simp only [HostCall.site]
        split <;> simp
      rw [hLast, hDiv.uthr, Function.update_apply]
      by_cases hp : (k.uthreads i).upid = pid
      · have hij : j = i := hFind j (by rw [hp]; exact hj)
        simp [hp, hij]
      · have hij : j ≠ i := by
          rintro rfl
          exact hp (findUthread_upid hj)
        simp only [hp, hij, if_false]
        exact h.site pid j hj
    · rw [hTrace]
      refine (((h.trace.append_quiet hQuiet).append_one ?_ ?_).append_one ?_ ?_).append_one
        ?_ ?_ <;> simp

/-- The first thread is the one that `find_uthread` finds by its pid. -/
theorem findUthread_first {k : Kernel} (h : 0 < k.actthreads) :
    findUthread k (k.uthreads 0).upid = some 0 := by
  obtain ⟨n, hn⟩ : ∃ n, k.actthreads = n + 1 := ⟨k.actthreads - 1, by omega⟩
  rw [findUthread, hn, List.range_succ_eq_map, List.find?_cons_of_pos (by simp)]

/-- The kernel when `touser` has set up the registers of the first thread. -/
def userReady (k : Kernel) (sp : Word) : Kernel :=
  let k := { k with procs := Function.update k.procs k.up
                      { k.procs k.up with uthr := some 0 } }
  let k := k.setUthread 0 fun u => { u with proc := some k.up }
  let upid := (k.uthreads 0).upid
  (((k.call (.poke .touser upid .eax 0)).call (.poke .touser upid .eip (UTZERO + 32))).call
    (.poke .touser upid .esp sp)).setUthread 0 fun u => { u with state := .running }

/-- `touser` is a remap and then the first request. -/
theorem touser_eq (img : KernelImage) (k : Kernel) (sp : Word) :
    touser img k sp = (umemRemap img (userReady k sp) 0).bind fun k' =>
      .ok (k'.call (.ptraceCont (k.uthreads 0).upid (k'.uthreads 0).hsyscalls)) := by
  simp only [touser, userReady, Kernel.setUthread_uthreads, Function.update_self]
  rfl

/-- The thread for the user process, as `touser` prepares it. -/
theorem userReady_inv {k : Kernel} {sp : Word} (h : Booted k) : LoopInv (userReady k sp) where
  flag := by
    intro i
    simp only [userReady, Kernel.setUthread_uthreads, Kernel.call_uthreads, Function.update_apply]
    split
    · exact (h.uthr 0).1
    · simp [h.uthr i]
  site := by
    intro pid i _
    simp only [userReady, Kernel.setUthread_uthreads, Kernel.call_uthreads, Function.update_apply,
      Kernel.setUthread_trace, Kernel.call_trace, lastSite_append_one, HostCall.site, h.trace]
    -- the pokes are those of `touser`, and no thread is being remapped
    constructor
    · intro hSite
      split at hSite <;> simp at hSite
    · intro hState
      split at hState
      · simp at hState
      · simp [h.uthr i] at hState
  trace := by
    simp only [userReady, Kernel.setUthread_trace, Kernel.call_trace, h.trace]
    have hNil : TraceOk [] := ⟨by simp, by simp⟩
    refine ((hNil.append_one ?_ ?_).append_one ?_ ?_).append_one ?_ ?_ <;> simp

/-- `touser` establishes the invariant of the loop. -/
theorem touser_inv {img : KernelImage} {k k' : Kernel} {sp : Word} (hBoot : Booted k)
    (hRun : touser img k sp = .ok k') : LoopInv k' := by
  have hAct : (userReady k sp).actthreads = k.actthreads := rfl
  have hUpid : ((userReady k sp).uthreads 0).upid = (k.uthreads 0).upid := by
    simp [userReady]
  have hFirst := findUthread_first (k := userReady k sp) (by rw [hAct]; exact hBoot.threads)
  rw [touser_eq] at hRun
  cases hRemap : umemRemap img (userReady k sp) 0 with
  | error e =>
    rw [hRemap] at hRun
    cases hRun
  | ok k1 =>
    rw [hRemap] at hRun
    cases hRun
    -- the resumption comes last, after the remap that may have been due
    have hInv := umemRemap_inv (userReady_inv hBoot)
      (fun j hj => (Option.some.inj (hFirst.symm.trans hj)).symm) hRemap
    refine hInv.call (fun _ => rfl) (by simp) ?_
    intro pid hs hc hUser
    cases hc
    have hFirst1 : findUthread k1 (k.uthreads 0).upid = some 0 := by
      rw [← hUpid, ← hFirst]
      rcases umemRemap_built hRemap with ⟨-, rfl⟩ | ⟨p, -, -, hDiv⟩
      · rfl
      · exact hDiv.findUthread _
    -- on user registers the thread is not being remapped, and its flag is clear
    have hState : (k1.uthreads 0).state ≠ .remapping := fun hS =>
      hUser ((hInv.site _ 0 hFirst1).mpr hS)
    rw [hInv.flag 0, if_neg hState]
    rfl

/-- **Host system calls of Plan 9 code are never executed.** In every state that
a run from `touser` reaches, `hsyscalls` is 1 exactly for the threads that are
being remapped; no stray syscall was reported; and whenever a thread was
resumed on its user registers it was resumed with `PTRACE_SYSEMU`. -/
theorem hsyscalls_only_remapping (img : KernelImage) (k0 k1 k : Kernel) (sp : Word)
    (evs : List WaitResult) (hBoot : Booted k0) (hUser : touser img k0 sp = .ok k1)
    (hRun : kthreadLoop k1 evs = .ok k) :
    (∀ i, (k.uthreads i).hsyscalls = 1 ↔ (k.uthreads i).state = .remapping) ∧
    .print notRemappingMsg ∉ k.trace ∧
    ∀ pre post pid hs, k.trace = pre ++ .ptraceCont pid hs :: post → OnUserRegs pre pid →
      hs = 0 ∧ ptraceRequest hs = .sysemu := by
  have hInv := kthreadLoop_inv (touser_inv hBoot hUser) hRun
  refine ⟨?_, hInv.trace.no_stray, ?_⟩
  · intro i
    rw [hInv.flag i]
    split <;> simp [*]
  · intro pre post pid hs hTrace hOn
    have hReq := hInv.trace.resume pre post pid hs hTrace hOn
    refine ⟨?_, hReq⟩
    by_contra hNe
    rw [ptraceRequest, if_pos hNe] at hReq
    cases hReq

/-- A stop of process `pid` at a host syscall. -/
def syscallStop (pid : Int) (regs : Regs) : WaitResult where
  rc := pid
  status := 0x857F
  thread := { regs, mem := fun _ => 0 }

/-- A process that has a stack segment but no page yet. -/
def bareProc : Proc where
  pid := 1
  newtlb := true
  seg := [none, some ⟨.stack, [none]⟩]

/-- The first process is started with a remap pending; `do_maps` stops at the
entry and the exit of one host syscall and then at `_exit`. -/
theorem hsyscalls_only_remapping_bare :
    ∃ k1 k, touser smallImage (boundKernel bareProc) 0x6FFFEF00 = .ok k1 ∧
      kthreadLoop k1 [syscallStop 100 { origEax := 192 }, syscallStop 100 { origEax := 192 },
        syscallStop 100 { origEax := 252 }] = .ok k ∧
      (∀ i, (k.uthreads i).hsyscalls = 1 ↔ (k.uthreads i).state = .remapping) ∧
      .print notRemappingMsg ∉ k.trace ∧
      ∀ pre post pid hs, k.trace = pre ++ .ptraceCont pid hs :: post → OnUserRegs pre pid →
        hs = 0 ∧ ptraceRequest hs = .sysemu :=
  ⟨_, _, rfl, rfl, hsyscalls_only_remapping smallImage (boundKernel bareProc) _ _ 0x6FFFEF00
    [syscallStop 100 { origEax := 192 }, syscallStop 100 { origEax := 192 },
      syscallStop 100 { origEax := 252 }] ⟨by decide, fun _ => ⟨rfl, rfl⟩, rfl⟩ rfl rfl⟩

/-! ## Wait results for threads without a process -/

/-- The wait result names no thread, or one that is bound to a process. -/
def BoundIfKnown (k : Kernel) (ev : WaitResult) : Prop :=
  ∀ i, findUthread k ev.rc = some i → (k.uthreads i).proc ≠ none

/-- Neither the pids nor the processes of the threads have changed. -/
structure SameThreads (k k' : Kernel) : Prop where
  actthreads : k'.actthreads = k.actthreads
  upid       : ∀ i, (k'.uthreads i).upid = (k.uthreads i).upid
  proc       : ∀ i, (k'.uthreads i).proc = (k.uthreads i).proc

/-- A binding is known or not by the threads alone. -/
theorem SameThreads.boundIfKnown {k k' : Kernel} (h : SameThreads k k') (ev : WaitResult) :
    BoundIfKnown k' ev ↔ BoundIfKnown k ev := by
  unfold BoundIfKnown
  rw [findUthread_congr h.actthreads h.upid]
  exact forall_congr' fun i => by rw [h.proc]

/-- `handle_remap` binds no thread and changes no pid. -/
theorem handleRemap_threads (k : Kernel) (i : Nat) : SameThreads k (handleRemap k i) := by
  cases hExit : isExit (k.peekSys (k.uthreads i).upid) with
  | true =>
    rw [handleRemap_exit hExit]
    refine ⟨rfl, restored_upid, fun j => ?_⟩
    simp only [restored, Kernel.call_uthreads, Kernel.setUthread_uthreads, Function.update_apply]
    split
    · next hj => rw [hj]
    · rfl
  | false =>
    rw [handleRemap_other hExit]
    exact ⟨rfl, fun _ => rfl, fun _ => rfl⟩

/-- An iteration that completes leaves the threads where they are bound. -/
theorem kthreadIter_threads {k k' : Kernel} {ev : WaitResult} (h : kthreadIter k ev = .ok k') :
    SameThreads k k' := by
  rcases kthreadIter_cases h with rfl | ⟨i, -, -, -, ⟨-, rfl⟩ | ⟨-, rfl⟩⟩ | ⟨sysno, eip, rfl⟩
  · exact ⟨rfl, fun _ => rfl, fun _ => rfl⟩
  · have hSame := handleRemap_threads (k.stopped ev) i
    exact ⟨hSame.actthreads, hSame.upid, hSame.proc⟩
  · exact ⟨rfl, fun _ => rfl, fun _ => rfl⟩
  · exact ⟨rfl, fun _ => rfl, fun _ => rfl⟩

/-- One iteration either completes or reads the pid of a process that is not there. -/
theorem kthreadIter_ends (k : Kernel) (ev : WaitResult) :
    (BoundIfKnown k ev ∧ ∃ k', kthreadIter k ev = .ok k') ∨
      ¬ BoundIfKnown k ev ∧ kthreadIter k ev = .error .nilDeref := by
  have hSame : findUthread (k.stopped ev) ev.rc = findUthread k ev.rc := rfl
  unfold kthreadIter
  simp only [hSame]
  cases hFind : findUthread k ev.rc with
  | none =>
    refine Or.inl ⟨fun i hi => ?_, _, rfl⟩
    rw [hFind] at hi
    cases hi
  | some i =>
    have hOnly : BoundIfKnown k ev ↔ (k.uthreads i).proc ≠ none := by
      unfold BoundIfKnown
      rw [hFind]
      exact ⟨fun h => h i rfl, fun h j hj => Option.some.inj hj ▸ h⟩
    cases hProc : (k.uthreads i).proc with
    | none =>
      -- the print comes before the test for an unknown pid
      right
      refine ⟨fun h => hOnly.mp h hProc, ?_⟩
      simp only [Kernel.stopped, hProc]
    | some p =>
      refine Or.inl ⟨hOnly.mpr (by rw [hProc]; exact Option.some_ne_none p), ?_⟩
      have hHere : ((k.stopped ev).uthreads i).proc = some p := hProc
      simp only [hHere]
      -- no branch behind the print stops the kernel
      by_cases hSys : isSysc ev.status = true ∧ ((k.stopped ev).uthreads i).hsyscalls ≠ 0
      · rw [if_pos hSys]
        split_ifs
        · exact ⟨_, rfl⟩
        · exact ⟨_, rfl⟩
      · rw [if_neg hSys]
        split_ifs
        · exact ⟨_, rfl⟩
        · exact ⟨_, rfl⟩
        · exact ⟨_, rfl⟩

/-- **The loop survives exactly the wait results for bound threads.** Whatever threads
there are, whichever of them have a process, and whatever `host_waitpid` returns: no
iteration reads through a nil process if and only if no result names a thread that is
not bound. -/
theorem kthread_loop_safe_iff (k : Kernel) (evs : List WaitResult) :
    kthreadLoop k evs ≠ .error .nilDeref ↔ ∀ ev ∈ evs, BoundIfKnown k ev := by
  induction evs generalizing k with
  | nil =>
    refine iff_of_true (fun h => ?_) fun ev hev => ?_
    · cases h
    · cases hev
  | cons ev evs ih =>
    rw [kthreadLoop_cons, List.forall_mem_cons]
    rcases kthreadIter_ends k ev with ⟨hBound, k1, hRun⟩ | ⟨hNot, hRun⟩
    · -- the threads are the same for the results that follow
      have hSame := kthreadIter_threads hRun
      rw [hRun]
      change kthreadLoop k1 evs ≠ .error .nilDeref ↔ _
      rw [ih k1]
      simp only [hSame.boundIfKnown]
      exact ⟨fun h => ⟨hBound, h⟩, fun h => h.2⟩
    · rw [hRun]
      exact iff_of_false (fun h => h rfl) fun h => hNot h.1

/-- A process killed by a signal. -/
def killed (pid : Int) : WaitResult where
  rc := pid
  status := 9
  thread := { regs := {}, mem := fun _ => 0 }

/-- The second of the two threads is not bound when the host kills it. -/
theorem idle_thread_killed :
    (boundKernel twoPageProc).uthreads 1 = uthreadinit [100, 101] 1 ∧
      kthreadLoop (boundKernel twoPageProc) [killed 101] = .error .nilDeref :=
  ⟨rfl, rfl⟩

end Glendum
