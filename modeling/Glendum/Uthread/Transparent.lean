import Glendum.Uthread.Loop

/-!
# Glendum — the registers of a remapped thread

A diverted thread runs `do_maps` and the host library under it until it calls
`_exit`; `handle_remap` then puts back the registers that `umem_remap` saved.
Only EAX, EIP and ESP are saved: every other register is resumed with the value
that `do_maps` left in it.

* `remap_resume` — the registers the thread is resumed on, after any run of
  `kthread_loop` in between;
* `remap_transparent_iff` — they are the user's exactly when `do_maps` left the
  seven unsaved registers as it found them;
* `remap_loses_ebx` — the exit status of `_exit` itself is such a loss.
-/

namespace Glendum

open Machine

/-- The user-visible register file: everything but the syscall number. -/
def Regs.user (r : Regs) : Regs := { r with origEax := 0 }

/-- The registers that `umem_remap` does not save agree. -/
structure UnsavedAgree (r r' : Regs) : Prop where
  ebx : r.ebx = r'.ebx
  ecx : r.ecx = r'.ecx
  edx : r.edx = r'.edx
  esi : r.esi = r'.esi
  edi : r.edi = r'.edi
  ebp : r.ebp = r'.ebp
  eflags : r.eflags = r'.eflags

/-- A stop at the exit syscall of process `pid`. -/
structure IsExitStop (pid : Int) (ev : WaitResult) : Prop where
  rc : ev.rc = pid
  sysc : isSysc ev.status = true
  exit : isExit ev.thread.regs.origEax = true

/-- Thread `i`, found by its pid, is being remapped with the registers of `r`
saved. -/
structure Remapping (k : Kernel) (i : Nat) (pid : Int) (r : Regs) : Prop where
  found : findUthread k pid = some i
  upid : (k.uthreads i).upid = pid
  bound : (k.uthreads i).proc ≠ none
  state : (k.uthreads i).state = .remapping
  hsyscalls : (k.uthreads i).hsyscalls = 1
  eax : (k.uthreads i).mmeax = r.eax
  eip : (k.uthreads i).mmeip = r.eip
  esp : (k.uthreads i).mmesp = r.esp

/-- A state with the same pids and the same descriptor `i` is still remapping it. -/
theorem Remapping.congr {k k' : Kernel} {i : Nat} {pid : Int} {r : Regs}
    (h : Remapping k i pid r) (hAct : k'.actthreads = k.actthreads)
    (hUpid : ∀ j, (k'.uthreads j).upid = (k.uthreads j).upid)
    (hI : k'.uthreads i = k.uthreads i) : Remapping k' i pid r where
  found := by
    rw [findUthread_congr hAct hUpid]
    exact h.found
  upid := by
    rw [hI]
    exact h.upid
  bound := by
    rw [hI]
    exact h.bound
  state := by
    rw [hI]
    exact h.state
  hsyscalls := by
    rw [hI]
    exact h.hsyscalls
  eax := by
    rw [hI]
    exact h.eax
  eip := by
    rw [hI]
    exact h.eip
  esp := by
    rw [hI]
    exact h.esp

theorem handleRemap_frame (k : Kernel) (i : Nat) :
    (handleRemap k i).actthreads = k.actthreads ∧
      (∀ j, ((handleRemap k i).uthreads j).upid = (k.uthreads j).upid) ∧
      ∀ j, j ≠ i → (handleRemap k i).uthreads j = k.uthreads j := by
  cases hExit : isExit (k.peekSys (k.uthreads i).upid) with
  | true =>
    rw [handleRemap_exit hExit]
    refine ⟨rfl, restored_upid, fun j hj => ?_⟩
    simp [restored, hj]
  | false =>
    rw [handleRemap_other hExit]
    exact ⟨rfl, fun _ => rfl, fun _ _ => rfl⟩

/-- Until its exit syscall, no iteration of `kthread_loop` touches the descriptor
of a thread that is being remapped. -/
theorem kthreadIter_remapping {k k' : Kernel} {i : Nat} {pid : Int} {r : Regs}
    {ev : WaitResult} (h : Remapping k i pid r) (hEv : ¬ IsExitStop pid ev)
    (hStep : kthreadIter k ev = .ok k') : Remapping k' i pid r := by
  have hStop : Remapping (k.stopped ev) i pid r := h.congr rfl (fun _ => rfl) rfl
  rcases kthreadIter_cases hStep with rfl |
    ⟨j, hFind, hSysc, -, ⟨-, rfl⟩ | ⟨-, rfl⟩⟩ | ⟨sysno, eip, rfl⟩
  · exact hStop
  · by_cases hij : j = i
    · -- a syscall of the thread itself, but not its exit
      subst hij
      have hRc : ev.rc = pid := by
        rw [← findUthread_upid hFind]
        exact hStop.upid
      have hPeek : (k.stopped ev).peekSys ((k.stopped ev).uthreads j).upid =
          ev.thread.regs.origEax := by
        rw [hStop.upid, ← hRc]
        simp [Kernel.peekSys, Kernel.stopped]
      have hNot : isExit ((k.stopped ev).peekSys ((k.stopped ev).uthreads j).upid) = false := by
        rw [hPeek, ← Bool.not_eq_true]
        exact fun hExit => hEv ⟨hRc, hSysc, hExit⟩
      rw [handleRemap_other hNot]
      exact hStop.congr rfl (fun _ => rfl) rfl
    · -- another thread is remapped beside it
      obtain ⟨hAct, hUpid, hOther⟩ := handleRemap_frame (k.stopped ev) j
      exact hStop.congr hAct hUpid (hOther i (Ne.symm hij))
  · exact hStop.congr rfl (fun _ => rfl) rfl
  · exact hStop.congr rfl (fun _ => rfl) rfl

theorem kthreadLoop_remapping {evs : List WaitResult} {k k' : Kernel} {i : Nat} {pid : Int}
    {r : Regs} (h : Remapping k i pid r) (hEvs : ∀ ev ∈ evs, ¬ IsExitStop pid ev)
    (hRun : kthreadLoop k evs = .ok k') : Remapping k' i pid r := by
  induction evs generalizing k with
  | nil =>
    cases hRun
    exact h
  | cons ev evs ih =>
    rw [kthreadLoop_cons] at hRun
    cases hStep : kthreadIter k ev with
    | error e =>
      rw [hStep] at hRun
      cases hRun
    | ok k1 =>
      rw [hStep] at hRun
      exact ih (kthreadIter_remapping h (hEvs ev (List.mem_cons_self ..)) hStep)
        (fun x hx => hEvs x (List.mem_cons_of_mem _ hx)) hRun

/-- A `umem_remap` that diverts thread `i` leaves it remapping, with its
registers saved. -/
theorem umemRemap_remapping {img : KernelImage} {k k' : Kernel} {i : Nat}
    (hFound : findUthread k (k.uthreads i).upid = some i)
    (hDue : (k.procs k.up).newtlb = true) (hRemap : umemRemap img k i = .ok k') :
    Remapping k' i (k.uthreads i).upid (k.host (k.uthreads i).upid).regs := by
  rcases umemRemap_built hRemap with ⟨hOld, -⟩ | ⟨p, -, hProc, hDiv⟩
  · rw [hDue] at hOld
    cases hOld
  · refine ⟨?_, hDiv.upid i, ?_, ?_, ?_, ?_, ?_, ?_⟩
    · rw [hDiv.findUthread]
      exact hFound
    -- the other fields are those that `umem_remap` wrote
    all_goals rw [hDiv.uthr, Function.update_self]
    rw [hProc]
    simp

/-- What `handle_remap` makes of the registers at the exit stop. -/
theorem kthreadIter_exit {k : Kernel} {i : Nat} {pid : Int} {r : Regs} {ev : WaitResult}
    (h : Remapping k i pid r) (hEv : IsExitStop pid ev) :
    ∃ k', kthreadIter k ev = .ok k' ∧
      (k'.host pid).regs = { ev.thread.regs with
        eax := r.eax, eip := r.eip, esp := r.esp, origEax := 0xFFFFFFFF } ∧
      ∃ tr, k'.trace = tr ++ [.ptraceCont pid 0] := by
  have hStop : Remapping (k.stopped ev) i pid r := h.congr rfl (fun _ => rfl) rfl
  have hPeek : isExit ((k.stopped ev).peekSys ((k.stopped ev).uthreads i).upid) = true := by
    rw [hStop.upid, ← hEv.rc]
    simpa [Kernel.peekSys, Kernel.stopped] using hEv.exit
  refine ⟨handleRemap (k.stopped ev) i, ?_, ?_, ?_⟩
  · -- the stop is a syscall of a thread that is allowed host syscalls
    obtain ⟨p, hp⟩ := Option.ne_none_iff_exists'.mp hStop.bound
    have hSys : isSysc ev.status = true ∧ ((k.stopped ev).uthreads i).hsyscalls ≠ 0 :=
      ⟨hEv.sysc, by rw [hStop.hsyscalls]; decide⟩
    unfold kthreadIter
    rw [hEv.rc]
    simp only [hStop.found, hp, hSys, hStop.state, and_self, if_true, ne_eq, not_false_eq_true]
  · -- three of the registers come from the descriptor, the syscall number is -1
    rw [handleRemap_exit hPeek]
    simp [restored, HostCall.apply, Regs.set, Kernel.stopped, h.upid, h.eax, h.eip, h.esp, hEv.rc]
  · rw [handleRemap_exit hPeek, hStop.upid]
    exact ⟨_, rfl⟩

/-- The registers a diverted thread is resumed on when `kthread_loop` sees its
exit syscall: the saved three, and the rest as `do_maps` left them. -/
theorem remap_resume {img : KernelImage} {k k1 kn : Kernel} {i : Nat} {evs : List WaitResult}
    {ev : WaitResult} (hFound : findUthread k (k.uthreads i).upid = some i)
    (hDue : (k.procs k.up).newtlb = true) (hRemap : umemRemap img k i = .ok k1)
    (hEvs : ∀ e ∈ evs, ¬ IsExitStop (k.uthreads i).upid e)
    (hRun : kthreadLoop k1 evs = .ok kn) (hEv : IsExitStop (k.uthreads i).upid ev) :
    ∃ kf, kthreadIter kn ev = .ok kf ∧
      (kf.host (k.uthreads i).upid).regs = { ev.thread.regs with
        eax := (k.host (k.uthreads i).upid).regs.eax
        eip := (k.host (k.uthreads i).upid).regs.eip
        esp := (k.host (k.uthreads i).upid).regs.esp
        origEax := 0xFFFFFFFF } ∧
      ∃ tr, kf.trace = tr ++ [.ptraceCont (k.uthreads i).upid 0] :=
  kthreadIter_exit
    (kthreadLoop_remapping (umemRemap_remapping hFound hDue hRemap) hEvs hRun) hEv

/-- **When a remap is transparent.** After any run of `kthread_loop` up to the
exit syscall of a diverted thread, the thread is resumed, and the user-visible
register file it is resumed on equals the one it was diverted from if and only
if `do_maps` left EBX, ECX, EDX, ESI, EDI, EBP and EFLAGS as they were. -/
theorem remap_transparent_iff (img : KernelImage) (k k1 kn : Kernel) (i : Nat)
    (evs : List WaitResult) (ev : WaitResult)
    (hFound : findUthread k (k.uthreads i).upid = some i)
    (hDue : (k.procs k.up).newtlb = true) (hRemap : umemRemap img k i = .ok k1)
    (hEvs : ∀ e ∈ evs, ¬ IsExitStop (k.uthreads i).upid e)
    (hRun : kthreadLoop k1 evs = .ok kn) (hEv : IsExitStop (k.uthreads i).upid ev) :
    ∃ kf, kthreadIter kn ev = .ok kf ∧
      (∃ tr, kf.trace = tr ++ [.ptraceCont (k.uthreads i).upid 0]) ∧
      ((kf.host (k.uthreads i).upid).regs.user = (k.host (k.uthreads i).upid).regs.user ↔
        UnsavedAgree ev.thread.regs (k.host (k.uthreads i).upid).regs) := by
  obtain ⟨kf, hStep, hRegs, hTrace⟩ := remap_resume hFound hDue hRemap hEvs hRun hEv
  refine ⟨kf, hStep, hTrace, ?_⟩
  -- the saved registers agree in any case, so the others decide
  rw [hRegs]
  constructor
  · intro h
    simp only [Regs.user, Regs.mk.injEq] at h
    obtain ⟨-, hEbx, hEcx, hEdx, hEsi, hEdi, hEbp, -, -, hEflags, -⟩ := h
    exact ⟨hEbx, hEcx, hEdx, hEsi, hEdi, hEbp, hEflags⟩
  · intro h
    simp only [Regs.user, h.ebx, h.ecx, h.edx, h.esi, h.edi, h.ebp, h.eflags]

/-- A `do_maps` that leaves the unsaved registers alone. -/
theorem remap_transparent_iff_kept :
    ∃ k1 kf, umemRemap smallImage (boundKernel bareProc) 0 = .ok k1 ∧
      kthreadIter k1 (syscallStop 100 { origEax := 252 }) = .ok kf ∧
      (kf.host 100).regs.user = ((boundKernel bareProc).host 100).regs.user := by
  obtain ⟨kf, hStep, -, hIff⟩ := remap_transparent_iff smallImage (boundKernel bareProc) _ _ 0 []
    (syscallStop 100 { origEax := 252 }) rfl rfl rfl (by simp) rfl ⟨rfl, by decide, by decide⟩
  exact ⟨_, kf, rfl, hStep, hIff.mpr ⟨rfl, rfl, rfl, rfl, rfl, rfl, rfl⟩⟩

/-- The first thread of `boundKernel`, with 7 in EBX. -/
def ebxKernel : Kernel :=
  { boundKernel bareProc with
    host := fun _ => { regs := { ebx := 7, eip := UTZERO + 32 }, mem := fun _ => 0 } }

/-- `do_maps` ends in `host_abort(0)`, which passes the exit status 0 to the host
in EBX: a user value of 7 there is lost. -/
theorem remap_loses_ebx :
    ∃ k1 kf, umemRemap smallImage ebxKernel 0 = .ok k1 ∧
      kthreadLoop k1 [syscallStop 100 { ebx := 0, origEax := 252 }] = .ok kf ∧
      (kf.host 100).regs.eip = UTZERO + 32 ∧
      (kf.host 100).regs.user ≠ (ebxKernel.host 100).regs.user :=
  ⟨_, _, rfl, rfl, by decide, by decide⟩

end Glendum
