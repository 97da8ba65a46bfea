import Glendum.Kernel.PageLocks
import Glendum.Kernel.PageRun

/-!
# Glendum — deadlock of the page locks

The locks are taken in the order `palloc`, page, `hashlock`, with one exception
that is safe and one that is not: `duppage` locks a second page while it holds
`palloc`, and `cachedel` locks a page while it holds `hashlock`. A process that is
committed to `hashlock` with a page locked (`Place.committed`) and a `cachedel`
that waits for the same page block each other for good.

* `page_locks_no_deadlock` — in a run in which no step brings these two together,
  no state has a deadlock;
* `newpage_cachedel_deadlock` — the two brought together.
-/

namespace Glendum

open Machine Lists Locks

/-! ## The inversion -/

/-- The pages a process has locked on the way to `uncachepage` or `cachepage`. -/
def After.pages : After → List PageId
  | .newpage _ _ p | .auxpage p | .dupOut p | .caller p => [p]
  | .dupCopy p np => [np, p]

def Fill.pages : Fill → List PageId
  | .dup p np => [np, p]
  | .caller p => [p]

/-- The locked pages that a process does not give back before it has taken
`hashlock`. -/
def Place.committed : Place → List PageId
  | .uncLock c => c.pages
  | .fillLock c _ => c.pages
  | .dupLow p | .dupPage p _ | .dupFilled p _ => [p]
  | .dupUnlock p np => [np, p]
  | _ => []

/-- The page that a `cachedel` waits for with `hashlock` held. -/
def Place.delWaits : Place → Option PageId
  | .delPage _ _ _ f => some f
  | _ => none

variable {T : Type*} [DecidableEq T]

/-- No `cachedel` waits for a page that another process is committed with. -/
def NoInversion (s : PageSys T) : Prop :=
  ∀ t u f, (s.place t).delWaits = some f → u ≠ t → f ∉ (s.place u).committed

/-- The step of `t` from `s` to `s'` does not bring the two together: it does not
make `cachedel` wait for a page that another process is committed with, and it does
not commit `t` with a page that a `cachedel` waits for. -/
structure Clear (s : PageSys T) (t : T) (s' : PageSys T) : Prop where
  wait   : ∀ f, (s'.place t).delWaits = some f → ∀ u, u ≠ t → f ∉ (s.place u).committed
  commit : ∀ f, f ∈ (s'.place t).committed → ∀ u, u ≠ t → (s.place u).delWaits ≠ some f

theorem NoInversion.step {P : Port} {s s' : PageSys T} {t : T} {e : Option Event}
    (h : NoInversion s) (hStep : Step (pageProgram P) EntryAny t s e s') (hClear : Clear s t s') :
    NoInversion s' := by
  intro u v f hWait hne hCommit
  -- the step moves the one that waits, or the one that is committed, or neither
  by_cases hu : u = t
  · subst hu
    rw [hStep.place_of_ne hne] at hCommit
    exact hClear.wait f hWait v hne hCommit
  rw [hStep.place_of_ne hu] at hWait
  by_cases hv : v = t
  · subst hv
    exact hClear.commit f hCommit u hu hWait
  · rw [hStep.place_of_ne hv] at hCommit
    exact h u v f hWait hne hCommit

/-! ## The order of the waits -/

/-- How far a waiting process has come in the order of the locks. -/
def Place.rank : Place → Nat
  | .newPage _ _ _ | .putPage _ | .auxPage _ | .lookPage _ _ _ | .dupLock _ _ | .callUncache _
  | .callCache _ _ _ => 1
  | .dupPage _ _ => 2
  | .lookHash _ _ | .delHash _ _ | .uncLock _ | .fillLock _ _ => 3
  | .delPage _ _ _ _ => 4
  | _ => 0

theorem Place.rank_le (c : Place) : c.rank ≤ 4 := by
  cases c <;> simp [Place.rank]

theorem rank_of_waits_palloc {c : Place} (h : c.act = .acquire .palloc) : c.rank = 0 := by
  cases c <;> simp [Place.act] at h <;> rfl

theorem rank_of_waits_page {c : Place} {p : PageId} (h : c.act = .acquire (.page p)) :
    c.rank = 1 ∨ c.rank = 2 ∧ LockId.palloc ∈ c.holds ∨ c.delWaits = some p := by
  cases c <;> simp [Place.act] at h <;> simp [Place.rank, Place.holds, Place.delWaits, h]

theorem rank_of_waits_hash {c : Place} (h : c.act = .acquire .hash) : c.rank = 3 := by
  cases c <;> simp [Place.act] at h <;> rfl

/-- A process that waits with `palloc` held is past its wait for `palloc`. -/
theorem rank_of_holds_palloc {c : Place} {l : LockId} (h : c.act = .acquire l)
    (hHeld : LockId.palloc ∈ c.holds) : 1 ≤ c.rank := by
  cases c <;> simp [Place.act] at h <;> simp [Place.rank] <;> simp [Place.holds] at hHeld

/-- A process that waits with a page locked is committed with it. -/
theorem committed_of_holds_page {c : Place} {l : LockId} {p : PageId} (h : c.act = .acquire l)
    (hHeld : LockId.page p ∈ c.holds) :
    p ∈ c.committed ∧ (c.rank = 3 ∨ c.rank = 2 ∧ LockId.palloc ∈ c.holds) := by
  -- `duppage` at its copy, and the two ways to `hashlock`, have a page locked
  cases c with
  | dupPage q np =>
    obtain rfl : p = q := by simpa [Place.holds] using hHeld
    exact ⟨List.mem_singleton_self _, Or.inr ⟨rfl, List.mem_cons_self ..⟩⟩
  | uncLock c =>
    refine ⟨?_, Or.inl rfl⟩
    cases c <;> simpa [Place.holds, After.holds, Place.committed, After.pages] using hHeld
  | fillLock c i =>
    refine ⟨?_, Or.inl rfl⟩
    cases c <;> simpa [Place.holds, Fill.holds, Place.committed, Fill.pages] using hHeld
  | _ =>
    first
    | (simp [Place.act] at h; done)
    | simp [Place.holds] at hHeld

/-- Only `cachedel` waits with `hashlock` held. -/
theorem rank_of_holds_hash {c : Place} {l : LockId} (h : c.act = .acquire l)
    (hHeld : LockId.hash ∈ c.holds) : c.rank = 4 := by
  cases c with
  | delPage i d loc f => rfl
  | uncLock c => cases c <;> exact absurd hHeld (by simp [Place.holds, After.holds])
  | fillLock c i => cases c <;> exact absurd hHeld (by simp [Place.holds, Fill.holds])
  | _ =>
    first
    | (simp [Place.act] at h; done)
    | simp [Place.holds] at hHeld

variable {P : Port} {s : PageSys T}

omit [DecidableEq T] in
/-- The rank grows along every wait for a process that waits itself. -/
theorem rank_grows (hLock : LockInv (pageProgram P) s) (hNone : NoInversion s) {t t' t'' : T}
    (hWait : WaitsFor (pageProgram P) s t t') (hNext : WaitsFor (pageProgram P) s t' t'') :
    (s.place t).rank < (s.place t').rank := by
  obtain ⟨l, hAct, hOwner, hne⟩ := hWait
  obtain ⟨l', hAct', -, -⟩ := hNext
  have hHeld : l ∈ (s.place t').holds := (hLock.owner l t').mp hOwner
  -- by the lock that `t` waits for and `t'` has
  cases l with
  | palloc =>
    rw [rank_of_waits_palloc hAct]
    exact rank_of_holds_palloc hAct' hHeld
  | hash =>
    rw [rank_of_waits_hash hAct, rank_of_holds_hash hAct' hHeld]
    omega
  | page p =>
    obtain ⟨hCommit, hRank'⟩ := committed_of_holds_page hAct' hHeld
    rcases rank_of_waits_page hAct with hOne | ⟨hTwo, hPalloc⟩ | hDel
    · rcases hRank' with hThree | ⟨hTwo', -⟩ <;> omega
    · -- two processes cannot both be choosing a copy
      rcases hRank' with hThree | ⟨-, hPalloc'⟩
      · omega
      · exact absurd (hLock.unique hPalloc' hPalloc) hne
    · -- the inversion: a `cachedel` that waits for a page of a committed process
      exact absurd hCommit (hNone t t' p hDel hne)

/-- Steps of the page layer. -/
def AnyStep (P : Port) (s : PageSys T) (e : Option Event) (s' : PageSys T) : Prop :=
  ∃ t, Step (pageProgram P) EntryAny t s e s'

/-- Steps of the page layer that do not bring a `cachedel` and a committed process
together. -/
def ClearStep (P : Port) (s : PageSys T) (e : Option Event) (s' : PageSys T) : Prop :=
  ∃ t, Step (pageProgram P) EntryAny t s e s' ∧ Clear s t s'

/-- **Freedom from deadlock.** Any number of processes start at rest and make the
calls of the page layer, in any order at their lock operations. While no step brings
a `cachedel` that holds `hashlock` and waits for a page together with another process
that is committed with the page, no set of processes is ever deadlocked. -/
theorem page_locks_no_deadlock {s0 : PageSys T} {es : List Event} (hQuiet : Quiet s0)
    (hRun : Run (ClearStep P) s0 es s) (ts : Set T) : ¬ Deadlocked (pageProgram P) s ts := by
  have hInv : LockInv (pageProgram P) s ∧ NoInversion s := by
    refine hRun.invariant (I := fun _ s => LockInv (pageProgram P) s ∧ NoInversion s) ?_ ?_
    · refine ⟨hQuiet.lockInv, ?_⟩
      intro t u f hWait
      rw [hQuiet.place] at hWait
      cases hWait
    · rintro es s e s' ⟨hLock, hNone⟩ ⟨t, hStep, hClear⟩
      exact ⟨hLock.step (pageProgram_sound P) hStep, hNone.step hStep hClear⟩
  -- a deadlock would have waits that go on for ever, and the rank is at most 4
  exact not_deadlocked (fun t => (s.place t).rank) 4 (fun t => (s.place t).rank_le)
    (fun t t' t'' => rank_grows hInv.1 hInv.2) ts

/-! ## The deadlock -/

/-- A pool of three pages, all taken; page 0 is cached and given back. -/
def cachedFree : Palloc :=
  ((((smallPool 3).stepTo takePage).stepTo takePage).stepTo takePage).stepTo
    (.cachepage 0 0 0x1000) |>.stepTo (.putpage (.page 0))

theorem cachedFree_run : ∃ es held, PageRun smallPort (smallPool 3) es cachedFree held := by
  have hRun1 := PageRun.start.next (n := 3) takePage (.page 0) trivial (by decide +kernel)
  have hRun2 := hRun1.next takePage (.page 1) trivial (by decide +kernel)
  have hRun3 := hRun2.next takePage (.page 2) trivial (by decide +kernel)
  have hRun4 := hRun3.next (.cachepage 0 0 0x1000) .done
    ⟨by decide +kernel, by decide +kernel, by decide +kernel⟩ (by decide +kernel)
  have hRun5 := hRun4.next (.putpage (.page 0)) .done
    (show 0 < _ from by decide +kernel) (by decide +kernel)
  exact ⟨_, _, hRun5⟩

/-- All processes at rest. -/
def restSys (k : Palloc) : PageSys Nat where
  shared := k
  owner _ := none
  place _ := .idle

theorem restSys_quiet (k : Palloc) : Quiet (restSys k) := ⟨fun _ => rfl, fun _ => rfl⟩

def plainArgs : NewArgs := { kp := false, clear := false, seg := false, va := 0x5000 }

/-- Process 0 runs `newpage` up to its lock of page 0. -/
def newpageHalf : PageSys Nat :=
  let s1 := (restSys cachedFree).goto 0 (.newLock plainArgs)
  s1.run (pageProgram smallPort) 0 (Function.update s1.owner .palloc (some 0))

/-- Then it locks the page, and waits for `hashlock` to uncache it. -/
def newpageWaits : PageSys Nat :=
  newpageHalf.run (pageProgram smallPort) 0 (Function.update newpageHalf.owner (.page 0) (some 0))

/-- Process 1 runs `cachedel` on the key of the page, and waits for the page. -/
def bothWait : PageSys Nat :=
  let s1 := newpageWaits.goto 1 (.delHash 0 0x1000)
  s1.run (pageProgram smallPort) 1 (Function.update s1.owner .hash (some 1))

/-- Process 1 runs `lookpage` on the same key instead, and has `hashlock`. -/
def lookHolds : PageSys Nat :=
  let s1 := newpageWaits.goto 1 (.lookHash 0 0x1000)
  s1.run (pageProgram smallPort) 1 (Function.update s1.owner .hash (some 1))

/-- A step to a place that is neither committed nor a wait of `cachedel`. -/
theorem clear_of_free {t : Nat} (s s' : PageSys Nat) (hCommit : (s'.place t).committed = [])
    (hWait : (s'.place t).delWaits = none) : Clear s t s' := by
  refine ⟨fun f hf => ?_, fun f hf => ?_⟩
  · simp [hWait] at hf
  · simp [hCommit] at hf

theorem newpageHalf_run : Run (ClearStep smallPort) (restSys cachedFree) [] newpageHalf := by
  have hRun0 : Run (ClearStep smallPort) (restSys cachedFree) [] (restSys cachedFree) := .start
  have hRun1 := hRun0.step ⟨0, .begin (c := .newLock plainArgs) rfl (.of (.newpage plainArgs)),
    clear_of_free _ _ rfl rfl⟩
  exact hRun1.step ⟨0, .take (l := .palloc) (Or.inl rfl) rfl,
    clear_of_free _ _ (by decide +kernel) (by decide +kernel)⟩

/-- Process 0 commits itself with page 0 while no other process is in a call. -/
theorem newpageWaits_run : Run (ClearStep smallPort) (restSys cachedFree) [] newpageWaits := by
  refine newpageHalf_run.step (e := none) ⟨0, .take (l := LockId.page 0) (by decide +kernel)
    (by decide +kernel), fun f hf => ?_, fun f _ u hu => ?_⟩
  · have hNone : (newpageWaits.place 0).delWaits = none := by decide +kernel
    exact absurd (hNone.symm.trans hf) (Option.some_ne_none f).symm
  · have hIdle : newpageHalf.place u = .idle :=
      (Function.update_of_ne hu _ _).trans (Function.update_of_ne hu _ _)
    rw [hIdle]
    exact (Option.some_ne_none f).symm

theorem lookHolds_run : Run (ClearStep smallPort) (restSys cachedFree) [] lookHolds := by
  have hRun3 := newpageWaits_run.step ⟨1, .begin (c := .lookHash 0 0x1000) rfl (.of (.lookpage ..)),
    clear_of_free _ _ rfl rfl⟩
  exact hRun3.step (e := none) ⟨1, .take (l := LockId.hash) (by decide +kernel) (by decide +kernel),
    clear_of_free _ _ (by decide +kernel) (by decide +kernel)⟩

/-- `newpage` has `palloc` and page 0 locked and waits for the `hashlock` that `lookpage`
has. -/
theorem page_locks_no_deadlock_contended :
    Run (ClearStep smallPort) (restSys cachedFree) [] lookHolds ∧
    (pageProgram smallPort).act (lookHolds.place 0) = .acquire .hash ∧
    lookHolds.owner .hash = some 1 ∧ lookHolds.owner (.page 0) = some 0 ∧
    ¬ Deadlocked (pageProgram smallPort) lookHolds {0, 1} :=
  ⟨lookHolds_run, by decide +kernel, by decide +kernel, by decide +kernel,
    page_locks_no_deadlock (restSys_quiet _) lookHolds_run {0, 1}⟩

/-- `newpage` has the cached page 0 locked and waits for `hashlock`; `cachedel` has
`hashlock` and waits for page 0. -/
theorem newpage_cachedel_deadlock :
    (∃ es held, PageRun smallPort (smallPool 3) es cachedFree held) ∧
    ∃ s : PageSys Nat, Run (AnyStep smallPort) (restSys cachedFree) [] s ∧
      Deadlocked (pageProgram smallPort) s {0, 1} := by
  have hRun3 : Run (AnyStep smallPort) (restSys cachedFree) [] newpageWaits :=
    newpageWaits_run.mono fun _ _ _ h => ⟨h.choose, h.choose_spec.1⟩
  have hRun4 := hRun3.step ⟨1, .begin (c := .delHash 0 0x1000) rfl (.of (.cachedel ..))⟩
  have hRun5 : Run (AnyStep smallPort) (restSys cachedFree) [] bothWait := hRun4.step (e := none)
    ⟨1, .take (l := LockId.hash) (by decide +kernel) (by decide +kernel)⟩
  -- each of the two waits for the lock that the other has
  refine ⟨cachedFree_run, bothWait, hRun5, ⟨0, by simp⟩, ?_⟩
  intro t ht
  rcases ht with rfl | rfl
  · exact ⟨1, by simp, LockId.hash, by decide +kernel, by decide +kernel, by decide⟩
  · exact ⟨0, by simp, LockId.page 0, by decide +kernel, by decide +kernel, by decide⟩

end Glendum
